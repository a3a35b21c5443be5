import Sol7.Inet.IpReassSpec

/-!
# IP Reassembly Declares a Datagram Complete

In every run, whatever the order of the fragments, their overlaps and their
mblks, the queue is sorted and apart, and `ipf_tail_mp` is its last mblk.

The datagram is declared complete when the hole count is 0, and the count can go
wrong when the last fragment arrives. Two mblks of a last fragment behind a gap
take the hole at the end away, though the gap is still there. A last fragment
that covers queued pieces takes one hole away for each of them. In the runs in
which no last fragment lies like that, the datagram is declared complete when it
is, and not before.

## Main definitions

* `IpReass.Tidy`: How a fragment has to lie to what is queued.
* `Outcome`: What a fragment that arrives can come to.
* `Shape`, `Counted`: The queue, and the hole count.

## Theorems

* `arrive_outcome`: What a fragment that arrives comes to.
* `ipReass_sorted`: The queue, in every run.
* `ipReass_exact`: The datagram is declared complete exactly when it is.
-/

namespace Sol7.Inet

open List Option IpReass IpPiece Spans

/-! ### One fragment -/

theorem harden_stop (q : Ipf) : q.harden.stop = 0 := by
  unfold Ipf.harden
  by_cases h : q.stop ≠ 0
  · rw [if_pos h]
  · rw [if_neg h]
    omega

theorem harden_of_stop {q : Ipf} (h : q.stop = 0) : q.harden = q := by
  unfold Ipf.harden
  rw [if_neg (not_not.mpr h)]

theorem addrs_harden (q : Ipf) : addrs q.harden.mps = addrs q.mps := by
  unfold Ipf.harden
  by_cases h : q.stop ≠ 0
  · rw [if_pos h]
    exact addrs_markPieces q.mps 0
  · rw [if_neg h]

theorem addrs_unmarked (mps : List Mblk) : addrs (mps.map unmarked) = mps.map Mblk.addr := by
  rw [addrs, List.map_map]
  rfl

theorem queued_empty : Queued ⟨[], none, 0, 0⟩ := ⟨Spans.InOrder.nil, rfl, nodup_nil⟩

/-- What a fragment that arrives can come to: the queue is in order and the
    fragment was the next one; it was the next one and the last; or it went
    through `ip_reassemble`, from a queue that was empty or is a hard case now. -/
inductive Outcome (size : Nat) (s : IpReass) (f : Fragment) (s' : IpReass) : Prop
  | easy (q : Ipf) (mp : IpPiece) (mps : List IpPiece) (hipf : s'.ipf = some q)
      (hdone : s'.done = false) (heasy : Easy size q mp mps) (hstop : q.stop = f.stop)
      (hprev : (s.ipf = none ∧ f.offset = 0) ∨
        ∃ ipf, s.ipf = some ipf ∧ f.offset ≠ 0 ∧ ipf.stop = f.offset)
  | last (ipf : Ipf) (hprev : s.ipf = some ipf) (hoff : f.offset ≠ 0)
      (hnext : ipf.stop = f.offset) (hipf : s'.ipf = none) (hdone : s'.done = true)
      (hmore : f.more = false)
  | hard (q0 q : Ipf)
      (hprev : (s.ipf = none ∧ f.offset ≠ 0 ∧ q0.mps = []) ∨
        ∃ ipf, s.ipf = some ipf ∧ ¬(f.offset ≠ 0 ∧ ipf.stop = f.offset) ∧ q0 = ipf.harden)
      (hadd : Added size f.offset f.stop q0 q (Steady f.offset f.strip f.more q0.mps))
      (hstop : q.stop = 0)
      (hres : (s'.ipf = some q ∧ s'.done = false ∧ (s.ipf = none ∨ q.holeCnt ≠ 0)) ∨
        (s'.ipf = none ∧ s'.done = true ∧ q.holeCnt = 0))

/-- What is true of the queue of a datagram in every run. -/
structure Shape (size : Nat) (s : IpReass) : Prop where
  frags : ∀ f ∈ s.got, IpReass.OfDatagram size f ∧ f.offset < f.stop
  idle : s.ipf = none → s.done = false → s.got = []
  easy : ∀ ipf, s.ipf = some ipf → ipf.stop ≠ 0 → ∃ mp mps, Easy size ipf mp mps
  queued : ∀ ipf, s.ipf = some ipf → Queued ipf.harden
  ne_nil : ∀ ipf, s.ipf = some ipf → ipf.harden.mps ≠ []
  has : ∀ ipf, s.ipf = some ipf → ∀ x, s.Received x ↔ Has ipf.harden.mps x

section
variable {size : Nat} {s : IpReass} {f : Fragment}

/-- The first fragment is the first to arrive. -/
theorem newIpf_first (hw : s.Whole f) (hd : IpReass.OfDatagram size f) (hoff : f.offset = 0) :
    ∃ q mp mps, newIpf f = some q ∧ Easy size q mp mps ∧ q.stop = f.stop := by
  obtain ⟨mp, mps, hparts⟩ := hw.parts
  have hstop := hparts.stop
  have hhdr := hparts.header
  have hstrip := hparts.strip
  rw [if_neg (not_not.mpr hoff)] at hstrip
  unfold newIpf
  rw [if_pos hoff, hstrip]
  refine ⟨_, unmarked mp, mps.map unmarked, rfl, ⟨rfl, hhdr, ?_, ?_, rfl, ?_, ?_⟩, rfl⟩
  · intro p hp
    obtain ⟨m, hm, rfl⟩ := mem_map.mp hp
    exact hparts.data m hm
  · change f.stop + hdrLength mp.data = dataLen ((mp :: mps).map unmarked)
    rw [dataLen_unmarked, msgdsize_cons]
    omega
  · rw [addrs_unmarked]
    exact hparts.nodup
  · exact hd.more_iff.mp (hd.more_of_first hoff)

/-- A fragment that is the next one is linked behind the tail. -/
theorem Easy.link {ipf : Ipf} {mp : IpPiece} {mps : List IpPiece} (h : Easy size ipf mp mps)
    (hw : s.Whole f) (hipf : s.ipf = some ipf) (hd : IpReass.OfDatagram size f)
    (hmore : f.more = true) (hoff : f.offset ≠ 0) (hnext : ipf.stop = f.offset) :
    ∃ t, ipf.tail = some t ∧ Easy size
      { ipf with
        mps := Spans.linkAfter addr t (f.strip.map unmarked) ipf.mps, stop := f.stop
        tail := lastKey addr (f.strip.map unmarked) } mp (mps ++ f.strip.map unmarked) := by
  obtain ⟨mp0, rest, hparts⟩ := hw.parts
  obtain ⟨hdata, haddrs, hstop⟩ := hparts.strip_later hoff
  have hne : f.strip ≠ [] := by
    rw [hparts.strip, if_pos hoff]
    exact cons_ne_nil _ _
  rcases eq_nil_or_concat' ipf.mps with hnil | ⟨qs, q, hqs⟩
  · rw [h.mps] at hnil
    cases hnil
  have htail := h.tail
  have hnd := h.nodup
  rw [hqs] at htail hnd
  rw [Spans.lastKey_concat] at htail
  have hlink : Spans.linkAfter addr q.addr (f.strip.map unmarked) ipf.mps =
      ipf.mps ++ f.strip.map unmarked := by
    rw [hqs]
    exact linkAfter_last _ hnd
  refine ⟨q.addr, htail, ?_, h.header, ?_, ?_, ?_, ?_, hd.more_iff.mp hmore⟩
  · rw [hlink, h.mps, cons_append]
  · intro p hp
    rcases mem_append.mp hp with hp | hp
    · exact h.data p hp
    · obtain ⟨m, hm, rfl⟩ := mem_map.mp hp
      exact hdata m hm
  · change f.stop + _ = dataLen (Spans.linkAfter _ _ _ _)
    have := h.stop
    rw [hlink, dataLen_append, dataLen_unmarked]
    omega
  · rw [hlink]
    unfold lastKey
    rw [getLast?_append_of_ne_nil _ (by rw [ne_eq, map_eq_nil_iff]; exact hne)]
  · rw [hlink, addrs, map_append]
    refine nodup_append.mpr ⟨h.nodup, ?_, ?_⟩
    · change (addrs (f.strip.map unmarked)).Nodup
      rw [addrs_unmarked, haddrs]
      exact hw.addrs
    intro a ha b hb hab
    change b ∈ addrs (f.strip.map unmarked) at hb
    rw [addrs_unmarked, haddrs] at hb
    obtain ⟨p, hp, hpa⟩ := mem_map.mp ha
    obtain ⟨m, hm, hmb⟩ := mem_map.mp hb
    refine hw.fresh m hm p ?_ (by rw [hmb, hpa, hab])
    rw [queue, hipf]
    exact hp

/-- What a fragment that arrives comes to. No nil pointer is followed. -/
theorem arrive_outcome (h : Shape size s) (hw : s.Whole f) (hd : IpReass.OfDatagram size f) :
    ∃ s', s.arrive f = some s' ∧ s'.got = f :: s.got ∧ Outcome size s f s' := by
  obtain ⟨mp, mps, hparts⟩ := hw.parts
  have hdata : f.iphaLength - f.hdrLen ≠ 0 := by
    have := hparts.lt
    unfold Fragment.stop at this
    omega
  unfold arrive
  rw [if_neg hdata]
  unfold fragmentPath
  cases hipf : s.ipf with
  | none =>
    by_cases hoff : f.offset = 0
    · obtain ⟨q, mp, mps, heq, heasy, hstop⟩ := newIpf_first hw hd hoff
      simp only [heq, map_some]
      exact ⟨_, rfl, rfl, .easy q mp mps rfl rfl heasy hstop (.inl ⟨hipf, hoff⟩)⟩
    obtain ⟨q, heq, hadd⟩ := reassemble_ok hw hd queued_empty (fun h => absurd h hoff) nofun
    have hnew : newIpf f = some q := by
      unfold newIpf Ipf.ipReassemble
      rw [if_neg hoff, harden_of_stop rfl, heq]
      rfl
    simp only [hnew, map_some]
    exact ⟨_, rfl, rfl, .hard _ q (.inl ⟨hipf, hoff, rfl⟩) hadd hadd.stop
      (.inl ⟨rfl, rfl, .inl hipf⟩)⟩
  | some ipf =>
    by_cases hnext : f.offset ≠ 0 ∧ ipf.stop = f.offset
    · obtain ⟨mp, mps, heasy⟩ := h.easy ipf hipf (by rw [hnext.2]; exact hnext.1)
      simp only [if_pos hnext]
      cases hmore : f.more with
      | true =>
        obtain ⟨t, htail, heasy'⟩ := heasy.link hw hipf hd hmore hnext.1 hnext.2
        simp only [htail, map_some, if_true]
        exact ⟨_, rfl, rfl, .easy _ mp _ rfl rfl heasy' rfl (.inr ⟨ipf, hipf, hnext⟩)⟩
      | false =>
        have htail : ∃ t, ipf.tail = some t := by
          rw [heasy.tail, heasy.mps]
          exact ⟨_, rfl⟩
        obtain ⟨t, htail⟩ := htail
        simp only [htail, map_some, Bool.false_eq_true, if_false]
        exact ⟨_, rfl, rfl, .last ipf hipf hnext.1 hnext.2 rfl rfl hmore⟩
    · have hfresh : ∀ m ∈ f.mps, m.addr ∉ addrs ipf.harden.mps := by
        intro m hm hin
        rw [addrs_harden] at hin
        obtain ⟨p, hp, heq⟩ := mem_map.mp hin
        refine hw.fresh m hm p ?_ heq.symm
        rw [queue, hipf]
        exact hp
      rcases reassemble_ok hw hd (h.queued ipf hipf) (fun _ => h.ne_nil ipf hipf) hfresh
        with ⟨q, heq, hadd⟩
      simp only [if_neg hnext, Ipf.ipReassemble, heq, map_some]
      have hstop : q.stop = 0 := hadd.stop.trans (harden_stop ipf)
      by_cases hzero : q.holeCnt = 0
      · simp only [hzero, decide_true, if_true]
        exact ⟨_, rfl, rfl, .hard _ q (.inr ⟨ipf, hipf, hnext, rfl⟩) hadd hstop
          (.inr ⟨rfl, rfl, hzero⟩)⟩
      · simp only [hzero, decide_false, Bool.false_eq_true, if_false]
        exact ⟨_, rfl, rfl, .hard _ q (.inr ⟨ipf, hipf, hnext, rfl⟩) hadd hstop
          (.inl ⟨rfl, rfl, .inr hzero⟩)⟩

end

/-! ### Runs -/

section
variable {size : Nat} {s s' : IpReass} {f : Fragment}

theorem received_cons (hgot : s'.got = f :: s.got) (x : Nat) :
    s'.Received x ↔ s.Received x ∨ (f.offset ≤ x ∧ x < f.stop) := by
  unfold IpReass.Received
  rw [hgot, exists_mem_cons_iff, or_comm]

theorem not_received (hgot : s.got = []) (x : Nat) : ¬s.Received x := by
  rintro ⟨f, hf, -⟩
  rw [hgot] at hf
  cases hf

/-- A queue that is not complete. -/
theorem Shape.of_some {q : Ipf}
    (hfrags : ∀ f ∈ s.got, IpReass.OfDatagram size f ∧ f.offset < f.stop) (hipf : s.ipf = some q)
    (hdone : s.done = false) (heasy : q.stop ≠ 0 → ∃ mp mps, Easy size q mp mps)
    (hq : Queued q.harden) (hne : q.harden.mps ≠ [])
    (hhas : ∀ x, s.Received x ↔ Has q.harden.mps x) : Shape size s := by
  refine ⟨hfrags, ?_, ?_, ?_, ?_, ?_⟩
  all_goals simp only [hipf, hdone]
  all_goals simp
  all_goals assumption

/-- The datagram is complete. -/
theorem Shape.of_none (hfrags : ∀ f ∈ s.got, IpReass.OfDatagram size f ∧ f.offset < f.stop)
    (hipf : s.ipf = none) (hdone : s.done = true) : Shape size s := by
  refine ⟨hfrags, ?_, ?_, ?_, ?_, ?_⟩
  all_goals simp [hipf, hdone]

/-- What was received is on the queue that a fragment was added to. -/
theorem Shape.received_added {q0 q : Ipf} {steady : Prop} (h : Shape size s)
    (hopen : s.done = false) (hgot : s'.got = f :: s.got)
    (hprev : (s.ipf = none ∧ f.offset ≠ 0 ∧ q0.mps = []) ∨
      ∃ ipf, s.ipf = some ipf ∧ ¬(f.offset ≠ 0 ∧ ipf.stop = f.offset) ∧ q0 = ipf.harden)
    (hadd : Added size f.offset f.stop q0 q steady) (x : Nat) : s'.Received x ↔ Has q.mps x := by
  rw [received_cons hgot, hadd.covers]
  rcases hprev with ⟨hnone, -, hnil⟩ | ⟨ipf, hsome, -, rfl⟩
  · rw [hnil]
    simp only [not_received (h.idle hnone hopen) x, has_nil]
  · rw [h.has ipf hsome]

theorem Shape.step (h : Shape size s) (hopen : s.done = false) (hd : IpReass.OfDatagram size f)
    (hlt : f.offset < f.stop) (hgot : s'.got = f :: s.got) (ho : Outcome size s f s') :
    Shape size s' := by
  have hfrags : ∀ g ∈ s'.got, IpReass.OfDatagram size g ∧ g.offset < g.stop := by
    rw [hgot]
    exact forall_mem_cons.mpr ⟨⟨hd, hlt⟩, h.frags⟩
  cases ho with
  | easy q mp mps hipf hdone heasy hstop hprev =>
    obtain ⟨hq, hne, hhas, -, -⟩ := heasy.harden
    refine .of_some hfrags hipf hdone (fun _ => ⟨mp, mps, heasy⟩) hq hne fun x => ?_
    rw [received_cons hgot, hhas]
    rcases hprev with ⟨hnone, hoff⟩ | ⟨ipf, hsome, hoff, hnext⟩
    · have := not_received (h.idle hnone hopen) x
      simp only [this, false_or]
      omega
    · obtain ⟨mp', mps', heasy'⟩ := h.easy ipf hsome (by rw [hnext]; exact hoff)
      rw [h.has ipf hsome, heasy'.harden.2.2.1]
      omega
  | last ipf hprev hoff hnext hipf hdone hmore => exact .of_none hfrags hipf hdone
  | hard q0 q hprev hadd hstop hres =>
    rcases hres with ⟨hipf, hdone, -⟩ | ⟨hipf, hdone, -⟩
    · have hq := harden_of_stop hstop
      refine .of_some hfrags hipf hdone (absurd hstop) ?_ ?_ ?_
      all_goals rw [hq]
      · exact hadd.queued
      · exact hadd.ne_nil hlt
      · exact h.received_added hopen hgot hprev hadd
    · exact .of_none hfrags hipf hdone

/-- The pieces that a fragment finds on the queue. -/
def IpReass.pieces (s : IpReass) : List IpPiece := (s.ipf.map fun q => q.harden.mps).getD []

/-- A fragment is the next one of a queue in order. -/
def IpReass.Next (s : IpReass) (f : Fragment) : Prop :=
  f.offset ≠ 0 ∧ s.ipf.map Ipf.stop = some f.offset

/-- How a fragment has to lie to what is queued: it is the next one in order, or
    its mblks lie as they should. -/
def IpReass.Tidy (s : IpReass) (f : Fragment) : Prop :=
  s.Next f ∨ Steady f.offset f.strip f.more s.pieces

instance (s : IpReass) (f : Fragment) : Decidable (s.Next f) := inferInstanceAs (Decidable (_ ∧ _))

instance (s : IpReass) (f : Fragment) : Decidable (s.Tidy f) := inferInstanceAs (Decidable (_ ∨ _))

/-- The hole count is right, and it is 0 when the datagram is complete. -/
structure Counted (size : Nat) (s : IpReass) : Prop where
  cnt : ∀ ipf, s.ipf = some ipf → ipf.harden.holeCnt = holeCount size 0 ipf.harden.mps
  pos : ∀ ipf, s.ipf = some ipf → ipf.harden.holeCnt ≠ 0
  closed : s.done = true → s.got ≠ [] ∧ ∀ x < size, s.Received x

/-- No holes in a queue means that the datagram has been received. -/
theorem holeCount_eq_zero {q : Ipf} (hq : Queued q) {P : Nat → Prop}
    (hhas : ∀ x, P x ↔ Has q.mps x) (hP : ∀ x, P x → x < size) :
    holeCount size 0 q.mps = 0 ↔ ∀ x < size, P x := by
  have hle : ∀ p ∈ q.mps, p.stop ≤ size := by
    intro p hp
    have hlt := hq.ordered.nonempty p hp
    have := hP (p.stop - 1) ((hhas _).mpr ⟨p, hp, by omega, by omega⟩)
    omega
  rw [holes_eq_zero_iff hq.ordered hle 0 zero_le fun p _ => zero_le]
  constructor
  · intro h x hx
    exact (hhas x).mpr (h x zero_le hx)
  · intro h x _ hx
    exact (hhas x).mp (h x hx)

theorem Shape.received_lt (h : Shape size s) (x : Nat) (hx : s.Received x) : x < size := by
  obtain ⟨f, hf, -, hlt⟩ := hx
  have := (h.frags f hf).1.stop_le
  omega

/-- A fragment that lies as it should leaves the hole count right. -/
theorem Counted.of_some {q : Ipf} (hipf : s.ipf = some q) (hdone : s.done = false)
    (hcnt : q.harden.holeCnt = holeCount size 0 q.harden.mps) (hpos : q.harden.holeCnt ≠ 0) :
    Counted size s := by
  constructor <;> simp [hipf, hdone]
  all_goals assumption

theorem Counted.of_none (hipf : s.ipf = none) (hne : s.got ≠ [])
    (hall : ∀ x < size, s.Received x) : Counted size s := by
  constructor <;> simp [hipf]
  exact fun _ => ⟨hne, hall⟩

theorem Counted.step (hc : Counted size s) (h : Shape size s) (h' : Shape size s')
    (hopen : s.done = false) (hd : IpReass.OfDatagram size f) (ht : s.Tidy f)
    (hgot : s'.got = f :: s.got) (ho : Outcome size s f s') : Counted size s' := by
  have hrec := received_cons hgot
  have hne : s'.got ≠ [] := by
    rw [hgot]
    exact cons_ne_nil _ _
  cases ho with
  | easy q mp mps hipf hdone heasy hstop hprev =>
    obtain ⟨-, -, -, hone, hcount⟩ := heasy.harden
    refine .of_some hipf hdone ?_ ?_
    · rw [hone, hcount]
    · omega
  | last ipf hprev hoff hnext hipf hdone hmore =>
    refine .of_none hipf hne fun x hx => ?_
    have hstop := hd.stop_eq hmore
    obtain ⟨mp, mps, heasy⟩ := h.easy ipf hprev (by rw [hnext]; exact hoff)
    rw [hrec, h.has ipf hprev, heasy.harden.2.2.1]
    omega
  | hard q0 q hprev hadd hstop hres =>
    have hpieces : q0.mps = s.pieces := by
      unfold pieces
      rcases hprev with ⟨hnone, -, hnil⟩ | ⟨ipf, hsome, -, rfl⟩
      · rw [hnone, hnil]
        rfl
      · rw [hsome]
        rfl
    have hsteady : Steady f.offset f.strip f.more q0.mps := by
      rw [hpieces]
      rcases ht with ⟨hoff, hnext⟩ | ht
      · rcases hprev with ⟨hnone, -, -⟩ | ⟨ipf, hsome, hno, -⟩
        · rw [hnone] at hnext
          cases hnext
        · rw [hsome, map_some, some.injEq] at hnext
          exact absurd ⟨hoff, hnext⟩ hno
      · exact ht
    have hold : q0.mps ≠ [] → q0.holeCnt = holeCount size 0 q0.mps := by
      intro hne
      rcases hprev with ⟨-, -, hnil⟩ | ⟨ipf, hsome, -, rfl⟩
      · exact absurd hnil hne
      · exact hc.cnt ipf hsome
    have hhas := h.received_added hopen hgot hprev hadd
    have hzero := holeCount_eq_zero hadd.queued hhas h'.received_lt
    have hlt := (h'.frags f (hgot ▸ mem_cons_self)).2
    have hcnt := hadd.count hsteady hold (hadd.ne_nil hlt)
    rcases hres with ⟨hipf, hdone, hpos⟩ | ⟨hipf, hdone, hpos⟩
    · have hq := harden_of_stop hstop
      refine .of_some hipf hdone ?_ ?_
      all_goals rw [hq]
      · exact hcnt
      rcases hpos with hnone | hpos
      · -- The first to arrive does not start the datagram.
        rcases hprev with ⟨-, hoff, -⟩ | ⟨ipf, hsome, -⟩
        · intro h0
          rw [hcnt, hzero] at h0
          have hle := hd.stop_le
          rcases (hrec 0).mp (h0 0 (by omega)) with h0 | h0
          · exact not_received (h.idle hnone hopen) 0 h0
          · omega
        · rw [hnone] at hsome
          cases hsome
      · exact hpos
    · rw [hcnt, hzero] at hpos
      exact .of_none hipf hne hpos

theorem step_outcome (h : Shape size s) (hs : (ipReass size).step s f = some s') :
    s.done = false ∧ s.Whole f ∧ IpReass.OfDatagram size f ∧ s'.got = f :: s.got ∧
      Outcome size s f s' := by
  change (if _ then s.arrive f else none) = some s' at hs
  split at hs
  · next hguard =>
    obtain ⟨hopen, hw, hd⟩ := hguard
    obtain ⟨t, ht, hgot, ho⟩ := arrive_outcome h hw hd
    obtain rfl : t = s' := some.inj (ht.symm.trans hs)
    exact ⟨hopen, hw, hd, hgot, ho⟩
  · cases hs

theorem shape_init (hs : (ipReass size).init s) : Shape size s := by
  obtain ⟨hipf, hdone, hgot⟩ := hs
  constructor <;> simp [hipf, hgot]

theorem counted_init (hs : (ipReass size).init s) : Counted size s := by
  obtain ⟨hipf, hdone, -⟩ := hs
  constructor <;> simp [hipf, hdone]

theorem Shape.of_step (h : Shape size s) (hs : (ipReass size).step s f = some s') :
    Shape size s' := by
  obtain ⟨hopen, hw, hd, hgot, ho⟩ := step_outcome h hs
  obtain ⟨mp, mps, hparts⟩ := hw.parts
  exact h.step hopen hd hparts.lt hgot ho

/-- The queue of a datagram: its pieces are in order and apart, and the tail
    pointer leads to the last one. -/
theorem Shape.sorted (h : Shape size s) {ipf : Ipf} (hipf : s.ipf = some ipf) :
    Ordered ipf.harden.mps ∧ ipf.tail = lastKey addr ipf.harden.mps := by
  have hq := h.queued ipf hipf
  refine ⟨hq.ordered, ?_⟩
  rw [← hq.tail]
  unfold Ipf.harden
  split <;> rfl

/-- With a right hole count, the datagram is declared complete when it is. -/
theorem Counted.done_iff (hc : Counted size s) (h : Shape size s) : s.done = true ↔ s.Complete := by
  constructor
  · intro hdone
    obtain ⟨hne, hall⟩ := hc.closed hdone
    obtain ⟨g, gs, hg⟩ := exists_cons_of_ne_nil hne
    have hpos := h.frags g (hg ▸ mem_cons_self)
    have hle := hpos.1.stop_le
    -- The last byte comes with a fragment that ends the datagram.
    obtain ⟨f, hf, -, hx⟩ := hall (size - 1) (by omega)
    have hd := (h.frags f hf).1
    have hstop : f.stop = size := by
      have := hd.stop_le
      omega
    refine ⟨f, hf, ?_, by rw [hstop]; exact hall⟩
    cases hmore : f.more with
    | true =>
      have := hd.more_iff.mp hmore
      omega
    | false => rfl
  · rintro ⟨last, hlast, hmore, hall⟩
    have hd := (h.frags last hlast).1
    rw [hd.stop_eq hmore] at hall
    cases hdone : s.done with
    | true => rfl
    | false =>
      cases hipf : s.ipf with
      | none =>
        rw [h.idle hipf hdone] at hlast
        cases hlast
      | some ipf =>
        have hzero := (holeCount_eq_zero (h.queued ipf hipf) (h.has ipf hipf) h.received_lt).mpr hall
        exact absurd ((hc.cnt ipf hipf).trans hzero) (hc.pos ipf hipf)

end

/-! ### Main results -/

/-- In every run, whatever fragments of the datagram arrive: none is refused for
    the state of the queue, the pieces on the queue are in order and apart, and
    `ipf_tail_mp` is the last of them. -/
theorem ipReass_sorted (size : Nat) (s : IpReass) (hr : (ipReass size).Reachable s) :
    (∀ ipf, s.ipf = some ipf →
      Ordered ipf.harden.mps ∧ ipf.tail = lastKey addr ipf.harden.mps) ∧
    ∀ f, s.done = false → s.Whole f → IpReass.OfDatagram size f →
      ((ipReass size).step s f).isSome := by
  have h : Shape size s := System.Reachable.invariant (ipReass size) (Shape size)
    (fun s hs => shape_init hs) (fun s s' f h hs => h.of_step hs) s hr
  refine ⟨fun ipf hipf => h.sorted hipf, ?_⟩
  intro f hopen hw hd
  obtain ⟨s', hs', -⟩ := arrive_outcome h hw hd
  change (if _ then s.arrive f else none).isSome
  rw [if_pos ⟨hopen, hw, hd⟩, hs']
  rfl

/-- In every run whose fragments all lie to the queue as they should: the pieces
    on the queue are in order and apart, `ipf_tail_mp` is the last of them, and
    the datagram is declared complete exactly when the received pieces cover it
    to the end of the last fragment. -/
theorem ipReass_exact (size : Nat) (s : IpReass) (hr : (ipReass size).ReachableVia IpReass.Tidy s) :
    (s.done = true ↔ s.Complete) ∧ ∀ ipf, s.ipf = some ipf →
      Ordered ipf.harden.mps ∧ ipf.tail = lastKey addr ipf.harden.mps := by
  have h : Shape size s ∧ Counted size s := by
    refine System.ReachableVia.invariant (ipReass size) IpReass.Tidy
      (fun s => Shape size s ∧ Counted size s) ?_ ?_ s hr
    · exact fun s hs => ⟨shape_init hs, counted_init hs⟩
    · intro s s' f h ht hs
      have h' := h.1.of_step hs
      obtain ⟨hopen, -, hd, hgot, ho⟩ := step_outcome h.1 hs
      exact ⟨h', h.2.step h.1 h' hopen hd ht hgot ho⟩
  exact ⟨h.2.done_iff h.1, fun ipf hipf => h.1.sorted hipf⟩

/-- An mblk that begins with a header of twenty bytes. -/
def headed (addr len : Nat) : Mblk := ⟨addr, 0x45 :: replicate (19 + len) 0⟩

/-- An mblk of data only. -/
def plain (addr len : Nat) : Mblk := ⟨addr, replicate len 0⟩

/-- Nothing has arrived. -/
def noFragments : IpReass := ⟨none, false, []⟩

/-- The middle one of three fragments first and twice, and then one of two mblks;
    the last one is not refused. -/
theorem ipReass_sorted_middle_first : ∃ s ipf, (ipReass 24).Reachable s ∧ s.ipf = some ipf ∧
    ipf.harden.mps.map (·.addr) = [3, 4, 1] ∧ Ordered ipf.harden.mps ∧
    ipf.tail = lastKey addr ipf.harden.mps ∧
    ((ipReass 24).step s ⟨2, false, 28, [headed 5 8]⟩).isSome := by
  have hr := System.reachable_get (ipReass 24) [⟨1, true, 28, [headed 1 8]⟩,
    ⟨1, true, 28, [headed 2 8]⟩, ⟨0, true, 28, [headed 3 4, plain 4 4]⟩] noFragments
    ⟨rfl, rfl, rfl⟩ rfl
  have h := ipReass_sorted 24 _ hr
  exact ⟨_, _, hr, rfl, by decide +kernel, (h.1 _ rfl).1, (h.1 _ rfl).2,
    h.2 _ rfl (by decide +kernel) (by decide +kernel)⟩

/-- Three fragments, the middle one first and twice, and then the last. -/
theorem ipReass_exact_middle_first :
    ∃ s, (ipReass 24).ReachableVia IpReass.Tidy s ∧ s.done = true ∧ s.Complete := by
  have h0 : (ipReass 24).ReachableVia IpReass.Tidy noFragments := .init _ ⟨rfl, rfl, rfl⟩
  have h1 := System.ReachableVia.step _ _ ⟨1, true, 28, [headed 1 8]⟩ h0 (by decide) rfl
  have h2 := System.ReachableVia.step _ _ ⟨1, true, 28, [headed 2 8]⟩ h1 (by decide) rfl
  have h3 := System.ReachableVia.step _ _ ⟨0, true, 28, [headed 3 4, plain 4 4]⟩ h2 (by decide) rfl
  have h4 := System.ReachableVia.step _ _ ⟨2, false, 28, [headed 5 8]⟩ h3 (by decide) rfl
  exact ⟨_, h4, rfl, (ipReass_exact 24 _ h4).1.mp rfl⟩

/-- A last fragment of two mblks that arrives behind a gap makes the datagram
    complete before it is: the bytes from 8 to 16 are missing. One of two mblks
    that overlaps the queue keeps it from ever being declared complete: all is
    received, and the hole count is -1. -/
theorem ipReass_inexact : (∃ s, (ipReass 32).Reachable s ∧ s.done = true ∧ ¬s.Complete) ∧
      ∃ s, (ipReass 32).Reachable s ∧ s.done = false ∧ s.Complete := by
  constructor
  · refine ⟨_, System.reachable_get (ipReass 32)
      [⟨0, true, 28, [headed 1 8]⟩, ⟨2, false, 36, [headed 2 8, plain 3 8]⟩]
      noFragments ⟨rfl, rfl, rfl⟩ rfl, rfl, ?_⟩
    decide +kernel
  · refine ⟨_, System.reachable_get (ipReass 32)
      [⟨0, true, 36, [headed 1 16]⟩, ⟨1, false, 44, [headed 2 16, plain 3 8]⟩]
      noFragments ⟨rfl, rfl, rfl⟩ rfl, rfl, ?_⟩
    decide +kernel

end Sol7.Inet
