import Sol7.Inet.IpReassQueue

/-!
# The Mblks of a Fragment on the IP Reassembly Queue

`ip_reassemble` puts the mblks of a fragment on the queue one after the other,
each from where the one before it ended. A queue on which the fragments arrived
in order is marked first.

## Main definitions

* `Steady`: How the mblks of a fragment have to lie to what is queued.
* `Added`: A queue on which mblks have been put.
* `Easy`: What is true of a queue in order.

## Theorems

* `putAll_ok`: The mblks of a fragment are put on the queue.
* `Easy.harden`: A queue in order is branded as a hard case.
* `reassemble_ok`: What `ip_reassemble` does with a fragment.
-/

namespace Sol7.Inet

open List Mblk
open Spans (lastKey)

/-! ### The mblks of a fragment -/

theorem msgdsize_nil : msgdsize [] = 0 := rfl

variable {mps : List Mblk}

theorem msgdsize_pos (hne : mps ≠ []) (hdata : ∀ mp ∈ mps, mp.data ≠ []) : 0 < msgdsize mps := by
  obtain ⟨mp, rest, rfl⟩ := exists_cons_of_ne_nil hne
  have := length_pos_iff.mpr (hdata mp mem_cons_self)
  rw [msgdsize_cons]
  omega

/-- An mblk other than the last one goes across a position. -/
def across (pos : Nat) : Nat → List Mblk → Bool
  | start, mp :: mp' :: mps =>
    (start < pos && pos < start + mp.data.length) ||
      across pos (start + mp.data.length) (mp' :: mps)
  | _, _ => false

theorem across_of_le {pos : Nat} : ∀ (mps : List Mblk) {start : Nat}, pos ≤ start →
    across pos start mps = false := by
  intro mps
  induction mps with
  | nil =>
    intro start _
    rfl
  | cons mp mps ih =>
    intro start hle
    cases mps with
    | nil => rfl
    | cons mp' mps =>
      rw [across, ih (by omega)]
      simp only [Bool.or_false, Bool.and_eq_false_imp, decide_eq_true_eq]
      intro h
      omega

/-- How the mblks of a fragment have to lie to the pieces that are queued, for
    the hole count to stay right. A fragment with the flag set may lie anywhere.
    For a last fragment, either no hole is left between its start and the end of
    the queue, and no mblk other than its last goes across that end; or it is a
    single mblk, no last fragment was there before, and the pieces that start
    behind its start do not touch. -/
def Steady (start : Nat) (mps : List Mblk) (more : Bool) (ps : List IpPiece) : Prop :=
  ps = [] ∨ more = true ∨
    (start ≤ tailStop ps ∧ (∀ x < tailStop ps, start ≤ x → Has ps x) ∧
      across (tailStop ps) start mps = false) ∨
    (mps.length = 1 ∧ tailStop ps < start + msgdsize mps ∧
      ∀ p ∈ ps, ∀ q ∈ ps, start < p.start → p.stop ≠ q.start)

instance (ps : List IpPiece) (x : Nat) : Decidable (Has ps x) :=
  inferInstanceAs (Decidable (∃ p ∈ ps, _))

instance (start : Nat) (mps : List Mblk) (more : Bool) (ps : List IpPiece) :
    Decidable (Steady start mps more ps) :=
  inferInstanceAs (Decidable (_ ∨ _ ∨ _ ∨ _))

/-- What is asked of a queue on which mblks have been put, from `lo` to `hi`. -/
structure Added (size lo hi : Nat) (s s' : Ipf) (steady : Prop) : Prop where
  queued : Queued s'
  stop : s'.stop = s.stop
  covers : ∀ x, Has s'.mps x ↔ Has s.mps x ∨ (lo ≤ x ∧ x < hi)
  count : steady → (s.mps ≠ [] → s.holeCnt = holeCount size 0 s.mps) →
    s'.mps ≠ [] → s'.holeCnt = holeCount size 0 s'.mps

theorem Added.ne_nil {size lo hi : Nat} {s s' : Ipf} {steady : Prop}
    (h : Added size lo hi s s' steady) (hlt : lo < hi) : s'.mps ≠ [] := by
  intro hnil
  have := (h.covers lo).mpr (.inr ⟨le_rfl, hlt⟩)
  rw [hnil] at this
  exact has_nil this

section
variable {size : Nat} {more : Bool} {mps : List Mblk} {mp : Mblk}

/-- The first mblk lies as it should. -/
theorem Steady.counts {start : Nat} {ps : List IpPiece} (h : Steady start (mp :: mps) more ps)
    (hps : Ordered ps) (hstart : start ≠ 0) (hsize : start + msgdsize (mp :: mps) ≤ size) :
    Counts size more mps.isEmpty ⟨mp.addr, start, start + mp.data.length, mp.data⟩ ps := by
  by_cases hnil : ps = []
  · exact .inl ⟨hnil, hstart⟩
  refine .inr ?_
  rcases h with h | h | ⟨hle, hhas, hacross⟩ | ⟨hone, hlt, hne⟩
  · exact absurd h hnil
  · exact .inl ⟨hnil, h⟩
  · refine .inr (.inl ⟨hnil, hle, hhas, ?_⟩)
    cases mps with
    | nil => exact .inr (.inr rfl)
    | cons mp' mps =>
      rw [across, Bool.or_eq_false_iff, Bool.and_eq_false_iff] at hacross
      simp only [decide_eq_false_iff_not] at hacross
      change start + mp.data.length ≤ _ ∨ start = _ ∨ _
      omega
  · have hempty : mps = [] := by
      rw [length_cons] at hone
      exact length_eq_zero_iff.mp (by omega)
    refine .inr (.inr ⟨hnil, by rw [hempty]; rfl, ?_, hne⟩)
    intro p hp
    have := hps.le_tailStop p hp
    omega

/-- The rest lies as it should when the first mblk is on the queue. -/
theorem Steady.rest {start : Nat} {ps qs : List IpPiece} (h : Steady start (mp :: mps) more ps)
    (hps : Ordered ps) (hqs : Ordered qs) (hdata : mp.data ≠ [])
    (hcov : ∀ x, Has qs x ↔ Has ps x ∨ (start ≤ x ∧ x < start + mp.data.length)) :
    Steady (start + mp.data.length) mps more qs := by
  have hpos := length_pos_iff.mpr hdata
  have hstop := tailStop_of_covers hps hqs (by omega) hcov
  rcases h with rfl | h | ⟨hle, hhas, hacross⟩ | ⟨hone, hlt, hne⟩
  · -- The queue ends where the rest starts.
    change _ = max 0 _ at hstop
    exact .inr (.inr (.inl ⟨by omega, fun x hx hge => by omega, across_of_le _ (by omega)⟩))
  · exact .inr (.inl h)
  · refine .inr (.inr (.inl ⟨by omega, ?_, ?_⟩))
    · intro x hx hge
      exact (hcov x).mpr (.inl (hhas x (by omega) (by omega)))
    · by_cases hin : start + mp.data.length ≤ tailStop ps
      · rw [hstop, max_eq_left hin]
        cases mps with
        | nil => rfl
        | cons mp' mps =>
          rw [across, Bool.or_eq_false_iff] at hacross
          exact hacross.2
      · exact across_of_le _ (by omega)
  · have hempty : mps = [] := by
      rw [length_cons] at hone
      exact length_eq_zero_iff.mp (by omega)
    have htotal : msgdsize [mp] = mp.data.length := msgdsize_cons mp []
    rw [hempty] at hlt
    refine .inr (.inr (.inl ⟨by omega, fun x hx hge => by omega, ?_⟩))
    rw [hempty]
    rfl

/-- The other mblks are not on the queue yet. -/
theorem put_fresh {s s' : Ipf} {last : Bool} {start stop : Nat} {data : List UInt8}
    (h : PutOk size more last ⟨mp.addr, start, stop, data⟩ s s')
    (haddrs : mp.addr ∉ mps.map addr) (hfresh : ∀ m ∈ mp :: mps, m.addr ∉ addrs s.mps) :
    ∀ m ∈ mps, m.addr ∉ addrs s'.mps := by
  intro m hm hin
  rcases mem_cons.mp (h.addrs hin) with heq | hin
  · exact haddrs (mem_map.mpr ⟨m, hm, heq⟩)
  · exact hfresh m (mem_cons_of_mem _ hm) hin

/-- The mblks of a fragment are put on the queue. -/
theorem putAll_ok (size : Nat) (more : Bool) : ∀ (mps : List Mblk) (s : Ipf) (start : Nat),
    Queued s → start ≠ 0 → (∀ mp ∈ mps, mp.data ≠ []) → (mps.map addr).Nodup →
    (∀ mp ∈ mps, mp.addr ∉ addrs s.mps) → start + msgdsize mps ≤ size →
    (start + msgdsize mps = size ↔ more = false) →
    ∃ s', s.putAll more mps start = some s' ∧
      Added size start (start + msgdsize mps) s s' (Steady start mps more s.mps) := by
  intro mps
  induction mps with
  | nil =>
    intro s start hs _ _ _ _ _ _
    refine ⟨s, rfl, hs, rfl, ?_, fun _ h => h⟩
    intro x
    have hnone : ¬(start ≤ x ∧ x < start + msgdsize []) := by
      rw [msgdsize_nil]
      omega
    simp only [hnone, or_false]
  | cons mp mps ih =>
    intro s start hs hstart hdata haddrs hfresh hle hmore
    have hpos := length_pos_iff.mpr (hdata mp mem_cons_self)
    have hdata' : ∀ mp ∈ mps, mp.data ≠ [] := (forall_mem_cons.mp hdata).2
    rw [map_cons, nodup_cons] at haddrs
    have htotal := msgdsize_cons mp mps
    have hends : Ends size more mps.isEmpty
        ⟨mp.addr, start, start + mp.data.length, mp.data⟩ := by
      refine ⟨?_, ?_, ?_⟩
      · change start < start + mp.data.length
        omega
      · change start + mp.data.length ≤ size
        omega
      · cases mps with
        | nil =>
          rw [← hmore, htotal, msgdsize_nil]
          simp
        | cons mp' mps =>
          have := msgdsize_pos (cons_ne_nil mp' mps) hdata'
          simp only [isEmpty_cons, Bool.false_eq_true, and_false, iff_false]
          omega
    have hsteady : Steady start (mp :: mps) more s.mps →
        Counts size more mps.isEmpty ⟨mp.addr, start, start + mp.data.length, mp.data⟩ s.mps :=
      fun h => h.counts hs.ordered hstart hle
    obtain ⟨s1, hput, hs1⟩ := put_ok hs hends (hfresh mp mem_cons_self)
    obtain ⟨s', hall, hs'⟩ := ih s1 (start + mp.data.length) hs1.queued (by omega) hdata' haddrs.2
      (put_fresh hs1 haddrs.1 hfresh) (by omega) (by rw [← hmore, htotal, add_assoc])
    refine ⟨s', ?_, hs'.queued, hs'.stop.trans hs1.stop, ?_, ?_⟩
    · rw [Ipf.putAll]
      simp only [if_neg hstart, Nat.sub_zero]
      rw [if_neg (by omega), hput, Option.bind_some, hall]
    · intro x
      rw [hs'.covers, hs1.covers, or_assoc, htotal]
      refine or_congr_right ?_
      change (start ≤ x ∧ x < start + mp.data.length) ∨ _ ↔ _
      omega
    · intro h hcnt hne
      refine hs'.count (h.rest hs.ordered hs1.queued.ordered (hdata mp mem_cons_self)
        hs1.covers) (fun _ => hs1.count (hsteady h) hcnt) hne

/-- The same for the first fragment, whose first mblk has the header. -/
theorem putAll_first {s : Ipf} (hs : Queued s) (hne : s.mps ≠ [])
    (hhdr : hdrLength mp.data < mp.data.length) (hdata : ∀ mp ∈ mps, mp.data ≠ [])
    (haddrs : ((mp :: mps).map addr).Nodup) (hfresh : ∀ m ∈ mp :: mps, m.addr ∉ addrs s.mps)
    (hlt : msgdsize (mp :: mps) - hdrLength mp.data < size) :
    ∃ s', s.putAll true (mp :: mps) 0 = some s' ∧
      Added size 0 (msgdsize (mp :: mps) - hdrLength mp.data) s s' True := by
  rw [msgdsize_cons] at hlt ⊢
  rw [map_cons, nodup_cons] at haddrs
  have hends : Ends size true mps.isEmpty
      ⟨mp.addr, 0, 0 + mp.data.length - hdrLength mp.data, mp.data⟩ := by
    refine ⟨?_, ?_, ?_⟩
    · change 0 < 0 + mp.data.length - hdrLength mp.data
      omega
    · change 0 + mp.data.length - hdrLength mp.data ≤ size
      omega
    · simp only [Bool.true_eq_false, false_and, iff_false]
      omega
  obtain ⟨s1, hput, hs1⟩ := put_ok hs hends (hfresh mp mem_cons_self)
  obtain ⟨s', hall, hs'⟩ := putAll_ok size true mps s1
    (0 + mp.data.length - hdrLength mp.data) hs1.queued (by omega) hdata haddrs.2
    (put_fresh hs1 haddrs.1 hfresh) (by omega) (by simp only [Bool.true_eq_false, iff_false]; omega)
  refine ⟨s', ?_, hs'.queued, hs'.stop.trans hs1.stop, ?_, ?_⟩
  · rw [Ipf.putAll]
    simp only [if_true]
    rw [if_neg (by omega), hput, Option.bind_some, hall]
  · intro x
    rw [hs'.covers, hs1.covers, or_assoc]
    refine or_congr_right ?_
    change (0 ≤ x ∧ x < 0 + mp.data.length - hdrLength mp.data) ∨ _ ↔ _
    omega
  · intro _ hcnt
    exact hs'.count (.inr (.inl rfl))
      fun _ => hs1.count (.inr (.inl ⟨hne, rfl⟩)) hcnt

end

/-! ### Queues in order -/

/-- The length of the data of a queue. -/
def dataLen (ps : List IpPiece) : Nat := (ps.map fun p => p.data.length).sum

theorem dataLen_cons (p : IpPiece) (ps : List IpPiece) :
    dataLen (p :: ps) = p.data.length + dataLen ps := by
  simp only [dataLen, map_cons, sum_cons]

theorem dataLen_append (ps qs : List IpPiece) : dataLen (ps ++ qs) = dataLen ps + dataLen qs := by
  simp only [dataLen, map_append, sum_append]

theorem dataLen_unmarked (mps : List Mblk) : dataLen (mps.map unmarked) = msgdsize mps := by
  simp only [dataLen, msgdsize, map_map]
  rfl

/-- What is true of a queue on which the fragments arrived in order: the first
    mblk has the header and some data, no mblk is empty, and `ipf_end` is the end
    of the data. -/
structure Easy (size : Nat) (ipf : Ipf) (mp : IpPiece) (rest : List IpPiece) : Prop where
  mps : ipf.mps = mp :: rest
  header : hdrLength mp.data < mp.data.length
  data : ∀ p ∈ rest, p.data ≠ []
  stop : ipf.stop + hdrLength mp.data = dataLen ipf.mps
  tail : ipf.tail = lastKey IpPiece.addr ipf.mps
  nodup : (addrs ipf.mps).Nodup
  lt : ipf.stop < size

theorem addrs_markPieces : ∀ (ps : List IpPiece) (u : Nat), addrs (markPieces u ps) = addrs ps := by
  intro ps
  induction ps with
  | nil =>
    intro u
    rfl
  | cons p ps ih =>
    intro u
    simp only [markPieces, addrs, map_cons] at ih ⊢
    rw [ih]

theorem lastKey_eq_addrs (ps : List IpPiece) : lastKey IpPiece.addr ps = (addrs ps).getLast? := by
  rw [lastKey, getLast?_map]

/-- Pieces one after the other, from `u` to `v`. -/
structure Marked (size u v : Nat) (ps : List IpPiece) : Prop where
  ordered : Ordered ps
  le : ∀ p ∈ ps, u ≤ p.start
  has : ∀ x, Has ps x ↔ u ≤ x ∧ x < v
  count : holeCount size u ps = if v = size then 0 else 1

theorem Marked.cons {size v : Nat} {p : IpPiece} {ps : List IpPiece} (h : Marked size p.stop v ps)
    (hp : p.start < p.stop) (hv : p.stop ≤ v) : Marked size p.start v (p :: ps) := by
  refine ⟨⟨forall_mem_cons.mpr ⟨hp, h.ordered.nonempty⟩, pairwise_cons.mpr ⟨h.le, h.ordered.apart⟩⟩,
    forall_mem_cons.mpr ⟨le_rfl, fun q hq => ?_⟩, fun x => ?_, ?_⟩
  · have := h.le q hq
    omega
  · rw [has_cons, h.has]
    omega
  · simp only [holeCount, Spans.holes, if_true, Int.zero_add]
    exact h.count

/-- The marks behind the first mblk. -/
theorem markPieces_spec (size : Nat) : ∀ (ps : List IpPiece) (u : Nat), u ≠ 0 →
    (∀ p ∈ ps, p.data ≠ []) → Marked size u (u + dataLen ps) (markPieces u ps) := by
  intro ps
  induction ps with
  | nil =>
    intro u _ _
    refine ⟨Spans.InOrder.nil, nofun, ?_, rfl⟩
    intro x
    have hnone : ¬(u ≤ x ∧ x < u + dataLen []) := by
      change ¬(u ≤ x ∧ x < u + 0)
      omega
    simp only [markPieces, has_nil, hnone]
  | cons p ps ih =>
    intro u hu hdata
    have hpos := length_pos_iff.mpr (hdata p mem_cons_self)
    have hrest := ih (u + p.data.length) (by omega) (forall_mem_cons.mp hdata).2
    simp only [markPieces, if_pos hu]
    rw [dataLen_cons, ← add_assoc]
    exact Marked.cons (p := ⟨p.addr, u, u + p.data.length, p.data⟩) hrest
      (Nat.lt_add_of_pos_right hpos) (Nat.le_add_right _ _)

variable {size : Nat}

/-- A queue in order is branded as a hard case, with one hole at the end. -/
theorem Easy.harden {ipf : Ipf} {mp : IpPiece} {mps : List IpPiece} (h : Easy size ipf mp mps) :
    Queued ipf.harden ∧ ipf.harden.mps ≠ [] ∧ (∀ x, Has ipf.harden.mps x ↔ x < ipf.stop) ∧
      ipf.harden.holeCnt = 1 ∧ holeCount size 0 ipf.harden.mps = 1 := by
  have hhdr := h.header
  have hstop := h.stop
  have hlt := h.lt
  rw [h.mps, dataLen_cons] at hstop
  have hrest := markPieces_spec size mps (mp.data.length - hdrLength mp.data) (by omega) h.data
  rw [show mp.data.length - hdrLength mp.data + dataLen mps = ipf.stop by omega] at hrest
  have hmarked := Marked.cons (p := ⟨mp.addr, 0, mp.data.length - hdrLength mp.data, mp.data⟩) hrest
    (by dsimp only; omega) (by dsimp only; omega)
  have hne : ipf.stop ≠ 0 := by omega
  have hmark : markPieces 0 ipf.mps =
      { mp with start := 0, stop := mp.data.length - hdrLength mp.data } ::
        markPieces (mp.data.length - hdrLength mp.data) mps := by
    rw [h.mps]
    rfl
  have hkeys : addrs (markPieces 0 ipf.mps) = addrs ipf.mps := addrs_markPieces ipf.mps 0
  unfold Ipf.harden
  rw [if_pos hne]
  refine ⟨⟨?_, ?_, ?_⟩, ?_, ?_, rfl, ?_⟩
  · rw [hmark]
    exact hmarked.ordered
  · rw [lastKey_eq_addrs, hkeys, ← lastKey_eq_addrs]
    exact h.tail
  · rw [hkeys]
    exact h.nodup
  · rw [hmark]
    exact cons_ne_nil _ _
  · intro x
    rw [hmark]
    exact (hmarked.has x).trans (and_iff_right zero_le)
  · rw [hmark]
    exact hmarked.count.trans (if_neg hlt.ne)

/-! ### Fragments -/

/-- The mblks of a fragment, taken apart. -/
structure Parts (f : Fragment) (mp : Mblk) (rest : List Mblk) : Prop where
  mps : f.mps = mp :: rest
  header : hdrLength mp.data < mp.data.length
  data : ∀ m ∈ rest, m.data ≠ []
  stop : f.stop = f.offset + (mp.data.length - hdrLength mp.data + msgdsize rest)
  nodup : ((mp :: rest).map addr).Nodup
  strip : f.strip =
    if f.offset ≠ 0 then { mp with data := mp.data.drop (hdrLength mp.data) } :: rest
    else mp :: rest

variable {f : Fragment}

theorem IpReass.Whole.parts {s : IpReass} (h : s.Whole f) : ∃ mp mps, Parts f mp mps := by
  have hhdr := h.header
  have hlen := h.length
  cases hmps : f.mps with
  | nil =>
    rw [hmps] at hhdr
    exact absurd hhdr not_lt_zero
  | cons mp mps =>
    have hlen0 : f.hdrLen = hdrLength mp.data := by
      unfold Fragment.hdrLen
      rw [hmps]
      rfl
    rw [hlen0, hmps] at hhdr
    change hdrLength mp.data < mp.data.length at hhdr
    rw [hmps, msgdsize_cons] at hlen
    refine ⟨mp, mps, hmps, hhdr, ?_, ?_, hmps ▸ h.addrs, ?_⟩
    · intro m hm
      exact h.data m (hmps ▸ mem_cons_of_mem _ hm)
    · rw [Fragment.stop]
      omega
    · unfold Fragment.strip
      rw [hmps, ← hlen0]

/-- A fragment that is not the first piece has no header when it is put on the
    queue. -/
theorem Parts.strip_later {mp : Mblk} (h : Parts f mp mps) (hoff : f.offset ≠ 0) :
    (∀ m ∈ f.strip, m.data ≠ []) ∧ f.strip.map addr = f.mps.map addr ∧
      f.offset + msgdsize f.strip = f.stop := by
  have hhdr := h.header
  rw [h.strip, if_pos hoff]
  refine ⟨?_, ?_, ?_⟩
  · intro m hm
    rcases mem_cons.mp hm with rfl | hm
    · intro hnil
      rw [drop_eq_nil_iff] at hnil
      omega
    · exact h.data m hm
  · rw [h.mps]
    rfl
  · rw [h.stop, msgdsize_cons]
    rw [length_drop]

theorem Parts.lt {mp : Mblk} (h : Parts f mp mps) : f.offset < f.stop := by
  have := h.header
  rw [h.stop]
  omega

theorem IpReass.OfDatagram.more_of_first (h : IpReass.OfDatagram size f)
    (hoff : f.offset = 0) : f.more = true := by
  rcases h.fragment with h | h
  · exact absurd hoff h
  · exact h

theorem IpReass.OfDatagram.stop_eq (h : IpReass.OfDatagram size f)
    (hmore : f.more = false) : f.stop = size := by
  have hle := h.stop_le
  have hnot : ¬f.stop < size := fun hlt => nomatch hmore.symm.trans (h.more_iff.mpr hlt)
  omega

/-- What `ip_reassemble` does with the mblks of a fragment. -/
theorem reassemble_ok {s : IpReass} (hw : s.Whole f) (hd : IpReass.OfDatagram size f)
    {q : Ipf} (hq : Queued q) (hfirst : f.offset = 0 → q.mps ≠ [])
    (hfresh : ∀ m ∈ f.mps, m.addr ∉ addrs q.mps) :
    ∃ q', q.putAll f.more f.strip f.offset = some q' ∧
      Added size f.offset f.stop q q' (Steady f.offset f.strip f.more q.mps) := by
  obtain ⟨mp, mps, hparts⟩ := hw.parts
  by_cases hoff : f.offset = 0
  · have hmore := hd.more_of_first hoff
    have hstop := hparts.stop
    have hhdr := hparts.header
    have hlt := hd.more_iff.mp hmore
    have hsize : msgdsize (mp :: mps) - hdrLength mp.data = f.stop := by
      rw [msgdsize_cons]
      omega
    rw [hparts.mps] at hfresh
    rcases putAll_first hq (hfirst hoff) hhdr hparts.data hparts.nodup hfresh (hsize ▸ hlt)
      with ⟨q', heq, hadd⟩
    rw [hparts.strip, hmore, hoff]
    rw [hsize] at hadd
    exact ⟨q', heq, hadd.queued, hadd.stop, hadd.covers, fun _ => hadd.count trivial⟩
  · obtain ⟨hdata, haddrs, hstop⟩ := hparts.strip_later hoff
    have hfresh' : ∀ m ∈ f.strip, m.addr ∉ addrs q.mps := by
      intro m hm
      have hmem : m.addr ∈ f.mps.map addr := haddrs ▸ mem_map_of_mem hm
      obtain ⟨m', hm', heq⟩ := mem_map.mp hmem
      rw [← heq]
      exact hfresh m' hm'
    have hsize : f.stop = size ↔ f.more = false := by
      refine ⟨fun heq => Bool.eq_false_iff.mpr fun hmore => ?_, hd.stop_eq⟩
      have := hd.more_iff.mp hmore
      omega
    obtain ⟨q', heq, hadd⟩ := putAll_ok size f.more f.strip q f.offset hq hoff hdata
      (by rw [haddrs]; exact hw.addrs) hfresh' (by rw [hstop]; exact hd.stop_le)
      (by rw [hstop]; exact hsize)
    rw [hstop] at hadd
    exact ⟨q', heq, hadd⟩

end Sol7.Inet
