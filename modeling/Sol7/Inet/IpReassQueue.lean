import Sol7.Inet.IpReass

/-!
# One More Piece on the IP Reassembly Queue

`ip_reassemble` puts one mblk after the other on a sorted queue. The queue stays
sorted and apart, `ipf_tail_mp` stays its last mblk, and what it covers grows by
the new piece. That is so for every mblk.

The hole count is another matter. For an mblk of a fragment with `IPH_MF` it is
right. For an mblk of the last fragment, which also takes away the hole at the
end, it is right only if the mblk lies in a certain way to what is queued.

## Main definitions

* `Counts`: How an mblk has to lie for the hole count to stay right.
* `Queued`: What is true of a hard queue.

## Theorems

* `elimPieces_spec`: The overlap with what follows.
* `findPlace_spec`: The search for a place.
* `put_ok`: An mblk is put on the queue.
-/

namespace Sol7.Inet

open List IpPiece Spans
open Spans (lastKey)

/-- The pieces are in order and apart. -/
abbrev Ordered (ps : List IpPiece) : Prop := Spans.InOrder start stop ps

/-- A byte is in one of the pieces. -/
abbrev Has (ps : List IpPiece) (x : Nat) : Prop := Spans.Covered start stop ps x

/-- The number of holes from `a` on, in a datagram that ends at `size`. -/
abbrev holeCount (size a : Nat) (ps : List IpPiece) : Int :=
  holes start stop size a ps

/-- The addresses of the pieces. -/
abbrev addrs (ps : List IpPiece) : List Nat := ps.map addr

variable {x lo hi size e : Nat}

theorem has_nil : ¬Has [] x := covered_nil

variable {ps qs mps : List IpPiece} {p mp mp1 mp2 : IpPiece}

theorem has_cons : Has (p :: ps) x ↔ (p.start ≤ x ∧ x < p.stop) ∨ Has ps x := covered_cons

/-- The end of the last piece. -/
def tailStop (ps : List IpPiece) : Nat := (ps.getLast?.map stop).getD 0

theorem tailStop_concat (ps : List IpPiece) (p : IpPiece) : tailStop (ps ++ [p]) = p.stop := by
  unfold tailStop
  rw [getLast?_append_of_ne_nil _ (cons_ne_nil _ _), getLast?_singleton,
    Option.map_some, Option.getD_some]

theorem tailStop_cons_cons (p q : IpPiece) (ps : List IpPiece) :
    tailStop (p :: q :: ps) = tailStop (q :: ps) := by
  unfold tailStop
  rw [getLast?_cons_cons]

/-- No piece ends behind the last one. -/
theorem Ordered.le_tailStop (h : Ordered ps) : ∀ p ∈ ps, p.stop ≤ tailStop ps := by
  rcases eq_nil_or_concat' ps with rfl | ⟨qs, q, rfl⟩
  · exact nofun
  intro p hp
  rw [tailStop_concat]
  rcases mem_append.mp hp with hp | hp
  · have h₁ := h.le_last p hp
    have h2 := h.nonempty q (mem_append_right _ (mem_singleton.mpr rfl))
    omega
  · rw [mem_singleton] at hp
    rw [hp]

theorem Ordered.has_tailStop (h : Ordered ps) (hne : ps ≠ []) :
    0 < tailStop ps ∧ Has ps (tailStop ps - 1) := by
  rcases eq_nil_or_concat' ps with rfl | ⟨qs, q, rfl⟩
  · exact absurd rfl hne
  · have hq := h.nonempty q (mem_append_right _ (mem_singleton.mpr rfl))
    rw [tailStop_concat]
    exact ⟨by omega, q, mem_append_right _ (mem_singleton.mpr rfl), by omega, by omega⟩

/-- The end of the last piece is told by what is covered. -/
theorem tailStop_of_covers (hps : Ordered ps) (hqs : Ordered qs) (hlt : lo < hi)
    (hcov : ∀ x, Has qs x ↔ Has ps x ∨ (lo ≤ x ∧ x < hi)) : tailStop qs = max (tailStop ps) hi := by
  have hqne : qs ≠ [] := by
    rintro rfl
    exact covered_nil ((hcov lo).mpr (.inr ⟨le_rfl, hlt⟩))
  obtain ⟨hqpos, hqlast⟩ := hqs.has_tailStop hqne
  apply le_antisymm
  · rcases (hcov _).mp hqlast with ⟨p, hp, -, hx⟩ | ⟨-, hx⟩
    · have := hps.le_tailStop p hp
      omega
    · omega
  rw [Nat.max_le]
  constructor
  · by_cases hne : ps = []
    · rw [hne]
      exact zero_le
    obtain ⟨hpos, hlast⟩ := hps.has_tailStop hne
    obtain ⟨q, hq, -, hx⟩ := (hcov _).mpr (.inl hlast)
    have := hqs.le_tailStop q hq
    omega
  · obtain ⟨q, hq, -, hx⟩ := (hcov (hi - 1)).mpr (.inr ⟨by omega, by omega⟩)
    have := hqs.le_tailStop q hq
    omega

/-! ### Overlap -/

/-- The mblk and what is left behind it, after the overlap has been cut. -/
structure Eliminated (mp : IpPiece) (ps : List IpPiece)
    (r : IpPiece × List IpPiece × Int × Bool) : Prop where
  addr : r.1.addr = mp.addr
  start : r.1.start = mp.start
  ordered : Ordered (r.1 :: r.2.1)
  covers : ∀ x, Has (r.1 :: r.2.1) x ↔ Has (mp :: ps) x
  suffix : r.2.1 <:+ ps
  tail : ∀ tail, (ps ≠ [] → tail = lastKey IpPiece.addr ps) →
    (if r.2.2.2 then some mp.addr else tail) = lastKey IpPiece.addr (r.1 :: r.2.1)

/-- The holes behind a piece that ends at `e`, where the first of those that
    follow may begin before that. -/
def holesAfter (size e : Nat) : List IpPiece → Int
  | [] => if e = size then 0 else 1
  | p :: ps => (if p.start ≤ e then 0 else 1) + holeCount size p.stop ps

/-- How a piece that ends at `e` has to lie to those that it covers: either it
    does not end the datagram, or it is the first to end it and those that it
    covers do not touch. -/
def Fair (size : Nat) (more : Bool) (e : Nat) (ps : List IpPiece) : Prop :=
  (more = true ∧ e < size) ∨
    (more = false ∧ e = size ∧ (∀ p ∈ ps, p.stop < size) ∧ ∀ p ∈ ps, ∀ q ∈ ps, p.stop ≠ q.start)

variable {more last : Bool} {cnt : Int}

theorem Fair.tail (h : Fair size more e (p :: ps)) : Fair size more e ps := by
  rcases h with h | ⟨hm, he, hlt, hne⟩
  · exact .inl h
  · exact .inr ⟨hm, he, (forall_mem_cons.mp hlt).2,
      fun q hq r hr => hne q (mem_cons_of_mem _ hq) r (mem_cons_of_mem _ hr)⟩

/-- The hole count of one mblk that is covered. -/
theorem clip_count (hfair : Fair size more e (p :: ps)) (hover : ¬e ≤ p.start) (hcov : ¬e < p.stop)
    (cnt : Int) (hstart : ∀ q ∈ ps, p.stop ≤ q.start ∧ q.start < q.stop) :
    (if coversHole e p ps || !more then cnt - 1 else cnt) =
      cnt + holesAfter size e ps - holesAfter size e (p :: ps) := by
  have hp : holesAfter size e (p :: ps) = holeCount size p.stop ps := by
    rw [holesAfter, if_pos (by omega), Int.zero_add]
  rw [hp]
  cases ps with
  | nil =>
    simp only [coversHole, holesAfter, holeCount, holes]
    rcases hfair with ⟨rfl, hlt⟩ | ⟨rfl, rfl, hlt, -⟩
    · have h₁ : e ≠ size := by omega
      have h2 : p.stop ≠ size := by omega
      simp [h₁, h2]
    · have h₁ := hlt p mem_cons_self
      have h2 : p.stop ≠ e := by omega
      simp [h2]
  | cons q ps =>
    have hq := hstart q mem_cons_self
    simp only [coversHole, holesAfter, holeCount, holes]
    rcases hfair with ⟨rfl, hlt⟩ | ⟨rfl, rfl, hlt, hne⟩
    · by_cases htouch : p.stop = q.start
      · have hreach : q.start ≤ e := by omega
        simp [htouch, hreach]
      · by_cases hreach : q.start ≤ e
        · simp [htouch, hreach]
        · simp [htouch, hreach]
    · have hlast := hlt q (by simp)
      have htouch := hne p mem_cons_self q (by simp)
      have hreach : q.start ≤ e := by omega
      simp [htouch, hreach]

theorem elimPieces_spec (more : Bool) (hmp : mp.start < mp.stop) (hps : Ordered ps)
    (hlt : ∀ q ∈ ps, mp.start < q.start) : ∀ cnt, Eliminated mp ps (elimPieces more mp ps cnt) ∧
      ∀ size, Fair size more mp.stop ps → (elimPieces more mp ps cnt).2.2.1 =
        cnt + holeCount size (elimPieces more mp ps cnt).1.stop (elimPieces more mp ps cnt).2.1 -
          holesAfter size mp.stop ps := by
  induction ps with
  | nil =>
    intro cnt
    refine ⟨⟨rfl, rfl, Spans.InOrder.singleton hmp, fun _ => Iff.rfl, suffix_rfl, fun _ _ => rfl⟩,
      fun size _ => ?_⟩
    simp only [elimPieces, holesAfter, holeCount, holes]
    omega
  | cons mp1 mps ih =>
    intro cnt
    have hmp1 := hlt mp1 mem_cons_self
    unfold elimPieces
    by_cases hbefore : mp.stop ≤ mp1.start
    · -- No overlap.
      rw [if_pos hbefore]
      refine ⟨⟨rfl, rfl, hps.cons hmp hbefore, fun _ => Iff.rfl, suffix_rfl, ?_⟩, fun size _ => ?_⟩
      · intro tail htail
        exact htail (cons_ne_nil _ _)
      · simp only [holesAfter, holeCount, holes]
        by_cases heq : mp.stop = mp1.start
        · omega
        · omega
    rw [if_neg hbefore]
    by_cases hpart : mp.stop < mp1.stop
    · -- The next mblk reaches further, and the new one is cut where it starts.
      rw [if_pos hpart]
      refine ⟨⟨rfl, rfl, hps.cons hmp1 le_rfl, ?_, suffix_rfl, ?_⟩, fun size _ => ?_⟩
      · intro x
        simp only [has_cons, ← or_assoc]
        refine or_congr_left ?_
        omega
      · intro tail htail
        exact htail (cons_ne_nil _ _)
      · have hle : mp1.start ≤ mp.stop := by omega
        simp [holesAfter, holes, hle]
    · -- The next mblk is covered, and is freed.
      rw [if_neg hpart]
      obtain ⟨hrest, hcount⟩ := ih hps.tail (forall_mem_cons.mp hlt).2
        (if coversHole mp.stop mp1 mps || !more then cnt - 1 else cnt)
      refine ⟨⟨hrest.addr, hrest.start, hrest.ordered, ?_,
        hrest.suffix.trans (suffix_cons _ _), ?_⟩, fun size hfair => ?_⟩
      · intro x
        rw [hrest.covers]
        simp only [has_cons, ← or_assoc]
        refine or_congr_left ?_
        omega
      · intro tail htail
        refine hrest.tail tail fun hne => ?_
        obtain ⟨a, l, rfl⟩ := exists_cons_of_ne_nil hne
        rw [htail (cons_ne_nil _ _), lastKey_cons_cons]
      · rw [hcount size hfair.tail, clip_count hfair hbefore hpart cnt fun q hq =>
          ⟨hps.head_le q hq, hps.nonempty q (mem_cons_of_mem _ hq)⟩]
        omega

/-! ### The place of a piece -/

/-- The last mblk of a fragment with the flag clear ends the datagram, and no
    other mblk does. -/
structure Ends (size : Nat) (more last : Bool) (mp : IpPiece) : Prop where
  lt : mp.start < mp.stop
  le : mp.stop ≤ size
  iff : mp.stop = size ↔ more = false ∧ last = true

/-- How an mblk has to lie for the hole count to stay right. On an empty queue
    it is not the first one of the datagram. An mblk of the last fragment either
    finds no hole between its start and the end of the queue, and goes across
    that end only if it is the last mblk; or it is the last mblk and the first
    to end the datagram, and the pieces that start behind its start do not
    touch. -/
def Counts (size : Nat) (more last : Bool) (mp : IpPiece) (ps : List IpPiece) : Prop :=
  (ps = [] ∧ mp.start ≠ 0) ∨ (ps ≠ [] ∧ more = true) ∨
    (ps ≠ [] ∧ mp.start ≤ tailStop ps ∧ (∀ x < tailStop ps, mp.start ≤ x → Has ps x) ∧
      (mp.stop ≤ tailStop ps ∨ mp.start = tailStop ps ∨ last = true)) ∨
    (ps ≠ [] ∧ last = true ∧ (∀ p ∈ ps, p.stop < size) ∧
      ∀ p ∈ ps, ∀ q ∈ ps, mp.start < p.start → p.stop ≠ q.start)

/-- Only the last fragment ends the datagram. -/
theorem Ends.lt_size (h : Ends size true last mp) : mp.stop < size := by
  have hne : mp.stop ≠ size := fun heq => nomatch (h.iff.mp heq).1
  have := h.le
  omega

/-- An mblk that starts in a hole before all of a queue. -/
theorem Ends.fair (h : Ends size more last mp) (hcounts : Counts size more last mp ps)
    (hwithin : mp.start < tailStop ps) (hlt : ∀ q ∈ ps, mp.start < q.start) :
    Fair size more mp.stop ps := by
  cases more with
  | true => exact .inl ⟨rfl, h.lt_size⟩
  | false =>
    rcases hcounts with ⟨rfl, -⟩ | ⟨-, hm⟩ | ⟨-, -, hhas, -⟩ | ⟨-, hl, hstops, hne⟩
    · exact absurd hwithin not_lt_zero
    · cases hm
    · -- There is a hole between its start and the end of the queue.
      obtain ⟨q, hq, hin, -⟩ := hhas mp.start hwithin le_rfl
      exact absurd (hlt q hq) (not_lt.mpr hin)
    · exact .inr ⟨rfl, h.iff.mpr ⟨rfl, hl⟩, hstops, fun p hp q hq => hne p hp q hq (hlt p hp)⟩

/-- What is asked of a queue in which an mblk has found its place. -/
structure Placed (mp : IpPiece) (ps : List IpPiece) (r : List IpPiece × Int × Option Nat) :
    Prop where
  ordered : Ordered r.1
  first : r.1.head? = ps.head?
  covers : ∀ x, Has r.1 x ↔ Has ps x ∨ (mp.start ≤ x ∧ x < mp.stop)
  tail : r.2.2 = lastKey addr r.1
  addrs : (addrs r.1).Subperm (mp.addr :: addrs ps)

theorem fillHole_spec (more : Bool) (cnt : Int) (hmp : mp.start < mp.stop)
    (hps : Ordered (mp1 :: mp2 :: mps)) (hlo : mp1.stop ≤ mp.start) (hhi : mp.start < mp2.start)
    {r : List IpPiece × Int × Option Nat}
    (hr : fillHole more (lastKey addr (mp1 :: mp2 :: mps)) cnt mp mp1 mp2 mps = r) :
    Placed mp (mp1 :: mp2 :: mps) r ∧ ∀ size, Fair size more mp.stop (mp2 :: mps) → ∀ a,
        r.2.1 = cnt + holeCount size a r.1 - holeCount size a (mp1 :: mp2 :: mps) := by
  have hgap : mp1.stop ≠ mp2.start := by omega
  have hleft : (if mp.start > mp1.stop then cnt + 1 else cnt) =
      cnt + (if mp1.stop = mp.start then 0 else 1) := by
    by_cases heq : mp1.stop = mp.start
    · omega
    · rw [if_neg heq, if_pos (by omega)]
  unfold fillHole at hr
  rw [hleft] at hr
  by_cases hreach : mp.stop ≥ mp2.start
  · simp only [if_pos hreach] at hr
    subst hr
    obtain ⟨hel, hcount⟩ := elimPieces_spec more hmp hps.tail (hps.tail.le_lo hhi)
      (cnt + (if mp1.stop = mp.start then 0 else 1) - 1)
    generalize elimPieces more mp (mp2 :: mps) _ = r at hel hcount
    refine ⟨⟨hel.ordered.cons hps.head (by rw [hel.start]; exact hlo), rfl, ?_, ?_, ?_⟩,
      fun size hfair a => ?_⟩
    · intro x
      rw [has_cons, hel.covers]
      simp only [has_cons]
      tauto
    · rw [lastKey_cons_cons, lastKey_cons_cons]
      exact hel.tail _ fun _ => rfl
    · change (mp1.addr :: r.1.addr :: addrs r.2.1).Subperm _
      rw [hel.addr]
      have hsub : (mp1.addr :: mp.addr :: addrs r.2.1).Sublist
          (mp1.addr :: mp.addr :: addrs (mp2 :: mps)) :=
        ((hel.suffix.sublist.map _).cons_cons _).cons_cons _
      exact hsub.subperm.trans (List.Perm.swap _ _ _).subperm
    · have hc := hcount size hfair
      rw [holesAfter, if_pos hreach] at hc
      simp only [holeCount, holes, hel.start, if_neg hgap] at hc ⊢
      omega
  · simp only [if_neg hreach] at hr
    subst hr
    refine ⟨⟨(hps.tail.cons hmp (by omega)).cons hps.head hlo, rfl, ?_, ?_, ?_⟩, fun size _ a => ?_⟩
    · intro x
      simp only [has_cons]
      tauto
    · rw [lastKey_cons_cons, lastKey_cons_cons, lastKey_cons_cons]
    · exact (List.Perm.swap _ _ _).subperm
    · have hright : mp.stop ≠ mp2.start := by omega
      simp only [holeCount, holes, if_neg hgap, if_neg hright]
      omega

/-- A piece without what ends at `stop` or before. -/
def trim (mp : IpPiece) (stop : Nat) : IpPiece :=
  if mp.start < stop then { mp with start := stop, data := mp.data.drop (stop - mp.start) } else mp

theorem trim_start (mp : IpPiece) (stop : Nat) : (trim mp stop).start = max mp.start stop := by
  unfold trim
  split
  · change stop = _
    omega
  · omega

theorem trim_stop (mp : IpPiece) (stop : Nat) : (trim mp stop).stop = mp.stop := by
  unfold trim
  split <;> rfl

theorem trim_addr (mp : IpPiece) (stop : Nat) : (trim mp stop).addr = mp.addr := by
  unfold trim
  split <;> rfl

theorem findPlace_cons (more : Bool) (tail : Option Nat) (cnt : Int) (mp mp1 mp2 : IpPiece)
    (mps : List IpPiece) : findPlace more tail cnt (mp1 :: mp2 :: mps) mp =
      if mp.start < mp1.stop ∧ mp.stop ≤ mp1.stop then some (mp1 :: mp2 :: mps, cnt, tail)
      else if (trim mp mp1.stop).start ≥ mp2.start then
        (findPlace more tail cnt (mp2 :: mps) (trim mp mp1.stop)).map fun r => (mp1 :: r.1, r.2)
      else some (fillHole more tail cnt (trim mp mp1.stop) mp1 mp2 mps) :=
  rfl

/-- An mblk has found its place, and the hole count stays right. -/
def Finds (more : Bool) (cnt : Int) (mp : IpPiece) (ps : List IpPiece)
    (r : List IpPiece × Int × Option Nat) : Prop :=
  Placed mp ps r ∧ ∀ size last, Ends size more last mp → Counts size more last mp ps →
    ∀ a, r.2.1 = cnt + holeCount size a r.1 - holeCount size a ps

/-- An mblk that brings nothing new. -/
theorem finds_old (hps : Ordered (mp1 :: ps)) (hlo : mp1.start ≤ mp.start) (hold : mp.stop ≤ mp1.stop) :
    Finds more cnt mp (mp1 :: ps) (mp1 :: ps, cnt, lastKey addr (mp1 :: ps)) := by
  refine ⟨⟨hps, rfl, fun x => ?_, rfl, (sublist_cons_self _ _).subperm⟩, fun size last _ _ a => ?_⟩
  · rw [has_cons]
    constructor
    · exact .inl
    · rintro (h | h)
      · exact h
      · exact .inl (by omega)
  · dsimp only
    omega

/-- An mblk that goes across the end of the queue. -/
theorem finds_last (hps : Ordered [mp1]) (hlo : mp1.start ≤ mp.start) (hhi : mp.start < mp1.stop)
    (hnew : mp1.stop < mp.stop) : Finds more cnt mp [mp1]
      ([mp1, { mp with start := mp1.stop, data := mp.data.drop (mp1.stop - mp.start) }],
        if more then cnt else cnt - 1, some mp.addr) := by
  refine ⟨⟨(Spans.InOrder.singleton hnew).cons hps.head le_rfl, rfl, fun x => ?_, rfl,
    (List.Perm.swap _ _ _).subperm⟩, fun size last hends hcounts a => ?_⟩
  · simp only [has_cons, has_nil, or_false]
    omega
  have hne : mp1.stop ≠ size := by
    have := hends.le
    omega
  simp only [holeCount, holes, if_neg hne, if_true]
  cases more with
  | true =>
    simp only [if_neg (ne_of_lt hends.lt_size), if_true]
    omega
  | false =>
    -- The mblk ends behind the queue, so it is the last one.
    have hlast : last = true := by
      rcases hcounts with ⟨h, -⟩ | ⟨-, h⟩ | ⟨-, -, -, h⟩ | ⟨-, h, -⟩
      · cases h
      · cases h
      · change mp.stop ≤ mp1.stop ∨ mp.start = mp1.stop ∨ _ at h
        rcases h with h | h | h
        · omega
        · omega
        · exact h
      · exact h
    simp only [if_pos (hends.iff.mpr ⟨rfl, hlast⟩), Bool.false_eq_true, if_false]
    omega

/-- What is left of an mblk behind the first piece lies as it has to among the others. -/
theorem Counts.trim {mp' : IpPiece} (h : Counts size more last mp (mp1 :: mp2 :: ps))
    (hstart : mp'.start = max mp.start mp1.stop) (hstop : mp'.stop = mp.stop)
    (hwithin : mp'.start < tailStop (mp2 :: ps)) : Counts size more last mp' (mp2 :: ps) := by
  rcases h with ⟨h, -⟩ | ⟨-, h⟩ | ⟨-, -, hhas, h⟩ | ⟨-, hl, hstops, hne⟩
  · cases h
  · exact .inr (.inl ⟨cons_ne_nil _ _, h⟩)
  · rw [tailStop_cons_cons] at hhas h
    refine .inr (.inr (.inl ⟨cons_ne_nil _ _, by omega, fun x hx hge => ?_, ?_⟩))
    · rcases has_cons.mp (hhas x hx (by omega)) with hin | hin
      · omega
      · exact hin
    · rw [hstop]
      rcases h with h | h | h
      · exact .inl h
      · omega
      · exact .inr (.inr h)
  · refine .inr (.inr (.inr ⟨cons_ne_nil _ _, hl, (forall_mem_cons.mp hstops).2, ?_⟩))
    intro p hp q hq hlt
    exact hne p (mem_cons_of_mem _ hp) q (mem_cons_of_mem _ hq) (by omega)

/-- An mblk that starts within the queue finds its place. -/
theorem findPlace_spec (more : Bool) (cnt : Int) (ps : List IpPiece) (mp1 mp : IpPiece)
    (hmp : mp.start < mp.stop) (hps : Ordered (mp1 :: ps)) (hlo : mp1.start ≤ mp.start)
    (hhi : mp.start < tailStop (mp1 :: ps)) :
    ∃ r, findPlace more (lastKey addr (mp1 :: ps)) cnt (mp1 :: ps) mp = some r ∧
      Finds more cnt mp (mp1 :: ps) r := by
  induction ps generalizing mp1 mp with
  | nil =>
    unfold findPlace
    rw [if_pos (show mp.start < mp1.stop from hhi)]
    by_cases hold : mp.stop ≤ mp1.stop
    · rw [if_pos hold]
      exact ⟨_, rfl, finds_old hps hlo hold⟩
    · rw [if_neg hold]
      exact ⟨_, rfl, finds_last hps hlo hhi (not_le.mp hold)⟩
  | cons mp2 ps ih =>
    rw [findPlace_cons]
    by_cases hold : mp.start < mp1.stop ∧ mp.stop ≤ mp1.stop
    · rw [if_pos hold]
      exact ⟨_, rfl, finds_old hps hlo hold.2⟩
    rw [if_neg hold]
    have hstart := trim_start mp mp1.stop
    have hstop := trim_stop mp mp1.stop
    have haddr := trim_addr mp mp1.stop
    generalize trim mp mp1.stop = mp' at hstart hstop haddr
    have hmp' : mp'.start < mp'.stop := by omega
    -- The trimmed piece and the first one cover what the piece and the first
    -- one do.
    have hcov : ∀ x, (mp1.start ≤ x ∧ x < mp1.stop) ∨ (mp'.start ≤ x ∧ x < mp'.stop) ↔
        (mp1.start ≤ x ∧ x < mp1.stop) ∨ (mp.start ≤ x ∧ x < mp.stop) := by
      intro x
      omega
    have hwithin : mp'.start < tailStop (mp2 :: ps) := by
      have := (Ordered.le_tailStop hps.tail) mp2 mem_cons_self
      have := hps.tail.head
      have := hps.head_le mp2 mem_cons_self
      rw [tailStop_cons_cons] at hhi
      omega
    have hends : ∀ {size last}, Ends size more last mp → Ends size more last mp' :=
      fun h => ⟨hmp', hstop ▸ h.le, hstop ▸ h.iff⟩
    by_cases hnext : mp'.start ≥ mp2.start
    · rw [if_pos hnext]
      obtain ⟨⟨qs, cnt', tail'⟩, heq, hr, hcount⟩ := ih mp2 mp' hmp' hps.tail hnext hwithin
      rw [lastKey_cons_cons, heq, Option.map_some]
      have hfirst := hr.first
      cases qs with
      | nil => cases hfirst
      | cons q qs =>
        obtain rfl : q = mp2 := Option.some.inj hfirst
        refine ⟨_, rfl, ⟨hr.ordered.cons hps.head (hps.head_le q mem_cons_self), rfl, ?_, ?_, ?_⟩,
          fun size last he hc a => ?_⟩
        · intro x
          have h := hr.covers x
          have hc := hcov x
          rw [has_cons, h, ← or_assoc, or_right_comm, hc, or_right_comm, ← has_cons]
        · rw [lastKey_cons_cons]
          exact hr.tail
        · have h := (subperm_cons mp1.addr).mpr hr.addrs
          rw [haddr] at h
          exact h.trans (List.Perm.swap _ _ _).subperm
        · have h := hcount size last (hends he) (hc.trim hstart hstop hwithin) mp1.stop
          simp only [holeCount, holes] at h ⊢
          omega
    · rw [if_neg hnext]
      obtain ⟨hr, hcount⟩ := fillHole_spec more cnt hmp' hps (by omega) (by omega) rfl
      refine ⟨_, rfl, ⟨hr.ordered, hr.first, ?_, hr.tail, haddr ▸ hr.addrs⟩,
        fun size last he hc => hcount size ((hends he).fair (hc.trim hstart hstop hwithin) hwithin
          (hps.tail.le_lo (by omega)))⟩
      intro x
      have hc := hcov x
      rw [hr.covers, has_cons, or_right_comm, hc, or_right_comm]

/-! ### Putting a piece on the queue -/

/-- What is true of a hard queue. -/
structure Queued (s : Ipf) : Prop where
  ordered : Ordered s.mps
  tail : s.tail = lastKey addr s.mps
  addrs : (addrs s.mps).Nodup

/-- What is asked of a queue on which an mblk has been put. -/
structure PutOk (size : Nat) (more last : Bool) (mp : IpPiece) (s s' : Ipf) : Prop where
  queued : Queued s'
  stop : s'.stop = s.stop
  covers : ∀ x, Has s'.mps x ↔ Has s.mps x ∨ (mp.start ≤ x ∧ x < mp.stop)
  addrs : addrs s'.mps ⊆ mp.addr :: addrs s.mps
  count : Counts size more last mp s.mps → (s.mps ≠ [] → s.holeCnt = holeCount size 0 s.mps) →
    s'.holeCnt = holeCount size 0 s'.mps

variable {size : Nat} {more last : Bool} {mp : IpPiece} {s : Ipf}
  {ps mps : List IpPiece} {p mp1 : IpPiece} (h : Queued s)
include h

/-- The tail pointer leads to the last mblk. -/
theorem Queued.find_tail (hps : s.mps = ps ++ [p]) :
    s.tail = some p.addr ∧ (s.mps.find? fun q => q.addr = p.addr) = some p := by
  have htail := h.tail
  have hnd := h.addrs
  rw [hps] at htail hnd ⊢
  exact ⟨htail.trans lastKey_concat, find_last hnd⟩

theorem put_within (hwithin : mp.start < tailStop s.mps) :
    ∃ q, s.tail = some q.addr ∧ (s.mps.find? fun p => p.addr = q.addr) = some q ∧
      ¬mp.start ≥ q.stop := by
  rcases eq_nil_or_concat' s.mps with hnil | ⟨qs, q, hq⟩
  · rw [hnil] at hwithin
    exact absurd hwithin not_lt_zero
  · rw [hq, tailStop_concat] at hwithin
    exact ⟨q, (h.find_tail hq).1, (h.find_tail hq).2, Nat.not_le.mpr hwithin⟩

variable (hmp : Ends size more last mp)
include hmp

theorem put_nil (hnil : s.mps = []) :
    ∃ s', s.put more last mp = some s' ∧ PutOk size more last mp s s' := by
  have htail := h.tail
  rw [hnil] at htail
  unfold Ipf.put
  rw [htail]
  refine ⟨_, rfl, ⟨Spans.InOrder.singleton hmp.lt, rfl, nodup_singleton _⟩, rfl, ?_, ?_, ?_⟩
  · intro x
    rw [hnil]
    simp only [has_cons, has_nil, or_false, false_or]
  · rw [hnil]
    exact List.Subset.refl _
  intro hcounts _
  have hstart : mp.start ≠ 0 := by
    rcases hcounts with ⟨-, h⟩ | ⟨h, -⟩ | ⟨h, -⟩ | ⟨h, -⟩
    · exact h
    · exact absurd hnil h
    · exact absurd hnil h
    · exact absurd hnil h
  have hends := hmp.iff
  simp only [holeCount, holes, if_neg (Ne.symm hstart)]
  cases more with
  | true => simp [hstart, ne_of_lt hmp.lt_size]
  | false =>
    cases last with
    | true =>
      have hstop := hends.mpr ⟨rfl, rfl⟩
      simp [hstop]
    | false =>
      have hstop : mp.stop ≠ size := fun h => Bool.false_ne_true (hends.mp h).2
      simp [hstop]

variable (hnew : mp.addr ∉ addrs s.mps)
include hnew

theorem put_tail (hps : s.mps = ps ++ [p]) (hbeyond : mp.start ≥ p.stop) :
    ∃ s', s.put more last mp = some s' ∧ PutOk size more last mp s s' := by
  obtain ⟨htail, hfind⟩ := h.find_tail hps
  have hord := h.ordered
  have hnd := h.addrs
  rw [hps] at hord hnd hnew hfind
  have hle : ∀ q ∈ ps ++ [p], q.stop ≤ mp.start := by
    intro q hq
    have := Ordered.le_tailStop hord q hq
    rw [tailStop_concat] at this
    omega
  have hperm : (addrs (ps ++ [p] ++ [mp])).Perm (mp.addr :: addrs (ps ++ [p])) := by
    rw [addrs, map_append]
    exact perm_append_singleton _ _
  have hlink : Spans.linkAfter addr p.addr [mp] (ps ++ [p]) = ps ++ [p] ++ [mp] :=
    Spans.linkAfter_last [mp] hnd
  unfold Ipf.put
  rw [htail, hps]
  simp only [hfind, Option.bind_some, if_pos hbeyond, hlink]
  refine ⟨_, rfl, ⟨hord.concat hmp.lt hle, Spans.lastKey_concat.symm,
    hperm.nodup_iff.mpr (nodup_cons.mpr ⟨hnew, hnd⟩)⟩, rfl, ?_, ?_, ?_⟩
  · intro x
    rw [hps]
    exact covered_concat
  · rw [hps]
    exact hperm.subset
  intro hcounts hcnt
  have hne : s.mps ≠ [] := by
    rw [hps]
    exact append_ne_nil_of_right_ne_nil _ (cons_ne_nil _ _)
  have hcnt := hcnt hne
  have hends := hmp.iff
  have hsize : p.stop ≠ size := by
    have h₁ := hmp.lt
    have h2 := hmp.le
    omega
  rw [hcnt, hps]
  simp only [holeCount, holes_concat, if_neg hsize]
  cases more with
  | true =>
    have hstop := ne_of_lt hmp.lt_size
    by_cases heq : p.stop = mp.start
    · simp [heq, hstop]
    · simp [heq, Ne.symm heq, hstop]
  | false =>
    -- Behind a gap, only the last mblk leaves the count as it was rightly.
    have hgap : p.stop = mp.start ∨ last = true := by
      rcases hcounts with ⟨h, -⟩ | ⟨-, h⟩ | ⟨-, hle, -⟩ | ⟨-, h, -⟩
      · exact absurd h hne
      · cases h
      · rw [hps, tailStop_concat] at hle
        exact .inl (by omega)
      · exact .inr h
    cases last with
    | true =>
      have hstop := hends.mpr ⟨rfl, rfl⟩
      by_cases heq : p.stop = mp.start
      · simp [heq, hstop]
      · simp [heq, Ne.symm heq, hstop]
    | false =>
      have hstop : mp.stop ≠ size := fun h => Bool.false_ne_true (hends.mp h).2
      rcases hgap with heq | h
      · simp [heq, hstop]
      · cases h

theorem put_front (hps : s.mps = mp1 :: mps) (hwithin : mp.start < tailStop s.mps)
    (hfront : mp.start < mp1.start) :
    ∃ s', s.put more last mp = some s' ∧ PutOk size more last mp s s' := by
  have hord := h.ordered
  have hnd := h.addrs
  have htail := h.tail
  rw [hps] at hord hnd htail hnew
  have hlt := hord.le_lo hfront
  obtain ⟨q, htail', hfind, hno⟩ := put_within h hwithin
  rw [htail'] at htail
  unfold Ipf.put
  rw [htail']
  simp only [hfind, Option.bind_some, if_neg hno]
  rw [hps]
  dsimp only
  rw [if_pos hfront]
  generalize hcnt : (if mp.start = 0 then (if mp.stop ≥ mp1.start then s.holeCnt - 1 else s.holeCnt)
    else if mp.stop < mp1.start then s.holeCnt + 1 else s.holeCnt) = cnt
  obtain ⟨hel, hcount⟩ := elimPieces_spec more hmp.lt hord hlt cnt
  generalize elimPieces more mp (mp1 :: mps) cnt = r at hel hcount
  have hsub : (mp.addr :: addrs r.2.1).Sublist (mp.addr :: addrs (mp1 :: mps)) :=
    (hel.suffix.sublist.map _).cons_cons _
  refine ⟨_, rfl, ⟨hel.ordered, hel.tail _ fun _ => htail, ?_⟩, rfl, ?_, ?_, ?_⟩
  · change (r.1.addr :: addrs r.2.1).Nodup
    rw [hel.addr]
    exact hsub.nodup (nodup_cons.mpr ⟨hnew, hnd⟩)
  · intro x
    rw [hel.covers, hps, has_cons, or_comm]
  · change r.1.addr :: addrs r.2.1 ⊆ _
    rw [hel.addr, hps]
    exact hsub.subset
  intro hcounts hold
  rw [hps] at hcounts hwithin
  have hc := hcount size (hmp.fair hcounts hwithin hlt)
  have ho := hold (by rw [hps]; exact cons_ne_nil _ _)
  have hfirst : mp1.start ≠ 0 := by omega
  rw [hps] at ho
  simp only [holeCount, holes, holesAfter, if_neg (Ne.symm hfirst), hel.start] at hc ho ⊢
  by_cases hzero : mp.start = 0
  · by_cases hreach : mp1.start ≤ mp.stop
    · omega
    · omega
  · by_cases hreach : mp1.start ≤ mp.stop
    · omega
    · omega

/-- An mblk between the start of the head and the end of the tail. -/
theorem put_middle (hps : s.mps = mp1 :: mps) (hwithin : mp.start < tailStop s.mps)
    (hfront : mp1.start ≤ mp.start) :
    ∃ s', s.put more last mp = some s' ∧ PutOk size more last mp s s' := by
  have hord := h.ordered
  have hnd := h.addrs
  have htail := h.tail
  have hin := hwithin
  rw [hps] at hord hnd htail hnew hin
  obtain ⟨r, heq, hr, hcount⟩ := findPlace_spec more s.holeCnt mps mp1 mp hmp.lt hord hfront hin
  obtain ⟨q, htail', hfind, hno⟩ := put_within h hwithin
  rw [← htail, htail'] at heq
  unfold Ipf.put
  rw [htail']
  simp only [hfind, Option.bind_some, if_neg hno]
  rw [hps]
  dsimp only
  rw [if_neg (not_lt.mpr hfront), heq]
  refine ⟨_, rfl, ⟨hr.ordered, hr.tail,
    Spans.nodup_of_subperm hr.addrs (nodup_cons.mpr ⟨hnew, hnd⟩)⟩, rfl, ?_, ?_, ?_⟩
  · intro x
    rw [hps]
    exact hr.covers x
  · rw [hps]
    exact hr.addrs.subset
  · intro hcounts hold
    have ho := hold (by rw [hps]; exact cons_ne_nil _ _)
    rw [hps] at hcounts ho
    have hc := hcount size last hmp hcounts 0
    dsimp only
    omega

theorem put_ok : ∃ s', s.put more last mp = some s' ∧ PutOk size more last mp s s' := by
  rcases eq_nil_or_concat' s.mps with hnil | ⟨ps, p, hps⟩
  · exact put_nil h hmp hnil
  by_cases hbeyond : mp.start ≥ p.stop
  · exact put_tail h hmp hnew hps hbeyond
  have hwithin : mp.start < tailStop s.mps := by
    rw [hps, tailStop_concat]
    omega
  cases hmps : s.mps with
  | nil =>
    rw [hps] at hmps
    simp at hmps
  | cons mp1 mps =>
    by_cases hfront : mp.start < mp1.start
    · exact put_front h hmp hnew hmps hwithin hfront
    · exact put_middle h hmp hnew hmps hwithin (by omega)

end Sol7.Inet
