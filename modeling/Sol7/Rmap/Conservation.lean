import Sol7.Rmap.Layout

/-!
# Conservation in a Resource Map

In every run on a map each unit of the resource is accounted for, and the array
stays laid out. The invariant is the layout together with the books. A step
takes a range out of the entries, or gives it back, or drops an entry, and the
books are changed by the same range.

## Main definitions

* `RmapState.Conserved`: Each unit is in one place.
* `RmapState.Inv`: The invariant of the runs.

## Theorems

* `Rmap.rmfree_returns`: An `rmfree` that is not disturbed takes two passes at
  most.
* `RmapState.Inv.step`: Every step keeps the invariant.
* `rmap_conserves`: The layout, the books, first fit, and what `rmget` and
  `rmfree` can do.
-/

namespace Sol7

open List Option

namespace Rmap

variable {mp : Rmap} {es zs : List Extent} {size addr : Nat}

/-- The entries are in order and apart, are followed by a size of zero inside
    the array, and together with the free entries they make up the capacity. -/
structure WellFormed (mp : Rmap) : Prop where
  apart : Apart mp.entries
  length : mp.map.length = mp.cap + 2
  ended : ∃ z, mp.map[mp.entries.length]? = some z ∧ z.size = 0
  count : mp.entries.length + mp.free = mp.cap

/-- `rmalloc` fails if no entry is large enough, and otherwise finds the first
    one that is. -/
def FirstFit (mp : Rmap) (size : Nat) : Prop :=
  ∃ mp' addr, mp.rmallocLocked size = some (mp', addr) ∧
    ((addr = 0 ∧ mp' = mp ∧ ∀ e ∈ mp.entries, e.size < size) ∨
      (addr ≠ 0 ∧ ∃ pre e post, mp.entries = pre ++ e :: post ∧ (∀ d ∈ pre, d.size < size) ∧
        size ≤ e.size ∧ addr = e.addr))

theorem Laid.wellFormed (h : Laid mp es zs) : mp.WellFormed := by
  obtain ⟨z, w, zs', rfl, hz, -, -, hlen⟩ := h.two
  have hcount := h.count
  refine ⟨h.entries ▸ h.apart, ?_, ⟨z, ?_, hz⟩, h.entries ▸ hcount⟩
  · rw [h.map, length_append, h.spare]
    omega
  · rw [h.entries, h.map, getElem?_append_right le_rfl, Nat.sub_self]
    rfl

theorem laid_mapinit (size addr : Nat) {cap : Nat} (hcap : 2 ≤ cap) : ∃ es zs, Laid (mapinit cap size addr) es zs ∧
    ∀ u, Holds es u ↔ addr ≤ u ∧ u < addr + size := by
  have hblank : Blank (replicate (cap + 1) ⟨0, 0⟩) :=
    fun z hz => (eq_of_mem_replicate hz) ▸ rfl
  by_cases hsize : size = 0
  · refine ⟨[], ⟨size, addr⟩ :: replicate (cap + 1) ⟨0, 0⟩,
      ⟨rfl, apart_nil, blank_cons hsize hblank, ?_, ?_⟩, fun u => ?_⟩
    · simp only [mapinit, hsize, length_nil, ne_eq, not_true_eq_false, if_false]
      omega
    · simp only [mapinit, hsize, length_cons, length_replicate, ne_eq, not_true_eq_false, if_false]
    · simp only [not_holds_nil, false_iff]
      omega
  · refine ⟨[⟨size, addr⟩], replicate (cap + 1) ⟨0, 0⟩,
      ⟨rfl, apart_singleton (pos_of_ne_zero hsize), hblank, ?_, ?_⟩, fun u => holds_singleton⟩
    · simp only [mapinit, ne_eq, hsize, not_false_eq_true, if_true, length_cons, length_nil]
      omega
    · simp only [mapinit, ne_eq, hsize, not_false_eq_true, if_true, length_replicate]
      omega

/-- An `rmfree` that is not disturbed takes two passes at most. -/
theorem rmfree_returns (h : Laid mp es zs) (hcap : 2 ≤ mp.cap) (hsize : ¬BadSize size)
    (haddr : addr ≠ 0) (hout : ∀ u, addr ≤ u → u < addr + size → ¬Holds es u) :
    (rmfree 2 mp size addr).isSome := by
  rcases h.rmfreePass hcap hsize haddr hout with
    ⟨mp', es', zs', heq, -⟩ | ⟨-, mp', e, es', zs', heq, hcap', hfree, hlaid, htakes⟩
  · simp only [rmfree, heq, bind_some, isSome_some]
  have hout' : ∀ u, addr ≤ u → u < addr + size → ¬Holds es' u :=
    fun u hu hu' hes' => hout u hu hu' ((htakes.left u).mp hes').1
  -- The second pass has room for an entry.
  rcases hlaid.rmfreePass (hcap' ▸ hcap) hsize haddr hout' with ⟨_, _, _, heq', -⟩ | ⟨h0, -⟩
  · simp only [rmfree, heq, heq', bind_some, map_some, isSome_some]
  · omega

end Rmap

namespace RmapState

open Rmap

variable {s s' : RmapState} {size addr : Nat}

/-- Each unit of the resource is in exactly one of: a free entry, an
    outstanding allocation, a piece that was lost. -/
def Conserved (s : RmapState) : Prop :=
  ∀ u, s.unit u = true →
    (Holds s.mp.entries u ∧ s.out u = false ∧ s.lost u = false) ∨
    (¬Holds s.mp.entries u ∧ s.out u = true ∧ s.lost u = false) ∨
    (¬Holds s.mp.entries u ∧ s.out u = false ∧ s.lost u = true)

/-- The books of a map whose entries hold the given units: nothing but the
    units of the resource is anywhere. -/
structure Books (free : Nat → Prop) (s : RmapState) : Prop where
  place : ∀ u, s.unit u = true →
    (free u ∧ s.out u = false ∧ s.lost u = false) ∨
    (¬free u ∧ s.out u = true ∧ s.lost u = false) ∨ (¬free u ∧ s.out u = false ∧ s.lost u = true)
  only : ∀ u, free u ∨ s.out u = true → s.unit u = true

/-- The invariant of the runs. -/
structure Inv (s : RmapState) : Prop where
  laid : ∃ es zs, Laid s.mp es zs ∧ Books (Holds es) s
  cap : 2 ≤ s.mp.cap
  zero : s.unit 0 = false

theorem inRange_iff {u : Nat} : inRange size addr u = true ↔ addr ≤ u ∧ u < addr + size := by
  simp only [inRange, Bool.and_eq_true, decide_eq_true_eq]

theorem inRange_of_not {u : Nat} (h : ¬(addr ≤ u ∧ u < addr + size)) :
    inRange size addr u = false := by
  rw [← Bool.not_eq_true, inRange_iff]
  exact h

theorem Init.inv (h : s.Init) : Inv s := by
  obtain ⟨cap, size, addr, hcap, hmp, hunits⟩ := h.mp
  obtain ⟨es, zs, hlaid, hholds⟩ := laid_mapinit size addr hcap
  refine ⟨⟨es, zs, hmp ▸ hlaid, ⟨fun u => ?_, fun u => ?_⟩⟩, hmp ▸ hcap, h.zero⟩
  all_goals
    rw [hholds, ← inRange_iff]
    have hlost := h.lost u
    cases hout : s.out u <;> cases hin : inRange size addr u <;> simp_all

section
variable {es es' : List Extent} {mp : Rmap}

section
variable (h : Books (Holds es) s)
include h

/-- A unit of the resource was free and is taken, or stays where it was. -/
theorem Books.taken {u : Nat} (ht : Takes es es' size addr) (hunit : s.unit u = true) :
    inRange size addr u = true ∧ ¬Holds es' u ∧ s.out u = false ∧ s.lost u = false ∨
      inRange size addr u = false ∧ (Holds es' u ↔ Holds es u) := by
  have hplace := h.place u hunit
  rw [ht.left u]
  by_cases hin : addr ≤ u ∧ u < addr + size
  · have hes := ht.held u hin.1 hin.2
    have hin' := inRange_iff.mpr hin
    simp_all
  · exact .inr ⟨inRange_of_not hin, and_iff_left hin⟩

/-- A range that was free becomes outstanding. -/
theorem Books.take (ht : Takes es es' size addr) :
    Books (Holds es') { s with mp := mp, out := fun u => s.out u || inRange size addr u } := by
  refine ⟨fun u hunit => ?_, fun u => ?_⟩
  · rcases h.taken ht hunit with ⟨hin, hu⟩ | ⟨hin, hu⟩
    · simp [hin, hu]
    · simpa [hin, hu] using h.place u hunit
  · rw [ht.left u, Bool.or_eq_true, inRange_iff]
    rintro (hu | hu | hu)
    · exact h.only u (.inl hu.1)
    · exact h.only u (.inr hu)
    · exact h.only u (.inl (ht.held u hu.1 hu.2))

/-- A range that was outstanding becomes free. -/
theorem Books.give (hout : s.Outstanding size addr) (hg : Gives es es' size addr) :
    Books (Holds es') { s with mp := mp, out := fun u => s.out u && !inRange size addr u } := by
  have hrange : ∀ u, addr ≤ u ∧ u < addr + size → s.out u = true := by
    intro u hu
    have := hout (u - addr) (by omega)
    rwa [show addr + (u - addr) = u by omega] at this
  refine ⟨fun u hunit => ?_, fun u => ?_⟩
  · have hplace := h.place u hunit
    rw [hg u]
    by_cases hin : addr ≤ u ∧ u < addr + size
    · simp only [inRange_iff.mpr hin]
      simp_all
    · have hin' := inRange_of_not hin
      simp only [hin', hin, or_false, Bool.not_false, Bool.and_true]
      exact hplace
  · rw [hg u, Bool.and_eq_true]
    rintro ((hu | hu) | hu)
    · exact h.only u (.inl hu)
    · exact h.only u (.inr (hrange u hu))
    · exact h.only u (.inr hu.1)

/-- A range that was free is lost. -/
theorem Books.lose (ht : Takes es es' size addr) :
    Books (Holds es') { s with mp := mp, lost := fun u => s.lost u || inRange size addr u } := by
  refine ⟨fun u hunit => ?_, fun u hu => h.only u (hu.imp_left fun hu => ((ht.left u).mp hu).1)⟩
  rcases h.taken ht hunit with ⟨hin, hu⟩ | ⟨hin, hu⟩
  · simp [hin, hu]
  · simpa [hin, hu] using h.place u hunit

theorem Books.not_holds (hout : s.Outstanding size addr) :
    ∀ u, addr ≤ u → u < addr + size → ¬Holds es u := by
  intro u hu hu' hes
  have hk := hout (u - addr) (by omega)
  rw [show addr + (u - addr) = u by omega] at hk
  rcases h.place u (h.only u (.inr hk)) with hp | hp | hp
  · rw [hk] at hp
    exact absurd hp.2.1 (by decide)
  · exact hp.1 hes
  · exact hp.1 hes

end

/-- What is taken is not at zero. -/
theorem Inv.addr_ne_zero (h : Inv s) (hb : Books (Holds es) s) (ht : Takes es es' size addr)
    (hsize : ¬BadSize size) : addr ≠ 0 := fun h0 => by
  have hpos := pos_of_ne_zero fun h => hsize (.inl h)
  have := hb.only 0 (.inl (ht.held 0 (by omega) (by omega)))
  rw [h.zero] at this
  exact absurd this (by decide)

theorem Inv.allocated {zs' : List Extent} (h : Inv s) (hb : Books (Holds es) s)
    (ht : Takes es es' size addr) (hsize : ¬BadSize size) (hcap : mp.cap = s.mp.cap)
    (hlaid : Laid mp es' zs') : Inv (s.allocated size (mp, addr)) := by
  rw [RmapState.allocated, if_neg (h.addr_ne_zero hb ht hsize)]
  exact ⟨⟨es', zs', hlaid, hb.take ht⟩, hcap ▸ h.cap, h.zero⟩

end

theorem Inv.rmalloc (h : Inv s) (hs : s.rmalloc size = some s') : Inv s' := by
  obtain ⟨es, zs, hlaid, hbooks⟩ := h.laid
  obtain ⟨r, hr, rfl⟩ := map_eq_some_iff.mp hs
  have hsize : ¬BadSize size := fun hbad => by
    rw [rmallocLocked, if_pos hbad] at hr
    cases hr
  rcases hlaid.rmallocLocked hsize with
    ⟨-, heq⟩ | ⟨pre, e, post, hes, -, hle, mp', es', zs', heq, hcap, hlaid', htakes⟩
  · rw [heq, some.injEq] at hr
    exact hr ▸ h
  · rw [heq, some.injEq] at hr
    exact hr ▸ h.allocated hbooks htakes hsize hcap hlaid'

theorem Inv.rmget (h : Inv s) (hs : s.rmget size addr = some s') : Inv s' := by
  obtain ⟨es, zs, hlaid, hbooks⟩ := h.laid
  obtain ⟨r, hr, rfl⟩ := map_eq_some_iff.mp hs
  have hsize : ¬BadSize size := fun hbad => by
    rw [Rmap.rmget, if_pos hbad] at hr
    cases hr
  rcases hlaid.rmget hsize with ⟨-, heq⟩ | ⟨-, mp', es', zs', heq, hcap, hlaid', htakes⟩
  · rw [heq, some.injEq] at hr
    exact hr ▸ h
  · rw [heq, some.injEq] at hr
    exact hr ▸ h.allocated hbooks htakes hsize hcap hlaid'

theorem Inv.rmfree (h : Inv s) (hs : s.rmfree size addr = some s') : Inv s' := by
  obtain ⟨es, zs, hlaid, hbooks⟩ := h.laid
  unfold RmapState.rmfree at hs
  by_cases hout : s.Outstanding size addr
  · rw [if_pos hout] at hs
    obtain ⟨r, hr, rfl⟩ := map_eq_some_iff.mp hs
    have hok : addr ≠ 0 ∧ ¬BadSize size := not_or.mp fun hbad => by
      rw [rmfreePass, if_pos hbad] at hr
      cases hr
    rcases hlaid.rmfreePass h.cap hok.2 hok.1 (hbooks.not_holds hout) with
      ⟨mp', es', zs', heq, hcap, hlaid', hgives⟩ |
      ⟨-, mp', e, es', zs', heq, hcap, -, hlaid', htakes⟩
    · rw [heq, some.injEq] at hr
      rw [← hr]
      exact ⟨⟨es', zs', hlaid', hbooks.give hout hgives⟩, hcap ▸ h.cap, h.zero⟩
    · rw [heq, some.injEq] at hr
      rw [← hr]
      exact ⟨⟨es', zs', hlaid', hbooks.lose htakes⟩, hcap ▸ h.cap, h.zero⟩
  · rw [if_neg hout] at hs
    cases hs

/-- Every step keeps the invariant. -/
theorem Inv.step {op : RmapOp} (h : Inv s) (hs : s.step op = some s') : Inv s' := by
  cases op with
  | rmalloc size => exact h.rmalloc hs
  | rmget size addr => exact h.rmget hs
  | rmfree size addr => exact h.rmfree hs

theorem inv_of_reachable (hr : rmaps.Reachable s) : Inv s :=
  System.Reachable.invariant rmaps Inv (fun _ h => h.inv) (fun _ _ _ h hs => h.step hs) s hr

end RmapState

open Rmap RmapState

/-- In every state of every run on a map the entries are in order, apart and
    ended, each unit of the resource is in one place, `rmalloc` is first fit,
    `rmget` succeeds if and only if it can, and an `rmfree` of what is
    outstanding returns. -/
theorem rmap_conserves (s : RmapState) (hr : rmaps.Reachable s) : s.mp.WellFormed ∧ s.Conserved ∧
      (∀ size, ¬BadSize size → s.mp.FirstFit size) ∧
      (∀ size addr, ¬BadSize size → ∃ mp' addr', s.mp.rmget size addr = some (mp', addr') ∧
        (addr' ≠ 0 ↔ s.mp.CanGet size addr) ∧ (addr' ≠ 0 → addr' = addr)) ∧
      ∀ size addr, ¬BadSize size → s.Outstanding size addr →
        (Rmap.rmfree 2 s.mp size addr).isSome := by
  have hinv := inv_of_reachable hr
  obtain ⟨es, zs, hlaid, hbooks⟩ := hinv.laid
  have hentries := hlaid.entries
  refine ⟨hlaid.wellFormed, ?_, fun size hsize => ?_, fun size addr hsize => ?_,
    fun size addr hsize hout => ?_⟩
  · unfold Conserved
    rw [hentries]
    exact hbooks.place
  · unfold FirstFit
    rw [hentries]
    rcases hlaid.rmallocLocked hsize with
      ⟨hsmall, heq⟩ | ⟨pre, e, post, hes, hpre, hle, mp', es', zs', heq, -, -, htakes⟩
    · exact ⟨s.mp, 0, heq, .inl ⟨rfl, rfl, hsmall⟩⟩
    · exact ⟨mp', e.addr, heq, .inr ⟨hinv.addr_ne_zero hbooks htakes hsize, pre, e, post, hes,
        hpre, hle, rfl⟩⟩
  · rcases hlaid.rmget hsize with ⟨hno, heq⟩ | ⟨hcan, mp', es', zs', heq, -, -, htakes⟩
    · exact ⟨s.mp, 0, heq, ⟨absurd rfl, fun h => absurd h hno⟩, absurd rfl⟩
    · exact ⟨mp', addr, heq, ⟨fun _ => hcan, fun _ => hinv.addr_ne_zero hbooks htakes hsize⟩,
        fun _ => rfl⟩
  · refine rmfree_returns hlaid hinv.cap hsize (fun h0 => ?_) (hbooks.not_holds hout)
    have h0out := hout 0 (pos_of_ne_zero fun h => hsize (.inl h))
    rw [h0] at h0out
    have := hbooks.only 0 (.inr h0out)
    rw [hinv.zero] at this
    exact absurd this (by decide)

/-- Ten units are in a map of two entries, and two more are outstanding. -/
def smallMap : RmapState where
  mp := mapinit 2 10 100
  unit := fun u => inRange 2 50 u || inRange 10 100 u
  out := inRange 2 50
  lost := fun _ => false

theorem smallMap_init : smallMap.Init := by
  refine ⟨by decide, fun _ => rfl, 2, 10, 100, by decide, rfl, fun u => ⟨rfl, ?_⟩⟩
  simp only [smallMap, inRange, Bool.and_eq_false_iff, decide_eq_false_iff_not]
  omega

/-- The map is full when the two units come back, so that an entry is lost
    first. -/
def smallRun : List RmapOp := [.rmalloc 2, .rmget 2 104, .rmfree 2 50, .rmfree 2 50]

theorem rmap_conserves_overflow :
    (rmaps.exec smallMap smallRun).any (fun s => s.lost 102 && !s.out 50) = true ∧
    ∀ s, rmaps.exec smallMap smallRun = some s → s.mp.WellFormed ∧ s.Conserved := by
  refine ⟨by decide, fun s hs => ?_⟩
  have h := rmap_conserves s (System.reachable_of_exec rmaps smallRun smallMap s smallMap_init hs)
  exact ⟨h.1, h.2.1⟩

end Sol7
