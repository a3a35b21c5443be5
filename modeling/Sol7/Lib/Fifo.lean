import Sol7.Lib.Dll

/-!
# Lists with a First and a Last Pointer

A list that is linked in one direction, with a pointer to each end. The links are
not part of the list, so that any number of lists can share them as long as no cell
is on two of them. A cell is taken out by a search for the one before it.

## Main definitions

* `Fifo`: The two pointers.
* `Fifo.Holds`: The pointers and the links are those of a given list.
* `findPrev`: The search for the cell before a given one.
* `Fifo.unlink`: Take a cell out, given the one before it.

## Theorems

* `Fifo.Holds.concat`, `Fifo.Holds.cons`, `Fifo.holds_singleton`: Putting a cell at
  either end.
* `findPrev_spec`, `Fifo.Holds.unlink`: Taking a cell out.
* `Fifo.unlink_link_of_not_mem`: Links of cells of other lists stay.
-/

namespace Sol7

open List Option Function

variable {ι : Type*}

/-- The pointers to the first and to the last cell. -/
structure Fifo (ι : Type*) where
  first : Option ι
  last : Option ι

namespace Fifo

/-- The pointers and the links are those of a list. -/
structure Holds (f : Fifo ι) (link : ι → Option ι) (l : List ι) : Prop where
  nodup : l.Nodup
  fwd : Threaded (links f.first link) l
  last : f.last = l.getLast?

variable {f : Fifo ι} {link link' : ι → Option ι} {l a b : List ι} {x : ι}

theorem Holds.first_eq (h : f.Holds link l) : f.first = l.head? := h.fwd.head_links

/-- The link of a cell names the next one. -/
theorem Holds.link_eq (h : f.Holds link (a ++ x :: b)) : link x = b.head? := some.inj h.fwd.cell

/-- Links of cells that are not on the list do not matter. -/
theorem Holds.congr (h : f.Holds link l) (heq : ∀ x ∈ l, link' x = link x) : f.Holds link' l :=
  ⟨h.nodup, h.fwd.congr rfl fun x hx => congrArg some (heq x hx), h.last⟩

theorem holds_nil (link : ι → Option ι) : Holds ⟨none, none⟩ link [] :=
  ⟨nodup_nil, threaded_nil rfl, rfl⟩

/-- The only cell. -/
theorem holds_singleton (hx : link x = none) : Holds ⟨some x, some x⟩ link [x] := by
  refine ⟨nodup_singleton x, Threaded.of_cells rfl fun a c b heq => ?_, rfl⟩
  have hmem : c ∈ [x] := heq ▸ mem_append_right a mem_cons_self
  obtain rfl := mem_singleton.mp hmem
  have hlen := congrArg List.length heq
  simp only [length_append, length_cons, length_nil] at hlen
  obtain rfl := length_eq_zero_iff.mp (show b.length = 0 by omega)
  exact congrArg some hx

variable [DecidableEq ι]

/-- A cell is put behind the last one. -/
theorem Holds.concat {e : ι} (h : f.Holds link l) (hx : x ∉ l) (he : f.last = some e) :
    Holds ⟨f.first, some x⟩ (update (update link x none) e (some x))
      (l ++ [x]) := by
  obtain ⟨a, rfl⟩ := getLast?_eq_some_iff.mp (h.last.symm.trans he)
  refine ⟨?_, ?_, ?_⟩
  · rw [nodup_append]
    refine ⟨h.nodup, nodup_singleton x, fun y hy z hz => ?_⟩
    obtain rfl := mem_singleton.mp hz
    exact fun heq => hx (heq ▸ hy)
  · have hi := h.fwd.insert_after h.nodup hx
    rw [append_assoc]
    exact hi
  · exact getLast?_concat.symm

/-- A cell is put before the first one. -/
theorem Holds.cons (h : f.Holds link l) (hx : x ∉ l) (hl : l ≠ []) :
    Holds ⟨some x, f.last⟩ (update link x f.first) (x :: l) := by
  refine ⟨nodup_cons.mpr ⟨hx, h.nodup⟩, ?_, ?_⟩
  · rw [h.first_eq]
    exact h.fwd.insert_front h.nodup hx
  · rw [getLast?_cons_of_ne_nil hl]
    exact h.last

end Fifo

variable [DecidableEq ι] {link : ι → Option ι} {start : Option ι} {l a b : List ι} {x y : ι}

/-- Go along the links up to a given cell. The result is the cell before it, and
    there is none if the cell is not found within the bound. -/
def findPrev (link : ι → Option ι) (x : ι) : Nat → Option ι → Option ι → Option (Option ι)
  | 0, _, _ => none
  | _ + 1, _, none => none
  | n + 1, prev, some c => if c = x then some prev else findPrev link x n (some c) (link c)

theorem findPrev_eq (n : Nat) (prev start : Option ι) :
    findPrev link x n prev start = (findBy link (fun c => c = x) n prev start).map Prod.fst := by
  induction n generalizing prev start with
  | zero => rfl
  | succ n ih =>
    cases start with
    | none => rfl
    | some c => by_cases hc : c = x <;> simp [findPrev, findBy, hc, ih]

/-- The search finds the cell before the one that is looked for. -/
theorem findPrev_spec {n : Nat} {prev : Option ι} (h : Threaded (links start link) (a ++ x :: b))
    (hx : x ∉ a) (hn : a.length < n) :
    findPrev link x n prev start = some (a.getLast?.or prev) := by
  have ha : ∀ y ∈ a, decide (y = x) = false := fun y hy =>
    decide_eq_false fun heq => hx (heq ▸ hy)
  rw [findPrev_eq, findBy_spec prev h ha (decide_eq_true rfl) hn, map_some]

namespace Fifo

/-- Take a cell out, given the one before it, and clear its link. -/
def unlink (f : Fifo ι) (link : ι → Option ι) (prev : Option ι) (x : ι) : Fifo ι × (ι → Option ι) :=
  let s := setLink prev (link x) f.first link
  (⟨s.1, if link x = none then prev else f.last⟩, update s.2 x none)

variable {f : Fifo ι}

/-- A cell is taken out. -/
theorem Holds.unlink (h : f.Holds link (a ++ x :: b)) :
    (f.unlink link a.getLast? x).1.Holds (f.unlink link a.getLast? x).2 (a ++ b) := by
  have hnd := nodup_cons.mp (nodup_middle.mp h.nodup)
  refine ⟨hnd.2, ?_, ?_⟩
  · have hr := h.fwd.remove h.nodup
    rw [show links f.first link (some x) = some (link x) from rfl, ← links_setLink] at hr
    -- The link of the cell itself no longer matters.
    refine hr.congr rfl fun c hc => ?_
    have hne : c ≠ x := fun heq => hnd.1 (heq ▸ hc)
    exact congrArg some (update_of_ne hne ..)
  · change (if link x = none then a.getLast? else f.last) = (a ++ b).getLast?
    rw [h.link_eq]
    cases b with
    | nil => rw [append_nil]; rfl
    | cons c b =>
      rw [if_neg (by simp), h.last, getLast?_append_of_ne_nil _ (by simp),
        getLast?_append_of_ne_nil _ (by simp), getLast?_cons_of_ne_nil (by simp)]

/-- Links of cells that are not on the list stay. -/
theorem unlink_link_of_not_mem (hy : y ∉ a ++ x :: b) :
    (f.unlink link a.getLast? x).2 y = link y := by
  have hx : y ≠ x := fun heq => hy (by simp [heq])
  change update (setLink a.getLast? (link x) f.first link).2 x none y = link y
  rw [update_of_ne hx]
  rcases hlast : a.getLast? with _ | c
  · rfl
  · have hc : y ≠ c := fun heq =>
      hy (mem_append_left _ (heq ▸ mem_of_getLast? hlast))
    exact update_of_ne hc ..

theorem unlink_link_self (prev : Option ι) : (f.unlink link prev x).2 x = none := update_self ..

end Fifo

end Sol7
