import Mathlib

/-!
# Counting Threads by What They Are Doing

A concurrent program keeps counters of how many of its threads are in a given
situation. The census of a Boolean test over a finite family counts the
members that pass, and the lemmas below say how it moves when one member
changes, which is all a step of one thread does.

## Main definitions

* `census`: The number of members whose value passes a test.

## Theorems

* `census_update`: Changing one member moves the census by that member.
* `census_or`: Disjoint tests add up.
* `census_pos`: A member that passes makes the census positive.
* `census_eq_zero`: An empty census means nobody passes.
* `census_add_list`: A list of members that start to pass adds its length.
-/

namespace Sol7

open Finset Function

variable {T A : Type*} [Fintype T] (P : A → Bool)
variable (f : T → A)

/-- The number of members of a family whose value passes the test. -/
def census : Nat := (univ.filter fun t => P (f t) = true).card

/-- Changing one member exchanges its old contribution for its new one. -/
theorem census_update [DecidableEq T] (t : T) (a : A) :
    census P (update f t a) + (P (f t)).toNat = census P f + (P a).toNat := by
  have hsum : ∀ g : T → A, census P g = ∑ u, (P (g u)).toNat := by
    intro g
    rw [census, card_filter]
    refine sum_congr rfl (fun u _ => ?_)
    cases P (g u) <;> rfl
  rw [hsum, hsum, ← add_sum_erase _ _ (mem_univ t),
    ← add_sum_erase (univ) (fun u => (P (f u)).toNat) (mem_univ t)]
  -- Away from the member that changed, both sums agree.
  have hrest : ∑ u ∈ univ.erase t, (P (update f t a u)).toNat
      = ∑ u ∈ univ.erase t, (P (f u)).toNat := by
    refine sum_congr rfl (fun u hu => ?_)
    rw [update_of_ne (ne_of_mem_erase hu)]
  rw [update_self]
  omega

/-- Disjoint tests add up. -/
theorem census_or [DecidableEq T] (P Q : A → Bool) (f : T → A)
    (h : ∀ t, ¬(P (f t) = true ∧ Q (f t) = true)) :
    census (fun a => P a || Q a) f = census P f + census Q f := by
  simp only [census, Bool.or_eq_true]
  rw [filter_or, card_union_of_disjoint]
  exact disjoint_filter.mpr (fun t _ hp hq => h t ⟨hp, hq⟩)

/-- A member that passes makes the census positive. -/
theorem census_pos (t : T) (h : P (f t) = true) : 0 < census P f :=
  card_pos.mpr ⟨t, mem_filter.mpr ⟨mem_univ t, h⟩⟩

/-- An empty census means that nobody passes. -/
theorem census_eq_zero (h : census P f = 0) (t : T) : P (f t) = false := by
  by_contra hc
  have := census_pos P f t (Bool.not_eq_false _ ▸ hc)
  omega

/-- Nobody passing means an empty census. -/
theorem census_zero (h : ∀ t, P (f t) = false) : census P f = 0 := by
  simp only [census, h, Bool.false_eq_true, filter_false, card_empty]

theorem census_le_card : census P f ≤ Fintype.card T :=
  card_le_univ _

/-- A list of members that did not pass and now do adds its length. -/
theorem census_add_list [DecidableEq T] (f g : T → A) (l : List T)
    (hnd : l.Nodup) (hold : ∀ t ∈ l, P (f t) = false)
    (hnew : ∀ t, P (g t) = (P (f t) || decide (t ∈ l))) : census P g = census P f + l.length := by
  have hset : univ.filter (fun t => P (g t) = true) =
      univ.filter (fun t => P (f t) = true) ∪ l.toFinset := by
    ext t
    simp [hnew]
  have hdisj : Disjoint (univ.filter (fun t => P (f t) = true)) l.toFinset := by
    rw [disjoint_left]
    intro t ht hl
    rw [mem_filter, hold t (List.mem_toFinset.mp hl)] at ht
    exact Bool.false_ne_true ht.2
  rw [census, hset, card_union_of_disjoint hdisj, List.toFinset_card_of_nodup hnd]
  rfl

end Sol7
