import Mathlib

/-!
# Hash Chains

A hash table keeps its members in chains, one for each value of a hash
function. New members go to the front of their chain. The table is in order
when a chain has exactly the members with its hash value, and none of them
twice.

The hash is a function of the member, which changes when the member's fields
do, so the rules below let it change where it does no harm.

## Main definitions

* `link`, `unlink`: Adding a member to a chain and taking one out.
* `Chained`: A table that has the given members.

## Theorems

* `Chained.congr`: The hash of a member that is not in the table may change.
* `Chained.link`, `Chained.unlink`: The members after an update.
-/

namespace Sol7

open Function

variable {ι κ : Type*} [DecidableEq ι] [DecidableEq κ]

/-- Add a member at the front of a chain. -/
def link (bk : κ → List ι) (b : κ) (p : ι) : κ → List ι := update bk b (p :: bk b)

/-- Take a member out of a chain. -/
def unlink (bk : κ → List ι) (b : κ) (p : ι) : κ → List ι := update bk b ((bk b).erase p)

/-- The chains of a table with the given members. -/
structure Chained (key : ι → κ) (live : ι → Prop) (bk : κ → List ι) : Prop where
  mem : ∀ b p, p ∈ bk b ↔ live p ∧ key p = b
  nodup : ∀ b, (bk b).Nodup

variable {key key' : ι → κ} {live : ι → Prop} {bk : κ → List ι} {p : ι} {b : κ}

/-- A field of a member that is written as it was. -/
theorem update_field {α β : Type*} (f : α → β) {mem : ι → α} {x : α} (hx : f x = f (mem p))
    (q : ι) : f (update mem p x q) = f (mem q) := by
  by_cases hq : q = p
  · rw [hq, update_self, hx]
  · rw [update_of_ne hq]

variable (h : Chained key live bk)
include h

omit [DecidableEq ι] [DecidableEq κ] in
/-- The hash of a member that is not in the table may change. -/
theorem Chained.congr (hkey : ∀ q, live q → key' q = key q) : Chained key' live bk := by
  refine ⟨fun b q => ?_, h.nodup⟩
  rw [h.mem]
  exact and_congr_right fun hq => by rw [hkey q hq]

omit [DecidableEq ι] [DecidableEq κ] in
theorem Chained.mem_own : p ∈ bk (key p) ↔ live p := by
  simp only [h.mem, and_true]

omit [DecidableEq ι] in
theorem Chained.link (hp : ¬live p) (hkey : ∀ q, live q → key' q = key q) (hb : key' p = b) :
    Chained key' (fun q => q = p ∨ live q) (link bk b p) := by
  refine ⟨fun c q => ?_, fun c => ?_⟩
  · have hmem : q ∈ Sol7.link bk b p c ↔ (c = b ∧ q = p) ∨ q ∈ bk c := by
      unfold Sol7.link
      by_cases hc : c = b
      · simp [hc]
      · simp [hc]
    rw [hmem, h.mem]
    constructor
    · rintro (⟨rfl, rfl⟩ | ⟨hq, hk⟩)
      · exact ⟨.inl rfl, hb⟩
      · exact ⟨.inr hq, (hkey q hq).trans hk⟩
    · rintro ⟨rfl | hq, hk⟩
      · exact .inl ⟨hk.symm.trans hb, rfl⟩
      · exact .inr ⟨hq, (hkey q hq).symm.trans hk⟩
  · unfold Sol7.link
    by_cases hc : c = b
    · subst hc
      rw [update_self]
      exact List.nodup_cons.mpr ⟨fun hmem => hp ((h.mem _ _).mp hmem).1, h.nodup c⟩
    · rw [update_of_ne hc]
      exact h.nodup c

theorem Chained.unlink (hkey : ∀ q, live q → q ≠ p → key' q = key q)
    (hb : key p = b) : Chained key' (fun q => live q ∧ q ≠ p) (unlink bk b p) := by
  refine ⟨fun c q => ?_, fun c => ?_⟩
  · have hmem : q ∈ Sol7.unlink bk b p c ↔ q ∈ bk c ∧ (c = b → q ≠ p) := by
      unfold Sol7.unlink
      by_cases hc : c = b
      · simp [hc, (h.nodup b).mem_erase_iff, and_comm]
      · simp [hc]
    rw [hmem, h.mem]
    constructor
    · rintro ⟨⟨hq, hk⟩, hc⟩
      have hne : q ≠ p := fun heq => hc (by rw [← hk, heq, hb]) heq
      exact ⟨⟨hq, hne⟩, (hkey q hq hne).trans hk⟩
    · exact fun ⟨⟨hq, hne⟩, hk⟩ => ⟨⟨hq, (hkey q hq hne).symm.trans hk⟩, fun _ => hne⟩
  · unfold Sol7.unlink
    by_cases hc : c = b
    · subst hc
      rw [update_self]
      exact (h.nodup c).erase p
    · rw [update_of_ne hc]
      exact h.nodup c

end Sol7
