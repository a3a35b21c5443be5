import Mathlib

/-!
# Spans in Order, and the Holes Between Them

A list of things that each take up a span of positions, in order and apart.
Spans may touch. The holes are what is left of a range: before the first span,
between two that do not touch, and behind the last.

## Main definitions

* `Spans.InOrder`: The spans are not empty, in order, and apart.
* `Spans.Covered`: A position is in one of the spans.
* `Spans.holes`: How many holes there are up to an end.
* `Spans.lastKey`, `Spans.linkAfter`: A chain with a pointer to its last thing.

## Theorems

* `Spans.holes_eq_zero_iff`: No holes means that everything is covered.
* `Spans.holes_concat`: One more span behind the last.
* `Spans.find_last`, `Spans.linkAfter_last`: Following the pointer to the last.
-/

namespace Sol7.Spans

open List Option

section
variable {α : Type*} (lo hi : α → Nat)

/-- The spans are not empty, in order, and apart. -/
structure InOrder (ps : List α) : Prop where
  nonempty : ∀ p ∈ ps, lo p < hi p
  apart : ps.Pairwise fun p q => hi p ≤ lo q

/-- A position is in one of the spans. -/
def Covered (ps : List α) (x : Nat) : Prop := ∃ p ∈ ps, lo p ≤ x ∧ x < hi p

/-- The number of holes from one position to the end of a range. -/
def holes (stop : Nat) : Nat → List α → Int
  | a, [] => if a = stop then 0 else 1
  | a, p :: ps => (if a = lo p then 0 else 1) + holes stop (hi p) ps

theorem holes_nonneg (stop : Nat) (ps : List α) : ∀ a, 0 ≤ holes lo hi stop a ps := by
  induction ps with
  | nil =>
    intro a
    rw [holes]
    split <;> omega
  | cons p ps ih =>
    intro a
    have h := ih (hi p)
    rw [holes]
    split <;> omega

variable {lo hi} {p q : α} {ps : List α}

theorem InOrder.nil : InOrder lo hi [] := ⟨nofun, .nil⟩

theorem InOrder.singleton (h : lo p < hi p) : InOrder lo hi [p] :=
  ⟨fun _ hq => mem_singleton.mp hq ▸ h, pairwise_singleton _ _⟩

section
variable (h : InOrder lo hi (p :: ps))
include h

theorem InOrder.head : lo p < hi p := h.nonempty p mem_cons_self

theorem InOrder.tail : InOrder lo hi ps :=
  ⟨(forall_mem_cons.mp h.nonempty).2, (pairwise_cons.mp h.apart).2⟩

theorem InOrder.head_le : ∀ q ∈ ps, hi p ≤ lo q :=
  (pairwise_cons.mp h.apart).1

/-- What is before the first span is before all of them. -/
theorem InOrder.le_lo {x : Nat} (hx : x ≤ lo p) : ∀ q ∈ p :: ps, x ≤ lo q :=
  forall_mem_cons.mpr ⟨hx, fun q hq =>
    le_trans hx (le_trans (le_of_lt h.head) (h.head_le q hq))⟩

end

/-- A span before the first one. -/
theorem InOrder.cons (h : InOrder lo hi (q :: ps)) (hp : lo p < hi p) (hle : hi p ≤ lo q) :
    InOrder lo hi (p :: q :: ps) :=
  ⟨forall_mem_cons.mpr ⟨hp, h.nonempty⟩, pairwise_cons.mpr ⟨h.le_lo hle, h.apart⟩⟩

/-- A span behind the last one. -/
theorem InOrder.concat (h : InOrder lo hi ps) (hp : lo p < hi p) (hle : ∀ q ∈ ps, hi q ≤ lo p) :
    InOrder lo hi (ps ++ [p]) := by
  constructor
  · exact forall_mem_append.mpr ⟨h.nonempty, forall_mem_singleton.mpr hp⟩
  refine pairwise_append.mpr ⟨h.apart, pairwise_singleton _ _, ?_⟩
  intro a ha b hb
  rw [mem_singleton] at hb
  rw [hb]
  exact hle a ha

/-- All spans end where the last one does, or before. -/
theorem InOrder.le_last (h : InOrder lo hi (ps ++ [p])) : ∀ q ∈ ps, hi q ≤ lo p := by
  intro q hq
  exact (pairwise_append.mp h.apart).2.2 q hq p (mem_singleton.mpr rfl)

theorem covered_nil {x : Nat} : ¬Covered lo hi [] x := by
  rintro ⟨p, hp, -⟩
  cases hp

theorem covered_cons {x : Nat} :
    Covered lo hi (p :: ps) x ↔ (lo p ≤ x ∧ x < hi p) ∨ Covered lo hi ps x :=
  exists_mem_cons_iff _ _ _

theorem covered_concat {x : Nat} :
    Covered lo hi (ps ++ [p]) x ↔ Covered lo hi ps x ∨ (lo p ≤ x ∧ x < hi p) := by
  constructor
  · rintro ⟨q, hq, hx⟩
    rcases mem_append.mp hq with hq | hq
    · exact .inl ⟨q, hq, hx⟩
    · rw [mem_singleton] at hq
      exact .inr (hq ▸ hx)
  · rintro (⟨q, hq, hx⟩ | hx)
    · exact ⟨q, mem_append_left _ hq, hx⟩
    · exact ⟨p, mem_append_right _ (mem_singleton.mpr rfl), hx⟩

/-- No holes means that everything is covered. -/
theorem holes_eq_zero_iff {stop : Nat} (hord : InOrder lo hi ps)
    (hstop : ∀ p ∈ ps, hi p ≤ stop) : ∀ a, a ≤ stop → (∀ p ∈ ps, a ≤ lo p) →
    (holes lo hi stop a ps = 0 ↔ ∀ x, a ≤ x → x < stop → Covered lo hi ps x) := by
  induction ps with
  | nil =>
    intro a ha _
    rw [holes]
    constructor
    · intro h x hx hlt
      split at h <;> omega
    · intro h
      by_cases heq : a = stop
      · rw [if_pos heq]
      · exact absurd (h a le_rfl (by omega)) covered_nil
  | cons p ps ih =>
    intro a ha hlo
    have hp := hlo p mem_cons_self
    have hlt := hord.head
    have hnn := holes_nonneg lo hi stop ps (hi p)
    have hrest := ih hord.tail ((forall_mem_cons.mp hstop).2) (hi p)
      (hstop p mem_cons_self) hord.head_le
    rw [holes]
    constructor
    · intro h x hx hxs
      rw [covered_cons]
      split at h
      · next heq =>
        by_cases hin : x < hi p
        · exact .inl ⟨by omega, hin⟩
        · exact .inr (hrest.mp (by omega) x (by omega) hxs)
      · omega
    · intro h
      -- The first position is covered by the first span, as the others begin
      -- behind it.
      have hfirst : a = lo p := by
        rcases covered_cons.mp (h a le_rfl (by have := hstop p mem_cons_self; omega))
          with hin | ⟨q, hq, hin⟩
        · omega
        · have := hord.head_le q hq
          omega
      rw [if_pos hfirst, Int.zero_add, hrest]
      intro x hx hxs
      rcases covered_cons.mp (h x (by omega) hxs) with hin | hin
      · omega
      · exact hin

/-- One more span behind the last. -/
theorem holes_concat (stop : Nat) (ps : List α) : ∀ a, holes lo hi stop a (ps ++ [q] ++ [p]) =
    holes lo hi stop a (ps ++ [q]) - (if hi q = stop then 0 else 1) +
      (if hi q = lo p then 0 else 1) + (if hi p = stop then 0 else 1) := by
  induction ps with
  | nil =>
    intro a
    simp only [nil_append, cons_append, holes]
    omega
  | cons r ps ih =>
    intro a
    simp only [cons_append, holes] at ih ⊢
    rw [ih (hi r)]
    omega

end

/-! ### A pointer to the last one -/

variable {α κ : Type*} (key : α → κ)

/-- The key of the last thing. -/
def lastKey (ps : List α) : Option κ := ps.getLast?.map key

/-- Link a chain behind the thing with a key, in place of what is there. -/
def linkAfter [DecidableEq κ] (k : κ) (new : List α) : List α → List α
  | [] => []
  | q :: ps => if key q = k then q :: new else q :: linkAfter k new ps

variable {key} {p q : α} {ps : List α} {k : κ}

/-- Keys of which some are dropped stay apart. -/
theorem nodup_of_subperm {l m : List κ} (h : l.Subperm m) (hm : m.Nodup) : l.Nodup := by
  obtain ⟨l', hperm, hsub⟩ := h
  exact hperm.nodup_iff.mp (hsub.nodup hm)

theorem lastKey_concat : lastKey key (ps ++ [p]) = some (key p) := by
  unfold lastKey
  rw [getLast?_append_of_ne_nil _ (cons_ne_nil _ _), getLast?_singleton, map_some]

theorem lastKey_cons_cons : lastKey key (p :: q :: ps) = lastKey key (q :: ps) := by
  unfold lastKey
  rw [getLast?_cons_cons]

variable [DecidableEq κ]

/-- The pointer leads to the last thing, as no other one has its key. -/
theorem find_last (hnd : ((ps ++ [q]).map key).Nodup) :
    (ps ++ [q]).find? (fun r => key r = key q) = some q := by
  rw [map_append, nodup_append] at hnd
  have hnone : ps.find? (fun r => decide (key r = key q)) = none := by
    rw [find?_eq_none]
    intro r hr heq
    exact hnd.2.2 (key r) (mem_map_of_mem hr) (key q) (by simp) (by simpa using heq)
  simp [hnone]

/-- Linking behind the last thing. -/
theorem linkAfter_last (new : List α) (hnd : ((ps ++ [q]).map key).Nodup) :
    linkAfter key (key q) new (ps ++ [q]) = ps ++ [q] ++ new := by
  induction ps with
  | nil => simp [linkAfter]
  | cons r ps ih =>
    have hne : key r ≠ key q := by
      intro heq
      rw [cons_append, map_cons, nodup_cons, heq] at hnd
      exact hnd.1 (by simp)
    rw [cons_append, map_cons, nodup_cons] at hnd
    simp only [cons_append, linkAfter, if_neg hne, ih hnd.2]

end Sol7.Spans
