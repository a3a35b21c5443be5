import Mathlib

/-!
# Layers over a Base

What is seen at one place through a list of layers: a layer says something
about the place or lets one see through it, and later layers are on top.

Layers have a rank, by which they are ordered in the list. The layer on top is
then the one of highest rank. A layer can be taken away unseen if a higher one
covers the place, and the lowest layers can be melted into the base.

## Main definitions

* `overlay`: What is seen through a list of layers.

## Theorems

* `overlay_eq_argmax`: The layer of highest rank is seen.
* `overlay_filterMap`: Layers that are covered may be taken away.
* `overlay_melt`: The lowest layers may be melted into the base.
-/

namespace Sol7

open List Option

variable {ε β : Type*}

/-- Put layers over a base, one after the other. -/
def overlay (val : ε → Option β) : List ε → β → β
  | [], b => b
  | e :: es, b => overlay val es ((val e).getD b)

variable {val : ε → Option β}

theorem overlay_append (es fs : List ε) (b : β) :
    overlay val (es ++ fs) b = overlay val fs (overlay val es b) := by
  induction es generalizing b with
  | nil => rfl
  | cons e es ih => exact ih _

variable {es : List ε}

/-- Nothing is seen of layers that say nothing. -/
theorem overlay_of_none (h : ∀ e ∈ es, val e = none) (b : β) : overlay val es b = b := by
  induction es generalizing b with
  | nil => rfl
  | cons e es ih =>
    rw [forall_mem_cons] at h
    rw [overlay, h.1]
    exact ih h.2 b

/-- Nothing is seen of the base through a layer that says something. -/
theorem overlay_of_some {e : ε} (he : e ∈ es) (hv : val e ≠ none) (b b' : β) :
    overlay val es b = overlay val es b' := by
  induction es generalizing b b' with
  | nil => cases he
  | cons d es ih =>
    rw [overlay, overlay]
    cases hd : val d with
    | some v => rfl
    | none =>
      rcases mem_cons.mp he with rfl | he
      · exact absurd hd hv
      · exact ih he b b'

/-- What is seen is the base, or what some layer says. -/
theorem overlay_eq_or_mem (val : ε → Option β) (es : List ε) (b : β) :
    overlay val es b = b ∨ ∃ e ∈ es, val e = some (overlay val es b) := by
  induction es generalizing b with
  | nil => exact .inl rfl
  | cons e es ih =>
    rw [overlay]
    cases hv : val e with
    | none =>
      rcases ih b with hb | ⟨d, hd, heq⟩
      · exact .inl hb
      · exact .inr ⟨d, mem_cons_of_mem _ hd, heq⟩
    | some v =>
      rcases ih v with hb | ⟨d, hd, heq⟩
      · refine .inr ⟨e, mem_cons_self, ?_⟩
        rw [hv, getD_some, hb]
      · exact .inr ⟨d, mem_cons_of_mem _ hd, heq⟩

/-- Only what the layers say matters. -/
theorem overlay_map {ε' : Type*} {val' : ε' → Option β} (f : ε → ε') (es : List ε)
    (h : ∀ e ∈ es, val' (f e) = val e) (b : β) : overlay val' (es.map f) b = overlay val es b := by
  induction es generalizing b with
  | nil => rfl
  | cons e es ih =>
    rw [forall_mem_cons] at h
    rw [map_cons, overlay, h.1]
    exact ih h.2 _

/-- Layers that say nothing may be left out. -/
theorem overlay_filter {p : ε → Bool} (h : ∀ e ∈ es, p e = false → val e = none) (b : β) :
    overlay val (es.filter p) b = overlay val es b := by
  induction es generalizing b with
  | nil => rfl
  | cons e es ih =>
    rw [forall_mem_cons] at h
    cases hp : p e with
    | true =>
      rw [filter_cons_of_pos hp]
      exact ih h.2 _
    | false =>
      rw [filter_cons_of_neg (by simp [hp]), ih h.2, overlay, h.1 hp]
      rfl

variable {rank : ε → Nat} {es : List ε} (hs : es.Pairwise fun d e => rank d < rank e)
include hs

/-- The layer of highest rank is seen. -/
theorem overlay_of_top {e : ε} {v : β} (he : e ∈ es)
    (hv : val e = some v) (htop : ∀ d ∈ es, val d ≠ none → rank d ≤ rank e) (b : β) :
    overlay val es b = v := by
  induction es generalizing b with
  | nil => cases he
  | cons d es ih =>
    rw [pairwise_cons] at hs
    rcases mem_cons.mp he with rfl | he
    · rw [overlay, hv]
      refine overlay_of_none (fun d hd => ?_) _
      by_contra hsome
      exact not_lt.mpr (htop d (mem_cons_of_mem _ hd) hsome) (hs.1 d hd)
    · exact ih hs.2 he ((forall_mem_cons.mp htop).2) _

theorem overlay_eq_argmax (b : β) : overlay val es b =
      ((List.argmax rank (es.filter fun e => (val e).isSome)).bind val).getD b := by
  cases htop : List.argmax rank (es.filter fun e => (val e).isSome) with
  | none =>
    rw [argmax_eq_none, filter_eq_nil_iff] at htop
    refine overlay_of_none (fun e he => ?_) b
    exact not_isSome_iff_eq_none.mp (htop e he)
  | some e =>
    have hmem := mem_filter.mp (argmax_mem htop)
    obtain ⟨v, hv⟩ := isSome_iff_exists.mp hmem.2
    rw [bind_some, hv]
    refine overlay_of_top hs hmem.1 hv (fun d hd hsome => ?_) b
    exact le_of_mem_argmax
      (mem_filter.mpr ⟨hd, isSome_iff_ne_none.mpr hsome⟩) htop

/-- Layers may be changed in what is not seen of them, and those may be taken
    away that are covered by one that stays. -/
theorem overlay_filterMap {f : ε → Option ε}
    (hkeep : ∀ e ∈ es, ∀ e', f e = some e' → val e' = val e)
    (hdrop : ∀ e ∈ es, f e = none → val e ≠ none →
      ∃ d ∈ es, rank e < rank d ∧ val d ≠ none ∧ f d ≠ none) (b : β) :
    overlay val (es.filterMap f) b = overlay val es b := by
  induction es generalizing b with
  | nil => rfl
  | cons e es ih =>
    rw [pairwise_cons] at hs
    rw [forall_mem_cons] at hkeep
    -- A layer further up is not covered by the lowest one.
    have hrest : ∀ d ∈ es, f d = none → val d ≠ none →
        ∃ d' ∈ es, rank d < rank d' ∧ val d' ≠ none ∧ f d' ≠ none := by
      intro d hd hf hv
      obtain ⟨d', hd', hlt, hrest⟩ := hdrop d (mem_cons_of_mem _ hd) hf hv
      rcases mem_cons.mp hd' with rfl | hd'
      · exact absurd (hs.1 d hd) (lt_asymm hlt)
      · exact ⟨d', hd', hlt, hrest⟩
    rw [filterMap_cons]
    cases hf : f e with
    | some e' =>
      rw [overlay, overlay, hkeep.1 e' hf]
      exact ih hs.2 hkeep.2 hrest _
    | none =>
      rw [overlay, ih hs.2 hkeep.2 hrest]
      cases hv : val e with
      | none => rfl
      | some v =>
        obtain ⟨d, hd, hlt, hdv, _⟩ := hdrop e mem_cons_self hf (by rw [hv]; exact some_ne_none v)
        rcases mem_cons.mp hd with rfl | hd
        · exact absurd hlt (lt_irrefl _)
        · exact overlay_of_some hd hdv _ _

/-- If the layers with a property are lower than all others, as far as they
    say anything, they may be melted into the base. -/
theorem overlay_melt {p : ε → Bool}
    (hlow : ∀ d ∈ es, ∀ e ∈ es, val d ≠ none → val e ≠ none → p d = false → p e = true →
      rank e < rank d) (b : β) : overlay val es b =
      overlay val (es.filter fun e => !p e) (overlay val (es.filter p) b) := by
  induction es generalizing b with
  | nil => rfl
  | cons e es ih =>
    rw [pairwise_cons] at hs
    have hrest := ih hs.2 fun d hd e' he' =>
      hlow d (mem_cons_of_mem _ hd) e' (mem_cons_of_mem _ he')
    cases hp : p e with
    | true =>
      rw [filter_cons_of_neg (by rw [hp]; decide), filter_cons_of_pos hp]
      exact hrest _
    | false =>
      rw [filter_cons_of_pos (by rw [hp]; rfl),
        filter_cons_of_neg (by rw [hp]; decide), overlay, overlay, hrest]
      cases hv : val e with
      | none => rfl
      | some v =>
        -- Everything above is above this one, so nothing of it is melted.
        have hnone : ∀ d ∈ es.filter p, val d = none := by
          intro d hd
          rw [mem_filter] at hd
          by_contra hsome
          have hlt := hlow e mem_cons_self d (mem_cons_of_mem _ hd.1)
            (by rw [hv]; exact some_ne_none v) hsome hp hd.2
          exact lt_asymm hlt (hs.1 d hd.1)
        rw [overlay_of_none hnone, overlay_of_none hnone]

end Sol7
