import Mathlib

/-!
# Runs in a Window of Bits

A window is the first `n` places of a sequence of bits. A run is a stretch of set
bits that cannot be made longer within the window.

Clearing bits from the start of a run leaves every other run as it is and makes
this one shorter, or makes it disappear.

## Main definitions

* `Full`: All bits of a window are set.
* `count`: The number of set bits.
* `IsRun`: A run, by its first bit and its length.
* `runs`: The number of runs of a length.
* `runsFrom`: The same, from a place on.
* `wholes`, `pieces`: Full and broken windows in a row of windows.
* `put`: Store a bit in the places from one on; `cut` clears and `fill` sets
  them.

## Theorems

* `isRun_cut`: The runs after bits have been cleared from the start of one.
* `runs_cut`, `count_cut`, `IsRun.full_iff`: What that changes.
* `wholes_update`, `pieces_update`: One window of a row changes.
-/

namespace Sol7.Runs

open Finset (range card_eq_zero filter_eq_empty_iff mem_filter mem_range mem_Ico mem_insert mem_erase filter_congr sum_congr)

open Function Finset

variable (w : Nat → Bool) (n : Nat)

/-- All bits of the window are set. -/
def Full : Prop := ∀ i < n, w i = true

instance : Decidable (Full w n) := inferInstanceAs (Decidable (∀ i < n, w i = true))

/-- The number of set bits. -/
def count : Nat := ((range n).filter fun i => w i = true).card

/-- The `k` bits from `i` on are set, and the bits next to them are not, or are
    outside of the window. -/
structure IsRun (i k : Nat) : Prop where
  pos : 0 < k
  le : i + k ≤ n
  mem : ∀ j < k, w (i + j) = true
  left : i = 0 ∨ w (i - 1) = false
  right : i + k = n ∨ w (i + k) = false

instance (i k : Nat) : Decidable (IsRun w n i k) :=
  decidable_of_iff
    (0 < k ∧ i + k ≤ n ∧ (∀ j < k, w (i + j) = true) ∧ (i = 0 ∨ w (i - 1) = false) ∧
      (i + k = n ∨ w (i + k) = false))
    ⟨fun ⟨h1, h2, h3, h4, h5⟩ => ⟨h1, h2, h3, h4, h5⟩,
      fun ⟨h1, h2, h3, h4, h5⟩ => ⟨h1, h2, h3, h4, h5⟩⟩

/-- The number of runs of a length. -/
def runs (k : Nat) : Nat := ((range n).filter fun i => IsRun w n i k).card

/-- The number of runs of a length that begin at `i` or after it. -/
def runsFrom (k i : Nat) : Nat := ((range n).filter fun j => i ≤ j ∧ IsRun w n j k).card

/-- Store a bit in `f` places from `i` on. -/
def put (v : Bool) (i f : Nat) : Nat → Bool := fun j => if i ≤ j ∧ j < i + f then v else w j

/-- Clear `f` bits from `i` on. -/
def cut (i f : Nat) : Nat → Bool := put w false i f

/-- Set `f` bits from `i` on. -/
def fill (i f : Nat) : Nat → Bool := put w true i f

variable {w n} {i k f : Nat} {j l : Nat}

theorem put_inside {v : Bool} (h : i ≤ j ∧ j < i + f) : put w v i f j = v := if_pos h

theorem put_outside {v : Bool} (h : ¬(i ≤ j ∧ j < i + f)) : put w v i f j = w j := if_neg h

theorem cut_inside (h : i ≤ j ∧ j < i + f) : cut w i f j = false := put_inside h

theorem cut_outside (h : ¬(i ≤ j ∧ j < i + f)) : cut w i f j = w j := put_outside h

theorem fill_inside (h : i ≤ j ∧ j < i + f) : fill w i f j = true := put_inside h

theorem fill_outside (h : ¬(i ≤ j ∧ j < i + f)) : fill w i f j = w j := put_outside h

/-- A bit that is set was not cleared. -/
theorem of_cut (h : cut w i f j = true) : ¬(i ≤ j ∧ j < i + f) ∧ w j = true := by
  by_cases hin : i ≤ j ∧ j < i + f
  · rw [cut_inside hin] at h
    cases h
  · rw [cut_outside hin] at h
    exact ⟨hin, h⟩

/-! ### Whole and empty windows -/

theorem Full.count_eq (h : Full w n) : count w n = n := by
  unfold count
  rw [filter_true_of_mem fun j hj => h j (mem_range.mp hj), card_range]

/-- In a full window there is only the run of all of it. -/
theorem Full.eq_of_isRun (h : Full w n) (hr : IsRun w n i k) : k = n := by
  have hle := hr.le
  have hpos := hr.pos
  have hi : i = 0 := by
    rcases hr.left with h0 | hl
    · exact h0
    · rw [h (i - 1) (by omega)] at hl
      cases hl
  rcases hr.right with hk | hk
  · omega
  · by_contra hne
    rw [h (i + k) (by omega)] at hk
    cases hk

theorem Full.runs_eq_zero (h : Full w n) (hk : k ≠ n) : runs w n k = 0 := by
  unfold runs
  rw [card_eq_zero, filter_eq_empty_iff]
  intro j _ hr
  exact hk (h.eq_of_isRun hr)

theorem Full.isRun (h : Full w n) (hn : 0 < n) : IsRun w n 0 n :=
  ⟨hn, le_of_eq (zero_add n), fun j hj => h _ (by omega), .inl rfl, .inl (zero_add n)⟩

/-- A run is all of the window just if the window is full. -/
theorem IsRun.full_iff (h : IsRun w n i k) : Full w n ↔ k = n := by
  constructor
  · exact fun hf => hf.eq_of_isRun h
  rintro rfl j hj
  have hi : i = 0 := by
    have := h.le
    omega
  have hm := h.mem j hj
  rw [hi, zero_add] at hm
  exact hm

theorem runs_eq_zero (h : ∀ j < n, w j = false) : runs w n k = 0 := by
  unfold runs
  rw [card_eq_zero, filter_eq_empty_iff]
  intro j _ hr
  have hm := hr.mem 0 hr.pos
  have hle := hr.le
  have hpos := hr.pos
  rw [h (j + 0) (by omega)] at hm
  cases hm

theorem count_eq_zero (h : ∀ j < n, w j = false) : count w n = 0 := by
  unfold count
  rw [card_eq_zero, filter_eq_empty_iff]
  intro j hj hw
  rw [h j (mem_range.mp hj)] at hw
  cases hw

/-! ### Setting bits -/

/-- Bits that were clear are set. -/
theorem count_fill (hle : i + f ≤ n) (hclear : ∀ j, i ≤ j → j < i + f → w j = false) :
    count (fill w i f) n = count w n + f := by
  have hsplit : (range n).filter (fun j => fill w i f j = true) =
      (range n).filter (fun j => w j = true) ∪ Finset.Ico i (i + f) := by
    ext j
    rw [mem_union, mem_filter, mem_filter, mem_range, mem_Ico]
    by_cases hin : i ≤ j ∧ j < i + f
    · rw [fill_inside hin]
      constructor
      · exact fun _ => .inr hin
      · exact fun _ => ⟨by omega, rfl⟩
    · rw [fill_outside hin]
      constructor
      · exact .inl
      · rintro (h | h)
        · exact h
        · exact absurd h hin
  unfold count
  rw [hsplit, card_union_of_disjoint, Nat.card_Ico, Nat.add_sub_cancel_left]
  rw [disjoint_left]
  intro j hj hin
  rw [mem_Ico] at hin
  have := (mem_filter.mp hj).2
  rw [hclear j hin.1 hin.2] at this
  cases this

/-! ### Clearing the start of a run -/

section
variable (h : IsRun w n i k)
include h

/-- A run that begins before another one does not touch it. -/
theorem IsRun.before (h' : IsRun w n j l) (hlt : j < i) : j + l < i := by
  by_contra hno
  have hm := h'.mem (i - 1 - j) (by omega)
  rw [Nat.add_sub_cancel' (by omega)] at hm
  rcases h.left with h0 | hl
  · omega
  · rw [hl] at hm
    cases hm

/-- Two runs do not touch each other. -/
theorem IsRun.apart (h' : IsRun w n j l) (hne : j ≠ i) : j + l < i ∨ i + k < j := by
  rcases Nat.lt_or_gt_of_ne hne with hlt | hgt
  · exact .inl (h.before h' hlt)
  · exact .inr (h'.before h hgt)

/-- The runs after bits have been cleared from the start of one: the others, and
    what is left of it. -/
theorem isRun_cut (hf : 0 < f) (hfk : f ≤ k) (j l : Nat) :
    IsRun (cut w i f) n j l ↔ (IsRun w n j l ∧ j ≠ i) ∨ (j = i + f ∧ l = k - f ∧ f < k) := by
  have hle := h.le
  constructor
  · intro h'
    have hle' := h'.le
    have hpos' := h'.pos
    have hfirst := of_cut (h'.mem 0 hpos')
    by_cases hj : j = i + f
    · -- It is what is left, so both end where the old one did.
      refine .inr ⟨hj, ?_⟩
      have hend : l ≤ k - f := by
        by_contra hno
        have hm := (of_cut (h'.mem (k - f) (by omega))).2
        rw [show j + (k - f) = i + k by omega] at hm
        rcases h.right with hr | hr
        · omega
        · rw [hr] at hm
          cases hm
      refine ⟨le_antisymm hend ?_, by omega⟩
      by_contra hno
      rcases h'.right with hr | hr
      · omega
      · rw [cut_outside (by omega)] at hr
        have hm := h.mem (f + l) (by omega)
        rw [← add_assoc, ← hj, hr] at hm
        cases hm
    · refine .inl ⟨⟨hpos', hle', fun t ht => (of_cut (h'.mem t ht)).2, ?_, ?_⟩, ?_⟩
      · rcases h'.left with h0 | hl
        · exact .inl h0
        · by_cases h0 : j = 0
          · exact .inl h0
          · rw [cut_outside (by omega)] at hl
            exact .inr hl
      · rcases h'.right with hr | hr
        · exact .inl hr
        · refine .inr ?_
          by_cases hin : i ≤ j + l ∧ j + l < i + f
          · -- Then it ends right before the old one, which would have been longer.
            have hlast := of_cut (h'.mem (l - 1) (by omega))
            have heq : j + (l - 1) = i - 1 := by omega
            rw [heq] at hlast
            rcases h.left with h0 | hl
            · omega
            · rw [hl] at hlast
              cases hlast.2
          · rw [cut_outside hin] at hr
            exact hr
      · omega
  · rintro (⟨h', hne⟩ | ⟨rfl, rfl, hlt⟩)
    · have hout : ∀ t, j ≤ t + 1 → t ≤ j + l → ¬(i ≤ t ∧ t < i + f) := by
        intro t h1 h2
        rcases h.apart h' hne with hlt | hgt
        · omega
        · omega
      refine ⟨h'.pos, h'.le, ?_, ?_, ?_⟩
      · intro t ht
        rw [cut_outside (hout _ (by omega) (by omega))]
        exact h'.mem t ht
      · refine h'.left.imp_right fun hl => ?_
        rw [cut_outside (hout _ (by omega) (by omega))]
        exact hl
      · refine h'.right.imp_right fun hr => ?_
        rw [cut_outside (hout _ (by omega) (by omega))]
        exact hr
    · refine ⟨by omega, by omega, ?_, ?_, ?_⟩
      · intro t ht
        rw [cut_outside (by omega), add_assoc]
        exact h.mem (f + t) (by omega)
      · exact .inr (cut_inside (by omega))
      · rcases h.right with hr | hr
        · exact .inl (by omega)
        · refine .inr ?_
          rw [cut_outside (by omega), show i + f + (k - f) = i + k by omega]
          exact hr

/-- A run has one length. -/
theorem IsRun.length_unique (h' : IsRun w n i l) : k = l := by
  rcases lt_trichotomy k l with hlt | heq | hgt
  · have hm := h'.mem k hlt
    have := h'.le
    rcases h.right with hr | hr
    · omega
    · rw [hr] at hm
      cases hm
  · exact heq
  · have hm := h.mem l hgt
    have := h.le
    rcases h'.right with hr | hr
    · omega
    · rw [hr] at hm
      cases hm

/-- How many runs there are after bits have been cleared from the start of one. -/
theorem runs_cut (hf : 0 < f) (hfk : f ≤ k) (hl : 0 < l) :
    runs (cut w i f) n l + (if l = k then 1 else 0) =
      runs w n l + (if l = k - f then 1 else 0) := by
  have hle := h.le
  -- The runs of this length without the one in question, before and after.
  have hold : runs w n l =
      (((range n).filter fun j => IsRun w n j l).erase i).card + if l = k then 1 else 0 := by
    unfold runs
    by_cases hlk : l = k
    · rw [if_pos hlk, card_erase_add_one]
      exact mem_filter.mpr ⟨mem_range.mpr (by omega), hlk ▸ h⟩
    · rw [if_neg hlk, erase_eq_of_notMem]
      · rfl
      · intro hmem
        exact hlk (h.length_unique (mem_filter.mp hmem).2).symm
  have hnew : runs (cut w i f) n l = (((range n).filter fun j => IsRun w n j l).erase i).card +
        if l = k - f then 1 else 0 := by
    unfold runs
    by_cases hlk : l = k - f
    · have hset : (range n).filter (fun j => IsRun (cut w i f) n j l) =
          insert (i + f) (((range n).filter fun j => IsRun w n j l).erase i) := by
        ext j
        rw [mem_filter, isRun_cut h hf hfk, mem_insert, mem_erase, mem_filter, mem_range]
        constructor
        · rintro ⟨hj, ⟨hr, hne⟩ | ⟨hj', -, -⟩⟩
          · exact .inr ⟨hne, hj, hr⟩
          · exact .inl hj'
        · rintro (hj | ⟨hne, hj, hr⟩)
          · exact ⟨by omega, .inr ⟨hj, hlk, by omega⟩⟩
          · exact ⟨hj, .inl ⟨hr, hne⟩⟩
      rw [hset, if_pos hlk, card_insert_of_notMem]
      -- The rest of the old run does not begin a run of its own.
      intro hmem
      have hr := (mem_filter.mp (mem_erase.mp hmem).2).2
      rcases h.apart hr (by omega) with hlt | hgt
      · omega
      · omega
    · rw [if_neg hlk, add_zero]
      congr 1
      ext j
      rw [mem_filter, isRun_cut h hf hfk, mem_erase, mem_filter]
      constructor
      · rintro ⟨hj, ⟨hr, hne⟩ | ⟨-, hj', -⟩⟩
        · exact ⟨hne, hj, hr⟩
        · exact absurd hj' hlk
      · rintro ⟨hne, hj, hr⟩
        exact ⟨hj, .inl ⟨hr, hne⟩⟩
  omega

theorem count_cut (hfk : f ≤ k) : count (cut w i f) n + f = count w n := by
  have hle := h.le
  -- Setting them again gives the old window back.
  have hback : fill (cut w i f) i f = w := by
    funext j
    by_cases hin : i ≤ j ∧ j < i + f
    · rw [fill_inside hin]
      have hm := h.mem (j - i) (by omega)
      rw [Nat.add_sub_cancel' hin.1] at hm
      exact hm.symm
    · rw [fill_outside hin, cut_outside hin]
  have hcount : count (fill (cut w i f) i f) n = count (cut w i f) n + f :=
    count_fill (by omega) fun j h1 h2 => cut_inside ⟨h1, h2⟩
  rw [hback] at hcount
  exact hcount.symm

end

/-! ### Counting from a place on -/

theorem runsFrom_zero : runsFrom w n k 0 = runs w n k := by
  unfold runsFrom runs
  congr 1
  exact filter_congr fun j _ => ⟨fun h => h.2, fun h => ⟨zero_le, h⟩⟩

/-- There is no room for a run. -/
theorem runsFrom_of_lt (h : n < k + i) : runsFrom w n k i = 0 := by
  unfold runsFrom
  rw [card_eq_zero, filter_eq_empty_iff]
  rintro j _ ⟨hij, hr⟩
  have := hr.le
  omega

theorem runsFrom_of_not (h : ¬IsRun w n i k) : runsFrom w n k i = runsFrom w n k (i + 1) := by
  unfold runsFrom
  congr 1
  refine filter_congr fun j _ => ?_
  constructor
  · rintro ⟨hij, hr⟩
    refine ⟨?_, hr⟩
    by_contra hno
    rw [show j = i by omega] at hr
    exact h hr
  · rintro ⟨hij, hr⟩
    exact ⟨by omega, hr⟩

/-- The next run begins after the end of one and a clear bit. -/
theorem runsFrom_of_isRun (h : IsRun w n i k) :
    runsFrom w n k i = runsFrom w n k (i + k + 1) + 1 := by
  have hle := h.le
  have hpos := h.pos
  have hset : (range n).filter (fun j => i ≤ j ∧ IsRun w n j k) =
      insert i ((range n).filter fun j => i + k + 1 ≤ j ∧ IsRun w n j k) := by
    ext j
    rw [mem_insert, mem_filter, mem_filter, mem_range]
    constructor
    · rintro ⟨hj, hij, hr⟩
      by_cases heq : j = i
      · exact .inl heq
      · refine .inr ⟨hj, ?_, hr⟩
        rcases h.apart hr heq with hlt | hgt
        · omega
        · exact hgt
    · rintro (rfl | ⟨hj, hij, hr⟩)
      · exact ⟨by omega, le_rfl, h⟩
      · exact ⟨hj, by omega, hr⟩
  unfold runsFrom
  rw [hset, card_insert_of_notMem]
  intro hmem
  have := (mem_filter.mp hmem).2.1
  omega

/-! ### Rows of windows -/

/-- Some bits of the window are set, and some are not. -/
def Broken (w : Nat → Bool) (n : Nat) : Prop := (∃ i < n, w i = true) ∧ ∃ i < n, w i = false

instance (w : Nat → Bool) (n : Nat) : Decidable (Broken w n) := inferInstanceAs (Decidable (_ ∧ _))

section
variable (N n : Nat) (W : Nat → Nat → Bool)

/-- The number of full windows among the first `N`, of those selected. -/
def wholes (sel : Nat → Prop) [DecidablePred sel] : Nat :=
  ((range N).filter fun h => Full (W h) n ∧ sel h).card

/-- Something that is added up over the broken windows among the first `N`. -/
def pieces (f : (Nat → Bool) → Nat) : Nat := ∑ h ∈ (range N).filter fun h => Broken (W h) n, f (W h)

/-- What a window has in the number of full ones. -/
def whole (w : Nat → Bool) : Int := if Full w n then 1 else 0

/-- What a window has in something that is added up. -/
def piece (f : (Nat → Bool) → Nat) (w : Nat → Bool) : Int := if Full w n then 0 else f w

variable {N n W} {f : (Nat → Bool) → Nat} {w' : Nat → Bool} {h : Nat}

/-- One window of a row changes. -/
theorem sum_update {G : Nat → (Nat → Bool) → Int} (hh : h < N) :
    ∑ x ∈ range N, G x (update W h w' x) = ∑ x ∈ range N, G x (W x) - G h (W h) + G h w' := by
  have hmem := mem_range.mpr hh
  simp only [apply_update G]
  rw [sum_update_of_mem hmem, sum_eq_add_sum_sdiff_singleton_of_mem hmem]
  omega

theorem wholes_update (sel : Nat → Prop) [DecidablePred sel] (hh : h < N) :
    (wholes N n (update W h w') sel : Int) =
      wholes N n W sel + if sel h then whole n w' - whole n (W h) else 0 := by
  have hsum : ∀ V : Nat → Nat → Bool, (wholes N n V sel : Int) =
      ∑ x ∈ range N, if sel x then whole n (V x) else 0 := by
    intro V
    unfold wholes
    rw [card_filter, Nat.cast_sum]
    refine sum_congr rfl fun x _ => ?_
    unfold whole
    by_cases hs : sel x
    · simp [hs]
    · simp [hs]
  rw [hsum, hsum, sum_update (G := fun x w => if sel x then whole n w else 0) hh]
  by_cases hs : sel h
  · simp only [if_pos hs]
    omega
  · simp only [if_neg hs]
    omega

/-- What is zero for an empty window is added up over all that are not full. -/
theorem pieces_eq (hf : ∀ w : Nat → Bool, (∀ i < n, w i = false) → f w = 0) :
    (pieces N n W f : Int) = ∑ x ∈ range N, piece n f (W x) := by
  unfold pieces
  rw [sum_filter, Nat.cast_sum]
  refine sum_congr rfl fun x _ => ?_
  unfold piece
  by_cases hfull : Full (W x) n
  · rw [if_pos hfull, if_neg]
    · rfl
    · rintro ⟨-, i, hi, hb⟩
      rw [hfull i hi] at hb
      cases hb
  rw [if_neg hfull]
  by_cases hany : ∃ i < n, W x i = true
  · rw [if_pos]
    refine ⟨hany, ?_⟩
    by_contra hno
    refine hfull fun i hi => ?_
    by_contra hb
    exact hno ⟨i, hi, Bool.not_eq_true _ ▸ hb⟩
  · have hempty : ∀ i < n, W x i = false := by
      intro i hi
      by_contra hb
      exact hany ⟨i, hi, Bool.not_eq_false _ ▸ hb⟩
    rw [if_neg (fun hb => hany hb.1), hf _ hempty]

theorem pieces_update (hf : ∀ w : Nat → Bool, (∀ i < n, w i = false) → f w = 0) (hh : h < N) :
    (pieces N n (update W h w') f : Int) = pieces N n W f - piece n f (W h) + piece n f w' := by
  rw [pieces_eq hf, pieces_eq hf, sum_update hh]

/-- What a change of a window does to the number of full ones and to the counts of
    bits and of runs in the others. -/
structure Delta (n : Nat) (w w' : Nat → Bool) (nb nf : Int) (fr : Nat → Int) : Prop where
  full : whole n w' = whole n w + nb
  bits : piece n (fun v => count v n) w' = piece n (fun v => count v n) w + nf
  runs : ∀ k, 0 < k → k < n →
    piece n (fun v => runs v n k) w' = piece n (fun v => runs v n k) w + fr k

end

variable {w : Nat → Bool} {n i k f : Nat}

theorem not_full_cut (hf : 0 < f) (hle : i + f ≤ n) : ¬Full (cut w i f) n := by
  intro hfull
  have hb := hfull i (by omega)
  rw [cut_inside (by omega)] at hb
  cases hb

/-- The start of a run is cleared that is not all of the window. -/
theorem delta_cut (h : IsRun w n i k) (hk : k < n) (hf : 0 < f) (hfk : f ≤ k) :
    Delta n w (cut w i f) 0 (-f) fun l =>
      (if l = k - f then 1 else 0) - if l = k then 1 else 0 := by
  have hle := h.le
  have hold : ¬Full w n := by
    rw [h.full_iff]
    omega
  have hnew : ¬Full (cut w i f) n := not_full_cut hf (by omega)
  have hcount := count_cut h hfk
  refine ⟨?_, ?_, fun l hl _ => ?_⟩
  all_goals simp only [whole, piece, if_neg hold, if_neg hnew]
  · rfl
  · omega
  · have hruns := runs_cut h hf hfk hl
    split_ifs at hruns ⊢ <;> omega

/-- The start of a full window is cleared, or all of it. -/
theorem delta_hack (h : Full w n) (hf : 0 < f) (hfn : f ≤ n) :
    Delta n w (cut w 0 f) (-1) (n - f : Nat) fun l => if l = n - f then 1 else 0 := by
  have hr := h.isRun (by omega)
  have hnew : ¬Full (cut w 0 f) n := not_full_cut hf (by omega)
  have hcount := count_cut hr hfn
  rw [h.count_eq] at hcount
  refine ⟨?_, ?_, fun l hl hlt => ?_⟩
  all_goals simp only [whole, piece, if_pos h, if_neg hnew]
  · rfl
  · omega
  · have hruns := runs_cut hr hf hfn hl
    rw [h.runs_eq_zero (by omega)] at hruns
    split_ifs at hruns ⊢ <;> omega

/-- Bits are set. If this makes the window full, its bits are no longer counted. -/
theorem delta_fill (hf : 0 < f) (hle : i + f ≤ n) (hclear : ∀ j, i ≤ j → j < i + f → w j = false) :
    Delta n w (fill w i f) (whole n (fill w i f)) (f - whole n (fill w i f) * n) fun l =>
      runs (fill w i f) n l - runs w n l := by
  have hold : ¬Full w n := by
    intro hfull
    have hb := hfull i (by omega)
    rw [hclear i (by omega) (by omega)] at hb
    cases hb
  have hcount := count_fill hle hclear
  refine ⟨?_, ?_, fun l hl hlt => ?_⟩
  all_goals simp only [whole, piece, if_neg hold]
  · omega
  · by_cases hfull : Full (fill w i f) n
    · rw [hfull.count_eq] at hcount
      rw [if_pos hfull, if_pos hfull]
      omega
    · rw [if_neg hfull, if_neg hfull]
      omega
  · by_cases hfull : Full (fill w i f) n
    · rw [hfull.runs_eq_zero (by omega)]
      omega
    · rw [if_neg hfull]
      omega

end Sol7.Runs
