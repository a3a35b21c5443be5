import Sol7.Ufs.AllocMap

/-!
# Fragments of a Size

The patterns `around` and `inside` find the runs of a size in a block, so
`fragacct` counts runs, and `mapsearch` finds one. The tables only say where there
is something to find; that they are right is checked for every byte.

## Theorems

* `match_iff`: The pattern for a size matches at a run of the size.
* `fragtbl_spec`: What the tables say.
* `fragacct_eq`: The runs of a block are counted.
* `mapsearch_spec`: What is found is a run of the size, and it is not being
  converted.
* `mapsearchLoop_fuel`: The search ends by itself.
-/

namespace Sol7.Alloc

open List Function Runs Nat

/-! ### Patterns -/

variable {siz n m i byte mask : Nat}

theorem around_eq (h : siz ≤ 8) : around siz = 2 ^ (siz + 2) - 1 := by
  have hall : ∀ n < 9, around n = 2 ^ (n + 2) - 1 := by decide
  exact hall siz (by omega)

theorem inside_eq (h : siz ≤ 8) : inside siz = (2 ^ siz - 1) <<< 1 := by
  have hall : ∀ n < 9, inside n = (2 ^ n - 1) <<< 1 := by decide
  exact hall siz (by omega)

/-- The pattern for a size matches at a run of the size: the bits of the run are
    set, and the ones next to them are not. -/
theorem match_iff (hm : ∀ j, n ≤ j → m.testBit j = false) (hsiz : 0 < siz) (h8 : siz ≤ 8)
    (hle : i + siz ≤ n) :
    m <<< 1 &&& around siz <<< i = inside siz <<< i ↔ IsRun m.testBit n i siz := by
  have hbit : ∀ j, (m <<< 1 &&& around siz <<< i).testBit j =
      (decide (1 ≤ j) && m.testBit (j - 1) && (decide (i ≤ j) && decide (j - i < siz + 2))) := by
    intro j
    rw [testBit_and, testBit_shiftLeft, testBit_shiftLeft, around_eq h8,
      testBit_two_pow_sub_one]
  have hbit' : ∀ j, (inside siz <<< i).testBit j =
      (decide (i ≤ j) && (decide (1 ≤ j - i) && decide (j - i - 1 < siz))) := by
    intro j
    rw [testBit_shiftLeft, inside_eq h8, testBit_shiftLeft, testBit_two_pow_sub_one]
  constructor
  · intro heq
    have hall : ∀ j, (m <<< 1 &&& around siz <<< i).testBit j = (inside siz <<< i).testBit j :=
      fun j => by rw [heq]
    refine ⟨hsiz, hle, ?_, ?_, .inr ?_⟩
    · intro j hj
      have h := hall (i + j + 1)
      rw [hbit, hbit', Nat.add_sub_cancel] at h
      have h1 : i ≤ i + j + 1 := by omega
      have h2 : i + j + 1 - i < siz + 2 := by omega
      have h3 : 1 ≤ i + j + 1 - i := by omega
      have h4 : i + j + 1 - i - 1 < siz := by omega
      simpa [h1, h2, h3, h4] using h
    · by_cases h0 : i = 0
      · exact .inl h0
      · have h := hall i
        rw [hbit, hbit', Nat.sub_self] at h
        have h1 : 1 ≤ i := by omega
        exact .inr (by simpa [h1] using h)
    · have h := hall (i + siz + 1)
      rw [hbit, hbit', Nat.add_sub_cancel] at h
      have h1 : i ≤ i + siz + 1 := by omega
      have h2 : i + siz + 1 - i < siz + 2 := by omega
      have h4 : ¬i + siz + 1 - i - 1 < siz := by omega
      simpa [h1, h2, h4] using h
  · intro hr
    apply eq_of_testBit_eq
    intro j
    rw [hbit, hbit']
    by_cases hin : i ≤ j ∧ j - i < siz + 2
    · rcases lt_or_ge (j - i) 1 with hlt | hge
      · -- the bit before the run
        have hji : j = i := by omega
        have h3 : ¬1 ≤ j - i := by omega
        rcases hr.left with h0 | hl
        · have h1 : ¬1 ≤ j := by omega
          simp [h1, h3]
        · rw [← hji] at hl
          simp [hl, h3]
      · by_cases hlast : j - i - 1 < siz
        · have hmem := hr.mem (j - i - 1) hlast
          rw [show i + (j - i - 1) = j - 1 by omega] at hmem
          have h1 : 1 ≤ j := by omega
          simp [hmem, hin.1, hin.2, hge, hlast, h1]
        · -- the bit after the run
          have hafter : m.testBit (j - 1) = false := by
            rw [show j - 1 = i + siz by omega]
            rcases hr.right with hn | hb
            · exact hm _ (by omega)
            · exact hb
          simp [hafter, hlast]
    · rw [not_and_or] at hin
      rcases hin with h1 | h2
      · simp [h1]
      · have h3 : ¬j - i - 1 < siz := by omega
        simp [h2, h3]

/-! ### Tables -/

/-- There is a match for a size in one of the blocks of a byte. -/
def hasFrag (frag byte siz : Nat) : Bool :=
  (range (8 / frag)).any fun k => (range (frag - siz + 1)).any fun pos =>
    ((byte >>> (k * frag)) &&& (0xff >>> (8 - frag))) <<< 1 &&& around siz <<< pos =
      inside siz <<< pos

/-- Every entry of the tables is what it should be. -/
theorem fragtbl_check : ∀ frag ∈ [1, 2, 4, 8], ((fragtbl frag).zipIdx.all fun e =>
    (range frag).all fun i => e.1.testBit (i + frag % 8) == hasFrag frag e.2 (i + 1)) = true :=
  by decide +kernel

/-- The bit of a size is set just for the bytes that have a fragment of the
    size. -/
theorem fragtbl_spec (fs : Fs) (hb : byte < 256) (hsiz : 0 < siz) (hle : siz ≤ fs.frag) :
    ((fragtbl fs.frag).getD byte 0).testBit (siz - 1 + fs.frag % 8) = hasFrag fs.frag byte siz := by
  have hfrag : fs.frag ∈ [1, 2, 4, 8] := by simpa using fs.frag_eq
  have hlen : ∀ frag ∈ [1, 2, 4, 8], (fragtbl frag).length = 256 := by decide +kernel
  have hget : (fragtbl fs.frag)[byte]? = some ((fragtbl fs.frag).getD byte 0) := by
    rw [getD_eq_getElem?_getD, getElem?_eq_getElem (by rw [hlen _ hfrag]; exact hb)]
    rfl
  have hentry := all_eq_true.mp (fragtbl_check fs.frag hfrag) _
    (mk_mem_zipIdx_iff_getElem?.mpr hget)
  have hbit := all_eq_true.mp hentry (siz - 1) (mem_range.mpr (by omega))
  rw [beq_iff_eq, Nat.sub_add_cancel hsiz] at hbit
  exact hbit

theorem and_bit_ne_zero {e j : Nat} : e &&& 1 <<< j ≠ 0 ↔ e.testBit j = true := by
  rw [one_shiftLeft, and_two_pow]
  cases e.testBit j <;> simp

/-- The bits of one of the blocks of a byte. -/
def blockOf (frag byte k : Nat) : Nat := byte >>> (k * frag) &&& 0xff >>> (8 - frag)

theorem hasFrag_iff (fs : Fs) (hsiz : 0 < siz) (hle : siz ≤ fs.frag) :
    hasFrag fs.frag byte siz = true ↔ ∃ k i, k < 8 / fs.frag ∧
      IsRun (blockOf fs.frag byte k).testBit fs.frag i siz := by
  have hfrag8 : fs.frag ≤ 8 := by rcases fs.frag_eq with h | h | h | h <;> omega
  have hhigh : ∀ k j, fs.frag ≤ j → (blockOf fs.frag byte k).testBit j = false := by
    intro k j hj
    rw [blockOf, testBit_and, mask_eq, testBit_two_pow_sub_one, decide_eq_false (by omega),
      Bool.and_false]
  simp only [hasFrag, any_eq_true, mem_range, decide_eq_true_eq]
  constructor
  · rintro ⟨k, hk, i, hi, hmatch⟩
    exact ⟨k, i, hk, (match_iff (hhigh k) hsiz (by omega) (by omega)).mp hmatch⟩
  · rintro ⟨k, i, hk, hr⟩
    have := hr.le
    exact ⟨k, hk, i, by omega, (match_iff (hhigh k) hsiz (by omega) (by omega)).mpr hr⟩

/-! ### Counting -/

section
variable {frag m siz : Nat} {cnt : Int}

/-- The loop over the positions counts the runs of a size. -/
theorem fragacctPos_eq (cnt : Int) (hm : ∀ j, frag ≤ j → m.testBit j = false) (hsiz : 0 < siz)
    (h8 : siz ≤ 8) : ∀ (fuel i : Nat) (fraglist : Nat → Int), frag + 1 ≤ fuel + (siz + i) →
    fragacctPos frag (m <<< 1) siz cnt fuel (siz + i) (around siz <<< i) (inside siz <<< i)
      fraglist = update fraglist siz (fraglist siz + cnt * runsFrom m.testBit frag siz i) := by
  intro fuel
  induction fuel with
  | zero =>
    intro i fraglist hfuel
    rw [fragacctPos, runsFrom_of_lt (by omega), cast_zero, mul_zero, add_zero, update_eq_self]
  | succ fuel ih =>
    intro i fraglist hfuel
    rw [fragacctPos]
    by_cases hle : siz + i ≤ frag
    · rw [if_pos hle]
      by_cases hmatch : m <<< 1 &&& around siz <<< i = inside siz <<< i
      · have hr := (match_iff hm hsiz h8 (by omega)).mp hmatch
        rw [if_pos hmatch, ← shiftLeft_add, ← shiftLeft_add, ← shiftLeft_add,
          ← shiftLeft_add, show siz + i + siz + 1 = siz + (i + siz + 1) by omega,
          show i + (siz + 1) = i + siz + 1 by omega, ih _ _ (by omega), runsFrom_of_isRun hr,
          update_self, update_idem]
        congr 1
        rw [cast_add, cast_one, mul_add, mul_one]
        omega
      · have hr : ¬IsRun m.testBit frag i siz :=
          fun hr => hmatch ((match_iff hm hsiz h8 (by omega)).mpr hr)
        rw [if_neg hmatch, ← shiftLeft_add, ← shiftLeft_add,
          show siz + i + 1 = siz + (i + 1) by omega, ih _ _ (by omega), runsFrom_of_not hr]
    · rw [if_neg hle, runsFrom_of_lt (by omega), cast_zero, mul_zero, add_zero, update_eq_self]

end

/-- A fold that adds to each place of a list once. -/
theorem foldl_update_add {g : Nat → Int} {step : (Nat → Int) → Nat → Nat → Int} :
    ∀ (l : List Nat), l.Nodup →
      (∀ f k, k ∈ l → step f k = update f k (f k + g k)) → ∀ (f : Nat → Int) (k : Nat),
      l.foldl step f k = f k + if k ∈ l then g k else 0 := by
  intro l
  induction l with
  | nil =>
    intro _ _ f k
    rw [foldl_nil, if_neg not_mem_nil, add_zero]
  | cons a l ih =>
    intro hnd hstep f k
    rw [nodup_cons] at hnd
    rw [foldl_cons, ih hnd.2 (fun f k hk => hstep f k (mem_cons_of_mem _ hk)),
      hstep f a mem_cons_self]
    by_cases hk : k = a
    · rw [hk, update_self, if_neg hnd.1, if_pos mem_cons_self, add_zero]
    · rw [update_of_ne hk]
      simp only [mem_cons, hk, false_or]

/-- The runs of a block are counted: of every size but that of the whole
    block. -/
theorem fragacct_eq (fs : Fs) (hm : ∀ j, fs.frag ≤ j → m.testBit j = false) (fraglist : Nat → Int)
    (cnt : Int) (k : Nat) : fragacct fs m fraglist cnt k = fraglist k +
      if 0 < k ∧ k < fs.frag then cnt * runs m.testBit fs.frag k else 0 := by
  have hfrag8 : fs.frag ≤ 8 := by rcases fs.frag_eq with h | h | h | h <;> omega
  have hlt : m < 2 ^ fs.frag := lt_pow_two_of_testBit m hm
  have hbyte : m < 256 := lt_of_lt_of_le hlt (Nat.pow_le_pow_right (by omega) hfrag8)
  unfold fragacct
  rw [foldl_update_add (g := fun k => cnt * runs m.testBit fs.frag k) _ (nodup_range' ..)]
  · congr 1
    have hiff : k ∈ range' 1 (fs.frag - 1) ↔ 0 < k ∧ k < fs.frag := by
      rw [mem_range'_1]
      omega
    simp only [hiff]
  intro f siz hsiz
  rw [mem_range'_1] at hsiz
  unfold fragacctSiz
  by_cases hzero : ((fragtbl fs.frag).getD m 0) <<< 1 &&& 1 <<< (siz + fs.frag % 8) = 0
  · -- The table says that there are none.
    rw [if_pos hzero]
    have hnone : runs m.testBit fs.frag siz = 0 := by
      unfold runs
      rw [Finset.card_eq_zero, Finset.filter_eq_empty_iff]
      intro i _ hr
      have hlow : blockOf fs.frag m 0 = m := by
        rw [blockOf, zero_mul, shiftRight_zero, mask_eq, and_two_pow_sub_one_eq_mod,
          mod_eq_of_lt hlt]
      have hhas : hasFrag fs.frag m siz = true := (hasFrag_iff fs (by omega) (by omega)).mpr
        ⟨0, i, div_pos hfrag8 fs.frag_pos, by rwa [hlow]⟩
      rw [← fragtbl_spec fs hbyte (by omega) (by omega)] at hhas
      refine and_bit_ne_zero.mpr ?_ hzero
      rw [testBit_shiftLeft, show siz + fs.frag % 8 - 1 = siz - 1 + fs.frag % 8 by omega,
        hhas, decide_eq_true (by omega), Bool.and_true]
    rw [hnone, cast_zero, mul_zero, add_zero, update_eq_self]
  · rw [if_neg hzero]
    have h := fragacctPos_eq cnt hm (by omega : 0 < siz) (by omega) fs.frag 0 f
      (by omega)
    rw [add_zero, shiftLeft_zero, shiftLeft_zero, runsFrom_zero] at h
    exact h

/-! ### Searching -/

/-- A scan stops at a byte whose table entry has the bit. -/
theorem scanc_spec {map : Nat → BitVec 8} {table : List Nat} :
    ∀ (len first : Nat), scanc map table mask len first ≠ 0 →
      scanc map table mask len first ≤ len ∧
      table.getD (map (first + (len - scanc map table mask len first))).toNat 0 &&& mask ≠ 0 := by
  intro len
  induction len with
  | zero =>
    intro first h
    exact absurd rfl h
  | succ len ih =>
    intro first h
    rw [scanc] at h ⊢
    split
    · next hhit =>
      rw [Nat.sub_self]
      exact ⟨le_rfl, hhit⟩
    next hmiss =>
    rw [if_neg hmiss] at h
    obtain ⟨hle, hhit⟩ := ih (first + 1) h
    refine ⟨by omega, ?_⟩
    rw [show first + (len + 1 - scanc map table mask len (first + 1)) =
      first + 1 + (len - scanc map table mask len (first + 1)) by omega]
    exact hhit

/-- The positions of a block are tried in turn. -/
theorem siftPos_spec (blk siz : Nat) : ∀ (n i : Nat),
    (∀ pos, siftPos blk n i (around siz <<< i) (inside siz <<< i) = some pos →
      i ≤ pos ∧ pos < i + n ∧ blk &&& around siz <<< pos = inside siz <<< pos) ∧
    (siftPos blk n i (around siz <<< i) (inside siz <<< i) = none →
      ∀ pos, i ≤ pos → pos < i + n → blk &&& around siz <<< pos ≠ inside siz <<< pos) := by
  intro n
  induction n with
  | zero =>
    intro i
    refine ⟨nofun, fun _ pos h1 h2 => ?_⟩
    omega
  | succ n ih =>
    intro i
    rw [siftPos]
    by_cases hmatch : blk &&& around siz <<< i = inside siz <<< i
    · rw [if_pos hmatch]
      constructor
      · intro pos h
        cases h
        exact ⟨le_rfl, by omega, hmatch⟩
      · intro h
        cases h
    · rw [if_neg hmatch, ← shiftLeft_add, ← shiftLeft_add]
      constructor
      · intro pos h
        obtain ⟨h1, h2, h3⟩ := (ih (i + 1)).1 pos h
        exact ⟨by omega, by omega, h3⟩
      · intro h pos h1 h2
        by_cases hpos : pos = i
        · rw [hpos]
          exact hmatch
        · exact (ih (i + 1)).2 h pos (by omega) (by omega)

variable {fs : Fs} {map : Nat → BitVec 8} {siz : Nat}

theorem blkmap_high (h : Nat) :
    ∀ j, fs.frag ≤ j → (blkmap fs map (h * fs.frag)).testBit j = false := by
  intro j hj
  rw [testBit_blkmap]
  exact block_of_ge (not_lt.mpr hj)

variable {h i byte start : Nat} {cancel : Nat → Bool}

/-- A byte begins with a block. -/
theorem byte_mul (fs : Fs) (byte : Nat) : byte * 8 = byte * (8 / fs.frag) * fs.frag := by
  rcases fs.frag_eq with hf | hf | hf | hf <;> rw [hf] <;> omega

/-- A scan that finds nothing has seen every byte. -/
theorem scanc_zero {table : List Nat} {mask : Nat} : ∀ (len first : Nat),
    scanc map table mask len first = 0 →
    ∀ b, first ≤ b → b < first + len → table.getD (map b).toNat 0 &&& mask = 0 := by
  intro len
  induction len with
  | zero => omega
  | succ len ih =>
    intro first hzero b hle hlt
    rw [scanc] at hzero
    split at hzero
    · cases hzero
    next hmiss =>
    by_cases hb : b = first
    · rw [hb]
      exact not_not.mp hmiss
    · exact ih (first + 1) hzero b (by omega) (by omega)

/-- Beyond the end of a group there is no run. -/
theorem run_in_group (hend : ∀ h, fs.fpg ≤ h * fs.frag → ∀ i, block fs map h i = false)
    (hr : IsRun (block fs map h) fs.frag i siz) :
    h * fs.frag < fs.fpg ∧ h * fs.frag + i < fs.fpg := by
  have hlt : h * fs.frag < fs.fpg := by
    by_contra hno
    have hm := hr.mem 0 hr.pos
    rw [hend h (not_lt.mp hno)] at hm
    cases hm
  obtain ⟨n, hn⟩ := fs.frag_dvd
  rw [hn, mul_comm] at hlt ⊢
  have hle := Nat.mul_le_mul_left fs.frag (Nat.lt_of_mul_lt_mul_left hlt)
  have := hr.le
  have := hr.pos
  refine ⟨hlt, ?_⟩
  rw [mul_succ] at hle
  omega

/-- How many times the loop of `mapsearch` can go round. -/
def searchLeft (start first last : Nat) (secondtime : Bool) : Nat :=
  last - first + if secondtime then 0 else start + 1

/-- The loop of `mapsearch` ends by itself: it does not matter how much longer it
    might have gone on. -/
theorem mapsearchLoop_fuel : ∀ (fuel more first last : Nat) (secondtime : Bool) (cgp : Cg),
    searchLeft start first last secondtime < fuel →
    mapsearchLoop fs cancel siz start (fuel + more) first last secondtime cgp =
      mapsearchLoop fs cancel siz start fuel first last secondtime cgp := by
  intro fuel
  induction fuel with
  | zero =>
    intro more first last secondtime cgp h
    omega
  | succ fuel ih =>
    intro more first last secondtime cgp h
    rw [show fuel + 1 + more = fuel + more + 1 by omega, mapsearchLoop, mapsearchLoop]
    by_cases hlt : first < last
    · rw [if_pos hlt]
      generalize hloc : scanc cgp.blksfree (fragtbl fs.frag) (1 <<< (siz - 1 + fs.frag % 8))
        (last - first) first = loc
      have hsecond : ∀ cgp : Cg, secondtime ≠ true →
          mapsearchLoop fs cancel siz start (fuel + more) 0 (start + 1) true cgp =
            mapsearchLoop fs cancel siz start fuel 0 (start + 1) true cgp := by
        intro cgp hst
        refine ih more 0 (start + 1) true cgp ?_
        unfold searchLeft at h ⊢
        rw [if_neg hst] at h
        rw [if_pos rfl]
        omega
      dsimp only
      by_cases hhit : loc ≠ 0
      · have hlen := (scanc_spec (last - first) first (hloc ▸ hhit)).1
        rw [if_pos hhit]
        split
        · rfl
        split
        · refine ih more _ last secondtime _ ?_
          unfold searchLeft at h ⊢
          omega
        · split
          · rfl
          · next hst => exact hsecond _ hst
      · rw [if_neg hhit]
        split
        · rfl
        · next hst => exact hsecond _ hst
    · rw [if_neg hlt, if_neg hlt]

section
variable (hsiz : 0 < siz) (hle : siz ≤ fs.frag)
include hsiz hle

/-- The pattern matches in a block just at a run of the size. -/
theorem match_block_iff (hi : i < fs.frag - siz + 1) :
    blkmap fs map (h * fs.frag) <<< 1 &&& around siz <<< i = inside siz <<< i ↔
      IsRun (block fs map h) fs.frag i siz := by
  have hfrag8 : fs.frag ≤ 8 := by rcases fs.frag_eq with h | h | h | h <;> omega
  rw [← testBit_blkmap]
  exact match_iff (blkmap_high h) hsiz (by omega) (by omega)

/-- The blocks of a byte are tried in turn, so if there is a run of the size, one
    is found. -/
theorem siftByte_spec : ∀ (n h : Nat), (∃ k i, k < n ∧ IsRun (block fs map (h + k)) fs.frag i siz) →
    ∃ k i, siftByte fs map siz n (h * fs.frag) = (h + k) * fs.frag + i ∧
      IsRun (block fs map (h + k)) fs.frag i siz := by
  intro n
  induction n with
  | zero =>
    rintro h ⟨k, i, hk, -⟩
    omega
  | succ n ih =>
    rintro h ⟨k, i, hk, hr⟩
    rw [siftByte]
    have hsift := siftPos_spec (blkmap fs map (h * fs.frag) <<< 1) siz (fs.frag - siz + 1) 0
    cases hpos : siftPos (blkmap fs map (h * fs.frag) <<< 1) (fs.frag - siz + 1) 0 (around siz)
      (inside siz) with
    | some pos =>
      obtain ⟨-, hlt, hmatch⟩ := hsift.1 pos hpos
      refine ⟨0, pos, rfl, ?_⟩
      exact (match_block_iff hsiz hle (by omega)).mp hmatch
    | none =>
      have hne : k ≠ 0 := by
        rintro rfl
        have := hr.le
        exact hsift.2 hpos i (by omega) (by omega) ((match_block_iff hsiz hle (by omega)).mpr hr)
      obtain ⟨k', i', heq, hr'⟩ :=
          ih (h + 1) ⟨k - 1, i, by omega, by rwa [show h + 1 + (k - 1) = h + k by omega]⟩
      refine ⟨k' + 1, i', ?_, ?_⟩
      · rw [show h * fs.frag + fs.frag = (h + 1) * fs.frag by rw [add_mul, one_mul], heq,
          show h + 1 + k' = h + (k' + 1) by omega]
      · rwa [show h + (k' + 1) = h + 1 + k' by omega]

/-- A byte has the bit of a size if and only if one of its blocks has a run of
    the size. -/
theorem fragtbl_iff :
    (fragtbl fs.frag).getD (map byte).toNat 0 &&& 1 <<< (siz - 1 + fs.frag % 8) ≠ 0 ↔
      ∃ k i, k < 8 / fs.frag ∧ IsRun (block fs map (byte * (8 / fs.frag) + k)) fs.frag i siz := by
  have hmap : ∀ k < 8 / fs.frag, blockOf fs.frag (map byte).toNat k =
      blkmap fs map ((byte * (8 / fs.frag) + k) * fs.frag) := by
    intro k hk
    have hkf : k * fs.frag < 8 := by
      rcases fs.frag_eq with hf | hf | hf | hf <;> rw [hf] at hk ⊢ <;> omega
    unfold blkmap
    rw [add_mul, ← byte_mul, show (byte * 8 + k * fs.frag) / 8 = byte by omega,
      show (byte * 8 + k * fs.frag) % 8 = k * fs.frag by omega]
    rfl
  rw [and_bit_ne_zero, fragtbl_spec fs (map byte).isLt hsiz hle, hasFrag_iff fs hsiz hle]
  refine exists_congr fun k => exists_congr fun i => and_congr_right fun hk => ?_
  rw [hmap k hk, testBit_blkmap]

/-- In a byte with the bit of a size, a run of the size is found. -/
theorem siftByte_hit
    (hhit : (fragtbl fs.frag).getD (map byte).toNat 0 &&& 1 <<< (siz - 1 + fs.frag % 8) ≠ 0) :
    ∃ h i, siftByte fs map siz (8 / fs.frag) (byte * 8) = h * fs.frag + i ∧
      IsRun (block fs map h) fs.frag i siz := by
  rcases siftByte_spec hsiz hle (8 / fs.frag) (byte * (8 / fs.frag)) ((fragtbl_iff hsiz hle).mp hhit)
    with ⟨k, i, heq, hr⟩
  rw [← byte_mul] at heq
  exact ⟨_, i, heq, hr⟩

/-- What `mapsearch` finds is a run of the size, and it is not being
    converted. Only `cg_frotor` changes. -/
def Found (fs : Fs) (cancel : Nat → Bool) (siz : Nat) (cgp : Cg) (r : Cg × Option Nat) : Prop :=
  (∃ frotor, r.1 = { cgp with frotor := frotor }) ∧ ∀ bno, r.2 = some bno →
    cancel (cgp.cgx * fs.fpg + bno) = false ∧
    ∃ h i, bno = h * fs.frag + i ∧ IsRun (block fs cgp.blksfree h) fs.frag i siz

theorem mapsearchLoop_spec : ∀ (fuel first last : Nat) (secondtime : Bool) (cgp : Cg),
    Found fs cancel siz cgp (mapsearchLoop fs cancel siz start fuel first last secondtime cgp) := by
  intro fuel
  induction fuel with
  | zero =>
    intro first last secondtime cgp
    exact ⟨⟨cgp.frotor, rfl⟩, nofun⟩
  | succ fuel ih =>
    intro first last secondtime cgp
    have hstop : Found fs cancel siz cgp (cgp, none) :=
      ⟨⟨cgp.frotor, rfl⟩, nofun⟩
    rw [mapsearchLoop]
    by_cases hlt : first < last
    · rw [if_pos hlt]
      generalize hloc : scanc cgp.blksfree (fragtbl fs.frag) (1 <<< (siz - 1 + fs.frag % 8))
        (last - first) first = loc
      by_cases hhit : loc ≠ 0
      · rw [if_pos hhit]
        obtain ⟨hlen, hbyte⟩ := scanc_spec (last - first) first (hloc ▸ hhit)
        rw [hloc] at hlen hbyte
        rw [show first + (last - first - loc) = last - loc by omega] at hbyte
        obtain ⟨h, i, heq, hr⟩ := siftByte_hit hsiz hle hbyte
        by_cases hcancel : cancel (cgp.cgx * fs.fpg +
            siftByte fs cgp.blksfree siz (8 / fs.frag) ((last - loc) * 8)) = false
        · rw [if_pos hcancel]
          refine ⟨⟨_, rfl⟩, fun bno hbno => ?_⟩
          cases hbno
          exact ⟨hcancel, h, i, heq, hr⟩
        · -- The search goes on, and only the rotor has changed.
          rw [if_neg hcancel]
          split
          · exact ih (last - loc + 1) last secondtime { cgp with frotor := (last - loc) * 8 }
          · split
            · exact ⟨⟨_, rfl⟩, nofun⟩
            · exact ih 0 (start + 1) true { cgp with frotor := (last - loc) * 8 }
      · rw [if_neg hhit]
        split
        · exact hstop
        · exact ih 0 (start + 1) true cgp
    · rw [if_neg hlt]
      exact hstop

theorem mapsearch_spec (cancel : Nat → Bool) (cgp : Cg) (bpref : Nat) :
    Found fs cancel siz cgp (mapsearch fs cancel cgp bpref siz) :=
  mapsearchLoop_spec hsiz hle _ _ _ _ _

variable {cgp : Cg} {first last : Nat}
  (hend : ∀ h, fs.fpg ≤ h * fs.frag → ∀ i, block fs cgp.blksfree h i = false)
  (hcancel : ∀ b < fs.fpg, cancel (cgp.cgx * fs.fpg + b) = false)
include hend hcancel

/-- A turn of the loop in which the scan finds something is the last one, if
    nothing is being converted. -/
theorem mapsearchLoop_hit {secondtime : Bool} (hlt : first < last)
    (hhit : scanc cgp.blksfree (fragtbl fs.frag) (1 <<< (siz - 1 + fs.frag % 8))
      (last - first) first ≠ 0) (fuel : Nat) :
    (mapsearchLoop fs cancel siz start (fuel + 1) first last secondtime cgp).2 ≠ none := by
  obtain ⟨hlen, hbyte⟩ := scanc_spec (last - first) first hhit
  rw [mapsearchLoop, if_pos hlt, if_pos hhit]
  generalize scanc cgp.blksfree (fragtbl fs.frag) (1 <<< (siz - 1 + fs.frag % 8))
    (last - first) first = loc at hlen hbyte
  rw [show first + (last - first - loc) = last - loc by omega] at hbyte
  obtain ⟨h, i, heq, hr⟩ := siftByte_hit hsiz hle hbyte
  dsimp only
  rw [heq, if_pos (hcancel _ (run_in_group hend hr).2)]
  exact Option.some_ne_none _

/-- A run is in one of the two parts that are scanned, so it is not missed. -/
theorem mapsearchLoop_none {fuel : Nat} (hstart : start < last)
    (hnone : (mapsearchLoop fs cancel siz start (fuel + 2) start last false cgp).2 = none)
    (hlast : h * fs.frag / 8 < last) : ¬IsRun (block fs cgp.blksfree h) fs.frag i siz := by
  intro hr
  have hbyte : h * fs.frag / 8 * (8 / fs.frag) + h % (8 / fs.frag) = h ∧
      h % (8 / fs.frag) < 8 / fs.frag := by
    rcases fs.frag_eq with hf | hf | hf | hf <;> rw [hf] <;> omega
  have hbit := (fragtbl_iff hsiz hle).mpr ⟨_, i, hbyte.2, hbyte.1.symm ▸ hr⟩
  have hscan : ∀ first last, first ≤ h * fs.frag / 8 → h * fs.frag / 8 < last →
      scanc cgp.blksfree (fragtbl fs.frag) (1 <<< (siz - 1 + fs.frag % 8)) (last - first) first ≠ 0 :=
    fun first last hle hlt hzero => hbit (scanc_zero _ _ hzero _ hle (by omega))
  by_cases hhit : scanc cgp.blksfree (fragtbl fs.frag) (1 <<< (siz - 1 + fs.frag % 8))
    (last - start) start ≠ 0
  · exact mapsearchLoop_hit hsiz hle hend hcancel hstart hhit _ hnone
  have hlow : h * fs.frag / 8 < start :=
    lt_of_not_ge fun hle => hhit (hscan start last hle hlast)
  rw [mapsearchLoop, if_pos hstart, if_neg hhit] at hnone
  exact mapsearchLoop_hit hsiz hle hend hcancel (succ_pos start)
    (hscan 0 (start + 1) zero_le (by omega)) _ hnone

end

/-- The byte in which a search of a group starts. -/
def searchStart (fs : Fs) (cgp : Cg) (bpref : Nat) : Nat :=
  if bpref ≠ 0 then dtogd fs bpref / 8 else cgp.frotor / 8

/-- `mapsearch` ends, finds a run of the size within a block of the group, and
    finds one if there is one, unless blocks are being converted. -/
theorem mapsearch_finds (fs : Fs) (cancel : Nat → Bool) (cgp : Cg) (bpref siz : Nat)
    (hsiz : 0 < siz) (hlt : siz < fs.frag) (hrotor : cgp.frotor < fs.fpg)
    (hend : ∀ h, fs.fpg ≤ h * fs.frag → ∀ i, block fs cgp.blksfree h i = false) :
    (∀ more, mapsearchLoop fs cancel siz (searchStart fs cgp bpref)
      ((fs.fpg + 7) / 8 + searchStart fs cgp bpref + 2 + more) (searchStart fs cgp bpref)
      ((fs.fpg + 7) / 8) false cgp = mapsearch fs cancel cgp bpref siz) ∧
    (∀ bno, (mapsearch fs cancel cgp bpref siz).2 = some bno → ∃ h i, bno = h * fs.frag + i ∧
      h * fs.frag < fs.fpg ∧ IsRun (block fs cgp.blksfree h) fs.frag i siz) ∧
    ((∀ b < fs.fpg, cancel (cgp.cgx * fs.fpg + b) = false) →
      (mapsearch fs cancel cgp bpref siz).2 = none →
      ∀ h, h * fs.frag < fs.fpg → ∀ i, ¬IsRun (block fs cgp.blksfree h) fs.frag i siz) := by
  have hstart : searchStart fs cgp bpref < (fs.fpg + 7) / 8 := by
    have := mod_lt bpref fs.fpg_pos
    unfold searchStart dtogd
    split <;> omega
  refine ⟨fun more => mapsearchLoop_fuel _ more _ _ _ _ ?_, fun bno hbno => ?_,
    fun hcancel hnone h hh i =>
      mapsearchLoop_none hsiz hlt.le hend hcancel hstart hnone (by omega)⟩
  · unfold searchLeft
    simp only [Bool.false_eq_true, if_false]
    omega
  · obtain ⟨-, h, i, heq, hr⟩ := (mapsearch_spec hsiz hlt.le cancel cgp bpref).2 bno hbno
    exact ⟨h, i, heq, (run_in_group hend hr).1, hr⟩

/-- One group with two blocks of four fragments. -/
def twoBlocks : Fs :=
  ⟨4, 2, 10, 8, 1, 2, 8, 8, 1, 8, fun _ _ => some 0, fun _ => 0, by decide, by decide, by decide,
    by decide⟩

/-- The second fragment is the only one that is free. -/
def oneFree : Cg :=
  ⟨0, ⟨0, 1⟩, 0, 0, fun _ => 0, fun _ => 0, fun _ _ => 0, fun b => if b = 0 then 2#8 else 0#8⟩

theorem mapsearch_finds_second : (mapsearch twoBlocks (fun _ => false) oneFree 0 1).2 = some 1 ∧
    ∃ h i, 1 = h * 4 + i ∧ h * 4 < 8 ∧ IsRun (block twoBlocks oneFree.blksfree h) 4 i 1 := by
  have hend : ∀ h, 8 ≤ h * 4 → ∀ i, block twoBlocks oneFree.blksfree h i = false := by
    intro h hh i
    have hbyte : (h * 4 + i) / 8 ≠ 0 := by omega
    simp [block, isset, oneFree, twoBlocks, hbyte]
  have hfound : (mapsearch twoBlocks (fun _ => false) oneFree 0 1).2 = some 1 := by decide +kernel
  exact ⟨hfound, (mapsearch_finds twoBlocks _ oneFree 0 1 (by decide) (by decide) (by decide)
    hend).2.1 1 hfound⟩

end Sol7.Alloc
