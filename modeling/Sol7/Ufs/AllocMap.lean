import Sol7.Lib.Runs
import Sol7.Ufs.Alloc

/-!
# The Map of Free Fragments

What the operations on the map do, said of the bits of each block. Taking a
block, or fragments, out of the map clears bits of one block, and putting them
back sets them.

## Main definitions

* `block`: The bits of a block.

## Theorems

* `isblock_iff`, `isclrblock_iff`: A block is available, or allocated.
* `block_clrbits`, `block_setbits`, `block_clrblock`, `block_setblock`: One block
  changes.
* `testBit_blkmap`: The bits for a block.
-/

namespace Sol7.Alloc

open Function Nat

open BitVec (twoPow_eq getLsbD_twoPow getLsbD_or getLsbD_and getLsbD_not)
open Runs

section
variable {map : Nat → BitVec 8}

theorem isset_eq (i : Nat) : isset map i = (map (i / 8)).getLsbD (i % 8) := by
  unfold isset
  rw [← twoPow_eq, BitVec.and_twoPow]
  cases h : (map (i / 8)).getLsbD (i % 8) with
  | true =>
    have hne : BitVec.twoPow 8 (i % 8) ≠ 0#8 := by
      intro h0
      have hb := getLsbD_twoPow (w := 8) (i % 8) (i % 8)
      rw [h0] at hb
      have := mod_lt i (by omega : 0 < 8)
      simp [this] at hb
    exact decide_eq_true hne
  | false => rfl

theorem isclr_eq (i : Nat) : isclr map i = !isset map i := by
  unfold isclr isset
  rw [decide_not, Bool.not_not]

/-- A bit is stored in its byte. -/
theorem isset_update {v : Bool} {b : BitVec 8} (i j : Nat)
    (hb : ∀ k < 8, b.getLsbD k = if k = i % 8 then v else (map (i / 8)).getLsbD k) :
    isset (update map (i / 8) b) j = if j = i then v else isset map j := by
  rw [isset_eq, isset_eq]
  by_cases hbyte : j / 8 = i / 8
  · have hiff : j % 8 = i % 8 ↔ j = i := by omega
    rw [hbyte, update_self, hb _ (mod_lt j (by omega))]
    simp only [hiff]
  · rw [update_of_ne hbyte, if_neg (fun h : j = i => hbyte (h ▸ rfl))]

theorem isset_setbit (i j : Nat) :
    isset (setbit map i) j = if j = i then true else isset map j := by
  refine isset_update i j fun k hk => ?_
  rw [getLsbD_or, ← twoPow_eq]
  by_cases hki : k = i % 8 <;> simp [hki, Ne.symm, mod_lt]

theorem isset_clrbit (i j : Nat) :
    isset (clrbit map i) j = if j = i then false else isset map j := by
  refine isset_update i j fun k hk => ?_
  rw [getLsbD_and, getLsbD_not, ← twoPow_eq, getLsbD_twoPow]
  by_cases hki : k = i % 8 <;> simp [hki, hk, Ne.symm, mod_lt]

/-- One bit after the other. -/
theorem put_succ {w : Nat → Bool} {v : Bool} {i n j : Nat} :
    (if j = i + n then v else put w v i n j) = put w v i (n + 1) j := by
  unfold put
  by_cases hj : j = i + n
  · rw [if_pos hj, if_pos (by omega)]
  · have hiff : (i ≤ j ∧ j < i + n) ↔ i ≤ j ∧ j < i + (n + 1) := by omega
    simp only [if_neg hj, hiff]

theorem put_zero {w : Nat → Bool} {v : Bool} {i j : Nat} : put w v i 0 j = w j :=
  put_outside (by omega)

theorem isset_setbits (i n j : Nat) : isset (setbits map i n) j = fill (isset map) i n j := by
  induction n with
  | zero => exact put_zero.symm
  | succ n ih =>
    rw [setbits, isset_setbit, ih]
    exact put_succ

theorem isset_clrbits (i n j : Nat) : isset (clrbits map i n) j = cut (isset map) i n j := by
  induction n with
  | zero => exact put_zero.symm
  | succ n ih =>
    rw [clrbits, isset_clrbit, ih]
    exact put_succ

end

variable (fs : Fs) {map map' : Nat → BitVec 8}

theorem Fs.frag_pos : 0 < fs.frag := by rcases fs.frag_eq with h | h | h | h <;> omega

/-- A block is within a byte. -/
theorem Fs.byte (h : Nat) : h * fs.frag % 8 + fs.frag ≤ 8 := by
  rcases fs.frag_eq with hf | hf | hf | hf <;> rw [hf] <;> omega

variable {h i : Nat}

theorem Fs.byte_div (hi : i < fs.frag) : (h * fs.frag + i) / 8 = h * fs.frag / 8 ∧
      (h * fs.frag + i) % 8 = h * fs.frag % 8 + i := by
  rcases fs.frag_eq with hf | hf | hf | hf <;> rw [hf] at hi ⊢ <;> omega

/-- The bits of a block. -/
def block (map : Nat → BitVec 8) (h : Nat) : Nat → Bool :=
  fun i => decide (i < fs.frag) && isset map (h * fs.frag + i)

variable {fs}

theorem block_of_lt (hi : i < fs.frag) : block fs map h i = isset map (h * fs.frag + i) := by
  unfold block
  rw [decide_eq_true hi, Bool.true_and]

theorem block_of_ge (hi : ¬i < fs.frag) : block fs map h i = false := by
  unfold block
  rw [decide_eq_false hi, Bool.false_and]

/-- Bits are stored in a part of one block. -/
theorem block_of_put {v : Bool} {h i n : Nat} (hle : i + n ≤ fs.frag)
    (hbits : ∀ j, isset map' j = put (isset map) v (h * fs.frag + i) n j) :
    block fs map' = update (block fs map) h (put (block fs map h) v i n) := by
  funext b j
  by_cases hj : j < fs.frag
  · rw [block_of_lt hj, hbits]
    by_cases hb : b = h
    · rw [hb, update_self]
      by_cases hr : i ≤ j ∧ j < i + n
      · rw [put_inside hr, put_inside (by omega)]
      · rw [put_outside hr, put_outside (by omega), block_of_lt hj]
    rw [update_of_ne hb, block_of_lt hj, put_outside]
    rintro ⟨h1, h2⟩
    have hlt : b < h + 1 := Nat.lt_of_mul_lt_mul_right (a := fs.frag) (by
      rw [add_mul]
      omega)
    have hgt : h < b + 1 := Nat.lt_of_mul_lt_mul_right (a := fs.frag) (by
      rw [add_mul]
      omega)
    omega
  · rw [block_of_ge hj]
    by_cases hb : b = h
    · rw [hb, update_self, put_outside (by omega), block_of_ge hj]
    · rw [update_of_ne hb, block_of_ge hj]

theorem block_setbits {h i n : Nat} (hle : i + n ≤ fs.frag) :
    block fs (setbits map (h * fs.frag + i) n) =
      update (block fs map) h (fill (block fs map h) i n) :=
  block_of_put hle fun j => isset_setbits _ _ j

/-! ### Whole blocks -/

/-- The bits of a block within its byte. -/
def blockMask (frag h : Nat) : BitVec 8 := BitVec.ofNat 8 (2 ^ frag - 1) <<< (h * frag % 8)

theorem getLsbD_blockMask (frag h j : Nat) : (blockMask frag h).getLsbD j =
    (decide (j < 8) && decide (h * frag % 8 ≤ j ∧ j < h * frag % 8 + frag)) := by
  unfold blockMask
  rw [BitVec.getLsbD_shiftLeft, BitVec.getLsbD_ofNat]
  by_cases h8 : j < 8
  · by_cases hle : h * frag % 8 ≤ j
    · have h1 : j - h * frag % 8 < 8 := by omega
      have h2 : j - h * frag % 8 < frag ↔ j < h * frag % 8 + frag := by omega
      simp [h8, hle, h1, h2]
    · have h1 : j < h * frag % 8 := by omega
      simp [h1, hle]
  · simp [h8]

/-- The operations on blocks, all sizes in one. -/
theorem blockops_eq (h : Nat) : isblock fs map h = decide
      (map (h * fs.frag / 8) &&& blockMask fs.frag h = blockMask fs.frag h) ∧
    clrblock fs map h = update map (h * fs.frag / 8)
      (map (h * fs.frag / 8) &&& ~~~blockMask fs.frag h) ∧ isclrblock fs map h = decide
      (map (h * fs.frag / 8) = map (h * fs.frag / 8) &&& ~~~blockMask fs.frag h) ∧
    setblock fs map h = update map (h * fs.frag / 8)
      (map (h * fs.frag / 8) ||| blockMask fs.frag h) := by
  unfold isblock clrblock isclrblock setblock blockMask
  rcases fs.frag_eq with hf | hf | hf | hf
  · have hs : h &&& 7 = h % 8 := and_two_pow_sub_one_eq_mod h 3
    have hd : h >>> 3 = h / 8 := shiftRight_eq_div_pow h 3
    simp only [hf, hs, hd, mul_one]
    exact ⟨rfl, rfl, rfl, rfl⟩
  · have hs : (h &&& 3) <<< 1 = h * 2 % 8 := by
      rw [show h &&& 3 = h % 4 from and_two_pow_sub_one_eq_mod h 2]
      omega
    have hd : h >>> 2 = h * 2 / 8 := by omega
    simp only [hf, hs, hd]
    exact ⟨rfl, rfl, rfl, rfl⟩
  · have hs : (h &&& 1) <<< 2 = h * 4 % 8 := by
      rw [and_one_is_mod, shiftLeft_eq]
      omega
    have hd : h >>> 1 = h * 4 / 8 := by omega
    simp only [hf, hs, hd]
    exact ⟨rfl, rfl, rfl, rfl⟩
  · have hmask : BitVec.ofNat 8 (2 ^ 8 - 1) <<< (h * 8 % 8) = BitVec.allOnes 8 := by
      rw [mul_mod_left]
      rfl
    have hd : h * 8 / 8 = h := Nat.mul_div_cancel h (by omega)
    simp only [hf, hmask, hd, BitVec.and_allOnes, BitVec.not_allOnes, BitVec.and_zero,
      BitVec.or_allOnes]
    exact ⟨rfl, trivial, trivial, rfl⟩

/-- A bit of the byte is one of the block just if it is in the mask. -/
theorem mem_blockMask {h j : Nat} : (j / 8 = h * fs.frag / 8 ∧
      (blockMask fs.frag h).getLsbD (j % 8) = true) ↔
    (h * fs.frag + 0 ≤ j ∧ j < h * fs.frag + 0 + fs.frag) := by
  have hbyte := fs.byte h
  rw [getLsbD_blockMask]
  simp only [Bool.and_eq_true, decide_eq_true_eq]
  omega

/-- The bits of the byte that are in the mask are those of the block. -/
theorem block_eq_iff (v : Bool) (h : Nat) :
    (∀ j < 8, (blockMask fs.frag h).getLsbD j = true → (map (h * fs.frag / 8)).getLsbD j = v) ↔
      ∀ i < fs.frag, block fs map h i = v := by
  simp only [getLsbD_blockMask, Bool.and_eq_true, decide_eq_true_eq]
  constructor
  · intro hall i hi
    obtain ⟨hd, hm⟩ := fs.byte_div hi
    rw [block_of_lt hi, isset_eq, hd]
    exact hall _ (by omega) (by omega)
  · intro hall j hj hin
    have hi : j - h * fs.frag % 8 < fs.frag := by omega
    obtain ⟨hd, hm⟩ := fs.byte_div hi
    have hw := hall _ hi
    rwa [block_of_lt hi, isset_eq, hd, hm, Nat.add_sub_cancel' (by omega)] at hw

theorem isblock_iff (h : Nat) : isblock fs map h = true ↔ Full (block fs map h) fs.frag := by
  rw [(blockops_eq h).1, decide_eq_true_eq, BitVec.eq_of_getLsbD_eq_iff]
  refine Iff.trans (forall₂_congr fun j _ => ?_) (block_eq_iff true h)
  rw [getLsbD_and]
  cases (blockMask fs.frag h).getLsbD j <;> simp

theorem isclrblock_iff (h : Nat) :
    isclrblock fs map h = true ↔ ∀ i < fs.frag, block fs map h i = false := by
  rw [(blockops_eq h).2.2.1, decide_eq_true_eq, BitVec.eq_of_getLsbD_eq_iff]
  refine Iff.trans (forall₂_congr fun j hj => ?_) (block_eq_iff false h)
  rw [getLsbD_and, getLsbD_not, decide_eq_true hj]
  cases (blockMask fs.frag h).getLsbD j <;> simp

/-- A block is stored in its byte. -/
theorem isset_update_block {v : Bool} {b : BitVec 8} (h j : Nat) (hb : ∀ k < 8, b.getLsbD k =
      if (blockMask fs.frag h).getLsbD k then v else (map (h * fs.frag / 8)).getLsbD k) :
    isset (update map (h * fs.frag / 8) b) j = put (isset map) v (h * fs.frag + 0) fs.frag j := by
  rw [isset_eq]
  by_cases hbyte : j / 8 = h * fs.frag / 8
  · rw [hbyte, update_self, hb _ (mod_lt j (by omega))]
    by_cases hin : (blockMask fs.frag h).getLsbD (j % 8) = true
    · rw [put_inside (mem_blockMask.mp ⟨hbyte, hin⟩), if_pos hin]
    · rw [put_outside (fun hr => hin (mem_blockMask.mpr hr).2), isset_eq, hbyte, if_neg hin]
  · rw [update_of_ne hbyte, put_outside (fun hr => hbyte (mem_blockMask.mpr hr).1), isset_eq]

theorem isset_clrblock (h j : Nat) :
    isset (clrblock fs map h) j = cut (isset map) (h * fs.frag + 0) fs.frag j := by
  rw [(blockops_eq h).2.1]
  refine isset_update_block h j fun k hk => ?_
  rw [getLsbD_and, getLsbD_not, decide_eq_true hk]
  cases (blockMask fs.frag h).getLsbD k <;> simp

theorem isset_setblock (h j : Nat) :
    isset (setblock fs map h) j = fill (isset map) (h * fs.frag + 0) fs.frag j := by
  rw [(blockops_eq h).2.2.2]
  refine isset_update_block h j fun k _ => ?_
  rw [getLsbD_or]
  cases (blockMask fs.frag h).getLsbD k <;> simp

theorem mask_eq (fs : Fs) : 0xff >>> (8 - fs.frag) = 2 ^ fs.frag - 1 := by
  rcases fs.frag_eq with hf | hf | hf | hf <;> rw [hf] <;> rfl

/-- The bits for a block. -/
theorem testBit_blkmap (h : Nat) : (blkmap fs map (h * fs.frag)).testBit = block fs map h := by
  funext i
  unfold blkmap
  rw [testBit_and, testBit_shiftRight, mask_eq, testBit_two_pow_sub_one,
    BitVec.testBit_toNat]
  by_cases hi : i < fs.frag
  · obtain ⟨hd, hm⟩ := fs.byte_div hi
    rw [block_of_lt hi, isset_eq, hd, hm, decide_eq_true hi, Bool.and_true]
  · rw [block_of_ge hi, decide_eq_false hi, Bool.and_false]

end Sol7.Alloc
