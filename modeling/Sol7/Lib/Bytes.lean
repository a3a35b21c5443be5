import Mathlib

/-!
# Byte Arrays and Big-Endian Numbers

Memory and devices as functions from offsets to bytes, the one update they
need, and the big-endian layout of numbers. `writeAt` also describes how a
byte stream grows: appending is writing at the end.

## Main definitions

* `writeAt`: Overwrite a range.
* `readAt`: Read a range.
* `bigEndian`, `bigEndianValue`: The big-endian form of a number and its value.

## Theorems

* `writeAt_of_mem`, `writeAt_of_not_mem`: Inside and outside the range.
* `writeAt_append`: Two adjacent writes are one.
* `readAt_writeAt`: Reading back what was written.
* `bigEndianValue_bigEndian`: The layout can be read back.
-/

namespace Sol7

open List

/-- Overwrite the bytes from `off` on. -/
def writeAt (f : Nat → UInt8) (off : Nat) (bytes : List UInt8) : Nat → UInt8 :=
  fun i => if off ≤ i ∧ i < off + bytes.length then bytes.getD (i - off) 0 else f i

/-- The `n` bytes from `off` on. -/
def readAt (f : Nat → UInt8) (off n : Nat) : List UInt8 := (List.range n).map fun i => f (off + i)

section
variable (f : Nat → UInt8)

@[simp] theorem writeAt_nil (off : Nat) : writeAt f off [] = f := by
  funext i
  have h : ¬(off ≤ i ∧ i < off + ([] : List UInt8).length) := by
    simp only [length_nil]
    omega
  rw [writeAt, if_neg h]

theorem writeAt_of_not_mem {off i : Nat} {bytes : List UInt8}
    (h : i < off ∨ off + bytes.length ≤ i) : writeAt f off bytes i = f i := by
  rw [writeAt, if_neg (by omega)]

theorem writeAt_of_mem {off i : Nat} {bytes : List UInt8} (h : i < bytes.length) :
    writeAt f off bytes (off + i) = bytes.getD i 0 := by
  rw [writeAt, if_pos (by omega), Nat.add_sub_cancel_left]

/-- Two adjacent writes are one write of both. -/
theorem writeAt_append (off : Nat) (a b : List UInt8) :
    writeAt (writeAt f off a) (off + a.length) b = writeAt f off (a ++ b) := by
  funext i
  by_cases hi : off ≤ i ∧ i < off + (a ++ b).length
  · rw [length_append] at hi
    by_cases ha : i < off + a.length
    · have hia : i - off < a.length := by omega
      rw [writeAt_of_not_mem _ (.inl ha), writeAt, if_pos ⟨hi.1, ha⟩, writeAt,
        if_pos (by rw [length_append]; omega), getD_append _ _ _ _ hia]
    · have hge : a.length ≤ i - off := by omega
      rw [writeAt, if_pos (by omega), writeAt, if_pos (by rw [length_append]; omega),
        getD_append_right _ _ _ _ hge]
      congr 1
      omega
  · rw [length_append] at hi
    rw [writeAt_of_not_mem _ (by omega), writeAt_of_not_mem _ (by omega),
      writeAt_of_not_mem _ (by rw [length_append]; omega)]

@[simp] theorem length_readAt (off n : Nat) : (readAt f off n).length = n := by simp [readAt]

theorem getD_readAt {off n i : Nat} (h : i < n) : (readAt f off n).getD i 0 = f (off + i) := by
  rw [readAt, getD_eq_getElem?_getD, getElem?_map, getElem?_range h]
  rfl

theorem readAt_congr {g : Nat → UInt8} {off n : Nat} (h : ∀ i < n, f (off + i) = g (off + i)) :
    readAt f off n = readAt g off n := by
  refine map_congr_left fun i hi => h i (mem_range.mp hi)

/-- Reading back what was written. -/
theorem readAt_writeAt (off : Nat) (bytes : List UInt8) :
    readAt (writeAt f off bytes) off bytes.length = bytes := by
  refine ext_getElem (length_readAt _ _ _) fun i _ h2 => ?_
  simp only [readAt, getElem_map, getElem_range]
  rw [writeAt_of_mem f h2, getD_eq_getElem _ _ h2]

/-- Reading back the first part of what was written. -/
theorem readAt_writeAt_append (off : Nat) (a b : List UInt8) :
    readAt (writeAt f off (a ++ b)) off a.length = a := by
  rw [← writeAt_append]
  refine Eq.trans (readAt_congr _ fun i hi => ?_) (readAt_writeAt f off a)
  exact writeAt_of_not_mem _ (.inl (by omega))

/-- Writing back what was read. -/
theorem writeAt_readAt (off n : Nat) : writeAt f off (readAt f off n) = f := by
  funext i
  by_cases h : off ≤ i ∧ i < off + n
  · obtain ⟨j, rfl⟩ := Nat.exists_eq_add_of_le h.1
    have hj : j < n := by omega
    rw [writeAt_of_mem f (by rw [length_readAt]; exact hj), getD_readAt f hj]
  · rw [writeAt_of_not_mem f (by rw [length_readAt]; omega)]

/-- A range is its first part followed by the rest. -/
theorem readAt_add (off m n : Nat) :
    readAt f off (m + n) = readAt f off m ++ readAt f (off + m) n := by
  simp only [readAt, range_add, map_append, map_map]
  congr 1
  refine map_congr_left fun i _ => ?_
  simp only [Function.comp_apply, add_assoc]

/-- The beginning of a range. -/
theorem take_readAt (off n k : Nat) : (readAt f off n).take k = readAt f off (min k n) := by
  rw [readAt, ← map_take, take_range]
  rfl

/-- The end of a range. -/
theorem drop_readAt (off n k : Nat) : (readAt f off n).drop k = readAt f (off + k) (n - k) := by
  by_cases hk : k ≤ n
  · rw [show n = k + (n - k) by omega, readAt_add, drop_left' (length_readAt _ _ _),
      show k + (n - k) - k = n - k by omega]
  · rw [drop_eq_nil_of_le (by rw [length_readAt]; omega), show n - k = 0 by omega]
    rfl

end

/-- The `n` low-order bytes of a number, most significant first. -/
def bigEndian : Nat → Nat → List UInt8
  | 0, _ => []
  | n + 1, x => UInt8.ofNat (x / 256 ^ n) :: bigEndian n x

/-- The number that a list of bytes spells, most significant first. -/
def bigEndianValue : List UInt8 → Nat
  | [] => 0
  | b :: bs => b.toNat * 256 ^ bs.length + bigEndianValue bs

@[simp] theorem length_bigEndian (n x : Nat) : (bigEndian n x).length = n := by
  induction n with
  | zero => rfl
  | succ n ih => rw [bigEndian, length_cons, ih]

/-- The layout can be read back, as far as the bytes reach. -/
theorem bigEndianValue_bigEndian (n x : Nat) : bigEndianValue (bigEndian n x) = x % 256 ^ n := by
  induction n with
  | zero => simp [bigEndian, bigEndianValue, Nat.mod_one]
  | succ n ih =>
    have hbyte : (UInt8.ofNat (x / 256 ^ n)).toNat = x / 256 ^ n % 256 := by rw [UInt8.toNat_ofNat']
    rw [bigEndian, bigEndianValue, ih, length_bigEndian, hbyte, pow_succ, Nat.mod_mul]
    ring

end Sol7
