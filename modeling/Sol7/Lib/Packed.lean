import Mathlib

/-!
# Numbers Packed Above Flag Bits

A machine word often keeps a number in its upper bits and flags in the low
ones, and the code that uses it mixes additions on the number with bit masks
on the flags. Writing the word as `2 ^ k * u + l` with `l < 2 ^ k` lets both
be computed: masks act on `u` and `l` separately.

## Theorems

* `land_packed`, `lor_packed`: Bitwise operations act part by part.
* `lor_low`: Setting low bits leaves the number alone.
-/

namespace Sol7

open Nat

variable {k u v l m : Nat}

/-- An operation on bits acts on the number and on the flags separately. -/
theorem bitwise_packed {f : Nat → Nat → Nat} {b : Bool → Bool → Bool}
    (hf : ∀ x y j, (f x y).testBit j = b (x.testBit j) (y.testBit j)) (hl : l < 2 ^ k)
    (hm : m < 2 ^ k) (hlm : f l m < 2 ^ k) :
    f (2 ^ k * u + l) (2 ^ k * v + m) = 2 ^ k * f u v + f l m := by
  apply eq_of_testBit_eq
  intro j
  rw [hf, testBit_two_pow_mul_add u hl, testBit_two_pow_mul_add v hm,
    testBit_two_pow_mul_add (f u v) hlm]
  by_cases hj : j < k
  · rw [if_pos hj, if_pos hj, if_pos hj, hf]
  · rw [if_neg hj, if_neg hj, if_neg hj, hf]

theorem land_packed (hl : l < 2 ^ k) (hm : m < 2 ^ k) :
    (2 ^ k * u + l) &&& (2 ^ k * v + m) = 2 ^ k * (u &&& v) + (l &&& m) :=
  bitwise_packed testBit_land hl hm (and_lt_two_pow l hm)

theorem lor_packed (hl : l < 2 ^ k) (hm : m < 2 ^ k) :
    (2 ^ k * u + l) ||| (2 ^ k * v + m) = 2 ^ k * (u ||| v) + (l ||| m) :=
  bitwise_packed testBit_lor hl hm (or_lt_two_pow hl hm)

/-- Setting low bits leaves the number alone. -/
theorem lor_low (hl : l < 2 ^ k) (hm : m < 2 ^ k) :
    (2 ^ k * u + l) ||| m = 2 ^ k * u + (l ||| m) := by
  have h := lor_packed (u := u) (v := 0) hl hm
  simpa using h

end Sol7
