import Mathlib

/-!
# Serial Numbers

Numbers of a stream that are kept modulo a power of two. As long as all of
them lie within half of the space from some base, each of them stands for one
position of the stream, and the sign of a difference tells which of two comes
first.

## Main definitions

* `serialPos`: The position that a number stands for, from a base on.

## Theorems

* `serialPos_ofNat`: The number of a position stands for it.
* `serialPos_rebase`: A later base does not change positions.
* `toInt_serial_sub`: Differences are differences of positions.
-/

namespace Sol7

variable {w : Nat}

/-- The first position from `base` on that has this number. -/
def serialPos (base : Nat) (x : BitVec w) : Nat := base + (x - BitVec.ofNat w base).toNat

theorem le_serialPos (base : Nat) (x : BitVec w) : base ≤ serialPos base x := Nat.le_add_right _ _

theorem serialPos_lt (base : Nat) (x : BitVec w) : serialPos base x < base + 2 ^ w :=
  Nat.add_lt_add_left (BitVec.isLt _) base

theorem ofNat_serialPos (base : Nat) (x : BitVec w) : BitVec.ofNat w (serialPos base x) = x := by
  rw [serialPos, BitVec.ofNat_add, BitVec.ofNat_toNat, BitVec.setWidth_eq]
  rw [BitVec.add_comm, BitVec.sub_add_cancel]

variable {base n base' : Nat}

theorem serialPos_ofNat (hle : base ≤ n) (hlt : n < base + 2 ^ w) :
    serialPos base (BitVec.ofNat w n) = n := by
  obtain ⟨k, rfl⟩ := Nat.exists_eq_add_of_le hle
  rw [serialPos, BitVec.ofNat_add, BitVec.add_comm, BitVec.add_sub_cancel, BitVec.toNat_ofNat,
    Nat.mod_eq_of_lt (by omega)]

variable {x y : BitVec w}

/-- A later base does not change the positions that it has not passed. -/
theorem serialPos_rebase (hle : base ≤ base') (hx : base' ≤ serialPos base x) :
    serialPos base' x = serialPos base x := by
  have hlt := serialPos_lt base x
  rw [← serialPos_ofNat (w := w) hx (by omega), ofNat_serialPos]

theorem serialPos_inj (h : serialPos base x = serialPos base y) : x = y := by
  rw [← ofNat_serialPos base x, h, ofNat_serialPos]

/-- Within half of the space, the signed difference of two numbers is the
    difference of their positions. -/
theorem toInt_serial_sub (hx : 2 * (serialPos base x - base) < 2 ^ w)
    (hy : 2 * (serialPos base y - base) < 2 ^ w) :
    (x - y).toInt = (serialPos base x : Int) - serialPos base y := by
  have hbx := le_serialPos base x
  have hby := le_serialPos base y
  conv_lhs => rw [← ofNat_serialPos base x, ← ofNat_serialPos base y]
  rw [BitVec.toInt_sub, BitVec.toInt_ofNat', BitVec.toInt_ofNat', Int.bmod_sub_bmod,
    Int.sub_bmod_bmod]
  exact Int.bmod_eq_of_le_mul_two (by omega) (by omega)

/-- The natural difference of two numbers, the later one first. -/
theorem toNat_serial_sub (h : serialPos base y ≤ serialPos base x) :
    (x - y).toNat = serialPos base x - serialPos base y := by
  have hby := le_serialPos base y
  have hpos : serialPos (serialPos base y) x = serialPos base x := serialPos_rebase hby h
  rw [← hpos, serialPos, ofNat_serialPos]
  omega

end Sol7
