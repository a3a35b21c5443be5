import Sol7.Lib.Packed

/-!
# The Reader/Writer Lock Word

The whole state of a kernel reader/writer lock is the word `rw_wwwh`: three
flag bits, and above them either the number of readers that hold the lock or
the address of the thread that holds it as writer. Thread structures are
aligned, so the low bits of their addresses are free for the flags.

`encode` builds the word from its parts. The lemmas below say what each test
and each update of `rwlock.c` does to an encoded word, so that the proofs
about the lock never look at bits.

## Main definitions

* `rwHasWaiters`, `rwWriteWanted`, `rwWriteLocked`, `rwReadLock`,
  `rwWriteLock`: The constants of `rwlock_i.h`.
* `encode`: The word with a given number and given flags.

## Theorems

* `encode_and`: What masking an encoded word gives.
* `encode_or_wait`: What setting the wait flags in an encoded word gives.
* `encode_add_readLock`, `encode_add_writeLock`: Taking the lock.
* `encode_downgrade`, `encode_upgrade`: Changing the mode in place.
-/

namespace Sol7.Rwlock

open UInt64 Nat

/-- There are waiters. -/
def rwHasWaiters : UInt64 := 1
/-- A writer waits. -/
def rwWriteWanted : UInt64 := 2
/-- A writer holds the lock. -/
def rwWriteLocked : UInt64 := 4
/-- One reader. -/
def rwReadLock : UInt64 := 8
/-- The bits above the flags. -/
def rwHoldCount : UInt64 := -rwReadLock
/-- The owner of a write lock. -/
def rwOwner : UInt64 := rwHoldCount
/-- Held by anyone. -/
def rwLocked : UInt64 := rwHoldCount
/-- A writer holds it or waits. -/
def rwWriteClaimed : UInt64 := rwWriteLocked ||| rwWriteWanted
/-- The flag bits. -/
def rwHoldCountShift : UInt64 := 3

/-- `RW_WRITE_LOCK(thread)`. -/
def rwWriteLock (thread : UInt64) : UInt64 := thread ||| rwWriteLocked

/-- The value `rw_destroy` leaves behind. -/
def rwDoubleLock : UInt64 := rwWriteLock 0 ||| rwReadLock

/-- The three flag bits as a number. -/
def flags (wl ww hw : Bool) : Nat := 4 * wl.toNat + 2 * ww.toNat + hw.toNat

/-- The word with `u` above the flags. -/
def encode (u : Nat) (wl ww hw : Bool) : UInt64 := ofNat (2 ^ 3 * u + flags wl ww hw)

theorem flags_lt (wl ww hw : Bool) : flags wl ww hw < 2 ^ 3 := by
  cases wl <;> cases ww <;> cases hw <;> decide

variable {u : Nat} {wl ww hw : Bool}

section
variable (hu : u < 2 ^ 61)
include hu

theorem toNat_encode : (encode u wl ww hw).toNat = 2 ^ 3 * u + flags wl ww hw := by
  have := flags_lt wl ww hw
  exact UInt64.toNat_ofNat_of_lt' (by simp only [UInt64.size]; omega)

/-- Masking an encoded word with a mask given part by part. -/
theorem encode_and (mask : UInt64) (v m : Nat) (hm : m < 2 ^ 3)
    (hmask : mask.toNat = 2 ^ 3 * v + m) :
    (encode u wl ww hw &&& mask).toNat = 2 ^ 3 * (u &&& v) + (flags wl ww hw &&& m) := by
  rw [UInt64.toNat_and, toNat_encode hu, hmask, land_packed (flags_lt wl ww hw) hm]

omit hu in
theorem uint64_eq_zero_iff (x : UInt64) : x = 0 ↔ x.toNat = 0 := by
  rw [← UInt64.toNat_inj]
  rfl

theorem and_writeClaimed : encode u wl ww hw &&& rwWriteClaimed = 0 ↔ wl = false ∧ ww = false := by
  rw [uint64_eq_zero_iff, encode_and hu _ 0 6 (by decide) (by decide), and_zero]
  cases wl <;> cases ww <;> cases hw <;> decide

theorem and_locked : encode u wl ww hw &&& rwLocked = 0 ↔ u = 0 := by
  rw [uint64_eq_zero_iff, encode_and hu _ (2 ^ 61 - 1) 0 (by decide) (by decide),
    and_two_pow_sub_one_of_lt_two_pow hu, and_zero]
  omega

theorem and_writeLocked : encode u wl ww hw &&& rwWriteLocked = 0 ↔ wl = false := by
  rw [uint64_eq_zero_iff, encode_and hu _ 0 4 (by decide) (by decide), and_zero]
  cases wl <;> cases ww <;> cases hw <;> decide

theorem and_hasWaiters : encode u wl ww hw &&& rwHasWaiters = 0 ↔ hw = false := by
  rw [uint64_eq_zero_iff, encode_and hu _ 0 1 (by decide) (by decide), and_zero]
  cases wl <;> cases ww <;> cases hw <;> decide

theorem and_writeWanted : encode u wl ww hw &&& rwWriteWanted = 0 ↔ ww = false := by
  rw [uint64_eq_zero_iff, encode_and hu _ 0 2 (by decide) (by decide), and_zero]
  cases wl <;> cases ww <;> cases hw <;> decide

theorem toNat_and_owner : (encode u wl ww hw &&& rwOwner).toNat = 2 ^ 3 * u := by
  rw [encode_and hu _ (2 ^ 61 - 1) 0 (by decide) (by decide),
    and_two_pow_sub_one_of_lt_two_pow hu, and_zero, add_zero]

/-- The test of `rw_exit_wakeup` for the final exit of a lock with waiters. -/
theorem and_finalExit :
    encode u wl ww hw &&& (rwLocked ||| rwHasWaiters) = rwHasWaiters ↔ u = 0 ∧ hw = true := by
  rw [← UInt64.toNat_inj, encode_and hu _ (2 ^ 61 - 1) 1 (by decide) (by decide),
    and_two_pow_sub_one_of_lt_two_pow hu]
  have hflag : flags wl ww hw &&& 1 = hw.toNat := by cases wl <;> cases ww <;> cases hw <;> decide
  rw [hflag]
  cases hw with
  | false =>
    simp only [Bool.toNat_false, Bool.false_eq_true, and_false, iff_false]
    change ¬(2 ^ 3 * u + 0 = 1)
    omega
  | true =>
    simp only [Bool.toNat_true, and_true]
    change 2 ^ 3 * u + 1 = 1 ↔ u = 0
    omega

/-- The test of `rw_tryupgrade`: one reader, and no writer waits. -/
theorem and_soleReader :
    encode u wl ww hw &&& ~~~rwHasWaiters = rwReadLock ↔ u = 1 ∧ wl = false ∧ ww = false := by
  rw [← UInt64.toNat_inj, encode_and hu _ (2 ^ 61 - 1) 6 (by decide) (by decide),
    Nat.and_two_pow_sub_one_of_lt_two_pow hu]
  have hread : rwReadLock.toNat = 8 := by decide
  cases wl <;> cases ww <;> cases hw <;>
    simp only [flags, Bool.toNat_true, Bool.toNat_false, Nat.reduceMul, Nat.reduceAdd,
      Nat.reduceAnd, Bool.true_eq_false, and_false, and_true, iff_false] <;> omega

theorem encode_or_hasWaiters : encode u wl ww hw ||| rwHasWaiters = encode u wl ww true := by
  rw [← UInt64.toNat_inj, UInt64.toNat_or, toNat_encode hu, toNat_encode hu]
  have hone : rwHasWaiters.toNat = 1 := by decide
  rw [lor_low (flags_lt wl ww hw) (by decide)]
  cases wl <;> cases ww <;> cases hw <;> rfl

theorem encode_or_writeWanted : encode u wl ww hw ||| rwWriteWanted = encode u wl true hw := by
  rw [← UInt64.toNat_inj, UInt64.toNat_or, toNat_encode hu, toNat_encode hu]
  have htwo : rwWriteWanted.toNat = 2 := by decide
  rw [lor_low (flags_lt wl ww hw) (by decide)]
  cases wl <;> cases ww <;> cases hw <;> rfl

theorem encode_or_wait :
    encode u wl ww hw ||| (rwHasWaiters ||| rwWriteWanted) = encode u wl true true := by
  rw [← UInt64.or_assoc, encode_or_hasWaiters hu, encode_or_writeWanted hu]

end

theorem encode_add_readLock (n : Nat) :
    encode u wl ww hw + ofNat n * rwReadLock = encode (u + n) wl ww hw := by
  have hread : rwReadLock = ofNat 8 := rfl
  rw [hread, encode, ← ofNat_mul, ← ofNat_add]
  congr 1
  omega

theorem encode_succ : encode u wl ww hw + rwReadLock = encode (u + 1) wl ww hw := by
  have h := @encode_add_readLock u wl ww hw 1
  rwa [show ofNat 1 * rwReadLock = rwReadLock from rfl] at h

theorem mul_readLock (n : Nat) : ofNat n * rwReadLock = encode n false false false := by
  have h := @encode_add_readLock 0 false false false n
  rwa [show encode 0 false false false = 0 from rfl, UInt64.zero_add, zero_add] at h

theorem encode_clear_waiters : encode u wl ww true - rwHasWaiters = encode u wl ww false := by
  have h : encode u wl ww true = encode u wl ww false + rwHasWaiters := by
    have hone : rwHasWaiters = ofNat 1 := rfl
    rw [hone, encode, encode, ← UInt64.ofNat_add]
    rfl
  rw [h, UInt64.add_sub_cancel]

/-- A thread's address is a number of eight-byte units. -/
theorem writeLock_eq (a : UInt64) (ha : a.toNat % 8 = 0) :
    rwWriteLock a = encode (a.toNat / 8) true false false := by
  have hlt : a.toNat / 8 < 2 ^ 61 := by
    have := a.toNat_lt
    omega
  rw [← UInt64.toNat_inj, rwWriteLock, UInt64.toNat_or, toNat_encode hlt]
  have h := lor_low (k := 3) (u := a.toNat / 8) (l := 0) (m := 4) (by decide) (by decide)
  rw [add_zero, show 2 ^ 3 * (a.toNat / 8) = a.toNat by omega] at h
  rw [show rwWriteLocked.toNat = 4 from rfl, h, show 2 ^ 3 * (a.toNat / 8) = a.toNat by omega]
  rfl

/-- Taking a free lock as writer. -/
theorem encode_add_writeLock (a : UInt64) (ha : a.toNat % 8 = 0) :
    encode 0 false ww hw + rwWriteLock a = encode (a.toNat / 8) true ww hw := by
  rw [writeLock_eq a ha, encode, encode, ← ofNat_add]
  congr 1
  simp only [flags, Bool.toNat_true, Bool.toNat_false]
  omega

theorem encode_sub_readLock : encode (u + 1) wl ww hw - rwReadLock = encode u wl ww hw := by
  rw [← encode_succ, UInt64.add_sub_cancel]

theorem encode_sub_writeLock (a : UInt64) (ha : a.toNat % 8 = 0) :
    encode (a.toNat / 8) true ww hw - rwWriteLock a = encode 0 false ww hw := by
  rw [← encode_add_writeLock a ha, UInt64.add_sub_cancel]

/-- The addition of `rw_downgrade`. -/
theorem encode_downgrade (a : UInt64) (ha : a.toNat % 8 = 0) :
    encode (a.toNat / 8) true ww hw + (rwReadLock - rwWriteLock a) = encode 1 false ww hw := by
  rw [← encode_add_writeLock a ha, ← encode_succ]
  grind

/-- The exchange of `rw_tryupgrade`. -/
theorem encode_upgrade (a : UInt64) (ha : a.toNat % 8 = 0) :
    encode 1 false ww hw + rwWriteLock a - rwReadLock = encode (a.toNat / 8) true ww hw := by
  rw [← encode_add_writeLock a ha, ← encode_succ]
  grind

/-- The hold count as `rw_exit_wakeup` reports it. -/
theorem encode_shift (hu : u < 2 ^ 61) : (encode u wl ww hw >>> rwHoldCountShift).toNat = u := by
  rw [UInt64.toNat_shiftRight, toNat_encode hu]
  have hlt := flags_lt wl ww hw
  rw [show rwHoldCountShift.toNat % 64 = 3 from rfl]
  omega

end Sol7.Rwlock
