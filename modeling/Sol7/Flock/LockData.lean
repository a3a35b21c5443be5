import Mathlib

/-!
# Ranges of File Locks

A request for a lock gives its range by a start, which may be relative to the
file offset or to the file size, and a length, which may be zero (up to the end
of the file) or negative. The kernel computes the first and the last byte in
wrapping arithmetic, checks them, and merges ranges that touch. For the lock
manager it goes back from a range to a start and a length.

The request denotes a range of integers, the same computation without bounds.

## Main definitions

* `flkConvertLockData`, `flkCheckLockData`, `createFlock`: The conversions.
* `flkRelation`: Merging a lock of the same type with a request.
* `exactRange`, `InFile`: What a request denotes.
* `Produced`: The ranges of locks.

## Theorems

* `lockData_eq`: What the code computes from a start modulo `2 ^ 64`.
* `Produced.valid`: Every range passes the check.
* `lock_ranges_convert_iff`: When conversion is exact both ways.
-/

namespace Sol7.Flock

open Option

/-- `MAXEND`, the largest offset. -/
def maxend : Int := 2 ^ 63 - 1

/-- `MAX_U_OFFSET_T`, the last byte of a lock up to the end of the file. -/
def maxUOffset : Int := 2 ^ 64 - 1

/-- A value in the arithmetic of `u_offset_t`. -/
def uOffset (x : Int) : Int :=
  x % 2 ^ 64

/-- The range of an `flock64_t`. -/
structure Flock64 where
  whence : Nat
  start : Int64
  len : Int64

/-- The range of a `lock_descriptor_t`: `l_start` and `l_end`. -/
structure Range where
  start : Int
  last : Int
deriving DecidableEq

/-- The range covered by a request, from its starting point. -/
def covered (start len : Int) : Range :=
  if len = 0 then ⟨start, maxUOffset⟩
  else if 0 < len then ⟨start, uOffset (start + (len - 1))⟩
  else ⟨uOffset (start + len + 1), start⟩

variable (flp : Flock64) (offset : Int64)

def flkConvertLockData (vaSize : UInt64) : Option Range :=
  match flp.whence with
  | 0 => some (covered (uOffset flp.start.toInt) flp.len.toInt)
  | 1 => some (covered (uOffset (flp.start.toInt + offset.toInt)) flp.len.toInt)
  | 2 => some (covered (uOffset (flp.start.toInt + vaSize.toNat)) flp.len.toInt)
  | _ => none

variable (r : Range)

def flkCheckLockData (max : Int) : Bool :=
  !(r.start > max || r.last > max && r.last ≠ maxUOffset) && !(r.start > r.last)

/-- The range of a lock that is requested. -/
def lockData (vaSize : UInt64) : Option Range :=
  (flkConvertLockData flp offset vaSize).filter (flkCheckLockData · maxend)

def createFlock : Flock64 where
  whence := 0
  start := Int64.ofInt r.start
  len := Int64.ofInt (if r.last = maxUOffset then 0 else uOffset (r.last - r.start + 1))

/-- The range of a request after it has met a lock of the same type. -/
def flkRelation (lock request : Range) : Range :=
  if lock.last < request.start then
    if lock.last = uOffset (request.start - 1) then { request with start := lock.start }
    else request
  else if lock.start > request.last then
    if request.last = uOffset (lock.start - 1) then { request with last := lock.last }
    else request
  else if request.last < lock.last then
    if request.start < lock.start then { request with last := lock.last } else lock
  else if request.start > lock.start then { request with start := lock.start }
  else request

/-! ### What a request denotes -/

/-- The starting point. -/
def Flock64.exactStart (vaSize : UInt64) : Int :=
  match flp.whence with
  | 0 => flp.start.toInt
  | 1 => flp.start.toInt + offset.toInt
  | _ => flp.start.toInt + vaSize.toNat

/-- The first byte, and the last unless it is the end of the file. -/
def exactRange (start len : Int) : Int × Option Int :=
  if len = 0 then (start, none)
  else if 0 < len then (start, some (start + (len - 1)))
  else (start + len + 1, some start)

/-- The range lies in `[0, MAXEND]`, or starts there. -/
def InFile (r : Int × Option Int) : Prop :=
  0 ≤ r.1 ∧ r.2.getD r.1 ≤ maxend

instance (r : Int × Option Int) : Decidable (InFile r) :=
  inferInstanceAs (Decidable (_ ∧ _))

/-- A range of the kernel as a range of integers. -/
def Range.exact : Int × Option Int :=
  (r.start, if r.last = maxUOffset then none else some r.last)

/-- The request is accepted if what it denotes lies in a file, and becomes that
    range. -/
def Converts (vaSize : UInt64) : Prop :=
  let r := exactRange (flp.exactStart offset vaSize) flp.len.toInt
  (lockData flp offset vaSize).map Range.exact = if InFile r then some r else none

/-- The ranges of locks: those requested, and those merged from them. -/
inductive Produced : Range → Prop
  | request (flp : Flock64) (offset : Int64) (vaSize : UInt64) (r : Range)
      (h : lockData flp offset vaSize = some r) : Produced r
  | merge (lock request : Range) (hl : Produced lock) (hr : Produced request) :
      Produced (flkRelation lock request)

/-- The starting point of the request is out of the range of the arithmetic, and
    the wrapped one is taken. -/
def Flock64.wraps (vaSize : UInt64) : Prop :=
  let start := flp.exactStart offset vaSize
  (start < -2 ^ 63 ∨ 2 ^ 64 ≤ start) ∧ InFile (exactRange (uOffset start) flp.len.toInt)

/-! ### The conversions -/

theorem check_iff : flkCheckLockData r maxend = true ↔
      r.start < 2 ^ 63 ∧ r.start ≤ r.last ∧ (r.last < 2 ^ 63 ∨ r.last = 2 ^ 64 - 1) := by
  unfold flkCheckLockData maxend maxUOffset
  grind

theorem covered_spec (start : Int) {len : Int} (hs : 0 ≤ start ∧ start < 2 ^ 64)
    (hl : -2 ^ 63 ≤ len ∧ len < 2 ^ 63) :
    (flkCheckLockData (covered start len) maxend = true ↔ InFile (exactRange start len)) ∧
      (InFile (exactRange start len) → (covered start len).exact = exactRange start len) := by
  unfold covered exactRange Range.exact
  rw [check_iff]
  split_ifs <;> simp [InFile, maxend, maxUOffset, uOffset] at * <;> omega

theorem flkConvertLockData_eq (vaSize : UInt64) :
    flkConvertLockData flp offset vaSize = if flp.whence ≤ 2 then
      some (covered (uOffset (flp.exactStart offset vaSize)) flp.len.toInt) else none := by
  obtain ⟨whence, start, len⟩ := flp
  match whence with
  | 0 | 1 | 2 => rfl
  | n + 3 => rfl

/-- What the code makes of a request: its starting point wraps. -/
theorem lockData_eq {flp : Flock64} (hw : flp.whence ≤ 2) (offset : Int64) (vaSize : UInt64) :
    (lockData flp offset vaSize).map Range.exact =
      let r := exactRange (uOffset (flp.exactStart offset vaSize)) flp.len.toInt
      if InFile r then some r else none := by
  obtain ⟨hcheck, hexact⟩ := covered_spec (uOffset (flp.exactStart offset vaSize))
    (by unfold uOffset; omega) ⟨flp.len.le_toInt, flp.len.toInt_lt⟩
  unfold lockData
  rw [flkConvertLockData_eq, if_pos hw, filter_some]
  split
  · next hin => rw [if_pos (hcheck.mp hin), map_some, hexact (hcheck.mp hin)]
  · next hout => rw [if_neg fun hin => hout (hcheck.mpr hin), map_none]

theorem not_inFile (start len : Int) (h : start < 0 ∨ 2 ^ 63 ≤ start) :
    ¬InFile (exactRange start len) := by
  unfold InFile exactRange maxend
  split_ifs <;> simp <;> omega

theorem Produced.valid {r : Range} (h : Produced r) :
    0 ≤ r.start ∧ flkCheckLockData r maxend = true := by
  induction h with
  | request flp offset vaSize r h =>
    obtain ⟨hconv, hcheck⟩ := filter_eq_some_iff.mp h
    refine ⟨?_, hcheck⟩
    rw [flkConvertLockData_eq] at hconv
    unfold covered uOffset at hconv
    grind
  | merge lock request _ _ hl hr =>
    rw [check_iff] at hl hr ⊢
    unfold flkRelation uOffset
    split_ifs <;> grind

/-- A range that passes the check comes back, but for the one range whose length
    is not an `offset_t`. -/
theorem createFlock_iff {r : Range} (h : 0 ≤ r.start ∧ flkCheckLockData r maxend = true)
    (offset : Int64) (vaSize : UInt64) :
    flkConvertLockData (createFlock r) offset vaSize = some r ↔ r ≠ ⟨0, maxend⟩ := by
  obtain ⟨start, last⟩ := r
  rw [check_iff] at h
  -- The length of all offsets is read back as a negative one.
  have hlen : (createFlock ⟨start, last⟩).len.toInt = if last = maxUOffset then 0
      else if last - start + 1 = 2 ^ 63 then -2 ^ 63 else last - start + 1 := by
    rw [createFlock, Int64.toInt_ofInt, uOffset, maxUOffset, Int.bmod_def]
    grind
  have hstart : (createFlock ⟨start, last⟩).start.toInt = start := by
    rw [createFlock, Int64.toInt_ofInt, Int.bmod_def]
    grind
  change some (covered (uOffset (createFlock ⟨start, last⟩).start.toInt) _) = _ ↔ _
  rw [hlen, hstart]
  unfold covered uOffset maxUOffset maxend
  grind

/-- A request becomes what it denotes if and only if its start does not wrap,
    and the range of a lock survives the way back if and only if it is not the
    range of all offsets. -/
theorem lock_ranges_convert_iff (hw : flp.whence ≤ 2) (offset : Int64)
    (vaSize : UInt64) (r : Range) (hr : Produced r) :
    (Converts flp offset vaSize ↔ ¬flp.wraps offset vaSize) ∧
      (flkConvertLockData (createFlock r) offset vaSize = some r ↔ r ≠ ⟨0, maxend⟩) := by
  refine ⟨?_, createFlock_iff hr.valid offset vaSize⟩
  unfold Converts Flock64.wraps
  rw [lockData_eq hw]
  generalize flp.exactStart offset vaSize = start
  dsimp only
  by_cases hwrap : start < -2 ^ 63 ∨ 2 ^ 64 ≤ start
  · rw [if_neg (not_inFile start _ (by omega))]
    grind
  · refine iff_of_true ?_ fun hc => hwrap hc.1
    by_cases hneg : 0 ≤ start
    · rw [uOffset, Int.emod_eq_of_lt hneg (by omega)]
    · rw [if_neg (not_inFile _ _ (by unfold uOffset; omega)), if_neg (not_inFile _ _ (by omega))]

/-- All offsets, asked for backwards. -/
theorem lock_ranges_convert_iff_backwards :
    (Converts ⟨0, 0x7fffffffffffffff, -0x8000000000000000⟩ 0 0 ↔
      ¬Flock64.wraps ⟨0, 0x7fffffffffffffff, -0x8000000000000000⟩ 0 0) ∧
    (flkConvertLockData (createFlock ⟨0, maxend⟩) 0 0 = some ⟨0, maxend⟩ ↔
      (⟨0, maxend⟩ : Range) ≠ ⟨0, maxend⟩) :=
  lock_ranges_convert_iff _ (by decide) 0 0 _
    (.request ⟨0, 0x7fffffffffffffff, -0x8000000000000000⟩ 0 0 _ (by decide +kernel))

/-- A start before the offsets that a word can hold is taken for one in the file,
    and the lock on all offsets is not found again. -/
theorem lock_ranges_lost : ¬Converts ⟨1, -0x8000000000000000, 0⟩ (-1) 0 ∧
      ∃ r, lockData ⟨0, 0x7fffffffffffffff, -0x8000000000000000⟩ 0 0 = some r ∧
        flkConvertLockData (createFlock r) 0 0 ≠ some r ∧ lockData (createFlock r) 0 0 = none := by
  refine ⟨?_, ⟨0, maxend⟩, by decide +kernel, by decide +kernel, by decide +kernel⟩
  unfold Converts
  decide +kernel

end Sol7.Flock
