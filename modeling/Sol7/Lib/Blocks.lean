import Mathlib

/-!
# A Message in Blocks

A message is a sequence of items that is divided into blocks. It is read from
the front, either across the blocks or in pieces that have to be in one block,
and it grows at the end, by items in the last block and by new blocks.

## Main definitions

* `takeAcross`: Read a number of items, from as many blocks as it takes.
* `takeWhole`: Read a number of items that have to be in one block.
* `grow`: Add to the last block and after it.
* `Piece`: Items that are to be read in one of the two ways.
* `ReadsBack`: A message gives a sequence of pieces.

## Theorems

* `takeAcross_flatten`, `takeWhole_flatten`: What is read is the front of the
  message.
* `takeAcross_grow`, `takeWhole_grow`: Reading does not depend on what is added
  later.
* `ReadsBack.concat`: A message that has been read to its end can be extended.
-/

namespace Sol7

open List Option

variable {α : Type*}

/-- Read `n` items across blocks. There has to be a block, even for none. -/
def takeAcross : Nat → List (List α) → Option (List α × List (List α))
  | _, [] => none
  | n, b :: bs =>
    if n ≤ b.length then some (b.take n, b.drop n :: bs)
    else (takeAcross (n - b.length) bs).map fun r => (b ++ r.1, r.2)

/-- Read `n` items that are in one block, after blocks that are empty. -/
def takeWhole (n : Nat) : List (List α) → Option (List α × List (List α))
  | [] => none
  | b :: bs =>
    if n ≤ b.length then some (b.take n, b.drop n :: bs)
    else if b.length = 0 then takeWhole n bs
    else none

/-- Add items to the last block, and then more blocks. -/
def grow (x : List α) (more : List (List α)) : List (List α) → List (List α)
  | [] => []
  | [b] => (b ++ x) :: more
  | b :: b' :: bs => b :: grow x more (b' :: bs)

variable {n : Nat} {x y : List α} {b : List α} {bs rest more : List (List α)}

theorem takeAcross_flatten (h : takeAcross n bs = some (x, rest)) :
    bs.flatten = x ++ rest.flatten ∧ x.length = n := by
  induction bs generalizing n x rest with
  | nil => cases h
  | cons b bs ih =>
    rw [takeAcross] at h
    split at h
    · next hle =>
      cases h
      refine ⟨?_, by simp [hle]⟩
      rw [flatten_cons, flatten_cons, ← append_assoc, take_append_drop]
    next hlt =>
    rcases hr : takeAcross (n - b.length) bs with _ | ⟨y, r⟩
    · rw [hr] at h
      cases h
    rw [hr] at h
    cases h
    obtain ⟨hflat, hlen⟩ := ih hr
    constructor
    · simp [hflat]
    · rw [length_append, hlen]
      omega

theorem takeWhole_flatten (h : takeWhole n bs = some (x, rest)) :
    bs.flatten = x ++ rest.flatten ∧ x.length = n := by
  induction bs generalizing x rest with
  | nil => cases h
  | cons b bs ih =>
    rw [takeWhole] at h
    split at h
    · next hle =>
      cases h
      refine ⟨?_, by simp [hle]⟩
      rw [flatten_cons, flatten_cons, ← append_assoc, take_append_drop]
    · next hlt =>
      split at h
      · next hempty =>
        obtain rfl := length_eq_zero_iff.mp hempty
        simpa using ih h
      · cases h

/-- A single block that is added to is still the first one. -/
theorem grow_cons (b : List α) (bs : List (List α)) (x : List α) (more : List (List α)) :
    grow x more (b :: bs) = if bs = [] then (b ++ x) :: more else b :: grow x more bs := by
  cases bs with
  | nil => rfl
  | cons c bs => rfl

/-- Reading from the first block when something is added after it. -/
theorem grow_drop (x : List α) (more bs : List (List α)) (hle : n ≤ b.length) :
    (b ++ x).take n = b.take n ∧ grow x more (b.drop n :: bs) =
        if bs = [] then (b ++ x).drop n :: more else b.drop n :: grow x more bs := by
  refine ⟨take_append_of_le_length hle, ?_⟩
  rw [grow_cons, drop_append_of_le_length hle]

/-- Reading across blocks does not depend on what is added later. -/
theorem takeAcross_grow (h : takeAcross n bs = some (y, rest)) :
    takeAcross n (grow x more bs) = some (y, grow x more rest) := by
  induction bs generalizing n y rest with
  | nil => cases h
  | cons b bs ih =>
    rw [takeAcross] at h
    split at h
    · next hle =>
      cases h
      obtain ⟨htake, hdrop⟩ := grow_drop x more bs hle
      rw [hdrop, grow_cons]
      split
      · rw [takeAcross, if_pos (by rw [length_append]; omega), htake]
      · rw [takeAcross, if_pos hle]
    · next hlt =>
      rcases hr : takeAcross (n - b.length) bs with _ | ⟨z, r⟩
      · rw [hr] at h
        cases h
      rw [hr] at h
      cases h
      have hne : bs ≠ [] := by
        rintro rfl
        cases hr
      rw [grow_cons, if_neg hne, takeAcross, if_neg hlt, ih hr]
      rfl

/-- Reading in one block does not depend on what is added later. -/
theorem takeWhole_grow (h : takeWhole n bs = some (y, rest)) :
    takeWhole n (grow x more bs) = some (y, grow x more rest) := by
  induction bs generalizing y rest with
  | nil => cases h
  | cons b bs ih =>
    rw [takeWhole] at h
    split at h
    · next hle =>
      cases h
      obtain ⟨htake, hdrop⟩ := grow_drop x more bs hle
      rw [hdrop, grow_cons]
      split
      · rw [takeWhole, if_pos (by rw [length_append]; omega), htake]
      · rw [takeWhole, if_pos hle]
    · next hlt =>
      split at h
      · next hempty =>
        have hne : bs ≠ [] := by
          rintro rfl
          cases h
        rw [grow_cons, if_neg hne, takeWhole, if_neg hlt, if_pos hempty]
        exact ih h
      · cases h

theorem grow_concat (bs : List (List α)) (b x : List α) (more : List (List α)) :
    grow x more (bs ++ [b]) = bs ++ (b ++ x) :: more := by
  induction bs with
  | nil => rfl
  | cons c bs ih => rw [cons_append, grow_cons, if_neg (by simp), ih, cons_append]

/-- The last block is read to its end. -/
theorem takeAcross_last (x : List α) : takeAcross x.length [x] = some (x, [[]]) := by
  rw [takeAcross, if_pos le_rfl, take_length, drop_length]

/-- A block that is not the last one is read to its end, and then the rest. -/
theorem takeAcross_cons (hrest : takeAcross n bs = some (y, rest)) (hpos : 0 < n) :
    takeAcross (x.length + n) (x :: bs) = some (x ++ y, rest) := by
  rw [takeAcross, if_neg (by omega), Nat.add_sub_cancel_left, hrest]
  rfl

/-! ### Reading back what has been written -/

/-- Items that have to be in one block, or that may be in several. -/
inductive Piece (α : Type*)
  | whole (l : List α)
  | across (l : List α)

def Piece.items : Piece α → List α
  | .whole l => l
  | .across l => l

/-- Read as many items as a piece has. -/
def Piece.read : Piece α → List (List α) → Option (List α × List (List α))
  | .whole l => takeWhole l.length
  | .across l => takeAcross l.length

/-- Reading gives the pieces one after the other, and leaves the last argument. -/
inductive ReadsBack : List (Piece α) → List (List α) → List (List α) → Prop
  | nil (bs : List (List α)) : ReadsBack [] bs bs
  | cons {p : Piece α} {ps : List (Piece α)} {bs bs1 bs2 : List (List α)} :
      p.read bs = some (p.items, bs1) → ReadsBack ps bs1 bs2 → ReadsBack (p :: ps) bs bs2

theorem Piece.read_grow {p : Piece α} (h : p.read bs = some (y, rest)) :
    p.read (grow x more bs) = some (y, grow x more rest) := by
  cases p with
  | whole l => exact takeWhole_grow h
  | across l => exact takeAcross_grow h

theorem ReadsBack.grow {ps : List (Piece α)} (h : ReadsBack ps bs rest) (x : List α)
    (more : List (List α)) : ReadsBack ps (grow x more bs) (grow x more rest) := by
  induction h with
  | nil bs => exact .nil _
  | cons hread _ ih => exact .cons (Piece.read_grow hread) ih

theorem ReadsBack.append {ps qs : List (Piece α)} (h : ReadsBack ps bs rest)
    (hqs : ReadsBack qs rest more) : ReadsBack (ps ++ qs) bs more := by
  induction h with
  | nil bs => exact hqs
  | cons hread _ ih => exact .cons hread (ih hqs)

/-- A message that has been read to its end can be extended by a piece. -/
theorem ReadsBack.concat {ps : List (Piece α)} {p : Piece α} (h : ReadsBack ps bs [[]])
    (hp : p.read (x :: more) = some (p.items, [[]])) :
    ReadsBack (ps ++ [p]) (Sol7.grow x more bs) [[]] :=
  (h.grow x more).append (.cons hp (.nil _))

end Sol7
