import Sol7.Lib.Extents
import Sol7.Lib.System

/-!
# Resource Maps

Model of `rmap.c`: `mapinit`, `rmalloc`, `rmget` and `rmfree`.

A resource map is an array of entries, each a range of free units, ended by an
entry of size zero. The memory of `m_map` is a list here, and a loop over the
array is a recursion along it, so that what the source writes in place is
written in the same place. A loop that would run off the end of the memory has
no result. Neither has a panic.

Addresses and sizes are numbers: all ranges lie in the address type, so no sum
overflows.

`rmfree` drops the lock of the map when it has to discard an entry, and starts
again. A pass of `rmfree` under the lock is one step, and others may come in
between. Which units are outstanding and which have been lost is kept as
history.

## Main definitions

* `Rmap`: A map.
* `Rmap.mapinit`, `Rmap.rmallocLocked`, `Rmap.rmget`, `Rmap.rmfreePass`: The
  routines.
* `Rmap.rmfree`: All passes of an `rmfree`.
* `rmaps`: The runs on a map.
-/

namespace Sol7

namespace Rmap

/-! ### Loops over the array -/

/-- Move the entries behind an entry to the left, up to the one of size
    zero. -/
def shiftLeft : List Extent → Option (List Extent)
  | [] => none
  | [_] => none
  | _ :: bp :: rest =>
    if bp.size = 0 then some (bp :: bp :: rest)
    else (shiftLeft (bp :: rest)).map (bp :: ·)

/-- Put a new entry here, and push the remaining ones up. The size of zero that
    ends the map is expected to be in the memory already. -/
def pushUp (new : Extent) : List Extent → Option (List Extent)
  | [] => none
  | bp :: rest => if bp.size = 0 then some (new :: rest) else (pushUp bp rest).map (new :: ·)

/-- Shift the entries up for a new one, and end the map behind the last one. -/
def shiftUp (new : Extent) : List Extent → Option (List Extent)
  | [] => none
  | bp :: rest =>
    if bp.size = 0 then
      match rest with
      | [] => none
      | bp1 :: rest => some (new :: { bp1 with size := 0 } :: rest)
    else (shiftUp bp rest).map (new :: ·)

/-- The search of `rmalloc_locked`: the new entries, and the address that was
    found, with whether an entry was used up. -/
def allocFrom (size : Nat) : List Extent → Option (List Extent × Option (Nat × Bool))
  | [] => none
  | bp :: rest =>
    if bp.size = 0 then some (bp :: rest, none)
    else if size ≤ bp.size then
      if bp.size - size = 0 then
        (shiftLeft (⟨0, bp.addr + size⟩ :: rest)).map fun m => (m, some (bp.addr, true))
      else some (⟨bp.size - size, bp.addr + size⟩ :: rest, some (bp.addr, false))
    else (allocFrom size rest).map fun r => (bp :: r.1, r.2)

/-- What `rmget` does to the map. -/
inductive GetResult where
  | fails
  | drops
  | keeps
  | splits

/-- The search of `rmget`, and its work on the entry it finds. -/
def getFrom (free size addr : Nat) : List Extent → Option (List Extent × GetResult)
  | [] => none
  | bp :: rest =>
    if bp.size = 0 then some (bp :: rest, .fails)
    else if bp.addr ≤ addr ∧ bp.addr + bp.size > addr then
      if bp.addr + bp.size < addr + size then some (bp :: rest, .fails)
      else if bp.addr = addr then
        if bp.size = size then (shiftLeft (bp :: rest)).map fun m => (m, .drops)
        else some (⟨bp.size - size, bp.addr + size⟩ :: rest, .keeps)
      else if bp.addr + bp.size = addr + size then
        some (⟨bp.size - size, bp.addr⟩ :: rest, .keeps)
      else if free = 0 then some (bp :: rest, .fails)
      else
        (shiftUp ⟨bp.addr + bp.size - (addr + size), addr + size⟩ rest).map fun m =>
          (⟨addr - bp.addr, bp.addr⟩ :: m, .splits)
    else (getFrom free size addr rest).map fun r => (bp :: r.1, r.2)

/-- Locate the entry that starts after the returned space, or the end of the
    map. -/
def locate (addr : Nat) : List Extent → List Extent × List Extent
  | [] => ([], [])
  | bp :: rest =>
    if bp.addr ≤ addr ∧ bp.size ≠ 0 then (bp :: (locate addr rest).1, (locate addr rest).2)
    else ([], bp :: rest)

/-- Discard the smaller of the last two entries. Where there are no two, an
    entry in front of the array would be read. -/
def discard : List Extent → Option (Extent × List Extent)
  | bp0 :: bp1 :: bp2 :: rest =>
    if bp0.size = 0 ∨ bp1.size = 0 then none
    else if bp2.size = 0 then
      if bp1.size > bp0.size then some (bp0, bp1 :: { bp1 with size := 0 } :: bp2 :: rest)
      else some (bp1, bp0 :: bp2 :: { bp2 with size := 0 } :: rest)
    else (discard (bp1 :: bp2 :: rest)).map fun r => (r.1, bp0 :: r.2)
  | _ => none

end Rmap

/-- A resource map: `m_free`, the number of its entries, and `m_map`. -/
structure Rmap where
  free : Nat
  cap : Nat
  map : List Extent

namespace Rmap

variable (mp : Rmap)

/-- `mapinit`, for a map that is in zero-filled memory. There is one entry more
    than is counted, and one for the end of the map. -/
def mapinit (cap size addr : Nat) : Rmap where
  free := if size ≠ 0 then cap - 1 else cap
  cap := cap
  map := ⟨size, addr⟩ :: List.replicate (cap + 1) ⟨0, 0⟩

/-- The size is not positive as a signed number. -/
def BadSize (size : Nat) : Prop := size = 0 ∨ 2 ^ 31 ≤ size

instance (size : Nat) : Decidable (BadSize size) := inferInstanceAs (Decidable (_ ∨ _))

/-- `rmalloc_locked`: the map and the address, which is 0 on failure. The size
    is asserted to be positive. -/
def rmallocLocked (size : Nat) : Option (Rmap × Nat) :=
  if BadSize size then none
  else
    (allocFrom size mp.map).map fun r =>
      match r.2 with
      | none => ({ mp with map := r.1 }, 0)
      | some (addr, used) =>
        ({ mp with map := r.1, free := if used then mp.free + 1 else mp.free }, addr)

/-- `rmget`: the map and the address, which is 0 on failure. -/
def rmget (size addr : Nat) : Option (Rmap × Nat) :=
  if BadSize size then none
  else
    (getFrom mp.free size addr mp.map).map fun r =>
      match r.2 with
      | .fails => ({ mp with map := r.1 }, 0)
      | .drops => ({ mp with map := r.1, free := mp.free + 1 }, addr)
      | .keeps => ({ mp with map := r.1 }, addr)
      | .splits => ({ mp with map := r.1, free := mp.free - 1 }, addr)

/-- The returned space abuts the entry on the left, and perhaps the one on the
    right too. -/
def joinLeft (size addr : Nat) (pre : List Extent) (left : Extent) (post : List Extent) :
    Option Rmap :=
  if left.addr + left.size > addr then none
  else
    match post with
    | [] => none
    | bp :: rest =>
      if bp.size ≠ 0 ∧ addr + size ≥ bp.addr then
        if addr + size > bp.addr then none
        else
          (shiftLeft (bp :: rest)).map fun m =>
            { mp with
              map := pre ++ ⟨left.size + size + bp.size, left.addr⟩ :: m
              free := mp.free + 1 }
      else some { mp with map := pre ++ ⟨left.size + size, left.addr⟩ :: bp :: rest }

/-- The returned space does not abut the entry on the left. The entry that is
    discarded if the map overflows is the second result. -/
def joinRight (size addr : Nat) (pre post : List Extent) : Option (Rmap × Option Extent) :=
  match post with
  | [] => none
  | bp :: rest =>
    if addr + size ≥ bp.addr ∧ bp.size ≠ 0 then
      if addr + size > bp.addr then none
      else some ({ mp with map := pre ++ ⟨bp.size + size, bp.addr - size⟩ :: rest }, none)
    else if mp.free = 0 then
      (discard mp.map).map fun r => ({ mp with map := r.2, free := mp.free + 1 }, some r.1)
    else
      (pushUp ⟨size, addr⟩ (bp :: rest)).map fun m =>
        ({ mp with map := pre ++ m, free := mp.free - 1 }, none)

/-- A pass of `rmfree` under the lock: the entry that was lost, if it has to
    start again. -/
def rmfreePass (size addr : Nat) : Option (Rmap × Option Extent) :=
  if addr = 0 ∨ BadSize size then none
  else
    match (locate addr mp.map).1.getLast? with
    | none => mp.joinRight size addr (locate addr mp.map).1 (locate addr mp.map).2
    | some left =>
      if left.addr + left.size ≥ addr then
        (mp.joinLeft size addr (locate addr mp.map).1.dropLast left (locate addr mp.map).2).map
          fun mp => (mp, none)
      else mp.joinRight size addr (locate addr mp.map).1 (locate addr mp.map).2

/-- All passes of an `rmfree` that is not disturbed: the map, and what was
    lost. -/
def rmfree : Nat → Rmap → Nat → Nat → Option (Rmap × List Extent)
  | 0, _, _, _ => none
  | fuel + 1, mp, size, addr =>
    (mp.rmfreePass size addr).bind fun r =>
      match r.2 with
      | none => some (r.1, [])
      | some lost => (rmfree fuel r.1 size addr).map fun q => (q.1, lost :: q.2)

end Rmap

/-! ### Runs -/

/-- What may be done with a map. -/
inductive RmapOp where
  | rmalloc (size : Nat)
  | rmget (size addr : Nat)
  /-- A pass of `rmfree`. -/
  | rmfree (size addr : Nat)

/-- A map, and as history the units that make up the resource, those that are
    outstanding and those that were lost. -/
structure RmapState where
  mp : Rmap
  unit : Nat → Bool
  out : Nat → Bool
  lost : Nat → Bool

namespace RmapState

variable (s : RmapState)

/-- A unit is in a range. -/
def inRange (size addr u : Nat) : Bool := addr ≤ u && u < addr + size

/-- All units of a range are outstanding. -/
def Outstanding (size addr : Nat) : Prop := ∀ k < size, s.out (addr + k) = true

instance (size addr : Nat) : Decidable (s.Outstanding size addr) :=
  inferInstanceAs (Decidable (∀ k < size, s.out (addr + k) = true))

/-- A routine that allocates has returned. -/
def allocated (size : Nat) (r : Rmap × Nat) : RmapState :=
  if r.2 = 0 then { s with mp := r.1 }
  else { s with mp := r.1, out := fun u => s.out u || inRange size r.2 u }

def rmalloc (size : Nat) : Option RmapState := (s.mp.rmallocLocked size).map (s.allocated size)

def rmget (size addr : Nat) : Option RmapState := (s.mp.rmget size addr).map (s.allocated size)

/-- Only what is outstanding is returned. -/
def rmfree (size addr : Nat) : Option RmapState :=
  if s.Outstanding size addr then
    (s.mp.rmfreePass size addr).map fun r =>
      match r.2 with
      | none => { s with mp := r.1, out := fun u => s.out u && !inRange size addr u }
      | some e => { s with mp := r.1, lost := fun u => s.lost u || inRange e.size e.addr u }
  else none

def step : RmapOp → Option RmapState
  | .rmalloc size => s.rmalloc size
  | .rmget size addr => s.rmget size addr
  | .rmfree size addr => s.rmfree size addr

/-- After `mapinit`. What the resource has beyond what is given to the map is
    outstanding, and may be returned later. Address 0 is not available in a
    resource. -/
structure Init : Prop where
  zero : s.unit 0 = false
  lost : ∀ u, s.lost u = false
  mp : ∃ cap size addr, 2 ≤ cap ∧ s.mp = Rmap.mapinit cap size addr ∧
    ∀ u, s.unit u = (s.out u || inRange size addr u) ∧ (s.out u && inRange size addr u) = false

end RmapState

/-- The runs on a map. -/
def rmaps : System RmapState RmapOp where
  init := RmapState.Init
  step := RmapState.step

end Sol7
