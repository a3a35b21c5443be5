import Sol7.Rpc.Xdr

/-!
# Encoding into a Chain of Message Blocks

An encoder fills the block it is at and takes a new one when there is not
enough room. A string of bytes is divided between blocks. A word is not, and
goes to the next block if fewer than four bytes are left. If the allocator has
returned a block that is larger than what was asked for, but not twice as large,
the data is moved to its end.

The size of a data block is an `int`, so that `x_handy` can hold it. Lengths are
below `2 ^ 31`.

## Main definitions

* `setHandy`: `XDRMBLK_SETHANDY`.
* `XdrMblk.putint32`, `XdrMblk.putbytes`: The operations of the handle.
* `xdrOpaquePut`, `xdrBytesPut`: The routines above the handle, in encode mode.
* `Item`, `Field`: What is encoded, and how it is decoded.
* `encodeAll`, `decodeAll`: Sequences of them.
-/

namespace Sol7.Rpc

/-- Store bytes at the write pointer of a block. -/
def Mblk.put (m : Mblk) (bs : List UInt8) : Mblk :=
  { m with mem := writeAt m.mem m.wptr bs, wptr := m.wptr + bs.length }

/-- `XDRMBLK_SETHANDY`: the block, and the new value of `x_handy`. -/
def setHandy (m : Mblk) (blen adjust : Nat) : Mblk × Int :=
  let mpsize := m.lim
  let m :=
    if mpsize / 2 ≤ blen then
      { m with
        rptr := m.rptr + (mpsize - blen : Int)
        wptr := (m.rptr + (mpsize - blen : Int)).toNat }
    else m
  (m, int32 (m.lim - m.rptr - adjust))

variable (allocb : Nat → Option Mblk)

/-- `xdrmblk_alloc`. The block that `allocb` returns depends on how many there
    are already. -/
def xdrmblkAlloc (sz count : Nat) : Option Mblk :=
  if sz = 0 then none else allocb count

/-- The next block of the chain, which may be a new one, with what follows it
    and the new value of `x_handy`. -/
def nextBlock (sz count : Nat) (cont : List Mblk) (adjust : Nat) :
    Option (Mblk × List Mblk × Int) :=
  match cont with
  | [] => (xdrmblkAlloc allocb sz count).map fun m =>
    ((setHandy m sz adjust).1, [], (setHandy m sz adjust).2)
  | m :: cont => some (m, cont, int32 (m.lim - m.rptr - adjust))

namespace XdrMblk

/-- `xdrmblk_init` for encoding. -/
def initEncode (m : Mblk) (sz : Nat) : XdrMblk := ⟨[], [m], int32 m.lim, sz⟩

/-- `xdrmblk_putint32` -/
def putint32 (s : XdrMblk) (w : Nat) : XdrMblk × Bool :=
  match s.chain with
  | [] => (s, false)
  | m :: cont =>
    let handy := int32 (s.xHandy - 4)
    if handy < 0 then
      match nextBlock allocb s.xPrivate (s.passed ++ [m]).length cont 4 with
      | none => (⟨s.passed ++ [m], [], 0, s.xPrivate⟩, false)
      | some (m', cont', handy') =>
        (⟨s.passed ++ [m], m'.put (bigEndian 4 w) :: cont', handy', s.xPrivate⟩, true)
    else (⟨s.passed, m.put (bigEndian 4 w) :: cont, handy, s.xPrivate⟩, true)

/-- The loop of `xdrmblk_putbytes`, with the current block and those after it,
    and the bytes that are still to be copied. The first argument bounds the
    number of iterations. -/
def putbytesLoop (allocb : Nat → Option Mblk) (sz : Nat) :
    Nat → List Mblk → Mblk → List Mblk → Int → List UInt8 → XdrMblk × Bool
  | 0, passed, m, cont, xHandy, _ => (⟨passed, m :: cont, xHandy, sz⟩, false)
  | fuel + 1, passed, m, cont, xHandy, addr =>
    let handy := int32 (xHandy - addr.length)
    if handy < 0 then
      -- Fill what is left of the block.
      let handy := int32 (handy + addr.length)
      let m1 := if 0 < handy then m.put (addr.take handy.toNat) else m
      let addr1 := if 0 < handy then addr.drop handy.toNat else addr
      match nextBlock allocb sz (passed ++ [m1]).length cont 0 with
      | none => (⟨passed ++ [m1], [], 0, sz⟩, false)
      | some (m', cont', handy') =>
        putbytesLoop allocb sz fuel (passed ++ [m1]) m' cont' handy' addr1
    else (⟨passed, m.put addr :: cont, handy, sz⟩, true)

/-- `xdrmblk_putbytes`. A block that has been allocated takes at least one byte,
    so that there is at most one iteration for each byte, for each block that is
    already there, and one more. -/
def putbytes (s : XdrMblk) (addr : List UInt8) : XdrMblk × Bool :=
  match s.chain with
  | [] => (s, false)
  | m :: cont =>
    putbytesLoop allocb s.xPrivate (addr.length + (m :: cont).length + 1) s.passed m cont s.xHandy
      addr

end XdrMblk

def xdrmblkPut : XdrPut XdrMblk where
  putint32 := XdrMblk.putint32 allocb
  putbytes := XdrMblk.putbytes allocb

/-! ### Above the handle -/

/-- The bytes that round a length up to a multiple of four. -/
def padding (cnt : Nat) : Nat := if cnt % 4 ≠ 0 then 4 - cnt % 4 else 0

/-- What is encoded. -/
inductive Item
  | int32 (w : BitVec 32)
  | bytes (bs : List UInt8) (maxsize : Nat)
  | fixed (bs : List UInt8)

/-- How an item is decoded. -/
inductive Field
  | int32
  | bytes (maxsize : Nat)
  | fixed (cnt : Nat)

/-- What decoding a field gives. -/
inductive Value
  | int32 (w : Nat)
  | data (got : Got)

/-- The lengths are below `2 ^ 31` and in the bounds that the caller has set. -/
def Item.Ok : Item → Prop
  | .int32 _ => True
  | .bytes bs maxsize => bs.length < 2 ^ 31 ∧ bs.length ≤ maxsize
  | .fixed bs => bs.length < 2 ^ 31

def Item.field : Item → Field
  | .int32 _ => .int32
  | .bytes _ maxsize => .bytes maxsize
  | .fixed bs => .fixed bs.length

def Item.value : Item → Value
  | .int32 w => .int32 w.toNat
  | .bytes bs _ => .data (.bytes bs)
  | .fixed bs => .data (.bytes bs)

variable {σ : Type}

/-- `xdr_opaque` in encode mode. -/
def xdrOpaquePut (put : XdrPut σ) (s : σ) (cp : List UInt8) : σ × Bool :=
  if cp.length = 0 then (s, true)
  else
    match put.putbytes s cp with
    | (s, false) => (s, false)
    | (s, true) =>
      if padding cp.length = 0 then (s, true)
      else put.putbytes s (List.replicate (padding cp.length) 0)

/-- `xdr_bytes` in encode mode. -/
def xdrBytesPut (put : XdrPut σ) (s : σ) (cp : List UInt8) (maxsize : Nat) : σ × Bool :=
  match put.putint32 s cp.length with
  | (s, false) => (s, false)
  | (s, true) => if maxsize < cp.length then (s, false) else xdrOpaquePut put s cp

def Item.encode (put : XdrPut σ) (s : σ) : Item → σ × Bool
  | .int32 w => put.putint32 s w.toNat
  | .bytes bs maxsize => xdrBytesPut put s bs maxsize
  | .fixed bs => xdrOpaquePut put s bs

def Field.decode (ops : XdrOps σ) (s : σ) : Field → σ × Option Value
  | .int32 => ((ops.getint32 s).1, (ops.getint32 s).2.map Value.int32)
  | .bytes maxsize => ((xdrBytes ops s maxsize).1, (xdrBytes ops s maxsize).2.map Value.data)
  | .fixed cnt => ((xdrOpaque ops s cnt).1, (xdrOpaque ops s cnt).2.map Value.data)

/-- Encode items until one fails. -/
def encodeAll (put : XdrPut σ) : List Item → σ → σ × Bool
  | [], s => (s, true)
  | i :: is, s =>
    match i.encode put s with
    | (s, false) => (s, false)
    | (s, true) => encodeAll put is s

/-- Decode fields until one fails. -/
def decodeAll (ops : XdrOps σ) : List Field → σ → σ × Option (List Value)
  | [], s => (s, some [])
  | f :: fs, s =>
    match f.decode ops s with
    | (s, none) => (s, none)
    | (s, some v) => ((decodeAll ops fs s).1, (decodeAll ops fs s).2.map (v :: ·))

end Sol7.Rpc
