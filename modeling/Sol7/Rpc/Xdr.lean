import Sol7.Lib.Bytes

/-!
# XDR Streams

An XDR handle reads a message that is in one buffer of memory or in a chain of
STREAMS message blocks. `x_handy` counts the bytes that are left in the buffer
or in the current block. The routines for the types of the protocol are above
the handle and use only its operations.

Lengths are unsigned above the handle and become an `int` on the way to it, and
arithmetic on an `int` wraps. A length that has become negative passes the test
on `x_handy`. If it is then the count of a `bcopy`, the copy runs out of the
message, which is a result of its own here (`Got.wild`).

Pointers are offsets from the start of their buffer. What is outside a buffer
is not specified, and reads as whatever the model has there.

## Main definitions

* `int32`, `rndup`: Arithmetic on an `int`, and `RNDUP`.
* `XdrMem`: A handle on a buffer of memory.
* `Mblk`, `XdrMblk`: A message block and a handle on a chain of them.
* `XdrOps`, `XdrPut`: The operations of a handle.
* `xdrOpaque`, `xdrBytes`, `xdrString`: The routines above the handle.
* `XdrMblk.getmblk`: The rest of a chain as one piece of data.
-/

namespace Sol7.Rpc

/-- The value of an `int` after arithmetic that gave `x`. -/
def int32 (x : Int) : Int := (x + 2 ^ 31) % 2 ^ 32 - 2 ^ 31

/-- `RNDUP` of an `int`. -/
def rndup (x : Int) : Int := int32 ((int32 (x + 3)).tdiv 4 * 4)

/-- What a successful copy out of a message has given. -/
inductive Got
  /-- The bytes that were copied. -/
  | bytes (bs : List UInt8)
  /-- The count was negative. -/
  | wild
deriving DecidableEq

/-- The operations of a handle that decoding needs. -/
structure XdrOps (σ : Type) where
  getint32 : σ → σ × Option Nat
  getbytes : σ → Int → σ × Option Got
  skipbytes : σ → Int → σ × Bool

/-- The operations of a handle that encoding needs. -/
structure XdrPut (σ : Type) where
  putint32 : σ → Nat → σ × Bool
  putbytes : σ → List UInt8 → σ × Bool

/-! ### A buffer of memory -/

/-- A handle on a buffer of memory. -/
structure XdrMem where
  /-- The buffer, and its length. -/
  mem : Nat → UInt8
  size : Nat
  /-- The offset of the next byte. -/
  xPrivate : Int
  xHandy : Int

/-- `xdrmem_create` -/
def XdrMem.create (mem : Nat → UInt8) (size : Nat) : XdrMem := ⟨mem, size, 0, int32 size⟩

/-- `xdrmem_getint32` -/
def XdrMem.getint32 (s : XdrMem) : XdrMem × Option Nat :=
  let handy := int32 (s.xHandy - 4)
  if handy < 0 then ({ s with xHandy := handy }, none)
  else ({ s with xHandy := handy, xPrivate := s.xPrivate + 4 },
    some (bigEndianValue (readAt s.mem s.xPrivate.toNat 4)))

/-- `xdrmem_getbytes` -/
def XdrMem.getbytes (s : XdrMem) (len : Int) : XdrMem × Option Got :=
  let handy := int32 (s.xHandy - len)
  if handy < 0 then ({ s with xHandy := handy }, none)
  else ({ s with xHandy := handy, xPrivate := s.xPrivate + len },
    some (if len < 0 then .wild else .bytes (readAt s.mem s.xPrivate.toNat len.toNat)))

/-- `XDR_SKIPBYTES` in `xdrmem_control`. It goes on like `xdrmem_getbytes` but
    copies nothing. -/
def XdrMem.skipbytes (s : XdrMem) (n : Int) : XdrMem × Bool :=
  let r := s.getbytes (rndup n)
  (r.1, r.2.isSome)

def xdrmemOps : XdrOps XdrMem where
  getint32 := XdrMem.getint32
  getbytes := XdrMem.getbytes
  skipbytes := XdrMem.skipbytes

/-! ### A chain of message blocks -/

/-- A message block, with offsets from the start of its data block. -/
structure Mblk where
  mem : Nat → UInt8
  rptr : Int
  wptr : Nat
  lim : Nat

/-- The number of bytes to be read. -/
def Mblk.left (m : Mblk) : Int := m.wptr - m.rptr

/-- A handle on a chain of message blocks. -/
structure XdrMblk where
  /-- The blocks that have been left behind. -/
  passed : List Mblk
  /-- The blocks from `x_base` on. There are none if it is null. -/
  chain : List Mblk
  xHandy : Int
  xPrivate : Nat

/-- `xdrmblk_init` for decoding. -/
def XdrMblk.initDecode (m : Mblk) (cont : List Mblk) (sz : Nat) : XdrMblk :=
  ⟨[], m :: cont, int32 m.left, sz⟩

/-- The loop of `xdrmblk_getint32`, with the current block and those after it. -/
def getint32Loop (sz : Nat) : List Mblk → List Mblk → Mblk → Int → XdrMblk × Option Nat
  | cont, passed, m, xHandy =>
    let handy := int32 (xHandy - 4)
    if handy < 0 then
      if handy ≠ -4 then (⟨passed, m :: cont, handy, sz⟩, none)
      else
        match cont with
        | [] => (⟨passed ++ [m], [], 0, sz⟩, none)
        | m' :: cont' => getint32Loop sz cont' (passed ++ [m]) m' (int32 m'.left)
    else (⟨passed, { m with rptr := m.rptr + 4 } :: cont, handy, sz⟩,
      some (bigEndianValue (readAt m.mem m.rptr.toNat 4)))

variable (s : XdrMblk)

/-- `xdrmblk_getint32` -/
def XdrMblk.getint32 : XdrMblk × Option Nat :=
  match s.chain with
  | [] => (s, none)
  | m :: cont => getint32Loop s.xPrivate cont s.passed m s.xHandy

/-- The loop of `xdrmblk_getbytes`, with what has been copied so far. -/
def getbytesLoop (sz : Nat) :
    List Mblk → List Mblk → Mblk → Int → Int → List UInt8 → XdrMblk × Option Got
  | cont, passed, m, xHandy, len, acc =>
    let handy := int32 (xHandy - len)
    if handy < 0 then
      -- Take what the block has.
      let handy := int32 (handy + len)
      let m1 := if 0 < handy then { m with rptr := m.rptr + handy } else m
      let acc1 := if 0 < handy then acc ++ readAt m.mem m.rptr.toNat handy.toNat else acc
      let len1 := if 0 < handy then int32 (len - handy) else len
      match cont with
      | [] => (⟨passed ++ [m1], [], 0, sz⟩, none)
      | m' :: cont' => getbytesLoop sz cont' (passed ++ [m1]) m' (int32 m'.left) len1 acc1
    else (⟨passed, { m with rptr := m.rptr + len } :: cont, handy, sz⟩, some (if len < 0 then .wild
        else .bytes (acc ++ readAt m.mem m.rptr.toNat len.toNat)))

/-- `xdrmblk_getbytes` -/
def XdrMblk.getbytes (len : Int) : XdrMblk × Option Got :=
  match s.chain with
  | [] => (s, none)
  | m :: cont => getbytesLoop s.xPrivate cont s.passed m s.xHandy len []

/-- `XDR_SKIPBYTES` in `xdrmblk_control`. It goes on like `xdrmblk_getbytes` but
    copies nothing. -/
def XdrMblk.skipbytes (n : Int) : XdrMblk × Bool :=
  let r := s.getbytes (rndup n)
  (r.1, r.2.isSome)

def xdrmblkOps : XdrOps XdrMblk where
  getint32 := XdrMblk.getint32
  getbytes := XdrMblk.getbytes
  skipbytes := XdrMblk.skipbytes

/-- `xdrmblk_getmblk`: the rest of the chain, and the length that the message
    gives for it. -/
def XdrMblk.getmblk : XdrMblk × Option (List Mblk × Nat) :=
  match s.getint32 with
  | (s, none) => (s, none)
  | (s, some llen) =>
    let len := s.chain.foldl (fun len m => int32 (len + m.left)) 0
    if len < int32 llen then (s, none)
    else ({ s with passed := s.passed ++ s.chain, chain := [], xHandy := 0 }, some (s.chain, llen))

/-! ### Above the handle -/

variable {σ : Type} (ops : XdrOps σ)

def xdrOpaque (s : σ) (cnt : Nat) : σ × Option Got :=
  if cnt = 0 then (s, some (.bytes []))
  else
    let pad := if cnt % 4 ≠ 0 then 4 - cnt % 4 else 0
    match ops.getbytes s (int32 cnt) with
    | (s, none) => (s, none)
    | (s, some got) =>
      if pad = 0 then (s, some got)
      else
        match ops.getbytes s (int32 pad) with
        | (s, none) => (s, none)
        | (s, some _) => (s, some got)

def xdrBytes (s : σ) (maxsize : Nat) : σ × Option Got :=
  match ops.getint32 s with
  | (s, none) => (s, none)
  | (s, some nodesize) =>
    if maxsize < nodesize then (s, none)
    else if nodesize = 0 then (s, some (.bytes []))
    else xdrOpaque ops s nodesize

/-- `xdr_string`. A string that has a null byte in it is refused. -/
def xdrString (s : σ) (maxsize : Nat) : σ × Option Got :=
  match ops.getint32 s with
  | (s, none) => (s, none)
  | (s, some size) =>
    if maxsize < size then (s, none)
    else
      let nodesize := (size + 1) % 2 ^ 32
      if nodesize = 0 then (s, some (.bytes []))
      else
        match xdrOpaque ops s size with
        | (s, none) => (s, none)
        | (s, some .wild) => (s, some .wild)
        | (s, some (.bytes bs)) =>
          if (bs.takeWhile (· ≠ 0)).length ≠ size then (s, none) else (s, some (.bytes bs))

end Sol7.Rpc
