import Sol7.UfsLog.Sector

/-!
# The Log Device Layer

Model of the writing half of `lufs_log.c`: how deltas are put in the circular
log. The write buffer is one piece of memory that is divided into a ring of
`buf_t`s. The dirty buf is filled sector by sector by `storebuf`, which puts a
trailer at the end of every sector, and is pushed to the log device when the
buf is full, when the log wraps, or at a commit.

Log offsets are natural numbers and a log is smaller than what an `off_t`
holds. The log device does not fail by itself; what is done once `LDL_ERROR`
has been set is part of the model. The async write of a buf is complete as
soon as it has been issued. `moved` is not part of the source: it counts the
bytes that `un_tail_lof` has been advanced by.

## Main definitions

* `DeltaType`, `MapEntry`: What is logged.
* `MlUnit`: The log, its write buffer and its device.
* `MlUnit.getWriteBp`, `MlUnit.pushDirtyBp`, `MlUnit.extendWriteBp`: The ring
  of bufs.
* `MlUnit.storebuf`, `MlUnit.ldlWrite`: Writing a delta.
* `MlUnit.ldlRoundCommit`, `MlUnit.ldlPushCommit`: Completing a transaction.
* `MlUnit.ldlHasSpace`: The check made before a list of deltas is written.
* `MlUnit.ldlSethead`: Giving back the space before the oldest delta.
-/

namespace Sol7.UfsLog

/-- The `delta_t` of a log record. -/
inductive DeltaType where
  | none | sb | cg | si | ab | abzero | dir | inode | fbi | qr
  | commit | cancel | bot | eot | ud | sud | shad
  deriving DecidableEq

namespace DeltaType

/-- The types in the order of the enumeration. -/
def all : List DeltaType :=
  [none, sb, cg, si, ab, abzero, dir, inode, fbi, qr, commit, cancel, bot, eot, ud, sud, shad]

/-- `d_typ` as it is stored in the log. -/
def code (dt : DeltaType) : Nat := all.idxOf dt

def ofCode (n : Nat) : Option DeltaType := all[n]?

theorem ofCode_code (dt : DeltaType) : ofCode dt.code = some dt := by cases dt <;> rfl

theorem code_lt (dt : DeltaType) : dt.code < 17 := by cases dt <;> decide

theorem code_ne_zero {dt : DeltaType} (h : dt ≠ none) : dt.code ≠ 0 := by
  cases dt <;> first | exact absurd rfl h | decide

/-- Commits, cancels and zeroes are headers without data. -/
def headerOnly : DeltaType → Bool
  | commit => true
  | cancel => true
  | abzero => true
  | _ => false

end DeltaType

/-- The part of a `mapentry_t` that is logged, and where its data went. -/
structure MapEntry where
  mof : Nat
  nb : Nat
  dt : DeltaType
  lof : Nat
  deriving DecidableEq

namespace MapEntry

/-- The `struct delta` of an entry as it is stored in the log. -/
def header (me : MapEntry) : List UInt8 :=
  bigEndian 8 me.mof ++ bigEndian 4 me.nb ++ bigEndian 4 me.dt.code

@[simp] theorem length_header (me : MapEntry) : me.header.length = 16 := by simp [header]

/-- How many bytes of data follow the header. -/
def dataNb (me : MapEntry) : Nat := if me.dt.headerOnly then 0 else me.nb

end MapEntry

/-- A `buf_t` of the write buffer: its piece of the buffer memory, how much of
    it is filled and which block of the log that is. -/
structure Buf where
  addr : Nat
  bufsize : Nat
  bcount : Nat
  blkno : Nat

namespace Buf

variable (b : Buf)

def lof : Nat := 512 * b.blkno

def elof : Nat := b.lof + b.bcount

/-- What `inval_range` does to one clean buf. -/
def inval (lof nb : Nat) : Buf :=
  if b.bcount = 0 then b
  else if (b.lof < lof ∧ b.elof ≤ lof) ∨ (lof + nb ≤ b.lof ∧ lof + nb < b.elof) then b
  else { b with bcount := 0 }

/-- The buf that the unused space goes to, if there is any. -/
def extra : List Buf :=
  if b.bcount = b.bufsize then []
  else
    [{ addr := b.addr + b.bcount, bufsize := b.bufsize - b.bcount, bcount := 0, blkno := 0 }]

end Buf

/-- The `ml_unit_t`: the log on its device and its circular write buffer.
    `forw` are the bufs after `bp` in `b_forw` order; `dirty` says that
    `cb_dirty` is `cb_bp` rather than null. -/
structure MlUnit where
  bol : Nat
  eol : Nat
  head : Nat
  tail : Nat
  headIdent : UInt32
  tailIdent : UInt32
  tid : UInt32
  error : Bool
  bp : Buf
  forw : List Buf
  dirty : Bool
  mem : Nat → UInt8
  disk : Nat → UInt8
  moved : Nat

def nbLeftInSector (off : Nat) : Nat := 504 - off % 512

namespace MlUnit

variable (s : MlUnit)

/-- Write the dirty buf to the log device, and give the space that it did not
    use to a new buf. -/
def pushDirtyBp : MlUnit :=
  { s with
    -- All IO returns errors when in error state.
    disk := if s.error then s.disk
      else writeAt s.disk s.bp.lof (readAt s.mem s.bp.addr s.bp.bcount)
    dirty := false
    bp := { s.bp with bufsize := s.bp.bcount }
    forw := s.bp.extra ++ s.forw }

/-- Discard all clean bufs that overlap a range of the log. -/
def invalRange (lof nb : Nat) : MlUnit :=
  { s with
    bp := if s.dirty then s.bp else s.bp.inval lof nb
    forw := s.forw.map (fun b => b.inval lof nb) }

/-- The ring of bufs as seen from the buf after `bp`, which is the least
    recently used one. -/
def lru (bp : Buf) (forw : List Buf) : Buf × List Buf :=
  match forw with
  | [] => (bp, [])
  | b :: bs => (b, bs ++ [bp])

/-- The buf being filled; if there is none, steal the least recently used
    one. -/
def getWriteBp : MlUnit :=
  if s.dirty then s
  else
    -- Discard any buf that overlaps the current tail.
    let t := s.invalRange s.tail 1
    let bufs := lru t.bp t.forw
    { t with
      bp := { bufs.1 with bcount := 0, blkno := s.tail / 512 }
      forw := bufs.2
      dirty := true }

/-- Take over the space of the next buf, if it is adjacent. -/
def extendWriteBp : Option MlUnit :=
  match s.forw with
  | [] => none
  | b :: bs =>
    if s.bp.addr + s.bp.bufsize ≠ b.addr then none
    else some { s with bp := { s.bp with bufsize := s.bp.bufsize + b.bufsize }, forw := bs }

/-- Copy bytes to the end of the dirty buf, which is the tail of the log. -/
def copyIn (bytes : List UInt8) : MlUnit :=
  { s with
    mem := writeAt s.mem (s.bp.addr + s.bp.bcount) bytes
    bp := { s.bp with bcount := s.bp.bcount + bytes.length }
    tail := s.tail + bytes.length
    moved := s.moved + bytes.length }

/-- Put the sector trailer after the bytes of a full sector. -/
def putTrailer : MlUnit :=
  { s.copyIn (sectTrailer s.tid s.tailIdent) with tailIdent := s.tailIdent + 1 }

/-- What happens once a sector is complete: the tail wraps at the end of the
    log, and a buf that is full or at the end of the log is written. Says
    whether the buf goes on being filled. -/
def afterSector : MlUnit × Bool :=
  if s.tail = s.eol then (pushDirtyBp { s with tail := s.bol }, false)
  else if s.bp.bcount = s.bp.bufsize then
    match s.extendWriteBp with
    | none => (s.pushDirtyBp, false)
    | some s => (s, true)
  else (s, true)

/-- One turn of the loop of `storebuf`: fill the current sector. Returns what
    is left to store and whether the buf can take more. -/
def storeTurn (va : List UInt8) : MlUnit × List UInt8 × Bool :=
  let nbInSec := nbLeftInSector s.bp.bcount
  let copyNb := min va.length nbInSec
  let copied := s.copyIn (va.take copyNb)
  if nbInSec - copyNb = 0 then
    let (s, filling) := copied.putTrailer.afterSector
    (s, va.drop copyNb, filling)
  else (copied, va.drop copyNb, true)

/-- Store bytes in the dirty buf until they are stored or the buf has been
    pushed; returns the bytes that are left. -/
def storebuf (s : MlUnit) (va : List UInt8) : MlUnit × List UInt8 :=
  let turn := s.storeTurn va
  -- The source asserts that a turn copies something.
  if turn.2.2 ∧ turn.2.1 ≠ [] ∧ turn.2.1.length < va.length then
    storebuf turn.1 turn.2.1
  else (turn.1, turn.2.1)
termination_by va.length
decreasing_by
  rename_i h
  exact h.2.2

/-- The loop of `ldl_write` around `storebuf`. -/
def storeAll (s : MlUnit) (va : List UInt8) : MlUnit :=
  if va = [] then s
  else if s.error then s
  else
    let stored := s.storebuf va
    -- The source asserts that something was stored.
    if stored.2 ≠ [] ∧ stored.2.length < va.length then
      storeAll stored.1.getWriteBp stored.2
    else stored.1
termination_by va.length
decreasing_by
  rename_i h
  exact h.2

/-- Write a delta, whose data lies in the buffer `bufp` that holds the master
    from `bufmof` on, and note in the entry where the data went. -/
def ldlWrite (bufp : Nat → UInt8) (bufmof : Nat) (me : MapEntry) : MlUnit × MapEntry :=
  let s := s.getWriteBp.storeAll me.header
  -- An error leaves the entry as it was.
  if s.error then (s, me)
  else if me.dt.headerOnly then (s, { me with lof := s.tail })
  else
    let s := s.getWriteBp
    (s.storeAll (readAt bufp (me.mof - bufmof) me.nb), { me with lof := s.tail })

/-- Round the dirty buf up to a sector boundary, with what the buffer memory
    happens to hold, set the new tail and fix up the sector trailer. -/
def roundBp : MlUnit :=
  let bcount := (s.bp.bcount + 511) / 512 * 512
  let tail := s.bp.lof + bcount
  { s with
    bp := { s.bp with bcount := bcount }
    tail := if tail = s.eol then s.bol else tail
    mem := writeAt s.mem (s.bp.addr + bcount - 8) (sectTrailer s.tid s.tailIdent)
    tailIdent := s.tailIdent + 1
    moved := s.moved + (bcount - s.bp.bcount) }

/-- Complete the last sector of a transaction. -/
def ldlRoundCommit : MlUnit :=
  if ¬s.dirty then s
  -- The buf is already rounded.
  else if s.roundBp.bp.bcount = s.bp.bcount then s
  -- The tail wrapped, or the buf is exhausted.
  else if s.roundBp.bp.elof = s.eol ∨ s.roundBp.bp.bcount = s.bp.bufsize then
    s.roundBp.pushDirtyBp
  else s.roundBp

/-- Write the dirty buf, if there is one. -/
def ldlPushCommit : MlUnit := if s.dirty then s.pushDirtyBp else s

/-- The number of bytes a list of entries is taken to need, in an `off_t`. -/
def spaceNeeded (mes : List MapEntry) : Int32 :=
  let nb := mes.foldl (fun nb me =>
    nb + 16 + if me.dt = .cancel then 0 else Int32.ofNat me.nb) 0
  -- `dbtob(btod(nb + DEV_BSIZE))`: whole sectors, and one more.
  ((nb + 512 + 511) >>> 9) <<< 9

/-- The number of free bytes from the tail up to the head. -/
def freeBytes : Nat :=
  if s.head ≤ s.tail then (s.head - s.bol) + (s.eol - s.tail) else s.head - s.tail

/-- Whether the log has room for a list of entries. -/
def ldlHasSpace (mes : List MapEntry) : Bool := spaceNeeded mes < Int32.ofNat s.freeBytes

/-- The offset of the header of a delta whose data is at `dataLof`. -/
def headerLof (dataLof : Nat) : Int :=
  let lof : Int := dataLof - 16
  -- The header spans sectors: subtract out the sector trailer.
  let lof := if lof / 512 ≠ (dataLof : Int) / 512 then lof - 8 else lof
  -- The header wrapped the log: go to the last sector.
  if lof < s.bol then lof % 512 + (s.eol - 512) else lof

/-- The number of sectors from the head forward to an offset of the log. -/
def sectorsFromHead (lof : Nat) : UInt32 :=
  if s.head < lof then UInt32.ofNat (lof / 512) - UInt32.ofNat (s.head / 512)
  else UInt32.ofNat (s.eol / 512) - UInt32.ofNat (s.head / 512) +
    (UInt32.ofNat (lof / 512) - UInt32.ofNat (s.bol / 512))

/-- Where the head goes: to the header of the delta whose data is at
    `dataLof`, or to the tail if the log is empty. -/
def newHead : Option Nat → Nat
  | none => s.tail
  | some dataLof => (s.headerLof dataLof).toNat

/-- Discard the clean bufs from the head up to an offset. -/
def invalTo (newLof : Nat) : MlUnit :=
  if s.head < newLof then s.invalRange s.head (newLof - s.head)
  else (s.invalRange s.head (s.eol - s.head)).invalRange s.bol (newLof - s.bol)

/-- Give back the space before the oldest delta of the log. -/
def ldlSethead (dataLof : Option Nat) : MlUnit :=
  if s.newHead dataLof = s.head then s
  -- The head is not updated if there has been an error.
  else if s.error then s.invalTo (s.newHead dataLof)
  else
    { s.invalTo (s.newHead dataLof) with
      head := s.newHead dataLof
      headIdent := s.headIdent + s.sectorsFromHead (s.newHead dataLof) }

end MlUnit

end Sol7.UfsLog
