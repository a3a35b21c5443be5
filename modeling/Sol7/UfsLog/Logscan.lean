import Sol7.UfsLog.Logmap

/-!
# Scanning the Log

Model of the reading half of the recovery: the `ldl_logscan` routines of
`lufs_log.c` and `logmap_logscan` of `lufs_map.c`, which rebuild the logmap
from the sectors found on the log device.

During a scan there is one read buf, which holds a copy of consecutive sectors
of the device; as nobody writes to the device meanwhile, the model reads the
device through the buf. The tests of the idents are done in the 32 bits that
`u_long` has in the ILP32 kernel.

## Main definitions

* `ScanLog`: The log during a scan.
* `ScanLog.getReadBp`, `ScanLog.logscanIdent`, `ScanLog.fetchbuf`: The read
  buf.
* `ScanLog.logscanRead`: `ldl_logscan_read`.
* `Scan`: The log and the logmap being rebuilt.
* `Scan.logscanAdd`: `logmap_logscan_add`.
* `logmapLogscan`: The scan.
-/

namespace Sol7.UfsLog

/-- The log during a scan. The read buf is `bufsize` bytes, of which `bcount`
    hold the sectors from `blkno` on; `berror` is its `B_ERROR`. -/
structure ScanLog where
  bol : Nat
  eol : Nat
  head : Nat
  tail : Nat
  headIdent : UInt32
  tailIdent : UInt32
  error : Bool
  disk : Nat → UInt8
  bufsize : Nat
  blkno : Nat
  bcount : Nat
  berror : Bool

/-- `st_ident` of a sector on the device. -/
def stIdent (disk : Nat → UInt8) (lof : Nat) : UInt32 :=
  UInt32.ofNat (bigEndianValue (readAt disk (lof + 508) 4))

/-- How many of the next `n` sectors carry the idents that are expected. -/
def validSectors (disk : Nat → UInt8) : Nat → UInt32 → Nat → Nat
  | _, _, 0 => 0
  | blkno, ident, n + 1 =>
    if stIdent disk (512 * blkno) ≠ ident then 0
    else validSectors disk (blkno + 1) (ident + 1) n + 1

namespace ScanLog

variable (s : ScanLog)

/-- Where the data in the read buf ends. -/
def elof : Nat := 512 * s.blkno + s.bcount

/-- `within_range`, for the read buf. -/
def withinRange (lof : Nat) : Bool := 512 * s.blkno ≤ lof && lof < s.elof

/-- How far a read from `lof` may go. The write buf is empty. -/
def findReadLof (lof : Nat) : Nat := if lof ≤ s.tail then s.tail else s.eol

/-- Have the sector of `lof` in the read buf. All IO returns errors when in
    error state. -/
def getReadBp (lof : Nat) : ScanLog :=
  if s.bcount ≠ 0 ∧ s.withinRange lof = true then s
  else
    { s with
      blkno := lof / 512
      bcount := min s.bufsize (s.findReadLof (512 * (lof / 512)) - 512 * (lof / 512))
      berror := s.error }

/-- The ident that the first sector of the read buf should have. -/
def bufIdent : UInt32 :=
  if s.head / 512 ≤ s.blkno then
    s.headIdent + (UInt32.ofNat s.blkno - UInt32.ofNat (s.head / 512))
  else
    s.headIdent + (UInt32.ofNat (s.eol / 512) - UInt32.ofNat (s.head / 512)) +
      (UInt32.ofNat s.blkno - UInt32.ofNat (s.bol / 512))

/-- Truncate the read buf down to the last valid sector. -/
def logscanIdent : ScanLog :=
  { s with bcount := 512 * validSectors s.disk s.blkno s.bufIdent (s.bcount / 512) }

/-- The number of bytes that one turn of `fetchbuf` copies. -/
def copyNb (dstNb dstLof : Nat) : Nat := min (min dstNb (s.elof - dstLof)) (nbLeftInSector dstLof)

/-- The offset after that turn, which skips the trailer of a sector. -/
def nextLof (dstNb dstLof : Nat) : Nat :=
  let lof := dstLof + s.copyNb dstNb dstLof
  if nbLeftInSector dstLof - s.copyNb dstNb dstLof = 0 then lof + 8 else lof

/-- Copy bytes out of the read buf, and return the offset after them. -/
def fetchbuf (s : ScanLog) (dstNb dstLof : Nat) : List UInt8 × Nat :=
  if dstNb = 0 then ([], dstLof)
  else
    let bytes := readAt s.disk dstLof (s.copyNb dstNb dstLof)
    let lof := s.nextLof dstNb dstLof
    -- The buffer is exhausted.
    if lof = s.elof then (bytes, if lof = s.eol then s.bol else lof)
    -- A turn copies something as long as the offset is in the buf.
    else if 0 < s.copyNb dstNb dstLof then
      let rest := s.fetchbuf (dstNb - s.copyNb dstNb dstLof) lof
      (bytes ++ rest.1, rest.2)
    else (bytes, lof)
termination_by dstNb
decreasing_by omega

/-- Read bytes of the log from an offset on, if they are in valid sectors.
    Returns the bytes and the offset after them. -/
def logscanRead (s : ScanLog) (lof nb : Nat) : ScanLog × Option (List UInt8 × Nat) :=
  if nb = 0 then (s, some ([], lof))
  else if (s.getReadBp lof).berror then (s.getReadBp lof, none)
  else
    let valid := (s.getReadBp lof).logscanIdent
    -- Out-of-sequence idents mean a partial transaction.
    if valid.withinRange lof = false then (valid, none)
    else if 0 < (valid.fetchbuf nb lof).1.length then
      let got := valid.fetchbuf nb lof
      match valid.logscanRead got.2 (nb - got.1.length) with
      | (s, some rest) => (s, some (got.1 ++ rest.1, rest.2))
      | (s, none) => (s, none)
    else (valid, none)
termination_by nb
decreasing_by
  rename_i hnb _ _ hpos
  exact Nat.sub_lt (pos_of_ne_zero hnb) hpos

/-- Skip bytes of the log, whatever the idents. -/
def logseek (s : ScanLog) (lof nb : Nat) : ScanLog × Option Nat :=
  if nb = 0 then (s, some lof)
  else if (s.getReadBp lof).berror then (s.getReadBp lof, none)
  else if 0 < ((s.getReadBp lof).fetchbuf nb lof).1.length then
    let got := (s.getReadBp lof).fetchbuf nb lof
    (s.getReadBp lof).logseek got.2 (nb - got.1.length)
  else (s.getReadBp lof, none)
termination_by nb
decreasing_by
  rename_i hnb _ hpos
  exact Nat.sub_lt (pos_of_ne_zero hnb) hpos

/-- Reset the bufs, and set the tail to reflect a full log. -/
def logscanBegin (bufsize : Nat) : ScanLog :=
  let headSec := 512 * (s.head / 512)
  { s with
    bufsize := bufsize
    blkno := 0
    bcount := 0
    berror := false
    tail :=
      if headSec < s.bol + 512 then s.eol - 512
      else if s.eol ≤ headSec - 512 then s.bol
      else headSec - 512 }

/-- The tail after the last commit, or an empty log with new idents, which
    are taken from the clock. -/
def settail (now : UInt32) (last : Option (Nat × Nat)) : ScanLog :=
  match last with
  | none =>
    { s with
      tail := 512 * (s.head / 512)
      head := 512 * (s.head / 512)
      headIdent := now
      tailIdent := now }
  | some (lof, nb) =>
    match s.logseek lof nb with
    -- The source does not look at the error, and goes on with what is there.
    | (s, none) => s
    | (s, some newLof) =>
      { s with
        tail := newLof
        tailIdent :=
          if s.head < newLof then
            s.headIdent + (UInt32.ofNat (newLof / 512) - UInt32.ofNat (s.head / 512))
          else
            s.headIdent + (UInt32.ofNat (s.eol / 512) - UInt32.ofNat (s.head / 512)) +
              (UInt32.ofNat (newLof / 512) - UInt32.ofNat (s.bol / 512)) }

end ScanLog

/-- `struct delta` as read from the log. `d_mof` and `d_nb` are signed. -/
structure Delta where
  mof : Int
  nb : Int
  typ : Nat

/-- Read a header back. -/
def Delta.ofBytes (bytes : List UInt8) : Delta where
  mof := (bigEndianValue (bytes.take 8) : Int).bmod (2 ^ 64)
  nb := (bigEndianValue ((bytes.drop 8).take 4) : Int).bmod (2 ^ 32)
  typ := bigEndianValue (bytes.drop 12)

namespace Delta

/-- The type of a header, if it is between `DT_NONE` and `DT_MAX`. -/
def dt (d : Delta) : Option DeltaType := if d.typ = 0 then none else DeltaType.ofCode d.typ

/-- Verify a header; failure is a media failure. -/
def verify (d : Delta) : Option DeltaType :=
  match d.dt with
  | none => none
  | some .commit => if d.nb = 0 ∨ d.nb = -1 then some .commit else none
  | some dt => if 0 ≤ d.nb ∧ d.nb ≤ mapBlockSize ∧ 0 ≤ d.mof then some dt else none

end Delta

/-- The log and the logmap during a scan; `last` is `mtm_tail_lof` and
    `mtm_tail_nb`. -/
structure Scan where
  log : ScanLog
  map : Mtm Nat
  last : Nat × Nat

/-- `ldl_logscan_nbcommit`. -/
def logscanNbcommit (lof : Nat) : Nat := if lof % 512 = 0 then 0 else nbLeftInSector lof

namespace Scan

variable (s : Scan)

/-- Put one entry in the logmap without writing it to the log. -/
def logmapAdd (me : Me Nat) : Mtm Nat :=
  ({ s.map with dirty := s.map.dirty + 1 }.supersede me.mof me.nb).put me

/-- Put a userdata delta in the logmap. -/
def logmapAddUd (me : Me Nat) : Mtm Nat := { s.map with dirty := s.map.dirty + 1 }.put me

/-- Process a commit record. -/
def logscanCommit (lof : Nat) : Scan × Nat :=
  let map := if s.map.dirty = 0 then s.map
    else { s.map.freeCancel with
      dirty := 0, tid := s.map.tid + 1, committid := s.map.tid + 1 }
  ({ s with map := map, last := (lof, logscanNbcommit lof) }, logscanNbcommit lof)

/-- Add a delta to the logmap. Userdata comes back as scanned userdata, and a
    cancel is put on the cancel list. -/
def logscanDelta (d : Delta) (dt : DeltaType) (lof : Nat) : Scan × Nat :=
  let me : Me Nat :=
    { mof := d.mof.toNat, nb := d.nb.toNat, dt := dt, src := lof, tid := s.map.tid, age := 0,
      roll := false, cancel := false, aged := false }
  let map := match dt with
    | .ud => s.logmapAddUd { me with dt := .sud }
    | .cancel => s.logmapAdd { me with cancel := true }
    | _ => s.logmapAdd me
  ({ s with map := map }, match dt with
    | .cancel => 0
    | .abzero => 0
    | _ => d.nb.toNat)

/-- Process a header whose data is at `lof`. Returns the number of bytes till
    the next header, unless the header is bad, which is an error of the log. -/
def logscanAdd (d : Delta) (lof : Nat) : Scan × Option Nat :=
  match d.verify with
  | none => ({ s with log := { s.log with error := true } }, none)
  | some .commit => ((s.logscanCommit lof).1, some (s.logscanCommit lof).2)
  | some dt => ((s.logscanDelta d dt lof).1, some (s.logscanDelta d dt lof).2)

/-- One turn of the loop of `logmap_logscan`: read a header, add it to the
    logmap, and skip its data. Returns the offset of the next header, unless
    the loop is left. -/
def logscanTurn (lof : Nat) : Scan × Option Nat :=
  match s.log.logscanRead lof 16 with
  | (log, none) => ({ s with log := log }, none)
  | (log, some (bytes, dataLof)) =>
    match { s with log := log }.logscanAdd (Delta.ofBytes bytes) dataLof with
    | (s, none) => (s, none)
    | (s, some nb) =>
      match s.log.logscanRead dataLof nb with
      | (log, none) => ({ s with log := log }, none)
      | (log, some (_, next)) => ({ s with log := log }, some next)

/-- The loop, for at most `fuel` turns. -/
def logscanLoop : Nat → Scan → Nat → Option Scan
  | 0, _, _ => none
  | fuel + 1, s, lof =>
    if lof = s.log.tail then some s
    else
      match s.logscanTurn lof with
      | (s, none) => some s
      | (s, some next) => logscanLoop fuel s next

end Scan

/-- The scan of the log. A turn of its loop takes at least a header, so there
    are fewer turns than bytes in the log; `none` would be a loop that goes on
    beyond that. -/
def logmapLogscan (log : ScanLog) (bufsize nhash : Nat) (now : UInt32) : Option Scan :=
  let begin : Scan :=
    { log := log.logscanBegin bufsize
      map := { entries := [], nhash := nhash, tid := 0, committid := 0, age := 0, dirty := 0 }
      last := (0, 0) }
  match Scan.logscanLoop (log.eol - log.bol) begin log.head with
  | none => none
  | some s =>
    -- Remove the last partial transaction, and set the tail.
    let map := s.map.abort
    some { s with
      map := map
      log := s.log.settail now (if map.entries.isEmpty then none else some s.last) }

end Sol7.UfsLog
