import Sol7.Lib.Overlay
import Sol7.Lib.System
import Sol7.UfsLog.Logmap

/-!
# The Roll Thread

Model of `trans_roll` (`lufs_thr.c`), which moves deltas from the log to the
master device, together with the routines of the logmap that run beside it.

The roll thread works in cycles. It asks the logmap for a delta that may be
rolled, takes all deltas of that delta's block that may be rolled, overlays
them on the block as read from the master, and goes on to the next block. It
then writes the sectors of the blocks that the deltas lie in, and removes from
the logmap the deltas it has rolled.

A step is what happens under one hold of `mtm_mutex`, or one transfer from or
to the master. Beside the roll thread there are the operations that add deltas
and cancel them, the commit, and readers, which hold deltas by their `ME_AGE`
flag. `un_log_mutex` is held while a delta is added and while a transaction is
being committed.

The roll thread waits for a time, or for userdata, at the top of its cycle;
these waits and the conditions under which it starts a cycle are left out: it
may start one at any time. There are no errors of the log or of the master, and
no userdata, which does not go through `logmap_add`.

The data of a delta is a function of offsets on the master. What has been
cancelled since the last commit is kept as history (`doomed`), and nothing
branches on it.

## Main definitions

* `Me.at`: What a delta says about a byte.
* `Mtm.nextRoll`, `Mtm.rollList`, `secmapRoll`, `removeRoll`: The logmap's
  routines for the roll thread.
* `Prewrite`: A block that is being rolled.
* `RollState`: The logmap, the master and the roll thread.
* `RollState.roll`: A step of the roll thread.
* `rolling`: The system of all runs.
* `RollState.view`: The file system as seen through the logmap.
-/

namespace Sol7.UfsLog

open List Function

def devBsize : Nat := 512

/-- The bits of `pw_secmap`. -/
def nbits : Nat := 16

/-- What a delta says about the byte at an offset of the master. A delta full
    of zeroes has no data in the log, and a cancel has none at all. -/
def Me.at {β : Type} [Zero β] (me : Me (Nat → β)) (x : Nat) : Option β :=
  if me.dt ≠ .cancel ∧ me.mof ≤ x ∧ x < me.mof + me.nb then
    some (if me.dt = .abzero then 0 else me.src x)
  else none

/-! ### The logmap's side -/

namespace Mtm

variable {δ : Type} (m : Mtm δ)

/-- The search of `logmap_next_roll`, in the order in which the deltas were
    added. It stops at the current or the committing transaction. -/
def nextRollFrom : List (Me δ) → Option Nat
  | [] => none
  | me :: mes =>
    if me.roll then nextRollFrom mes
    else if me.tid = m.tid then none
    else if me.tid = m.committid then none
    else if me.dt = .ud then nextRollFrom mes
    else some me.mof

def nextRoll : Option Nat := m.nextRollFrom m.entries

/-- `logmap_list_age`: put an entry on a list that is sorted by age. -/
def listAge : List (Me δ) → Me δ → List (Me δ)
  | [], meadd => [meadd]
  | me :: age, meadd => if me.age > meadd.age then meadd :: me :: age else me :: listAge age meadd

/-- The deltas that `logmap_list_get_roll` takes from a chain. -/
def rollable (mof nb : Nat) (me : Me δ) : Bool :=
  mapIndex m.nhash me.mof == mapIndex m.nhash mof && me.tid ≠ m.tid && me.tid ≠ m.committid &&
    me.dt ≠ .cancel && me.dt ≠ .ud && me.overlaps mof nb

/-- The deltas of a block that may be rolled, by age. The chain has the newest
    entry first. -/
def rollList (mof nb : Nat) : List (Me δ) :=
  (m.entries.reverse.filter (m.rollable mof nb)).foldl listAge []

/-- Somebody else is reading one of them. -/
def rollBusy (mof nb : Nat) : Bool := m.entries.any fun me => m.rollable mof nb me && me.aged

/-- Flag the deltas that are being rolled. -/
def setRoll (mof nb : Nat) : Mtm δ :=
  { m with
    entries := m.entries.map fun me =>
      if m.rollable mof nb me then { me with roll := true, aged := true } else me }

/-- The deltas that `logmap_list_get` takes for a reader. -/
def readable (mof nb : Nat) (me : Me δ) : Bool := me.dt ≠ .cancel && me.overlaps mof nb

def setAge (mof nb : Nat) : Mtm δ :=
  { m with
    entries := m.entries.map fun me =>
      if readable mof nb me then { me with aged := true } else me }

/-- `logmap_list_put`. -/
def listPut (ages : List Nat) : Mtm δ :=
  { m with
    entries := m.entries.map fun me =>
      if me.age ∈ ages then { me with aged := false } else me }

/-- The entries that `logmap_cancel` finds. -/
def cancelable (mof nb : Nat) (me : Me δ) : Bool :=
  mapIndex m.nhash me.mof == mapIndex m.nhash mof && me.overlaps mof nb

/-- Put them on the cancel list. -/
def setCancel (mof nb : Nat) : Mtm δ :=
  { m with
    entries := m.entries.map fun me =>
      if m.cancelable mof nb me then { me with cancel := true } else me }

/-- One turn of `logmap_free_cancel`, for the entry of some age. -/
def freeCancelOne (age : Nat) : Mtm δ :=
  { m with
    entries := m.entries.filterMap fun me => if me.age = age then cancelled me else some me }

/-- A pass of `logmap_remove_roll` over the chain of a block, newest entry
    first. It ends early at an entry that somebody is reading. -/
def removeRollFrom (mof nb : Nat) : List (Me δ) → List (Me δ) × Bool
  | [] => ([], true)
  | me :: mes =>
    if mapIndex m.nhash me.mof == mapIndex m.nhash mof && me.roll && me.within mof nb then
      if me.aged then (me :: mes, false) else removeRollFrom mof nb mes
    else (me :: (removeRollFrom mof nb mes).1, (removeRollFrom mof nb mes).2)

def removeRoll (mof nb : Nat) : Mtm δ :=
  { m with entries := (m.removeRollFrom mof nb m.entries.reverse).1.reverse }

/-- The pass did not end early. -/
def removeRollDone (mof nb : Nat) : Bool := (m.removeRollFrom mof nb m.entries.reverse).2

end Mtm

/-- The bits that `logmap_secmap_roll` sets for a delta. -/
def secmapBits (secmap : Nat) (sectors : List Nat) : Nat :=
  sectors.foldl (fun secmap i => (secmap ||| 1 <<< i) % 2 ^ nbits) secmap

/-- `logmap_secmap_roll`. -/
def secmapRoll {δ : Type} (age : List (Me δ)) (mof : Nat) : Nat :=
  age.foldl (fun secmap me =>
    let begsec := (me.mof - mof) / devBsize
    let endsec := (me.mof + me.nb + (devBsize - 1) - mof) / devBsize
    secmapBits secmap (range' begsec (endsec - begsec))) 0

/-! ### The roll thread's side -/

/-- The `buf` of a block that is being rolled. -/
structure RollBuf (β : Type) where
  blkno : Nat
  addr : Nat
  bcount : Nat
  data : Nat → β

/-- A `struct prewrite` and its `buf`. -/
structure Prewrite (β : Type) where
  inuse : Bool
  rem : Bool
  blkno : Nat
  secmap : Nat
  bp : RollBuf β

/-- Skip the clear bits of a sector map: the turns left, the bits left, and
    the number of sectors that were skipped. -/
def skipClear : Nat → Nat → Nat → Nat × Nat × Nat
  | 0, secmap, k => (0, secmap, k)
  | n + 1, secmap, k =>
    if secmap % 2 = 1 then (n + 1, secmap, k) else skipClear n (secmap / 2) (k + 1)

/-- Take the set bits that follow. -/
def takeSet : Nat → Nat → Nat → Nat × Nat
  | 0, secmap, k => (secmap, k)
  | n + 1, secmap, k => if secmap % 2 = 0 then (secmap, k) else takeSet n (secmap / 2) (k + 1)

/-- The next write of a block: over the previous one and the clear bits, and as
    far as bits are set. -/
def Prewrite.startWrite {β : Type} (pw : Prewrite β) : Prewrite β :=
  let skip := skipClear nbits pw.secmap 0
  let take := takeSet skip.1 skip.2.1 0
  { pw with
    secmap := take.1
    bp := { pw.bp with
      blkno := pw.bp.blkno + pw.bp.bcount / devBsize + skip.2.2
      addr := pw.bp.addr + pw.bp.bcount + devBsize * skip.2.2
      bcount := devBsize * take.2 } }

/-- Write a `buf` to the master. -/
def RollBuf.store {β : Type} (bp : RollBuf β) (master : Nat → β) : Nat → β := fun x =>
  if devBsize * bp.blkno ≤ x ∧ x < devBsize * bp.blkno + bp.bcount then
    bp.data (bp.addr + (x - devBsize * bp.blkno))
  else master x

/-- Where the roll thread is in its cycle. -/
inductive RollPc (β : Type) where
  /-- In the loop over the deltas to be rolled. -/
  | build
  /-- A block has been chosen for a delta. -/
  | chosen (i : Nat)
  /-- The deltas of the block are on the age list. -/
  | listed (i : Nat) (age : List (Me (Nat → β)))
  /-- The block has been read, with its deltas. -/
  | fetched (i : Nat) (age : List (Me (Nat → β)))
  /-- In the loops that write the blocks. -/
  | write (i : Nat)
  /-- In the loop that frees the deltas. -/
  | remove (i : Nat)
  /-- In `logmap_remove_roll`, with or without `mtm_rwlock`. -/
  | removing (i : Nat) (dolock : Bool)

/-- The roll thread is freeing deltas. -/
def RollPc.frees {β : Type} : RollPc β → Bool
  | .remove _ => true
  | .removing _ _ => true
  | _ => false

/-- The logmap, the master device and the roll thread. -/
structure RollState (β : Type) where
  map : Mtm (Nat → β)
  master : Nat → β
  adding : Option (Me (Nat → β))
  committing : Bool
  doomed : Nat → Bool
  readers : List (List Nat)
  nmblk : Nat
  pws : Nat → Prewrite β
  nbuf : Nat
  pc : RollPc β

namespace RollState

variable {β : Type} [Zero β] (s : RollState β)

/-- Nobody holds `un_log_mutex`. -/
def logFree : Bool := s.adding.isNone && !s.committing

/-- The first block that is free or has been used for the same block. -/
def findSlot (mblkno : Nat) : Option Nat :=
  (range s.nmblk).find? fun i => !(s.pws i).inuse || (s.pws i).blkno == mblkno

/-- Before the writes: how many blocks there are, and nothing is written. -/
def prepare : RollState β :=
  let nbuf := (range s.nmblk).foldl (fun n i => if (s.pws i).inuse then i + 1 else n) s.nbuf
  { s with
    nbuf := nbuf
    pws := fun i => { s.pws i with bp := { (s.pws i).bp with bcount := 0 } }
    pc := if nbuf = 0 then .build else .write 0 }

/-- Choose a block for the next delta. -/
def choose : RollState β :=
  match s.map.nextRoll with
  | none => s.prepare
  | some mof =>
    let mblkno := mapBlockSize * (mof / mapBlockSize) / devBsize
    match s.findSlot mblkno with
    | none => s.prepare
    | some i =>
      { s with
        pws := update s.pws i
          { s.pws i with
            bp := { (s.pws i).bp with blkno := mblkno, addr := 0, bcount := mapBlockSize } }
        pc := .chosen i }

/-- `logmap_list_get_roll`. Without deltas there is nothing to roll. -/
def getRoll (i : Nat) : Option (RollState β) :=
  let mof := devBsize * (s.pws i).bp.blkno
  if s.map.rollBusy mof mapBlockSize then none
  else if (s.map.rollList mof mapBlockSize).isEmpty then
    some { s with
      pws := update s.pws i { s.pws i with inuse := false, rem := false, secmap := 0 }
      pc := .build }
  else
    some { s with
      map := s.map.setRoll mof mapBlockSize
      pc := .listed i (s.map.rollList mof mapBlockSize) }

/-- The rest of `top_read_roll` but for the end: the sector map, and the block
    as read from the master and from the log. -/
def readRoll (i : Nat) (age : List (Me (Nat → β))) : RollState β :=
  let mof := devBsize * (s.pws i).bp.blkno
  { s with
    pws := update s.pws i
      { s.pws i with
        secmap := secmapRoll age mof
        bp := { (s.pws i).bp with
          data := fun k => overlay (fun me => me.at (mof + k)) age (s.master (mof + k)) } }
    pc := .fetched i age }

/-- Unlist the deltas, and keep what is to be written. -/
def putRoll (i : Nat) (age : List (Me (Nat → β))) : RollState β :=
  { s with
    map := s.map.listPut (age.map Me.age)
    pws := update s.pws i
      { s.pws i with inuse := true, rem := true, blkno := (s.pws i).bp.blkno }
    pc := .build }

/-- The write of one block, or the end of a pass over the blocks. -/
def writeNext (i : Nat) : RollState β :=
  if i < s.nbuf then
    if (s.pws i).secmap = 0 then { s with pc := .write (i + 1) }
    else
      { s with
        pws := update s.pws i (s.pws i).startWrite
        master := (s.pws i).startWrite.bp.store s.master
        pc := .write (i + 1) }
  else if (range s.nbuf).any fun i => (s.pws i).secmap != 0 then { s with pc := .write 0 }
  else
    { s with
      pws := fun i => if i < s.nbuf then { s.pws i with inuse := false } else s.pws i
      pc := .remove 0 }

/-- The next block whose deltas are to be freed. -/
def removeNext (i : Nat) : RollState β :=
  if i < s.nbuf then
    if (s.pws i).rem then
      { s with
        pws := update s.pws i { s.pws i with rem := false }
        pc := .removing i false }
    else { s with pc := .remove (i + 1) }
  else { s with pc := .build }

/-- A pass of `logmap_remove_roll`. The second one has `mtm_rwlock` as a writer,
    so nobody is reading. -/
def removePass (i : Nat) (dolock : Bool) : Option (RollState β) :=
  let mof := devBsize * (s.pws i).blkno
  if dolock && s.map.entries.any Me.aged then none
  else
    some { s with
      map := s.map.removeRoll mof mapBlockSize
      pc := if s.map.removeRollDone mof mapBlockSize then .remove (i + 1) else .removing i true }

/-- A step of the roll thread. -/
def roll : Option (RollState β) :=
  match s.pc with
  | .build => some s.choose
  | .chosen i => s.getRoll i
  | .listed i age => some (s.readRoll i age)
  | .fetched i age => some (s.putRoll i age)
  | .write i => some (s.writeNext i)
  | .remove i => some (s.removeNext i)
  | .removing i dolock => s.removePass i dolock

end RollState

/-! ### Runs -/

/-- What may happen. -/
inductive RollOp (β : Type) where
  /-- `logmap_add`, up to the write of the delta to the log. -/
  | addBegin (mof nb : Nat) (dt : DeltaType) (src : Nat → β)
  /-- `logmap_add`, from there on. -/
  | addEnd
  /-- `logmap_cancel`, for one block. -/
  | cancel (mof nb : Nat)
  /-- `logmap_cancel_delta`. -/
  | cancelDelta (mof nb : Nat)
  /-- `logmap_commit`, up to `logmap_free_cancel`. -/
  | commitBegin
  /-- A turn of `logmap_free_cancel`. -/
  | freeCancel (age : Nat)
  /-- The end of `logmap_commit`. -/
  | commitEnd
  /-- The commit is on the log device. -/
  | commitDone
  /-- `logmap_list_get` and `logmap_list_put` of a reader. -/
  | listGet (mof nb : Nat)
  | listPut (i : Nat)
  /-- `logmap_sethead`. -/
  | sethead
  /-- A step of the roll thread. -/
  | roll

/-- A range within one block of the map. -/
def inMapBlock (mof nb : Nat) : Bool := 0 < nb && mof % mapBlockSize + nb ≤ mapBlockSize

/-- An entry that is not on the map yet. -/
def newEntry {δ : Type} (mof nb : Nat) (dt : DeltaType) (src : δ) : Me δ where
  mof := mof
  nb := nb
  dt := dt
  src := src
  tid := 0
  age := 0
  roll := false
  cancel := false
  aged := false

namespace RollState

variable {β : Type} [Zero β] (s : RollState β)

/-- `logmap_add` asserts that there is no userdata, and cancels come from
    `logmap_cancel` only. -/
def addBegin (mof nb : Nat) (dt : DeltaType) (src : Nat → β) : Option (RollState β) :=
  if s.logFree && inMapBlock mof nb && dt ≠ .ud && dt ≠ .cancel then
    some { s with
      map := { s.map.supersede mof nb with dirty := s.map.dirty + 1 }
      adding := some (newEntry mof nb dt src) }
  else none

def addEnd : Option (RollState β) :=
  match s.adding with
  | none => none
  | some me =>
    some { s with
      map := s.map.put me
      adding := none
      doomed := fun x => s.doomed x && !(me.at x).isSome }

/-- `logmap_cancel` asserts that what overlaps lies within. It is called by an
    operation, and none is active during a commit. -/
def cancel (mof nb : Nat) : Option (RollState β) :=
  if !s.committing && inMapBlock mof nb &&
      s.map.entries.all (fun me => !s.map.cancelable mof nb me || me.within mof nb) then
    some { s with
      map := s.map.setCancel mof nb
      doomed := fun x => s.doomed x || (mof ≤ x && x < mof + nb) }
  else none

def cancelDelta (mof nb : Nat) : Option (RollState β) :=
  if s.logFree && inMapBlock mof nb then
    some { s with
      map := { s.map.put { newEntry mof nb .cancel (fun _ => 0) with cancel := true } with
        dirty := s.map.dirty + 1 } }
  else none

/-- The next commit begins after the last one is done. -/
def commitBegin : Option (RollState β) :=
  if s.logFree && s.map.committid == s.map.tid && s.map.dirty != 0 then
    some { s with committing := true }
  else none

def freeCancel (age : Nat) : Option (RollState β) :=
  if s.committing && !s.map.entries.any (fun me => me.age == age && me.cancel && me.aged) then
    some { s with map := s.map.freeCancelOne age }
  else none

def commitEnd : Option (RollState β) :=
  if s.committing && !s.map.entries.any Me.cancel then
    some { s with
      map := { s.map with tid := s.map.tid + 1, dirty := 0 }
      committing := false
      doomed := fun _ => false }
  else none

def commitDone : Option (RollState β) :=
  if !s.committing && s.map.committid != s.map.tid then
    some { s with map := { s.map with committid := s.map.tid } }
  else none

def listGet (mof nb : Nat) : Option (RollState β) :=
  if s.map.entries.any (fun me => Mtm.readable mof nb me && me.aged) then none
  else
    some { s with
      map := s.map.setAge mof nb
      readers := ((s.map.entries.filter (Mtm.readable mof nb)).map Me.age) :: s.readers }

def listPut (i : Nat) : Option (RollState β) :=
  match s.readers[i]? with
  | none => none
  | some ages => some { s with map := s.map.listPut ages, readers := s.readers.eraseIdx i }

/-- The roll thread sets the head between its cycles. Ages start anew if the
    map is empty. -/
def sethead : Option (RollState β) :=
  match s.pc with
  | .build =>
    if s.logFree then
      some { s with map := { s.map with age := if s.map.entries.isEmpty then 0 else s.map.age } }
    else none
  | _ => none

def step : RollOp β → Option (RollState β)
  | .addBegin mof nb dt src => s.addBegin mof nb dt src
  | .addEnd => s.addEnd
  | .cancel mof nb => s.cancel mof nb
  | .cancelDelta mof nb => s.cancelDelta mof nb
  | .commitBegin => s.commitBegin
  | .freeCancel age => s.freeCancel age
  | .commitEnd => s.commitEnd
  | .commitDone => s.commitDone
  | .listGet mof nb => s.listGet mof nb
  | .listPut i => s.listPut i
  | .sethead => s.sethead
  | .roll => s.roll

/-- An empty logmap over any master, and a roll thread that has not begun. -/
structure Init : Prop where
  entries : s.map.entries = []
  committed : s.map.committid = s.map.tid
  idle : s.logFree = true
  undoomed : ∀ x, s.doomed x = false
  free : ∀ i, (s.pws i).inuse = false ∧ (s.pws i).rem = false ∧ (s.pws i).secmap = 0
  start : s.pc = .build

/-- The file system as seen through the logmap: the byte of the newest delta
    that says anything about it, and else that of the master. -/
def view (x : Nat) : β :=
  ((argmax Me.age (s.map.entries.filter fun me => (me.at x).isSome)).bind
    fun me => me.at x).getD (s.master x)

end RollState

/-- The runs of the roll thread beside everything else. -/
def rolling (β : Type) [Zero β] : System (RollState β) (RollOp β) where
  init := RollState.Init
  step := RollState.step

end Sol7.UfsLog
