import Sol7.Lib.Dll

/-!
# STREAMS Message Queues

A queue holds messages in a list that is linked in both directions. Messages of
high priority come first, then those of the priority bands and then the others.
A band has a record of its own, with pointers to its first and its last message,
a byte count and flow control. The records are allocated when a message of the
band is put on the queue. The queue itself has the count and the flow control of
band zero, in which messages of high priority are counted too.

A routine that changes the queue holds its lock. A flush gives it up on the way:
it takes all messages off and then puts back those it does not free, one at a
time. Each part that runs under the lock is a function of its own here.

Loops that follow pointers have a bound on the number of iterations, and there is
no result if the bound is reached or a null pointer is followed.

## Main definitions

* `Msg`, `Qband`, `Queue`: A message, the record of a band, and a queue.
* `putq`, `putbq`: Put a message on the queue.
* `getqNoenab`, `rmvqNoenab`: Take a message off.
* `backenable`: The part of `qbackenable` that runs under the lock.
* `flushDetach`, `flushEnd`, `flushbandEnd`: The parts of a flush.
* `getq`, `rmvq`, `flushqCommon`, `flushband`: The routines as a whole.
-/

namespace Sol7.Streams

open Function

/-- A message, with the number of bytes in each of its blocks. -/
structure Msg where
  dbType : Nat
  band : Nat
  /-- `MSGNOGET` in `b_flag`. -/
  noget : Bool
  blocks : List Nat
deriving DecidableEq

/-- The bytes of a message. -/
def Msg.size (m : Msg) : Nat := m.blocks.sum

def mData : Nat := 0x00

def mProto : Nat := 0x01

def mDelay : Nat := 0x0c

def mPcproto : Nat := 0x83

def qnorm : Nat := 0x00

def qpctl : Nat := 0x80

def datamsg (type : Nat) : Bool := type = mData || type = mProto || type = mPcproto || type = mDelay

def queclass (m : Msg) : Nat := if qpctl ≤ m.dbType then qpctl else qnorm

/-- The record of a priority band. -/
structure Qband (ι : Type) where
  first : Option ι
  last : Option ι
  count : Nat
  hiwat : Nat
  lowat : Nat
  /-- `QB_FULL` -/
  full : Bool
  /-- `QB_WANTW` -/
  wantw : Bool

/-- A queue, with the messages that its pointers may name. -/
structure Queue (ι : Type) where
  list : Dll ι
  msg : ι → Msg
  /-- The records of the bands from band one on. `q_nband` is their number. -/
  bands : List (Qband ι)
  count : Nat
  hiwat : Nat
  lowat : Nat
  /-- `QFULL` -/
  full : Bool
  /-- `QWANTR` -/
  wantr : Bool
  /-- `QWANTW` -/
  wantw : Bool
  /-- `QWANTWSYNC` -/
  wantwsync : Bool
  /-- `QNOENB` -/
  noenb : Bool
  /-- The queue has been scheduled by `qenable_locked`. -/
  enab : Bool

namespace Queue

variable {ι : Type} [DecidableEq ι] (q : Queue ι)

/-- The record of a band. There is none for band zero. -/
def qband (band : Nat) : Option (Qband ι) :=
  if band = 0 then none else q.bands[band - 1]?

/-- Change the record of a band. -/
def setQband (band : Nat) (f : Qband ι → Qband ι) : Queue ι :=
  { q with bands := if band = 0 then q.bands else q.bands.modify (band - 1) f }

/-- A message of high priority is in band zero. -/
def forceBand (bp : ι) : Queue ι :=
  if queclass (q.msg bp) = qpctl then
    { q with msg := update q.msg bp { q.msg bp with band := 0 } }
  else q

/-- Allocate the records of the bands up to a given one. -/
def allocBands (band : Nat) : Queue ι :=
  { q with
    bands := q.bands ++
      List.replicate (band - q.bands.length) ⟨none, none, 0, q.hiwat, q.lowat, false, false⟩ }

/-- The sanity checks at the start of `putq` and `putbq`. -/
def prepare (bp : ι) : Queue ι :=
  (q.forceBand bp).allocBands ((q.forceBand bp).msg bp).band

/-- Count the bytes of a message that has been put on the queue. -/
def addCount (bp : ι) : Queue ι :=
  let size := (q.msg bp).size
  if (q.msg bp).band = 0 then
    { q with count := q.count + size, full := q.full || decide (q.hiwat ≤ q.count + size) }
  else
    q.setQband (q.msg bp).band fun b =>
      { b with count := b.count + size, full := b.full || decide (b.hiwat ≤ b.count + size) }

/-- Count off the bytes of a message that has been taken off the queue. -/
def subCount (bp : ι) : Queue ι :=
  let size := (q.msg bp).size
  if (q.msg bp).band = 0 then
    { q with count := q.count - size, full := q.full && !decide (q.count - size < q.hiwat) }
  else
    q.setQband (q.msg bp).band fun b =>
      { b with count := b.count - size, full := b.full && !decide (b.count - size < b.hiwat) }

/-! ### Putting messages on the queue -/

/-- The cell before which a message goes. There is no result if there is no such
    cell. -/
def before (tmp : Option (Option ι)) : Option (Option ι × Option ι) :=
  match tmp with
  | some (some t) => some (q.list.prev t, some t)
  | _ => none

/-- The neighbours that `putq` gives to a message. -/
def putqPlace (fuel : Nat) (bp : ι) : Option (Option ι × Option ι) :=
  let mcls := queclass (q.msg bp)
  let band := (q.msg bp).band
  match q.list.first, q.list.last with
  | none, _ => some (none, none)
  | some _, none => none
  | some first, some last =>
    match q.qband band with
    | none =>
      if mcls ≤ queclass (q.msg last) then some (some last, none)
      else q.before (scan q.list.next (fun t => mcls ≤ queclass (q.msg t)) fuel (some first))
    | some qbp =>
      if qbp.first ≠ none then
        -- After the last message in this band.
        match qbp.last with
        | none => none
        | some tmp => some (some tmp, q.list.next tmp)
      else if mcls < queclass (q.msg last) ∨ band ≤ (q.msg last).band then some (some last, none)
      else
        match scan q.list.next (fun t => qpctl ≤ (q.msg t).dbType) fuel (some first) with
        | some (some tmp) =>
          q.before (scan q.list.next (fun t => band ≤ (q.msg t).band) fuel (some tmp))
        | _ => none

/-- Link a message to its neighbours, set the pointers of its band and count its
    bytes. -/
def place (bp : ι) (p n : Option ι) (f : Qband ι → Qband ι) : Queue ι :=
  ({ q with list := q.list.link p bp n }.setQband (q.msg bp).band f).addCount bp

/-- The pointers of a band when `putq` has put a message in it. -/
def putqBand (empty : Bool) (bp : ι) (b : Qband ι) : Qband ι :=
  { b with first := if empty ∨ b.first = none then some bp else b.first, last := some bp }

def putq (fuel : Nat) (q : Queue ι) (bp : ι) : Option (Queue ι) :=
  let q := q.prepare bp
  (q.putqPlace fuel bp).map fun (p, n) =>
    let q := q.place bp p n (putqBand q.list.first.isNone bp)
    let sched := qnorm < queclass (q.msg bp) ∨ (¬q.noenb ∧ (q.wantr ∨ (q.msg bp).band ≠ 0))
    { q with enab := q.enab || decide sched }

/-- The neighbours that `putbq` gives to a message. -/
def putbqPlace (fuel : Nat) (bp : ι) : Option (Option ι × Option ι) :=
  let mcls := queclass (q.msg bp)
  let band := (q.msg bp).band
  match q.list.first, q.list.last with
  | none, _ => some (none, none)
  | some first, last =>
    if mcls = qpctl then some (none, some first)
    else
      match q.qband band, last with
      | some ⟨some tmp, _, _, _, _, _, _⟩, _ => some (q.list.prev tmp, some tmp)
      | _, none => none
      | _, some last =>
        if mcls < queclass (q.msg last) ∨ band < (q.msg last).band then some (some last, none)
        else
          match scan q.list.next (fun t => qpctl ≤ (q.msg t).dbType) fuel (some first) with
          | some (some tmp) =>
            q.before (scan q.list.next (fun t => band < (q.msg t).band) fuel (some tmp))
          | _ => none

/-- The pointers of a band when `putbq` has put a message in it. -/
def putbqBand (empty : Bool) (bp : ι) (b : Qband ι) : Qband ι :=
  { b with first := some bp, last := if empty ∨ b.first = none then some bp else b.last }

def putbq (fuel : Nat) (q : Queue ι) (bp : ι) : Option (Queue ι) :=
  let q := q.prepare bp
  (q.putbqPlace fuel bp).map fun (p, n) =>
    let q := q.place bp p n (putbqBand q.list.first.isNone bp)
    let sched := qnorm < queclass (q.msg bp) ∨ (¬q.noenb ∧ q.wantr)
    { q with enab := q.enab || decide sched }

/-! ### Taking messages off the queue -/

/-- A neighbour of a message, if it is in the same band. -/
def sameBand (mp : ι) (other : Option ι) : Option ι :=
  other.filter fun t => (q.msg mp).band = (q.msg t).band

def rmvqNoenab (mp : ι) : Queue ι :=
  let q := q.setQband (q.msg mp).band fun b =>
    { b with
      first := if b.first = some mp then q.sameBand mp (q.list.next mp) else b.first
      last := if b.last = some mp then q.sameBand mp (q.list.prev mp) else b.last }
  let q := { q with list := q.list.unlink mp }
  q.subCount mp

/-- Take the first message off. -/
def popFirst (bp : ι) : Queue ι :=
  let bwd := setLink (q.list.next bp) none q.list.last q.list.prev
  { q with
    list := ⟨q.list.next bp, bwd.1, update q.list.next bp none, update bwd.2 bp none⟩ }

/-- The pointers of a band when `getq_noenab` has taken its first message off. -/
def getqBand (next : Option ι) (b : Qband ι) : Qband ι :=
  if b.first = b.last then { b with first := none, last := none } else { b with first := next }

def getqNoenab (fuel : Nat) (q : Queue ι) : Option (Queue ι × Option ι) :=
  match q.list.first with
  | none => some ({ q with wantr := true }, none)
  | some bp =>
    if (q.msg bp).noget then
      match scan q.list.next (fun t => (q.msg t).noget) fuel (some bp) with
      | none => none
      | some none => some (q, none)
      | some (some bp) => some (q.rmvqNoenab bp, some bp)
    else
      let next := q.list.next bp
      let q := ((q.popFirst bp).setQband (q.msg bp).band (getqBand next)).subCount bp
      some ({ q with wantr := false }, some bp)

/-! ### Back-enabling -/

/-- The test that `getq` and `qbackenable` make without the lock. -/
def noWriter (band : Nat) : Bool := band = 0 && !q.wantw && !q.wantwsync

/-- The count is below the low-water mark. -/
def isLow (count lowat : Nat) : Bool := count < lowat || lowat = 0

/-- The part of `qbackenable` that runs under the lock. -/
def backenable (band : Nat) : Queue ι :=
  if band = 0 then
    if isLow q.count q.lowat then { q with wantw := false, wantwsync := false } else q
  else
    q.setQband band fun b => if isLow b.count b.lowat then { b with wantw := false } else b

def qbackenable (band : Nat) : Queue ι :=
  if q.noWriter band then q else q.backenable band

def getq (fuel : Nat) (q : Queue ι) : Option (Queue ι × Option ι) :=
  match getqNoenab fuel q with
  | none => none
  | some (q, bp) =>
    let band := (bp.map fun bp => (q.msg bp).band).getD 0
    if q.noWriter band then some (q, bp) else some (q.qbackenable band, bp)

def rmvq (mp : ι) : Queue ι := (q.rmvqNoenab mp).qbackenable (q.msg mp).band

/-! ### Flushing -/

/-- Take all messages off. They stay linked to each other. -/
def flushDetach : Queue ι :=
  { q with
    list := { q.list with first := none, last := none }
    count := 0
    full := false
    bands := q.bands.map fun b => { b with first := none, last := none, count := 0, full := false } }

/-- One message that a flush has taken off is put back or freed. -/
def reput (fuel : Nat) (keep : Msg → Bool) (q : Queue ι) (mp : ι) : Option (Queue ι) :=
  let q := { q with
    list := { q.list with
      next := update q.list.next mp none
      prev := update q.list.prev mp none } }
  if keep (q.msg mp) then q.putq fuel mp else some q

/-- The loop of a flush over the messages it has taken off. -/
def reputLoop (fuel : Nat) (keep : Msg → Bool) : Nat → Queue ι → Option ι → Option (Queue ι)
  | 0, _, _ => none
  | _ + 1, q, none => some q
  | n + 1, q, some mp =>
    let nmp := q.list.next mp
    (q.reput fuel keep mp).bind fun q => reputLoop fuel keep n q nmp

/-- The messages that `flushq_common` puts back. -/
def flushqKeeps (flag pcprotoFlag : Bool) (m : Msg) : Bool :=
  if pcprotoFlag && m.dbType = mPcproto then true else !(flag || datamsg m.dbType)

/-- The messages that `flushband` puts back when it flushes band zero. -/
def flushbandKeeps (flag : Bool) (m : Msg) : Bool := !(m.band = 0 && (flag || datamsg m.dbType))

/-- The last part of `flushq_common` that runs under the lock. -/
def flushEnd : Queue ι :=
  { q with
    bands := q.bands.map fun b =>
      if b.wantw && isLow b.count b.lowat then { b with wantw := false } else b
    wantw := q.wantw && !isLow q.count q.lowat }

/-- The last part of `flushband` for band zero that runs under the lock. -/
def flushbandEnd : Queue ι := { q with wantw := q.wantw && !isLow q.count q.lowat }

def flushqCommon (fuel : Nat) (q : Queue ι) (flag pcprotoFlag : Bool) : Option (Queue ι) :=
  if q.list.first = none then some q
  else
    (reputLoop fuel (flushqKeeps flag pcprotoFlag) fuel q.flushDetach q.list.first).map flushEnd

def flushq (fuel : Nat) (q : Queue ι) (flag : Bool) : Option (Queue ι) :=
  flushqCommon fuel q flag false

/-- The messages of a band that `flushband` frees. -/
def flushbandFrees (pri : Nat) (flag : Bool) (mp : ι) : Bool :=
  (q.msg mp).band = pri && (flag || datamsg (q.msg mp).dbType)

/-- The loop of `flushband` up to the next message that is to be freed, with
    whether this is the one after the loop. -/
def flushbandFind (q : Queue ι) (pri : Nat) (flag : Bool) (last : Option ι) :
    Nat → Option ι → Option (Option (ι × Bool))
  | 0, _ => none
  | n + 1, mp =>
    if mp = last then
      some (mp.bind fun m => if q.flushbandFrees pri flag m then some (m, true) else none)
    else
      match mp with
      | none => none
      | some m =>
        if q.flushbandFrees pri flag m then some (some (m, false))
        else flushbandFind q pri flag last n (q.list.next m)

/-- The loop of `flushband` for a band other than zero. -/
def flushbandLoop (fuel : Nat) (pri : Nat) (flag : Bool) (last : Option ι) :
    Nat → Queue ι → Option ι → Option (Queue ι)
  | 0, _, _ => none
  | n + 1, q, mp =>
    match q.flushbandFind pri flag last fuel mp with
    | none => none
    | some none => some q
    | some (some (m, true)) => some (q.rmvq m)
    | some (some (m, false)) => flushbandLoop fuel pri flag last n (q.rmvq m) (q.list.next m)

/-- Where the loop of `flushband` starts and ends, if the band is not empty. -/
def flushbandRange (pri : Nat) : Option (ι × Option ι) :=
  (q.qband pri).bind fun qbp =>
    qbp.first.map fun mp => (mp, if some mp = qbp.last then q.list.next mp else qbp.last)

def flushband (fuel : Nat) (q : Queue ι) (pri : Nat) (flag : Bool) : Option (Queue ι) :=
  if q.bands.length < pri then some q
  else if pri = 0 then
    (reputLoop fuel (flushbandKeeps flag) fuel q.flushDetach q.list.first).map flushbandEnd
  else
    match q.flushbandRange pri with
    | none => some q
    | some (mp, last) => flushbandLoop fuel pri flag last fuel q (some mp)

end Queue

end Sol7.Streams
