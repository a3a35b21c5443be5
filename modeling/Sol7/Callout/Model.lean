import Sol7.Lib.Buckets
import Sol7.Lib.System

/-!
# Callouts

Model of `callout.c`: one callout table, with `timeout_common`, `untimeout`,
`callout_execute` and `callout_schedule_1`.

A callout is in two hash tables: by its id for `untimeout`, and by its time for
`callout_execute`. The lock of the table is held except while a handler runs
and while `untimeout` waits, so what is done between two such places is one
step. `callout_execute` enters, and steps on whenever a handler returns. It
then goes on from the callout that the handler was of, wherever that is in its
chain by now.

Times are numbers, since `lbolt` does not wrap. Ids are words of 32 bits, and
the topmost bit marks a callout that is being executed. The function and the
argument of a callout are one value. Which callouts were made, cancelled and
run is kept as history: callouts are numbered in the order in which they are
made.

## Main definitions

* `Callout`, `CalloutTable`: The structures.
* `CalloutTable.timeoutCommon`, `CalloutTable.untimeout`: Making and cancelling
  callouts.
* `CalloutTable.calloutExecute`, `CalloutTable.calloutResume`: What is done to
  execute them, up to the next handler.
* `CalloutTable.calloutSchedule`: The work at a clock tick.
* `callouts`: All interleavings.
-/

namespace Sol7

open Function

/-- `callout_id_t` -/
abbrev CalloutId := BitVec 32

namespace CalloutId

/-- `CALLOUT_EXECUTING` -/
def executingBit : CalloutId := 1#32 <<< 31

/-- `CALLOUT_COUNTER_HIGH` -/
def counterHigh : CalloutId := 1#32 <<< 29

/-- `CALLOUT_COUNTER_LOW` -/
def counterLow : CalloutId := 1#32 <<< 4

/-- The id is marked as executing. -/
def executing (xid : CalloutId) : Bool := xid &&& executingBit != 0

/-- The id that is issued after another one. -/
def next (id : CalloutId) : CalloutId := (id - counterLow) ||| counterHigh

/-- `CALLOUT_IDHASH` -/
def hash (id : CalloutId) : Nat := (id.toNat >>> 4) % 512

end CalloutId

/-- `CALLOUT_LBHASH` -/
def lbHash (runtime : Int) : Nat := (runtime % 512).toNat

/-- `CALLOUT_LONGTERM_TICKS` -/
def longtermTicks : Int := 0x4000

/-- A callout, with the number it has in the history. -/
structure Callout (τ α : Type) where
  xid : CalloutId
  runtime : Int
  func : α
  executor : Option τ
  serial : Nat

/-- A callout table. The callouts are in memory, and `next` is the first one
    that was not allocated yet. -/
structure CalloutTable (τ α : Type) where
  freelist : List Nat
  curtime : Int
  runtime : Int
  shortId : CalloutId
  longId : CalloutId
  idhash : Nat → List Nat
  lbhash : Nat → List Nat
  mem : Nat → Callout τ α
  next : Nat

/-- What became of an `untimeout`. -/
inductive UntimeoutResult where
  /-- The callout was removed, and would have had some ticks left. -/
  | removed (cp : Nat) (timeLeft : Int)
  /-- There is no such callout, or it is the caller that executes it. -/
  | notPending
  /-- The callout is being executed. -/
  | waits (cp : Nat) (xid : CalloutId)

/-- The value that is returned at once. -/
def UntimeoutResult.value : UntimeoutResult → Option Int
  | .removed _ timeLeft => some (if timeLeft < 0 then 0 else timeLeft)
  | .notPending => some (-1)
  | .waits _ _ => none

namespace CalloutTable

variable {τ α : Type} [DecidableEq τ] (ct : CalloutTable τ α)

/-- The callout is to be executed at the given time. -/
def due (runtime : Int) (cp : Nat) : Bool :=
  (ct.mem cp).runtime == runtime && !(ct.mem cp).xid.executing

/-- `CALLOUT_HASH_UPDATE` to insert. -/
def hashInsert (cp : Nat) : CalloutTable τ α :=
  { ct with
    idhash := link ct.idhash (ct.mem cp).xid.hash cp
    lbhash := link ct.lbhash (lbHash (ct.mem cp).runtime) cp }

/-- `CALLOUT_HASH_UPDATE` to delete, and put the callout on the free list. -/
def hashDelete (cp : Nat) : CalloutTable τ α :=
  { ct with
    idhash := unlink ct.idhash (ct.mem cp).xid.hash cp
    lbhash := unlink ct.lbhash (lbHash (ct.mem cp).runtime) cp
    freelist := cp :: ct.freelist }

/-! ### `timeout_common` -/

/-- A callout runs at least one tick in the future. -/
def future (delta : Int) : Int := if delta ≤ 0 then 1 else delta

/-- The id for a callout. -/
def issued (delta : Int) : CalloutId :=
  if future delta > longtermTicks then ct.longId.next else ct.shortId.next

/-- The table after an id was issued. -/
def issue (delta : Int) : CalloutTable τ α :=
  if future delta > longtermTicks then { ct with longId := ct.longId.next }
  else { ct with shortId := ct.shortId.next }

/-- A callout structure: one that is newly allocated, for which the lock was
    dropped and taken again, or the first one of the free list. -/
def takeCallout (alloc : Bool) : Option (Nat × CalloutTable τ α) :=
  if alloc then some (ct.next, { ct with next := ct.next + 1 })
  else
    match ct.freelist with
    | [] => none
    | cp :: rest => some (cp, { ct with freelist := rest })

def timeoutCommon (alloc : Bool) (lbolt : Int) (func : α) (delta : Int) (serial : Nat) :
    Option (CalloutTable τ α) :=
  (ct.takeCallout alloc).map fun r =>
    let new : Callout τ α :=
      { xid := ct.issued delta
        runtime := lbolt + future delta
        func := func
        executor := if alloc then none else (ct.mem r.1).executor
        serial := serial }
    hashInsert { r.2.issue delta with mem := update ct.mem r.1 new } r.1

/-! ### `untimeout` -/

/-- `untimeout`, until it returns or waits. An id that cannot be one is a
    panic. -/
def untimeout (lbolt : Int) (t : τ) (id : CalloutId) :
    Option (CalloutTable τ α × UntimeoutResult) :=
  match (ct.idhash id.hash).find? fun cp =>
      (ct.mem cp).xid == id || (ct.mem cp).xid == id ||| .executingBit with
  | some cp =>
    if (ct.mem cp).xid = id then
      some (ct.hashDelete cp, .removed cp ((ct.mem cp).runtime - lbolt))
    else if (ct.mem cp).executor = some t then some (ct, .notPending)
    else some (ct, .waits cp (ct.mem cp).xid)
  | none =>
    if id ≠ 0 ∧ id &&& (.counterHigh ||| .executingBit) ≠ .counterHigh then none
    else some (ct, .notPending)

/-! ### `callout_execute` -/

/-- Mark a callout as executing. -/
def mark (t : τ) (cp : Nat) : CalloutTable τ α :=
  { ct with
    mem := update ct.mem cp
      { ct.mem cp with xid := (ct.mem cp).xid ||| .executingBit, executor := some t } }

/-- The time is over, unless another thread has found that already. -/
def advance (runtime : Int) : CalloutTable τ α :=
  if ct.runtime = runtime then { ct with runtime := runtime + 1 } else ct

/-- The loops of `callout_execute`, from some place in a chain: the callout
    whose handler is called, with the time that is worked on. -/
def executeLoop (t : τ) : Nat → CalloutTable τ α → Int → List Nat →
    Option (CalloutTable τ α × Option (Nat × Int))
  | 0, _, _, _ => none
  | fuel + 1, ct, runtime, cps =>
    match cps.find? (ct.due runtime) with
    | some cp => some (ct.mark t cp, some (cp, runtime))
    | none =>
      let ct := ct.advance runtime
      if ct.runtime - ct.curtime ≤ 0 then
        executeLoop t fuel ct ct.runtime (ct.lbhash (lbHash ct.runtime))
      else some (ct, none)

/-- As often as the loops can turn. -/
def executeFuel : Nat := (ct.curtime - ct.runtime).toNat + 2

/-- `callout_execute`, up to the first handler. -/
def calloutExecute (t : τ) : Option (CalloutTable τ α × Option (Nat × Int)) :=
  if ct.runtime - ct.curtime ≤ 0 then
    executeLoop t ct.executeFuel ct ct.runtime (ct.lbhash (lbHash ct.runtime))
  else some (ct, none)

/-- What is behind a callout in a chain. -/
def behind (cp : Nat) (cps : List Nat) : List Nat := (cps.dropWhile (· != cp)).tail

/-- A handler has returned: `callout_execute` up to the next one. -/
def calloutResume (t : τ) (cp : Nat) (runtime : Int) :
    Option (CalloutTable τ α × Option (Nat × Int)) :=
  let deleted := ct.hashDelete cp
  let freed : CalloutTable τ α :=
    { deleted with mem := update ct.mem cp { ct.mem cp with xid := 0 } }
  executeLoop t ct.executeFuel freed runtime (behind cp (ct.lbhash (lbHash runtime)))

/-! ### `callout_schedule_1` -/

/-- The loops of `callout_schedule_1`, and whether there is something to
    execute. -/
def scheduleLoop : Nat → CalloutTable τ α → Option (CalloutTable τ α × Bool)
  | 0, _ => none
  | fuel + 1, ct =>
    if ct.runtime - ct.curtime ≤ 0 then
      if (ct.lbhash (lbHash ct.runtime)).any (ct.due ct.runtime) then some (ct, true)
      else scheduleLoop fuel { ct with runtime := ct.runtime + 1 }
    else some (ct, false)

/-- `callout_schedule_1`. If there is something to execute, a thread is asked to
    do so. -/
def calloutSchedule (lbolt : Int) : Option (CalloutTable τ α × Bool) :=
  scheduleLoop ((lbolt - ct.runtime).toNat + 2) { ct with curtime := lbolt }

end CalloutTable

/-! ### Interleavings -/

/-- A callout that was made. -/
structure Made (α : Type) where
  id : CalloutId
  runtime : Int
  func : α

/-- A handler that was called: the number of the callout, the time, and the
    function. -/
structure Ran (α : Type) where
  serial : Nat
  lbolt : Int
  func : α

/-- A table and the threads that use it. -/
structure CallState (τ α : Type) where
  ct : CalloutTable τ α
  lbolt : Int
  /-- The threads in a handler, with their callout and time. -/
  exec : τ → Option (Nat × Int)
  /-- The threads that wait in `untimeout`. -/
  wait : τ → Option (Nat × CalloutId)
  made : List (Made α)
  log : List (Ran α)
  cancelled : List Nat

inductive CallOp (τ α : Type) where
  /-- The clock advances. -/
  | tick
  /-- `callout_schedule_1` -/
  | schedule
  | timeout (alloc : Bool) (func : α) (delta : Int)
  | untimeout (t : τ) (id : CalloutId)
  /-- The wait in `untimeout` is over. -/
  | wakeup (t : τ)
  /-- A thread enters `callout_execute`. -/
  | execute (t : τ)
  /-- A handler returns. -/
  | resume (t : τ)

namespace CallState

variable {τ α : Type} [DecidableEq τ] (s : CallState τ α)

def schedule : Option (CallState τ α) :=
  (s.ct.calloutSchedule s.lbolt).map fun r => { s with ct := r.1 }

/-- An id is not reused while it is in the table. -/
def Unused (id : CalloutId) : Prop :=
  ∀ cp ∈ s.ct.idhash id.hash, (s.ct.mem cp).xid ≠ id ∧ (s.ct.mem cp).xid ≠ id ||| .executingBit

instance (id : CalloutId) : Decidable (s.Unused id) :=
  inferInstanceAs (Decidable (∀ cp ∈ s.ct.idhash id.hash, _ ∧ _))

def timeout (alloc : Bool) (func : α) (delta : Int) : Option (CallState τ α) :=
  if s.Unused (s.ct.issued delta) then
    (s.ct.timeoutCommon alloc s.lbolt func delta s.made.length).map fun ct =>
      { s with
        ct := ct
        made := s.made ++ [⟨s.ct.issued delta, s.lbolt + CalloutTable.future delta, func⟩] }
  else none

/-- The mark of an executing callout is not part of an id. -/
def untimeout (t : τ) (id : CalloutId) : Option (CallState τ α) :=
  if id.executing = false ∧ s.wait t = none then
    (s.ct.untimeout s.lbolt t id).map fun r =>
      match r.2 with
      | .removed cp _ => { s with ct := r.1, cancelled := (s.ct.mem cp).serial :: s.cancelled }
      | .notPending => { s with ct := r.1 }
      | .waits cp xid => { s with ct := r.1, wait := update s.wait t (some (cp, xid)) }
  else none

def wakeup (t : τ) : Option (CallState τ α) :=
  match s.wait t with
  | some (cp, xid) =>
    if (s.ct.mem cp).xid = xid then none
    else some { s with wait := update s.wait t none }
  | none => none

/-- `callout_execute` has called a handler, or has returned. -/
def executed (t : τ) (r : CalloutTable τ α × Option (Nat × Int)) : CallState τ α :=
  match r.2 with
  | some (cp, runtime) =>
    { s with
      ct := r.1
      exec := update s.exec t (some (cp, runtime))
      log := ⟨(r.1.mem cp).serial, s.lbolt, (r.1.mem cp).func⟩ :: s.log }
  | none => { s with ct := r.1, exec := update s.exec t none }

def execute (t : τ) : Option (CallState τ α) :=
  if s.exec t = none ∧ s.wait t = none then (s.ct.calloutExecute t).map (s.executed t) else none

def resume (t : τ) : Option (CallState τ α) :=
  match s.exec t with
  | some (cp, runtime) =>
    if s.wait t = none then (s.ct.calloutResume t cp runtime).map (s.executed t) else none
  | none => none

def step : CallOp τ α → Option (CallState τ α)
  | .tick => some { s with lbolt := s.lbolt + 1 }
  | .schedule => s.schedule
  | .timeout alloc func delta => s.timeout alloc func delta
  | .untimeout t id => s.untimeout t id
  | .wakeup t => s.wakeup t
  | .execute t => s.execute t
  | .resume t => s.resume t

/-- A table as `callout_init` leaves it. The ids of a table share their low
    bits. -/
structure Init : Prop where
  freelist : s.ct.freelist = []
  curtime : s.ct.curtime = s.lbolt
  runtime : s.ct.runtime = s.lbolt
  ids : ∃ table : Nat, table < 16 ∧
    s.ct.shortId = BitVec.ofNat 32 table ||| .counterHigh ∧
    s.ct.longId = s.ct.shortId ||| 1#32 <<< 30
  idhash : ∀ b, s.ct.idhash b = []
  lbhash : ∀ b, s.ct.lbhash b = []
  exec : ∀ t, s.exec t = none
  wait : ∀ t, s.wait t = none
  made : s.made = []
  log : s.log = []
  cancelled : s.cancelled = []

end CallState

/-- All interleavings of the callers, the clock, and the threads that execute
    callouts. -/
def callouts (τ α : Type) [DecidableEq τ] : System (CallState τ α) (CallOp τ α) where
  init := CallState.Init
  step := CallState.step

end Sol7
