import Sol7.Lib.System
import Sol7.Rwlock.Word

/-!
# Kernel Reader/Writer Locks

The routines of `rwlock.c` on one lock, with the two sleep queues of its
turnstile. Every compare-and-swap of the lock word is one step, and so is
every section that runs under the turnstile lock; a thread that has looked at
the word and is on its way to the turnstile lock stands at a place of its
own (`enterSlow`, `exitSlow`, `downgrading`), because the word can change
before it gets there.

A waiter is handed the lock by the thread that leaves it: the word is set to
say that the waiter holds the lock, and only then is the waiter made
runnable. It stands at `woken` until it runs.

Callers keep to the contract of the interface: a thread enters a lock it does
not hold and leaves, downgrades or upgrades one that it holds in the right
mode. The statistics and the kernel-priority requests of the routines are
left out; the dispatch priorities that order the queues change by steps of
their own, which is what priority inheritance does to a sleeping thread.

## Main definitions

* `Kthreads`: The threads, with their addresses.
* `State`: The word, the sleep queues, and where each thread stands.
* `rwEnterSleep`, `rwExitWakeup`, `rwTryenter`, `rwDowngrade`,
  `rwTryupgrade`: The routines, cut at their atomic steps.
* `rwReadersToWake`: How many readers a leaving writer wakes.
* `rwlock`: The system of all threads on one lock.
-/

namespace Sol7.Rwlock

/-- The mode of a hold. -/
inductive Krw
  | reader
  | writer
  deriving DecidableEq

/-- The threads of the system. A thread structure is allocated at a multiple
    of `PTR24_ALIGN`. -/
structure Kthreads (T : Type) where
  addr : T → UInt64
  inj : Function.Injective addr
  aligned : ∀ t, (addr t).toNat % 32 = 0
  nonnull : ∀ t, addr t ≠ 0

/-- Where a thread stands. -/
inductive Pc
  | out
  | entering (rw : Krw)
  | enterSlow (rw : Krw)
  | blocked (rw : Krw)
  | woken (rw : Krw)
  | inside (rw : Krw)
  | exiting (rw : Krw)
  | exitSlow (rw : Krw) (old : UInt64)
  | downgrading
  | panicked
  deriving DecidableEq

/-- One lock and its turnstile, with every thread's place and dispatch
    priority. -/
structure State (T : Type) where
  wwwh : UInt64
  writerQ : List T
  readerQ : List T
  pc : T → Pc
  prio : T → Nat

variable {T : Type} [DecidableEq T]

/-- Move one thread. -/
def State.goto (s : State T) (t : T) (p : Pc) : State T := { s with pc := Function.update s.pc t p }

/-- `sleepq_insert`: behind every thread of the same or a higher priority. -/
def sleepqInsert (prio : T → Nat) (c : T) : List T → List T
  | [] => [c]
  | t :: q => if prio c > prio t then c :: t :: q else t :: sleepqInsert prio c q

/-- `ts_waiters`. -/
def State.waiters (s : State T) : Nat := s.writerQ.length + s.readerQ.length

/-- `turnstile_block`'s effect on the queues. -/
def turnstileBlock (s : State T) (t : T) : Krw → State T
  | .reader => { s with readerQ := sleepqInsert s.prio t s.readerQ }
  | .writer => { s with writerQ := sleepqInsert s.prio t s.writerQ }

/-- The threads that leave a queue wake up in the mode they asked for. -/
def wakeAll (pc : T → Pc) (woken : List T) (rw : Krw) : T → Pc :=
  fun t => if t ∈ woken then .woken rw else pc t

/-- `turnstile_wakeup` of the first `n` threads of a queue. -/
def turnstileWakeup (s : State T) (n : Nat) : Krw → State T
  | .reader =>
    { s with
      readerQ := s.readerQ.drop n
      pc := wakeAll s.pc (s.readerQ.take n) .reader }
  | .writer =>
    { s with
      writerQ := s.writerQ.drop n
      pc := wakeAll s.pc (s.writerQ.take n) .writer }

/-- `turnstile_change_pri` for a thread that sleeps in one of the queues; any
    other thread's priority just changes. -/
def turnstileChangePri (s : State T) (t : T) (pri : Nat) : State T :=
  let prio := Function.update s.prio t pri
  if t ∈ s.writerQ then
    { s with prio := prio, writerQ := sleepqInsert prio t (s.writerQ.erase t) }
  else if t ∈ s.readerQ then
    { s with prio := prio, readerQ := sleepqInsert prio t (s.readerQ.erase t) }
  else { s with prio := prio }

/-- The loop of `rw_readers_to_wake`: the leading readers whose priority is
    not below `wpri`. -/
def readersFrom (prio : T → Nat) (wpri : Int) : List T → Nat
  | [] => 0
  | r :: q => if (prio r : Int) < wpri then 0 else readersFrom prio wpri q + 1

def rwReadersToWake (s : State T) : Nat :=
  let wpri : Int :=
    match s.writerQ.head? with
    | some w => s.prio w
    | none => -1
  readersFrom s.prio wpri s.readerQ

variable (k : Kthreads T)

/-- `lock_value` of `rw_enter_sleep` and `rw_exit_wakeup`. -/
def lockValue (t : T) : Krw → UInt64
  | .reader => rwReadLock
  | .writer => rwWriteLock (k.addr t)

/-- `lock_busy` of `rw_enter_sleep`. -/
def lockBusy : Krw → UInt64
  | .reader => rwWriteClaimed
  | .writer => rwLocked

/-- `lock_wait` of `rw_enter_sleep`. -/
def lockWait : Krw → UInt64
  | .reader => rwHasWaiters
  | .writer => rwHasWaiters ||| rwWriteWanted

/-- `rw_locked`. -/
def rwIsLocked (s : State T) (t : T) : Krw → Bool
  | .reader => s.wwwh &&& rwLocked != 0 && s.wwwh &&& rwWriteLocked == 0
  | .writer => s.wwwh &&& rwOwner == k.addr t

/-- One turn of the loop of `rw_enter_sleep`, up to the compare-and-swap or to
    the turnstile lock. -/
def rwEnterSleep (s : State T) (t : T) (rw : Krw) : State T :=
  if s.wwwh &&& lockBusy rw = 0 then
    { s.goto t (.inside rw) with wwwh := s.wwwh + lockValue k t rw }
  else if s.wwwh &&& rwDoubleLock = rwDoubleLock then s.goto t .panicked
  else if s.wwwh &&& rwOwner = k.addr t then s.goto t .panicked
  else s.goto t (.enterSlow rw)

/-- `rw_enter_sleep` under the turnstile lock. -/
def rwEnterBlock (s : State T) (t : T) (rw : Krw) : State T :=
  if s.wwwh &&& lockBusy rw = 0 then
    -- the lock appears free now; try the dance again
    s.goto t (.entering rw)
  else
    { turnstileBlock (s.goto t (.blocked rw)) t rw with wwwh := s.wwwh ||| lockWait rw }

/-- The start of `rw_exit_wakeup`, which finds out the mode of the hold. -/
def rwExitWakeup (s : State T) (t : T) : State T :=
  if s.wwwh &&& rwWriteLocked ≠ 0 then
    if s.wwwh &&& rwOwner ≠ k.addr t then { s.goto t .panicked with wwwh := 0 }
    else s.goto t (.exiting .writer)
  else if s.wwwh &&& rwLocked = 0 then s.goto t .panicked
  else s.goto t (.exiting .reader)

/-- One turn of the loop of `rw_exit_wakeup`: drop the lock, unless this is
    the final exit of a lock with waiters. -/
def rwExitDrop (s : State T) (t : T) (rw : Krw) : State T :=
  let new := s.wwwh - lockValue k t rw
  if new &&& (rwLocked ||| rwHasWaiters) ≠ rwHasWaiters then { s.goto t .out with wwwh := new }
  else s.goto t (.exitSlow rw s.wwwh)

/-- The final exit of a lock with waiters, under the turnstile lock. Which
    mode it had is read off the old value. -/
def rwExitHandoff (s : State T) (t : T) (old : UInt64) : State T :=
  let nreaders := if old &&& rwWriteLocked ≠ 0 then rwReadersToWake s else 0
  if nreaders > 0 then
    let new := UInt64.ofNat nreaders * rwReadLock
    let new := if s.waiters > nreaders then new ||| rwHasWaiters else new
    let new := if s.writerQ ≠ [] then new ||| rwWriteWanted else new
    { turnstileWakeup (s.goto t .out) nreaders .reader with wwwh := new }
  else
    match s.writerQ with
    -- no next writer to dereference
    | [] => s.goto t .panicked
    | nextWriter :: rest =>
      let new := rwWriteLock (k.addr nextWriter)
      let new := if s.waiters > 1 then new ||| rwHasWaiters else new
      let new := if rest ≠ [] then new ||| rwWriteWanted else new
      { turnstileWakeup (s.goto t .out) 1 .writer with wwwh := new }

def rwTryenter (s : State T) (t : T) : Krw → State T
  | .reader =>
    if s.wwwh &&& rwWriteClaimed ≠ 0 then s
    else { s.goto t (.inside .reader) with wwwh := s.wwwh + rwReadLock }
  | .writer =>
    if s.wwwh ≠ 0 then s
    else { s.goto t (.inside .writer) with wwwh := rwWriteLock (k.addr t) }

/-- `rw_downgrade` up to the turnstile lock. -/
def rwDowngrade (s : State T) (t : T) : State T :=
  if s.wwwh &&& rwOwner ≠ k.addr t then s.goto t .panicked
  else
    let new := s.wwwh + (rwReadLock - rwWriteLock (k.addr t))
    if new &&& rwHasWaiters ≠ 0 then { s.goto t .downgrading with wwwh := new }
    else { s.goto t (.inside .reader) with wwwh := new }

/-- `rw_downgrade` under the turnstile lock. -/
def rwDowngradeWakeup (s : State T) (t : T) : State T :=
  let nreaders := rwReadersToWake s
  let delta := UInt64.ofNat nreaders * rwReadLock
  let delta := if s.waiters = nreaders then delta - rwHasWaiters else delta
  let new := if nreaders > 0 then s.wwwh + delta else s.wwwh
  { turnstileWakeup (s.goto t (.inside .reader)) nreaders .reader with wwwh := new }

def rwTryupgrade (s : State T) (t : T) : State T :=
  if s.wwwh &&& ~~~rwHasWaiters ≠ rwReadLock then s
  else
    { s.goto t (.inside .writer) with
      wwwh := s.wwwh + rwWriteLock (k.addr t) - rwReadLock }

/-- One step of one thread, or a change of a thread's priority. -/
inductive Act (T : Type)
  | enter (t : T) (rw : Krw)
  | block (t : T)
  | tryenter (t : T) (rw : Krw)
  | resume (t : T)
  | exit (t : T)
  | drop (t : T)
  | handoff (t : T)
  | downgrade (t : T)
  | downgradeWakeup (t : T)
  | tryupgrade (t : T)
  | setPri (t : T) (pri : Nat)

/-- The step function. -/
def step (s : State T) : Act T → Option (State T)
  | .enter t rw =>
    if s.pc t = .out ∨ s.pc t = .entering rw then some (rwEnterSleep k s t rw) else none
  | .block t =>
    match s.pc t with
    | .enterSlow rw => some (rwEnterBlock s t rw)
    | _ => none
  | .tryenter t rw => if s.pc t = .out then some (rwTryenter k s t rw) else none
  | .resume t =>
    match s.pc t with
    | .woken rw => some (s.goto t (.inside rw))
    | _ => none
  | .exit t =>
    match s.pc t with
    | .inside _ => some (rwExitWakeup k s t)
    | _ => none
  | .drop t =>
    match s.pc t with
    | .exiting rw => some (rwExitDrop k s t rw)
    | _ => none
  | .handoff t =>
    match s.pc t with
    | .exitSlow _ old => some (rwExitHandoff k s t old)
    | _ => none
  | .downgrade t => if s.pc t = .inside .writer then some (rwDowngrade k s t) else none
  | .downgradeWakeup t => if s.pc t = .downgrading then some (rwDowngradeWakeup s t) else none
  | .tryupgrade t => if s.pc t = .inside .reader then some (rwTryupgrade k s t) else none
  | .setPri t pri => some (turnstileChangePri s t pri)

/-- `rw_init`. -/
def Fresh (s : State T) : Prop := s.wwwh = 0 ∧ s.writerQ = [] ∧ s.readerQ = [] ∧ ∀ t, s.pc t = .out

/-- All threads on one lock. -/
def rwlock : System (State T) (Act T) where
  init := Fresh
  step := step k

end Sol7.Rwlock
