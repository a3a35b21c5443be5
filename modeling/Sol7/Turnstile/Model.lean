import Sol7.Lib.System
import Sol7.Lib.WaitsFor

/-!
# Turnstiles

Model of `turnstil.c`, with the sleep queues of `sleepq.c` and
`thread_change_epri`.

A thread that blocks on a synchronization object sleeps in the turnstile of the
object. The first one that blocks donates its own turnstile, and the others put
theirs on its freelist. The thread that owns the object inherits the priority of
those that sleep, and so does, if it sleeps itself, the owner of the object it
sleeps for.

Turnstiles are named after the threads that they were made for. There is one hash
chain, as in the source, and a call holds its lock throughout, so a call is a
step. An object says who owns it: nobody, when it is free, or when it is held by
several readers. The priority of a thread is fixed, so its class does not change
it when it goes to sleep or wakes up. An `ASSERT` or a `panic` that is not met
gives no result.

## Main definitions

* `State`: The threads, the turnstiles and the owners.
* `State.piInherit`, `State.piWaive`: `turnstile_pi_inherit` and
  `turnstile_pi_waive`.
* `State.block`: `turnstile_block`.
* `State.wakeup`: `turnstile_wakeup`.
* `turnstiles`: The runs of their clients.
-/

namespace Sol7.Turnstile

open Function

/-- `TS_WRITER_Q` and `TS_READER_Q`. -/
inductive SleepQ where
  | writer
  | reader
deriving DecidableEq

/-- The threads, with `t_pri`, `t_epri`, `t_ts`, `t_wchan` and `t_prioinv`; the
    turnstiles, with `ts_sobj`, `ts_waiters`, `ts_epri`, `ts_inheritor`,
    `ts_free` and `ts_sleepq`; the hash chain; and the owners of the objects. A
    thread sleeps if it has a `t_wchan`. -/
structure State (T O : Type*) where
  pri : T → Nat
  epri : T → Nat
  tts : T → T
  wchan : T → Option O
  prioinv : T → List T
  sobj : T → Option O
  waiters : T → Nat
  tsEpri : T → Nat
  inheritor : T → Option T
  free : T → List T
  sleepq : T → SleepQ → List T
  first : List T
  owner : O → Option T

namespace State

variable {T O : Type*} [DecidableEq T] [DecidableEq O] (s : State T O)

/-! ### Sleep queues -/

def dispPrio (t : T) : Nat := if s.epri t ≠ 0 then s.epri t else s.pri t

/-- `sleepq_insert`: in dispatch priority order. -/
def sleepqInsert (disp : T → Nat) (c : T) : List T → List T
  | [] => [c]
  | tp :: q => if disp c > disp tp then c :: tp :: q else tp :: sleepqInsert disp c q

/-- Store a sleep queue. -/
def setQ (k : T) (q : SleepQ) (l : List T) : State T O :=
  { s with sleepq := fun k' q' => if k' = k ∧ q' = q then l else s.sleepq k' q' }

/-- `turnstile_change_pri`, for `t_epri`. -/
def changePri (t : T) (pri : Nat) : Option (State T O) :=
  let k := s.tts t
  let change := fun q =>
    let s := s.setQ k q ((s.sleepq k q).erase t)
    let s := { s with epri := update s.epri t pri }
    s.setQ k q (sleepqInsert s.dispPrio t (s.sleepq k q))
  if t ∈ s.sleepq k .writer then some (change .writer)
  else if t ∈ s.sleepq k .reader then some (change .reader)
  else none

def threadChangeEpri (t : T) (pri : Nat) : Option (State T O) :=
  if s.wchan t = none then some { s with epri := update s.epri t pri }
  else s.changePri t pri

/-! ### Priority inheritance -/

/-- `turnstile_pi_inherit`, with whether inheritance was necessary. -/
def piInherit (ts inheritor : T) (epri : Nat) : Option (State T O × Bool) :=
  if epri ≤ s.pri inheritor then some (s, false)
  else
    let s :=
      match s.inheritor ts with
      | none =>
        { s with
          inheritor := update s.inheritor ts (some inheritor)
          tsEpri := update s.tsEpri ts epri
          prioinv := update s.prioinv inheritor (ts :: s.prioinv inheritor) }
      | some _ => if s.tsEpri ts < epri then { s with tsEpri := update s.tsEpri ts epri } else s
    (if epri > s.dispPrio inheritor then s.threadChangeEpri inheritor epri else some s).map
      fun s => (s, true)

/-- The walk over the list of an inheritor: what is left without a turnstile, and
    the highest priority of that. -/
def waiveList (ts : T) : List T → Nat → List T × Nat
  | [], newEpri => ([], newEpri)
  | tsp :: tsps, newEpri =>
    if tsp = ts then waiveList ts tsps newEpri
    else
      let r := waiveList ts tsps (max newEpri (s.tsEpri tsp))
      (tsp :: r.1, r.2)

/-- `turnstile_pi_waive`. -/
def piWaive (ts inheritor : T) : Option (State T O) :=
  let r := s.waiveList ts (s.prioinv inheritor) 0
  let s := { s with prioinv := update s.prioinv inheritor r.1 }
  (if r.2 ≠ s.dispPrio inheritor then s.threadChangeEpri inheritor r.2 else some s).map fun s =>
    { s with inheritor := update s.inheritor ts none }

/-- `turnstile_lookup`. -/
def lookup (sobj : O) : Option T := s.first.find? fun ts => s.sobj ts = some sobj

/-- The owner of the object that a thread sleeps for. -/
def blockedBy (t : T) : Option T := (s.wchan t).bind s.owner

/-- Follow the blocking chain to its end, or until there are no more inversions.
    There is no result for a cycle. -/
def will (curthread : T) : Nat → State T O → T → Option (State T O)
  | 0, _, _ => none
  | fuel + 1, s, t =>
    match s.blockedBy t with
    | none => some s
    | some owner =>
      if owner = curthread then none
      else
        (s.piInherit (s.tts t) owner (s.dispPrio t)).bind fun r =>
          if r.2 = false ∨ r.1.wchan owner = none then some r.1 else will curthread fuel r.1 owner

/-- The turnstile that a thread blocks in: its own, which becomes the active one,
    or the active one, on whose freelist it puts its own. -/
def attach (t : T) (sobj : O) : State T O :=
  match s.lookup sobj with
  | none =>
    { s with
      sobj := update s.sobj (s.tts t) (some sobj)
      first := s.tts t :: s.first }
  | some ts =>
    { s with
      free := update s.free ts (s.tts t :: s.free ts)
      tts := update s.tts t ts }

/-- Put a thread to sleep in its turnstile. -/
def sleep (t : T) (qnum : SleepQ) (sobj : O) : State T O :=
  let s := { s with
    wchan := update s.wchan t (some sobj)
    waiters := update s.waiters (s.tts t) (s.waiters (s.tts t) + 1) }
  s.setQ (s.tts t) qnum (sleepqInsert s.dispPrio t (s.sleepq (s.tts t) qnum))

/-- `turnstile_block`. -/
def block [Fintype T] (t : T) (qnum : SleepQ) (sobj : O) : Option (State T O) :=
  will t (Fintype.card T) ((s.attach t sobj).sleep t qnum sobj) t

/-! ### Wakeup -/

/-- Wake the first thread of a sleep queue. It gets a turnstile from the
    freelist, or the turnstile itself if it was the last waiter. -/
def wakeOne (ts : T) (qnum : SleepQ) : Option (State T O × T) :=
  match s.sleepq ts qnum with
  | [] => none
  | t :: rest =>
    (match s.free ts with
      | tsfree :: free =>
        some { s with
          tts := update s.tts t tsfree
          free := update s.free ts free }
      | [] => if s.inheritor ts = none then some { s with first := s.first.erase ts } else none).map
    fun (s : State T O) =>
      (({ s with
          waiters := update s.waiters ts (s.waiters ts - 1)
          wchan := update s.wchan t none } : State T O).setQ ts qnum rest, t)

/-- The highest priority of those that sleep in a turnstile. -/
def topPrio (ts : T) : Nat :=
  max (((s.sleepq ts .writer).head?.map s.dispPrio).getD 0)
    (((s.sleepq ts .reader).head?.map s.dispPrio).getD 0)

/-- The loop of `turnstile_wakeup`. A new owner inherits from those that still
    sleep, and has to be among those that are woken. -/
def wakeLoop (ts : T) (qnum : SleepQ) : Nat → State T O → Option T → Option (State T O)
  | 0, s, owner => if owner = none then some s else none
  | n + 1, s, owner =>
    (s.wakeOne ts qnum).bind fun r =>
      if owner = some r.2 then
        (r.1.piInherit ts r.2 (r.1.topPrio ts)).bind fun r => wakeLoop ts qnum n r.1 none
      else wakeLoop ts qnum n r.1 owner

/-- `turnstile_wakeup`. -/
def wakeup (ts : T) (qnum : SleepQ) (nthreads : Nat) (owner : Option T) : Option (State T O) :=
  (match s.inheritor ts with
    | none => some s
    | some inheritor => s.piWaive ts inheritor).bind fun s => wakeLoop ts qnum nthreads s owner

end State

/-! ### Clients -/

/-- What the client of an object does. -/
inductive Call (T O : Type*) where
  | acquire (t : T) (sobj : O)
  | release (t : T) (sobj : O)
  | block (t : T) (qnum : SleepQ) (sobj : O)
  | wakeup (t : T) (qnum : SleepQ) (sobj : O) (nthreads : Nat) (owner : Option T)

variable {T O : Type*} [DecidableEq T] [DecidableEq O] [Fintype T]

/-- A thread may block on an object: it runs, and it is not among those that the
    owner of the object waits for. -/
def State.MayBlock (s : State T O) (t : T) (sobj : O) : Prop :=
  s.wchan t = none ∧ t ∉ WaitsFor.follow s.blockedBy (Fintype.card T) (s.owner sobj)

instance (s : State T O) (t : T) (sobj : O) : Decidable (s.MayBlock t sobj) :=
  inferInstanceAs (Decidable (_ ∧ _))

/-- One call. An object that has no waiters is taken if it is free, and dropped
    by its owner. The owner of one that has waiters changes only together with
    `turnstile_wakeup`: the client stores the new owner, or nobody, first. -/
def call (s : State T O) : Call T O → Option (State T O)
  | .acquire t sobj =>
    if s.wchan t = none ∧ s.owner sobj = none ∧ s.lookup sobj = none then
      some { s with owner := update s.owner sobj (some t) }
    else none
  | .release t sobj =>
    if s.wchan t = none ∧ s.owner sobj = some t ∧ s.lookup sobj = none then
      some { s with owner := update s.owner sobj none }
    else none
  | .block t qnum sobj => if s.MayBlock t sobj then s.block t qnum sobj else none
  | .wakeup t qnum sobj nthreads owner =>
    if s.wchan t = none ∧ (s.owner sobj = some t ∨ s.owner sobj = none) then
      (s.lookup sobj).bind fun ts =>
        ({ s with owner := update s.owner sobj owner } : State T O).wakeup ts qnum
          nthreads owner
    else none

/-- Nothing is owned, every thread runs, and every thread has its turnstile. -/
structure State.Fresh (s : State T O) : Prop where
  epri : ∀ t, s.epri t = 0
  tts : ∀ t, s.tts t = t
  wchan : ∀ t, s.wchan t = none
  prioinv : ∀ t, s.prioinv t = []
  waiters : ∀ k, s.waiters k = 0
  inheritor : ∀ k, s.inheritor k = none
  free : ∀ k, s.free k = []
  sleepq : ∀ k q, s.sleepq k q = []
  first : s.first = []
  owner : ∀ o, s.owner o = none

/-- The runs of any number of clients. -/
def turnstiles (T O : Type*) [DecidableEq T] [DecidableEq O] [Fintype T] :
    System (State T O) (Call T O) where
  init := State.Fresh
  step := call

end Sol7.Turnstile
