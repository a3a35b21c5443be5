import Sol7.Lib.Buckets
import Sol7.Lib.Linked
import Sol7.Lib.System

/-!
# Process Ids

Model of `pid.c`: `pid_lookup`, `pid_assign`, `pid_rele`, `proc_entry_free` and
`prfind`, with the macros `PID_HOLD` and `PID_RELE`.

A pid structure is on the hash chain of its id from `pid_assign` on until its
last reference is given up. One reference is the one of its process. Others
are held by process groups and sessions that have the id, and by streams and
drivers. The slot of a process in the directory is free again as soon as the
process has left, while the pid structure may live on.

The lock of the chains is held during each of the routines, and so each of them
is one step. Where memory is allocated, which free structure is taken is up to
the allocator. Who holds which references is kept as history.

## Main definitions

* `PidStruct`, `Procent`, `PidTable`: The structures.
* `PidTable.pidLookup`, `PidTable.pidAssign`, `PidTable.pidReleMacro`,
  `PidTable.procEntryFree`, `PidTable.prfind`: The routines.
* `pids`: All interleavings of processes and holders.
-/

namespace Sol7

open Function

/-- `struct pid` -/
structure PidStruct where
  prinactive : Bool
  prslot : Nat
  id : Nat
  ref : Nat
deriving DecidableEq

/-- `union procent`: a process, or the next free entry. -/
inductive Procent where
  | proc (prp : Nat)
  | next (pep : Option Nat)
deriving DecidableEq

/-- The link that an entry of the directory holds. -/
def Procent.link : Procent → Option (Option Nat)
  | .proc _ => none
  | .next pep => some pep

/-- The tables of `pid.c`. Structures are named by their addresses, and `pidp`
    is the pid structure of a process. The addresses in `heap` are those where
    the allocator has a pid structure. -/
structure PidTable where
  hashsz : Nat
  pidhash : Nat → List Nat
  pid : Nat → PidStruct
  procdir : Nat → Procent
  procentfree : Option Nat
  minpid : Nat
  mpid : Nat
  maxpid : Nat
  pidp : Nat → Nat
  heap : List Nat

namespace PidTable

variable (t : PidTable)

def hashPid (id : Nat) : Nat := id &&& (t.hashsz - 1)

def pidLookup (id : Nat) : Option Nat :=
  (t.pidhash (t.hashPid id)).find? fun p => (t.pid p).id == id

def pidSetmin : PidTable := { t with minpid := t.mpid + 1 }

/-- The id that is tried after another one. -/
def nextPid (mpid : Nat) : Nat := if mpid + 1 = t.maxpid then t.minpid else mpid + 1

/-- The search for an id that is not in use. -/
def searchPid : Nat → Nat → Option Nat
  | 0, _ => none
  | fuel + 1, mpid =>
    if (t.pidLookup (t.nextPid mpid)).isSome then searchPid fuel (t.nextPid mpid)
    else some (t.nextPid mpid)

/-- Enough to try every id. -/
def searchFuel : Nat := 2 * t.maxpid

/-- The tables after a process has got an entry of the directory, a pid
    structure and an id. -/
def assigned (prp pidp pep newpid : Nat) (next : Option Nat) : PidTable :=
  { t with
    procentfree := next
    procdir := update t.procdir pep (.proc prp)
    pidp := update t.pidp prp pidp
    heap := pidp :: t.heap
    mpid := newpid
    pidhash := link t.pidhash (t.hashPid newpid) pidp
    pid := update t.pid pidp
      { prinactive := false, prslot := pep, id := newpid, ref := 1 } }

/-- `pid_assign`, for a process and a new pid structure: the id, or none when
    the directory is full. If there is no id to be found, it does not return. -/
def pidAssign (prp pidp : Nat) : Option (PidTable × Option Nat) :=
  match t.procentfree with
  | none => some (t, none)
  | some pep =>
    match t.procdir pep with
    | .proc _ => none
    | .next next =>
      (t.searchPid t.searchFuel t.mpid).map fun newpid =>
        (t.assigned prp pidp pep newpid next, some newpid)

/-- `pid_rele`. Off the end of the chain there is nothing to unlink. -/
def pidRele (p : Nat) : Option PidTable :=
  if p ∈ t.pidhash (t.hashPid (t.pid p).id) then
    some { t with
      pidhash := unlink t.pidhash (t.hashPid (t.pid p).id) p
      heap := t.heap.erase p }
  else none

/-- `PID_HOLD` -/
def pidHoldMacro (p : Nat) : PidTable :=
  { t with pid := update t.pid p { t.pid p with ref := (t.pid p).ref + 1 } }

/-- `PID_RELE` -/
def pidReleMacro (p : Nat) : Option PidTable :=
  if (t.pid p).ref > 1 then
    some { t with pid := update t.pid p { t.pid p with ref := (t.pid p).ref - 1 } }
  else t.pidRele p

def procEntryFree (p : Nat) : PidTable :=
  { t with
    pid := update t.pid p { t.pid p with prinactive := true }
    procdir := update t.procdir (t.pid p).prslot (.next t.procentfree)
    procentfree := some (t.pid p).prslot }

/-- `prfind`. A link would be taken for a process. -/
def prfind (id : Nat) : Option Procent :=
  match t.pidLookup id with
  | some p => if (t.pid p).prinactive = false then some (t.procdir (t.pid p).prslot) else none
  | none => none

end PidTable

/-! ### Interleavings -/

/-- What has become of a process. -/
inductive ProcPhase where
  /-- Not created, or gone. -/
  | absent
  | active
  /-- It has left the directory, and still has its reference. -/
  | exiting
deriving DecidableEq

/-- For what a pid structure is held. -/
inductive HoldKind where
  | group
  | session
  | other
deriving DecidableEq

/-- The tables, and as history the processes and who holds references. -/
structure PidState where
  t : PidTable
  phase : Nat → ProcPhase
  holds : List (HoldKind × Nat)

inductive PidOp where
  | setmin
  /-- A process is created. -/
  | create (prp pidp : Nat)
  /-- `pid_exit` frees the slot of the process. -/
  | entryFree (prp : Nat)
  /-- `pid_exit` gives up the reference of the process. -/
  | exitRele (prp : Nat)
  | hold (kind : HoldKind) (p : Nat)
  | rele (kind : HoldKind) (p : Nat)

namespace PidState

variable (s : PidState)

/-- A process has a pid structure. -/
def HasPid (prp p : Nat) : Prop := s.phase prp ≠ .absent ∧ s.t.pidp prp = p

instance (prp p : Nat) : Decidable (s.HasPid prp p) := inferInstanceAs (Decidable (_ ∧ _))

/-- Somebody holds a pid structure other than its process. -/
def Held (p : Nat) : Prop := ∃ kind, (kind, p) ∈ s.holds

/-- A pid structure is live: it is in use for a process, or is held. -/
def Live (p : Nat) : Prop := (∃ prp, s.HasPid prp p) ∨ s.Held p

/-- A process is created, at addresses that are not in use. A creation that
    fails changes nothing. -/
def create (prp pidp : Nat) : Option PidState :=
  if s.phase prp = .absent ∧ pidp ∉ s.t.heap then
    (s.t.pidAssign prp pidp).map fun r =>
      match r.2 with
      | none => s
      | some _ => { s with t := r.1, phase := update s.phase prp .active }
  else none

def entryFree (prp : Nat) : Option PidState :=
  if s.phase prp = .active then
    some { s with
      t := s.t.procEntryFree (s.t.pidp prp)
      phase := update s.phase prp .exiting }
  else none

def exitRele (prp : Nat) : Option PidState :=
  if s.phase prp = .exiting then
    (s.t.pidReleMacro (s.t.pidp prp)).map fun t =>
      { s with t := t, phase := update s.phase prp .absent }
  else none

/-- Only a structure that is there can be held. -/
def hold (kind : HoldKind) (p : Nat) : Option PidState :=
  if p ∈ s.t.heap then some { s with t := s.t.pidHoldMacro p, holds := (kind, p) :: s.holds }
  else none

def rele (kind : HoldKind) (p : Nat) : Option PidState :=
  if (kind, p) ∈ s.holds then
    (s.t.pidReleMacro p).map fun t => { s with t := t, holds := s.holds.erase (kind, p) }
  else none

/-- `pid_setmin` is called when some ids are left. -/
def setmin : Option PidState :=
  if s.t.mpid + 1 < s.t.maxpid then some { s with t := s.t.pidSetmin } else none

def step : PidOp → Option PidState
  | .setmin => s.setmin
  | .create prp pidp => s.create prp pidp
  | .entryFree prp => s.entryFree prp
  | .exitRele prp => s.exitRele prp
  | .hold kind p => s.hold kind p
  | .rele kind p => s.rele kind p

/-- After `pid_init`: there is process 0 with its pid structure, which its group
    and its session hold. All slots but its own are free. -/
structure Init : Prop where
  phase : ∀ prp, s.phase prp = if prp = 0 then .active else .absent
  holds : s.holds = [(.group, 0), (.session, 0)]
  heap : s.t.heap = [0]
  pidp : s.t.pidp 0 = 0
  pid : s.t.pid 0 = { prinactive := false, prslot := 0, id := 0, ref := 3 }
  pidhash : ∀ b, s.t.pidhash b = if b = s.t.hashPid 0 then [0] else []
  ids : s.t.minpid = 0 ∧ s.t.mpid = 0 ∧ 1 < s.t.maxpid
  procdir : s.t.procdir 0 = .proc 0
  free : ∃ nproc, 2 ≤ nproc ∧ s.t.procentfree = some 1 ∧
    ∀ i, 1 ≤ i → i < nproc → s.t.procdir i = .next (if i + 1 < nproc then some (i + 1) else none)

end PidState

/-- All sequences of creations, exits, holds and releases. -/
def pids : System PidState PidOp where
  init := PidState.Init
  step := PidState.step

end Sol7
