import Sol7.Lib.Census
import Sol7.Lib.System

/-!
# Moby Transactions

The transaction routines of the UFS log (`lufs_top.c`). Operations are
gathered into one large transaction at a time. A sync operation waits at its
end for the transaction to commit; an async one does not. The last sync
operation to end closes the transaction, waits for the async operations that
are still inside, commits, and hands the log over to the operations that were
admitted to the next transaction meanwhile.

Everything between two `cv_wait` calls runs under `mtm_lock`, so it is one
step. A `begin` that finds no room waits and starts over from `retry`, which
leaves the state as it was. The committing thread drops `mtm_lock` between the
incore commit, which opens the next transaction to async operations, and the
hand-over, which opens it to sync ones. The incore commit is a step of its own
only if the thread has had to wait for async operations.

Three fields of `State` are history and nothing branches on them: the number
of incore commits, the number of hand-overs, and for each thread the number
of the transaction that admitted its operation, with the list of sizes each
transaction admitted.

The routines' heuristics are left out: `mtm_ref` (read by the roll thread
only), and `top_issue_sync`, which is a thread calling the routines below
with size zero before it retries.

## Main definitions

* `Moby`: The counters and flags of `mt_map_t` and `ml_unit_t`.
* `Pc`: Where a thread stands between its begin and its end.
* `topBeginSync`, `topBeginAsync`, `topEndSync`, `topEndAsync`: The entry
  points, each up to its first wait.
* `logmapCommit`: The incore commit's effect on the transaction id.
* `top`: The system of all threads.
* `Move`: What a step can do, one constructor per branch. The end of the last
  operation of a transaction is two of them.

## Theorems

* `logmapCommit_frame`: What the incore commit leaves alone.
* `move_of_step`: Every step is one of the moves, or an end and a commit.
-/

namespace Sol7.UfsLog

open Option Bool Function

namespace Top

/-- Where a thread stands. The constructors with a sequence number are the
    two `do cv_wait while (seq == mtm_seq)` loops. -/
inductive Pc
  | out
  | wantin (size : UInt32) (seq : UInt16)
  | sync (size : UInt32)
  | async (size : UInt32)
  | endWait (seq : UInt16)
  | drain
  | flush (tid : UInt32)
  deriving DecidableEq

/-- The transaction fields of `mt_map_t` and the reservation fields of
    `ml_unit_t`. The two bits of `mtm_closed` are kept apart. -/
structure Moby where
  closedSync : Bool
  closedAsync : Bool
  active : Nat
  activesync : Nat
  wantin : Nat
  seq : UInt16
  tid : UInt32
  committid : UInt32
  dirty : Nat
  error : Bool
  resv : UInt32
  resvWantin : UInt32
  maxresv : UInt32
  deriving DecidableEq

theorem room_of_not_full {m : Moby} {size : UInt32}
    (h : ¬(m.resv ≠ 0 ∧ size + m.resv > m.maxresv)) : m.resv = 0 ∨ size + m.resv ≤ m.maxresv := by
  by_cases h0 : m.resv = 0
  · exact .inl h0
  · exact .inr (UInt32.not_lt.mp fun hlt => h ⟨h0, hlt⟩)

/-- The log unit and its threads, with the history of admissions. -/
structure State (T : Type) where
  m : Moby
  pc : T → Pc
  commits : Nat
  opens : Nat
  txn : T → Nat
  admitted : Nat → List UInt32

variable {T : Type} [DecidableEq T] (s : State T)

/-- Record that transaction `n` admitted an operation of thread `t`. -/
def State.admit (t : T) (n : Nat) (size : UInt32) : State T :=
  { s with
    txn := update s.txn t n
    admitted := update s.admitted n (size :: s.admitted n) }

/-- `top_begin_sync` up to its first wait. -/
def topBeginSync (t : T) (size : UInt32) : State T :=
  if s.m.closedSync then
    -- current transaction closed to sync ops; try for next transaction
    if size + s.m.resvWantin + s.m.resv > s.m.maxresv then s
    else
      { s.admit t (s.opens + 1) size with
        m := { s.m with wantin := s.m.wantin + 1, resvWantin := s.m.resvWantin + size }
        pc := update s.pc t (.wantin size s.m.seq) }
  else if s.m.resv ≠ 0 ∧ size + s.m.resv > s.m.maxresv then s
  else
    { s.admit t s.commits size with
      m := { s.m with
        active := s.m.active + 1
        activesync := s.m.activesync + 1
        resv := s.m.resv + size }
      pc := update s.pc t (.sync size) }

def topBeginAsync (t : T) (size : UInt32) : State T :=
  if s.m.closedAsync then s
  else if s.m.resv ≠ 0 ∧ size + s.m.resv > s.m.maxresv then s
  else
    { s.admit t s.commits size with
      m := { s.m with active := s.m.active + 1, resv := s.m.resv + size }
      pc := update s.pc t (.async size) }

/-- `logmap_commit` as far as the transaction id goes: an empty transaction
    writes no commit record, and one whose record could not be written keeps
    its id. -/
def logmapCommit (m : Moby) : Moby :=
  if m.dirty ≠ 0 then
    if m.error then m else { m with dirty := 0, tid := m.tid + 1 }
  else m

/-- The incore commit touches the dirty count and the transaction id only. -/
theorem logmapCommit_frame (m : Moby) :
    ∃ (dirty : Nat) (tid : UInt32), logmapCommit m = { m with dirty := dirty, tid := tid } := by
  unfold logmapCommit
  by_cases hd : m.dirty ≠ 0
  · rw [if_pos hd]
    by_cases he : m.error = true
    · rw [if_pos he]
      exact ⟨m.dirty, m.tid, rfl⟩
    · rw [if_neg he]
      exact ⟨0, m.tid + 1, rfl⟩
  · rw [if_neg hd]
    exact ⟨m.dirty, m.tid, rfl⟩

/-- `top_end_sync` from the last async operation's end to the drop of
    `mtm_lock`: push, commit incore, allow async operations. -/
def topEndSyncCommit (t : T) : State T :=
  let m := logmapCommit s.m
  { s with
    m := { m with closedSync := true, closedAsync := false }
    pc := update s.pc t (.flush m.tid)
    commits := s.commits + 1 }

/-- `top_end_sync` up to its first wait: for somebody else's commit or, by the last
    sync operation, for the async ones. If there are none, `mtm_lock` is held on to
    until the commit has been made. -/
def topEndSync (t : T) : State T :=
  let m := { s.m with activesync := s.m.activesync - 1, active := s.m.active - 1 }
  if m.activesync ≠ 0 then
    { s with
      m := { m with closedSync := true }
      pc := update s.pc t (.endWait m.seq) }
  else
    -- unreserve the log space: must be done here for top_begin_sync's check
    let r := { s with
      m := { m with closedSync := true, closedAsync := true, resv := 0 }
      pc := update s.pc t .drain }
    if m.active = 0 then topEndSyncCommit r t else r

def topEndAsync (t : T) : State T :=
  { s with
    m := { s.m with active := s.m.active - 1 }
    pc := update s.pc t .out }

/-- `top_end_sync` after the log writes have finished: allow all operations
    and take over those that wanted in. -/
def topEndSyncOpen (t : T) (tid : UInt32) : State T :=
  { s with
    m := { s.m with
      active := s.m.active + s.m.wantin
      resv := s.m.resv + s.m.resvWantin
      activesync := s.m.wantin
      wantin := 0
      closedSync := false
      closedAsync := false
      resvWantin := 0
      committid := tid
      seq := s.m.seq + 1 }
    pc := update s.pc t .out
    opens := s.opens + 1 }

/-- One step of one thread, or of the log layer below. -/
inductive Act (T : Type)
  | beginSync (t : T) (size : UInt32)
  | beginAsync (t : T) (size : UInt32)
  | resume (t : T)
  | endSync (t : T)
  | endAsync (t : T)
  | endResume (t : T)
  | commit (t : T)
  | reopen (t : T)
  | log
  | fail

/-- The step function. A thread's step is enabled when the thread stands
    where the step starts. -/
def step : Act T → Option (State T)
  | .beginSync t size => if s.pc t = .out then some (topBeginSync s t size) else none
  | .beginAsync t size => if s.pc t = .out then some (topBeginAsync s t size) else none
  | .resume t =>
    match s.pc t with
    | .wantin size seq =>
      if seq = s.m.seq then some s
      else some { s with pc := update s.pc t (.sync size) }
    | _ => none
  | .endSync t =>
    match s.pc t with
    | .sync _ => some (topEndSync s t)
    | _ => none
  | .endAsync t =>
    match s.pc t with
    | .async _ => some (topEndAsync s t)
    | _ => none
  | .endResume t =>
    match s.pc t with
    | .endWait seq =>
      if seq = s.m.seq then some s
      else some { s with pc := update s.pc t .out }
    | _ => none
  | .commit t => if s.pc t = .drain ∧ s.m.active = 0 then some (topEndSyncCommit s t) else none
  | .reopen t =>
    match s.pc t with
    | .flush tid => some (topEndSyncOpen s t tid)
    | _ => none
  -- a delta reaches the log map
  | .log => some { s with m := { s.m with dirty := s.m.dirty + 1 } }
  -- the log device fails
  | .fail => some { s with m := { s.m with error := true } }

/-- A freshly mapped log: `map_get` clears the counters. The transaction id
    is whatever the log scan left. -/
def Fresh : Prop :=
  s.m.closedSync = false ∧ s.m.closedAsync = false ∧ s.m.active = 0 ∧
    s.m.activesync = 0 ∧ s.m.wantin = 0 ∧ s.m.resv = 0 ∧ s.m.resvWantin = 0 ∧
    (∀ t, s.pc t = .out) ∧ s.commits = 0 ∧ s.opens = 0 ∧ ∀ n, s.admitted n = []

/-- A freshly mapped log with room for `maxresv` bytes. -/
def State.fresh (T : Type) (maxresv tid : UInt32) : State T where
  m :=
    { closedSync := false, closedAsync := false, active := 0, activesync := 0, wantin := 0
      seq := 0, tid := tid, committid := tid, dirty := 0, error := false
      resv := 0, resvWantin := 0, maxresv := maxresv }
  pc := fun _ => .out
  commits := 0
  opens := 0
  txn := fun _ => 0
  admitted := fun _ => []

omit [DecidableEq T] in
theorem State.fresh_fresh (maxresv tid : UInt32) : Fresh (State.fresh T maxresv tid) :=
  ⟨rfl, rfl, rfl, rfl, rfl, rfl, rfl, fun _ => rfl, rfl, rfl, fun _ => rfl⟩

/-- All threads on one log unit. -/
def top (T : Type) [DecidableEq T] : System (State T) (Act T) where
  init := Fresh
  step := step

/-- What a step can do. A `begin` without room, a wait whose sequence number
    has not moved, and the log layer leave everything but the dirty count and
    the error flag alone. -/
inductive Move (s : State T) : Act T → State T → Prop
  | idle (a : Act T) (dirty : Nat) (error : Bool) :
      Move s a { s with m := { s.m with dirty := dirty, error := error } }
  | want (t : T) (size : UInt32) (hpc : s.pc t = .out) (hc : s.m.closedSync = true)
      (hroom : size + s.m.resvWantin + s.m.resv ≤ s.m.maxresv) : Move s (.beginSync t size)
        { s.admit t (s.opens + 1) size with
          m := { s.m with wantin := s.m.wantin + 1, resvWantin := s.m.resvWantin + size }
          pc := update s.pc t (.wantin size s.m.seq) }
  | enterSync (t : T) (size : UInt32) (hpc : s.pc t = .out) (hc : s.m.closedSync = false)
      (hroom : s.m.resv = 0 ∨ size + s.m.resv ≤ s.m.maxresv) : Move s (.beginSync t size)
        { s.admit t s.commits size with
          m := { s.m with
            active := s.m.active + 1
            activesync := s.m.activesync + 1
            resv := s.m.resv + size }
          pc := update s.pc t (.sync size) }
  | enterAsync (t : T) (size : UInt32) (hpc : s.pc t = .out) (hc : s.m.closedAsync = false)
      (hroom : s.m.resv = 0 ∨ size + s.m.resv ≤ s.m.maxresv) : Move s (.beginAsync t size)
        { s.admit t s.commits size with
          m := { s.m with active := s.m.active + 1, resv := s.m.resv + size }
          pc := update s.pc t (.async size) }
  | resume (t : T) (size : UInt32) (seq : UInt16) (hpc : s.pc t = .wantin size seq)
      (hseq : seq ≠ s.m.seq) : Move s (.resume t) { s with pc := update s.pc t (.sync size) }
  | endSyncWait (t : T) (size : UInt32) (hpc : s.pc t = .sync size)
      (hmore : s.m.activesync - 1 ≠ 0) : Move s (.endSync t)
        { s with
          m := { s.m with
            activesync := s.m.activesync - 1
            active := s.m.active - 1
            closedSync := true }
          pc := update s.pc t (.endWait s.m.seq) }
  | endSyncLast (t : T) (size : UInt32) (hpc : s.pc t = .sync size)
      (hlast : s.m.activesync - 1 = 0) : Move s (.endSync t)
        { s with
          m := { s.m with
            activesync := s.m.activesync - 1
            active := s.m.active - 1
            closedSync := true
            closedAsync := true
            resv := 0 }
          pc := update s.pc t .drain }
  | endAsync (t : T) (size : UInt32) (hpc : s.pc t = .async size) :
      Move s (.endAsync t) (topEndAsync s t)
  | endResume (t : T) (seq : UInt16) (hpc : s.pc t = .endWait seq) :
      Move s (.endResume t) { s with pc := update s.pc t .out }
  | commit (t : T) (hpc : s.pc t = .drain) (hactive : s.m.active = 0) :
      Move s (.commit t) (topEndSyncCommit s t)
  | reopen (t : T) (tid : UInt32) (hpc : s.pc t = .flush tid) :
      Move s (.reopen t) (topEndSyncOpen s t tid)

theorem Move.stay (a : Act T) : Move s a s := .idle a s.m.dirty s.m.error

theorem move_topBeginSync (t : T) (size : UInt32) (hpc : s.pc t = .out) :
    Move s (.beginSync t size) (topBeginSync s t size) := by
  unfold topBeginSync
  by_cases hc : s.m.closedSync = true
  · rw [if_pos hc]
    by_cases hfull : size + s.m.resvWantin + s.m.resv > s.m.maxresv
    · rw [if_pos hfull]
      exact .stay s _
    · rw [if_neg hfull]
      exact .want t size hpc hc (UInt32.not_lt.mp hfull)
  · rw [if_neg hc]
    by_cases hfull : s.m.resv ≠ 0 ∧ size + s.m.resv > s.m.maxresv
    · rw [if_pos hfull]
      exact .stay s _
    · rw [if_neg hfull]
      exact .enterSync t size hpc (not_eq_true _ ▸ hc) (room_of_not_full hfull)

theorem move_topBeginAsync (t : T) (size : UInt32) (hpc : s.pc t = .out) :
    Move s (.beginAsync t size) (topBeginAsync s t size) := by
  unfold topBeginAsync
  by_cases hc : s.m.closedAsync = true
  · rw [if_pos hc]
    exact .stay s _
  rw [if_neg hc]
  by_cases hfull : s.m.resv ≠ 0 ∧ size + s.m.resv > s.m.maxresv
  · rw [if_pos hfull]
    exact .stay s _
  · rw [if_neg hfull]
    exact .enterAsync t size hpc (not_eq_true _ ▸ hc) (room_of_not_full hfull)

theorem move_topEndSync (t : T) (size : UInt32) (hpc : s.pc t = .sync size) :
    Move s (.endSync t) (topEndSync s t) ∨ ∃ r, Move s (.endSync t) r ∧ r.pc t = .drain ∧
      r.m.active = 0 ∧ topEndSync s t = topEndSyncCommit r t := by
  unfold topEndSync
  by_cases hmore : s.m.activesync - 1 ≠ 0
  · simp only [if_pos hmore]
    exact .inl (.endSyncWait t size hpc hmore)
  simp only [if_neg hmore]
  have hlast := Move.endSyncLast t size hpc (not_not.mp hmore)
  by_cases h0 : s.m.active - 1 = 0
  · rw [if_pos h0]
    exact .inr ⟨_, hlast, update_self .., h0, rfl⟩
  · rw [if_neg h0]
    exact .inl hlast

/-- Every step is one of the moves, with the guard it passed. The last operation's
    end is followed by the commit in the same step. -/
theorem move_of_step (s s' : State T) (a : Act T) (h : step s a = some s') :
    Move s a s' ∨ ∃ t r, a = .endSync t ∧ Move s a r ∧ r.pc t = .drain ∧ r.m.active = 0 ∧
      s' = topEndSyncCommit r t := by
  by_cases hend : ∃ t, a = .endSync t
  · obtain ⟨t, rfl⟩ := hend
    simp only [step] at h
    split at h
    next size hpc =>
      cases h
      rcases move_topEndSync s t size hpc with hm | ⟨r, hm⟩
      · exact .inl hm
      · exact .inr ⟨t, r, rfl, hm⟩
    next => cases h
  left
  cases a with
  | beginSync t size =>
    simp only [step, ite_none_right_eq_some, some.injEq] at h
    exact h.2 ▸ move_topBeginSync s t size h.1
  | beginAsync t size =>
    simp only [step, ite_none_right_eq_some, some.injEq] at h
    exact h.2 ▸ move_topBeginAsync s t size h.1
  | resume t =>
    simp only [step] at h
    split at h
    next size seq hpc =>
      split at h
      · cases h
        exact .stay s _
      next hseq =>
        cases h
        exact .resume t size seq hpc hseq
    next => cases h
  | endSync t => exact absurd ⟨t, rfl⟩ hend
  | endAsync t =>
    simp only [step] at h
    split at h
    next size hpc =>
      cases h
      exact .endAsync t size hpc
    next => cases h
  | endResume t =>
    simp only [step] at h
    split at h
    next seq hpc =>
      split at h
      · cases h
        exact .stay s _
      · cases h
        exact .endResume t seq hpc
    next => cases h
  | commit t =>
    simp only [step, ite_none_right_eq_some, some.injEq] at h
    exact h.2 ▸ Move.commit t h.1.1 h.1.2
  | reopen t =>
    simp only [step] at h
    split at h
    next tid hpc =>
      cases h
      exact .reopen t tid hpc
    next => cases h
  | log =>
    cases h
    exact .idle _ _ s.m.error
  | fail =>
    cases h
    exact .idle _ s.m.dirty _

end Top

end Sol7.UfsLog
