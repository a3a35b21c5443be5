import Sol7.Lib.System
import Sol7.Streams.Queue

/-!
# Waiting Writers

A writer that finds a queue or a band full leaves a flag and is to be back-enabled
when the count has dropped below the low-water mark. Any number of threads use the
queue. A part of a routine that runs under the lock of the queue is one step, and
so is a test that is made without the lock. A thread that is on the way from one
step to the next is a program point in a list.

Messages belong to their callers until they are put on the queue, and from then on
to the queue until they are returned or freed. A message can be put on the queue
only by its owner.

`flushband` gives up the lock in the middle of its loop to back-enable a writer,
and then goes on with pointers that it had read before.

## Main definitions

* `Pc`: Where a thread is between two steps.
* `World`: The queue, the threads and who owns each message.
* `exec`: The next step of a thread.
* `step`, `system`: The steps of all threads.
* `Between`: A thread has taken messages off and has not back-enabled yet.
* `NoneForgotten`: No writer waits for a queue that has drained.
* `CarefulAt`, `Careful`: The steps that keep this.
-/

namespace Sol7.Streams

open Function

/-- Where the loop of `flushband` goes on. -/
structure Sweep (ι : Type) where
  pri : Nat
  flag : Bool
  mp : Option ι
  last : Option ι
  /-- The loop is over. -/
  fin : Bool

/-- Where a thread is between two steps. -/
inductive Pc (ι : Type)
  /-- `canput` has seen `QFULL` and waits for the lock. -/
  | canput
  /-- `rwnext` has seen `QFULL` and waits for the lock. -/
  | rwnext
  /-- `getq` has taken off a message of a band. -/
  | got (band : Nat)
  /-- At the start of `qbackenable`. -/
  | enable (band : Nat)
  /-- In `qbackenable`, before it takes the lock. -/
  | locked (band : Nat)
  /-- `flushq_common` has found messages and waits for the lock. -/
  | flushStart (flag pcprotoFlag : Bool)
  /-- `flushq_common` has taken all messages off and not yet put back those from
      the given one on. -/
  | flushing (flag pcprotoFlag : Bool) (mp : Option ι)
  /-- `flushband` waits for the lock. -/
  | bandStart (pri : Nat) (flag : Bool)
  /-- The same as `flushing` for `flushband` of band zero. -/
  | flushingZero (flag : Bool) (mp : Option ι)
  /-- `flushband` has taken off a message. -/
  | bandEnable (c : Sweep ι)
  /-- `flushband` has back-enabled and goes on. -/
  | bandResume (c : Sweep ι)

structure World (ι : Type) where
  q : Queue ι
  threads : List (Pc ι)
  /-- The message belongs to the queue. -/
  owned : ι → Bool

inductive Label (ι : Type)
  | canput
  | bcanput (pri : Nat)
  | rwnext
  | putq (bp : ι) (m : Msg)
  | putbq (bp : ι) (m : Msg)
  | getq
  | rmvq (mp : ι)
  | flushq (flag pcprotoFlag : Bool)
  | flushband (pri : Nat) (flag : Bool)
  /-- The next step of a thread that has started. -/
  | run (i : Nat)

variable {ι : Type} [DecidableEq ι]

def Queue.bcanput (q : Queue ι) (pri : Nat) : Queue ι :=
  if pri = 0 then { q with wantw := q.wantw || q.full }
  else q.setQband pri fun b => { b with wantw := b.wantw || b.full }

/-- A message is on the queue. -/
def Queue.onQueue (fuel : Nat) (q : Queue ι) (mp : ι) : Bool :=
  scan q.list.next (fun t => t ≠ mp) fuel q.list.first = some (some mp)

/-- The loop of `flushband` up to the next time it gives up the lock. -/
def sweep (fuel : Nat) (q : Queue ι) (owned : ι → Bool) (pri : Nat) (flag : Bool)
    (mp last : Option ι) : Option (Queue ι × (ι → Bool) × Option (Pc ι)) :=
  match q.flushbandFind pri flag last fuel mp with
  | none => none
  | some none => some (q, owned, none)
  | some (some (m, fin)) =>
    some (q.rmvqNoenab m, update owned m false,
      some (.bandEnable ⟨pri, flag, q.list.next m, last, fin⟩))

/-- One message that a flush has taken off is put back or freed. -/
def reputOwned (fuel : Nat) (keep : Msg → Bool) (q : Queue ι) (owned : ι → Bool) (mp : ι) :
    Option (Queue ι × (ι → Bool)) :=
  (q.reput fuel keep mp).map fun q' =>
    (q', if keep (q.msg mp) then owned else update owned mp false)

/-- The next step of a thread, and where it is then. -/
def exec (fuel : Nat) (q : Queue ι) (owned : ι → Bool) :
    Pc ι → Option (Queue ι × (ι → Bool) × Option (Pc ι))
  | .canput => some ({ q with wantw := q.wantw || q.full }, owned, none)
  | .rwnext => some ({ q with wantwsync := q.wantwsync || q.full }, owned, none)
  | .got band => some (q, owned, if q.noWriter band then none else some (.enable band))
  | .enable band => some (q, owned, if q.noWriter band then none else some (.locked band))
  | .locked band => some (q.backenable band, owned, none)
  | .flushStart flag pcprotoFlag =>
    some (q.flushDetach, owned, some (.flushing flag pcprotoFlag q.list.first))
  | .flushing _ _ none => some (q.flushEnd, owned, none)
  | .flushing flag pcprotoFlag (some mp) =>
    (reputOwned fuel (Queue.flushqKeeps flag pcprotoFlag) q owned mp).map fun r =>
      (r.1, r.2, some (.flushing flag pcprotoFlag (q.list.next mp)))
  | .bandStart pri flag =>
    if pri = 0 then some (q.flushDetach, owned, some (.flushingZero flag q.list.first))
    else
      match q.flushbandRange pri with
      | none => some (q, owned, none)
      | some (mp, last) => sweep fuel q owned pri flag (some mp) last
  | .flushingZero _ none => some (q.flushbandEnd, owned, none)
  | .flushingZero flag (some mp) =>
    (reputOwned fuel (Queue.flushbandKeeps flag) q owned mp).map fun r =>
      (r.1, r.2, some (.flushingZero flag (q.list.next mp)))
  | .bandEnable c => some (q.backenable c.pri, owned, some (.bandResume c))
  | .bandResume c =>
    if c.fin then some (q, owned, none) else sweep fuel q owned c.pri c.flag c.mp c.last

/-- One step of one thread. -/
def step (fuel : Nat) (w : World ι) : Label ι → Option (World ι)
  | .canput => some { w with threads := if w.q.full then w.threads ++ [.canput] else w.threads }
  | .bcanput pri => some { w with q := w.q.bcanput pri }
  | .rwnext => some { w with threads := if w.q.full then w.threads ++ [.rwnext] else w.threads }
  | .putq bp m =>
    if w.owned bp then none
    else
      (Queue.putq fuel { w.q with msg := update w.q.msg bp m } bp).map fun q =>
        { w with q := q, owned := update w.owned bp true }
  | .putbq bp m =>
    if w.owned bp then none
    else
      (Queue.putbq fuel { w.q with msg := update w.q.msg bp m } bp).map fun q =>
        { w with q := q, owned := update w.owned bp true }
  | .getq =>
    (w.q.getqNoenab fuel).map fun r =>
      match r.2 with
      | none => { w with q := r.1, threads := w.threads ++ [.got 0] }
      | some bp => ⟨r.1, w.threads ++ [.got (r.1.msg bp).band], update w.owned bp false⟩
  | .rmvq mp =>
    if w.q.onQueue fuel mp then
      some ⟨w.q.rmvqNoenab mp, w.threads ++ [.enable (w.q.msg mp).band], update w.owned mp false⟩
    else none
  | .flushq flag pcprotoFlag =>
    if w.q.list.first = none then some w
    else some { w with threads := w.threads ++ [.flushStart flag pcprotoFlag] }
  | .flushband pri flag =>
    if w.q.bands.length < pri then some w
    else some { w with threads := w.threads ++ [.bandStart pri flag] }
  | .run i =>
    (w.threads[i]?).bind fun pc =>
      (exec fuel w.q w.owned pc).map fun r =>
        ⟨r.1, w.threads.take i ++ (r.2.2.toList ++ w.threads.drop (i + 1)), r.2.1⟩

/-- The low-water mark is positive and not above the high-water mark. -/
def MarksOk (hiwat lowat : Nat) : Prop := 0 < lowat ∧ lowat ≤ hiwat

/-- A queue without messages and without waiting writers. -/
structure Initial (w : World ι) : Prop where
  first : w.q.list.first = none
  last : w.q.list.last = none
  count : w.q.count = 0
  full : w.q.full = false
  wantw : w.q.wantw = false
  wantwsync : w.q.wantwsync = false
  marks : MarksOk w.q.hiwat w.q.lowat
  bands : ∀ b ∈ w.q.bands, b.first = none ∧ b.last = none ∧ b.count = 0 ∧ b.full = false ∧
    b.wantw = false ∧ MarksOk b.hiwat b.lowat
  threads : w.threads = []
  owned : ∀ x, w.owned x = false

def system (fuel : Nat) : System (World ι) (Label ι) where
  init := Initial
  step := step fuel

/-- A thread has taken messages off and has not yet back-enabled writers. -/
def Between : Pc ι → Prop
  | .got _ => True
  | .enable _ => True
  | .locked _ => True
  | .flushing _ _ _ => True
  | .flushingZero _ _ => True
  | .bandEnable _ => True
  | _ => False

/-- No writer waits for a queue or a band that has drained, unless a thread is about
    to see to it. -/
def NoneForgotten (w : World ι) : Prop :=
  (∀ pc ∈ w.threads, ¬Between pc) →
    (w.q.wantw = true → w.q.lowat ≤ w.q.count) ∧
    (w.q.wantwsync = true → w.q.lowat ≤ w.q.count) ∧
    ∀ b ∈ w.q.bands, b.wantw = true → b.lowat ≤ b.count

/-- A flush takes off the messages of band zero only if no writer waits for a
    wakeup, and `flushband` goes on only if what is left of its range is still on
    the queue. -/
def CarefulAt (q : Queue ι) : Pc ι → Prop
  | .flushStart _ _ => q.wantwsync = false
  | .bandStart pri _ => pri = 0 → q.wantwsync = false
  | .bandResume c => c.fin = false →
    ∃ a d b, q.list.Holds (a ++ (d ++ b)) ∧ c.mp = (d ++ b).head? ∧ c.last = b.head?
  | _ => True

/-- The steps that are careful in this sense. -/
def Careful (w : World ι) : Label ι → Prop
  | .run i => ∀ pc, w.threads[i]? = some pc → CarefulAt w.q pc
  | _ => True

end Sol7.Streams
