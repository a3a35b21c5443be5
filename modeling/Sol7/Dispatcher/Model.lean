import Sol7.Dispatcher.Bitmap
import Sol7.Lib.Fifo
import Sol7.Lib.System

/-!
# Dispatch Queues

A dispatch queue has a list of threads for every priority, a bitmap of the lists
that are not empty, the number of all its threads and two cached maxima: the highest
priority of a thread on it, and a bound on the priorities of the threads that any
processor may run. Every processor has such a queue, and so has every processor
partition for unbound threads of high priority, its kp queue.

The threads on the lists are linked through `t_link`. A thread is on a queue if it
is in state `TS_RUN` and loaded. The record of a thread changes only while it is
not on a queue.

A null pointer that is followed, an assertion that fails and a panic are no result.

## Main definitions

* `Disp`, `Thread`, `World`: A dispatch queue, a thread and all of them.
* `Disp.setbackdq`, `Disp.setfrontdq`, `Disp.setkpdq`: Putting a thread on a queue.
* `Disp.dispdeq`, `Disp.disp`: Taking a thread off.
* `Disp.dispFixUnboundPri`: Lowering the bound for unbound threads.
* `World.setbackdq`, `World.setfrontdq`, `World.dispdeq`, `World.disp`,
  `World.dispGetbest`: The routines with the choice of the queue.
* `system`: All of them in any order.
-/

namespace Sol7.Dispatcher

open Function

/-- The list of one priority. -/
structure Dispq (ι : Type) extends Fifo ι where
  sruncnt : Nat

/-- A dispatch queue. -/
structure Disp (ι : Type) (lp64 : Bool) where
  npri : Nat
  q : Nat → Dispq ι
  qactmap : Nat → Word lp64
  maxrunpri : Int
  maxUnboundPri : Int
  nrunnable : Nat

variable {ι : Type} [DecidableEq ι] {lp64 : Bool}

namespace Disp

variable (dp : Disp ι lp64)

/-- Replace the list of a priority. -/
def store (pri : Nat) (f : Fifo ι) (sruncnt : Nat) : Disp ι lp64 :=
  { dp with q := update dp.q pri ⟨f, sruncnt⟩ }

/-- A list is no longer empty. -/
def activate (tpri : Nat) : Disp ι lp64 :=
  { dp with
    qactmap := btSet dp.qactmap tpri
    maxrunpri := if dp.maxrunpri < tpri then tpri else dp.maxrunpri }

/-- There is an unbound thread of a priority. -/
def raiseUnbound (tpri : Nat) : Disp ι lp64 :=
  { dp with maxUnboundPri := if dp.maxUnboundPri < tpri then tpri else dp.maxUnboundPri }

/-- `setbackdq`, once the queue is known. -/
def setbackdq (link : ι → Option ι) (tp : ι) (tpri : Nat) (unbound : Bool) :
    Option (Disp ι lp64 × (ι → Option ι)) :=
  let link := update link tp none
  let dp := { dp with nrunnable := dp.nrunnable + 1 }
  let dq := dp.q tpri
  let r :=
    if dq.sruncnt ≠ 0 then
      dq.last.map fun e =>
        (dp.store tpri ⟨dq.first, some tp⟩ (dq.sruncnt + 1), update link e (some tp))
    else some ((dp.store tpri ⟨some tp, some tp⟩ (dq.sruncnt + 1)).activate tpri, link)
  r.map fun (dp, link) => (if unbound then dp.raiseUnbound tpri else dp, link)

/-- `setfrontdq`, once the queue is known. -/
def setfrontdq (link : ι → Option ι) (tp : ι) (tpri : Nat) (unbound : Bool) :
    Disp ι lp64 × (ι → Option ι) :=
  let dp := { dp with nrunnable := dp.nrunnable + 1 }
  let dq := dp.q tpri
  let r :=
    if dq.sruncnt ≠ 0 then
      (dp.store tpri ⟨some tp, dq.last⟩ (dq.sruncnt + 1), update link tp dq.first)
    else
      ((dp.store tpri ⟨some tp, some tp⟩ (dq.sruncnt + 1)).activate tpri, update link tp none)
  (if unbound then r.1.raiseUnbound tpri else r.1, r.2)

/-- `setkpdq`. When the list is empty, the link of a thread that is put on the back
    is not written. -/
def setkpdq (link : ι → Option ι) (tp : ι) (tpri : Nat) (back : Bool) :
    Option (Disp ι lp64 × (ι → Option ι)) :=
  let dp := { dp with nrunnable := dp.nrunnable + 1 }
  let dq := dp.q tpri
  if dq.sruncnt ≠ 0 then
    if back then
      dq.last.map fun e =>
        (dp.store tpri ⟨dq.first, some tp⟩ (dq.sruncnt + 1),
          update (update link tp none) e (some tp))
    else
      some (dp.store tpri ⟨some tp, dq.last⟩ (dq.sruncnt + 1), update link tp dq.first)
  else
    let dp := (dp.store tpri ⟨some tp, some tp⟩ (dq.sruncnt + 1)).raiseUnbound tpri
    some (dp.activate tpri, if back then link else update link tp none)

/-- The highest priority is lower than before. -/
def lower (ipri : Int) : Disp ι lp64 :=
  { dp with
    maxrunpri := ipri
    maxUnboundPri := if ipri < dp.maxUnboundPri then ipri else dp.maxUnboundPri }

/-- `dispdeq`, once the queue is known. -/
def dispdeq (link : ι → Option ι) (tp : ι) (tpri : Nat) : Option (Disp ι lp64 × (ι → Option ι)) :=
  let dq := dp.q tpri
  (findPrev link tp (dq.sruncnt + 1) none dq.first).map fun trp =>
    let r := dq.toFifo.unlink link trp tp
    let dp := { dp with nrunnable := dp.nrunnable - 1 }.store tpri r.1 (dq.sruncnt - 1)
    if dq.sruncnt - 1 = 0 then
      let dp := { dp with qactmap := btClear dp.qactmap tpri }
      if dp.nrunnable = 0 then ({ dp with maxUnboundPri := -1, maxrunpri := -1 }, r.2)
      else if (tpri : Int) = dp.maxrunpri then
        (dp.lower (btGethighbit dp.qactmap (dp.maxrunpri.toNat >>> btUlshift lp64)), r.2)
      else (dp, r.2)
    else (dp, r.2)

/-- The part of `disp` that takes a thread off the queue of the processor. -/
def disp (link : ι → Option ι) : Option (Disp ι lp64 × (ι → Option ι) × Option ι) :=
  if dp.maxrunpri = -1 then some (dp, link, none)
  else
    let pri := dp.maxrunpri.toNat
    let dq := dp.q pri
    dq.first.map fun tp =>
      let dp := { dp with nrunnable := dp.nrunnable - 1 }
      if link tp = none then
        let dp := dp.store pri ⟨none, none⟩ (dq.sruncnt - 1)
        let dp := { dp with qactmap := btClear dp.qactmap pri }
        if dp.nrunnable = 0 then ({ dp with maxUnboundPri := -1, maxrunpri := -1 }, link, some tp)
        else (dp.lower (btGethighbit dp.qactmap (pri >>> btUlshift lp64)), link, some tp)
      else
        (dp.store pri ⟨link tp, dq.last⟩ (dq.sruncnt - 1), update link tp none, some tp)

/-- The first unbound thread of a priority. -/
def firstUnbound (link : ι → Option ι) (bound : ι → Bool) (pri : Nat) : Option (Option ι) :=
  scan link bound ((dp.q pri).sruncnt + 1) (dp.q pri).first

/-- The loop of `disp_fix_unbound_pri`. -/
def fixLoop (dp : Disp ι lp64) (link : ι → Option ι) (bound : ι → Bool) : Nat → Nat → Option Int
  | 0, _ => none
  | n + 1, pri =>
    let pri := nextLower dp.qactmap pri
    if pri < 0 then some pri
    else
      match dp.firstUnbound link bound pri.toNat with
      | none => none
      | some none => fixLoop dp link bound n pri.toNat
      | some (some _) => some pri

/-- `disp_fix_unbound_pri`. The priority gets lower in every round. -/
def dispFixUnboundPri (link : ι → Option ι) (bound : ι → Bool) (pri : Nat) : Option (Disp ι lp64) :=
  (dp.fixLoop link bound (pri + 1) pri).map fun p => { dp with maxUnboundPri := p }

end Disp

/-- Which queue it is: that of a processor or the kp queue of a partition. -/
inductive Qid (κ π : Type)
  | cpu (c : κ)
  | kp (part : π)
deriving DecidableEq

/-- A thread. -/
structure Thread (κ π : Type) where
  /-- `DISP_PRIO` -/
  prio : Nat
  boundCpu : Option κ
  cpupart : π
  /-- `TS_LOAD` is set and `TS_ON_SWAPQ` is not. -/
  loaded : Bool
  /-- The state is `TS_RUN`. -/
  run : Bool
  dispQueue : Qid κ π

structure World (ι κ π : Type) (lp64 : Bool) where
  queue : Qid κ π → Disp ι lp64
  thread : ι → Thread κ π
  link : ι → Option ι

variable {κ π : Type} [DecidableEq κ] [DecidableEq π]

namespace World

variable (w : World ι κ π lp64)

/-- The thread is in state `TS_RUN` and is not swapped out. -/
def onQueue (t : ι) : Bool := (w.thread t).run && (w.thread t).loaded

/-- The thread is bound to a processor. -/
def bound (t : ι) : Bool := (w.thread t).boundCpu.isSome

/-- A queue has changed, and so has the state of a thread. -/
def commit (k : Qid κ π) (dp : Disp ι lp64) (link : ι → Option ι) (tp : ι)
    (t : Thread κ π) : World ι κ π lp64 :=
  ⟨update w.queue k dp, update w.thread tp t, link⟩

/-- A thread has been put on a queue. -/
def enqueued (k : Qid κ π) (tp : ι) (r : Disp ι lp64 × (ι → Option ι)) : World ι κ π lp64 :=
  w.commit k r.1 r.2 tp { w.thread tp with run := true, dispQueue := k }

def setkpdq (w : World ι κ π lp64) (tp : ι) (back : Bool) : Option (World ι κ π lp64) :=
  let t := w.thread tp
  let k := Qid.kp t.cpupart
  if t.prio < (w.queue k).npri then
    ((w.queue k).setkpdq w.link tp t.prio back).map (w.enqueued k tp)
  else none

/-- The last part of `setbackdq`. -/
def setback (tp : ι) (cp : κ) : Option (World ι κ π lp64) :=
  let t := w.thread tp
  let k := Qid.cpu cp
  if t.prio < (w.queue k).npri then
    ((w.queue k).setbackdq w.link tp t.prio t.boundCpu.isNone).map (w.enqueued k tp)
  else none

/-- The last part of `setfrontdq`. -/
def setfront (tp : ι) (cp : κ) : Option (World ι κ π lp64) :=
  let t := w.thread tp
  let k := Qid.cpu cp
  if t.prio < (w.queue k).npri then
    some (w.enqueued k tp ((w.queue k).setfrontdq w.link tp t.prio t.boundCpu.isNone))
  else none

/-- The choice of the queue, which `setbackdq` and `setfrontdq` make in the same way
    but for the processor of an unbound thread. A thread that is swapped out is put
    on no dispatch queue. -/
def choose (ncpus kpqpri : Nat) (w : World ι κ π lp64) (tp : ι) (cp : κ)
    (onCpu : κ → Option (World ι κ π lp64)) (onKp : Option (World ι κ π lp64)) :
    Option (World ι κ π lp64) :=
  let t := w.thread tp
  if t.loaded then
    if ncpus = 1 then onCpu cp
    else
      match t.boundCpu with
      | some c => onCpu c
      | none => if kpqpri ≤ t.prio then onKp else onCpu cp
  else some { w with thread := update w.thread tp { t with run := true } }

/-- `setbackdq`. The processor is what `t_cpu`, `cpu_choose` or `disp_lowpri_cpu`
    gives. -/
def setbackdq (ncpus kpqpri : Nat) (w : World ι κ π lp64) (tp : ι) (cp : κ) :
    Option (World ι κ π lp64) :=
  w.choose ncpus kpqpri tp cp (w.setback tp) (w.setkpdq tp true)

def setfrontdq (ncpus kpqpri : Nat) (w : World ι κ π lp64) (tp : ι) (cp : κ) :
    Option (World ι κ π lp64) :=
  w.choose ncpus kpqpri tp cp (w.setfront tp) (w.setkpdq tp false)

def dispdeq (w : World ι κ π lp64) (tp : ι) : Option (World ι κ π lp64) :=
  let t := w.thread tp
  if t.run then
    if t.loaded then
      ((w.queue t.dispQueue).dispdeq w.link tp t.prio).map fun r =>
        w.commit t.dispQueue r.1 r.2 tp { t with run := false }
    else some w
  else some w

/-- The dequeue in `disp`, with the thread that is chosen. -/
def disp (w : World ι κ π lp64) (k : Qid κ π) : Option (World ι κ π lp64 × Option ι) :=
  ((w.queue k).disp w.link).map fun r =>
    match r.2.2 with
    | none => (w, none)
    | some tp => (w.commit k r.1 r.2.1 tp { w.thread tp with run := false }, some tp)

/-- `disp_getbest`, called by a processor. -/
def dispGetbest (k : Qid κ π) (cp : κ) : Option (World ι κ π lp64 × Option ι) :=
  let dp := w.queue k
  if dp.maxUnboundPri = -1 then some (w, none)
  else
    match dp.firstUnbound w.link w.bound dp.maxUnboundPri.toNat with
    | none => none
    | some none =>
      (dp.dispFixUnboundPri w.link w.bound dp.maxUnboundPri.toNat).map fun dp =>
        ({ w with queue := update w.queue k dp }, none)
    | some (some tp) =>
      (w.dispdeq tp).map fun w =>
        ({ w with
          thread := update w.thread tp { w.thread tp with dispQueue := .cpu cp } }, some tp)

end World

inductive Label (ι κ π : Type)
  | setbackdq (tp : ι) (cp : κ)
  | setfrontdq (tp : ι) (cp : κ)
  | dispdeq (tp : ι)
  | disp (k : Qid κ π)
  | dispGetbest (k : Qid κ π) (cp : κ)
  /-- The record of a thread that is not on a queue changes. -/
  | change (tp : ι) (t : Thread κ π)

/-- One step. A thread is put on a queue only if it is not in state `TS_RUN`. -/
def step (ncpus kpqpri : Nat) (w : World ι κ π lp64) : Label ι κ π → Option (World ι κ π lp64)
  | .setbackdq tp cp => if (w.thread tp).run then none else w.setbackdq ncpus kpqpri tp cp
  | .setfrontdq tp cp => if (w.thread tp).run then none else w.setfrontdq ncpus kpqpri tp cp
  | .dispdeq tp => w.dispdeq tp
  | .disp k => (w.disp k).map Prod.fst
  | .dispGetbest k cp => (w.dispGetbest k cp).map Prod.fst
  | .change tp t =>
    if w.onQueue tp then none
    else some { w with thread := update w.thread tp { t with run := false } }

/-- All queues are empty. -/
structure Initial (w : World ι κ π lp64) : Prop where
  q : ∀ k p, (w.queue k).q p = ⟨⟨none, none⟩, 0⟩
  qactmap : ∀ k i, (w.queue k).qactmap i = 0
  maxrunpri : ∀ k, (w.queue k).maxrunpri = -1
  maxUnboundPri : ∀ k, (w.queue k).maxUnboundPri = -1
  nrunnable : ∀ k, (w.queue k).nrunnable = 0
  off : ∀ t, w.onQueue t = false
  link : ∀ t, w.link t = none

def system (ncpus kpqpri : Nat) : System (World ι κ π lp64) (Label ι κ π) where
  init := Initial
  step := step ncpus kpqpri

end Sol7.Dispatcher
