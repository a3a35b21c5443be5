import Sol7.Lib.System

/-!
# Adaptive Mutexes Miss No Wakeup

The owner of an adaptive mutex drops it with a compare and a plain store, so the store may
erase a waiters bit that has been set in between. What saves the sleepers is that a thread
that is preempted between the two starts again with the compare, and that a thread that
wants to sleep first sets the bit, then looks for the owner on every processor, and then
looks at the lock word once more.

Only the thread that has the turnstile lock sets the bit. While it looks for the owner, an
owner that is about to store is on one of the processors that are still to be looked at.

## Main definitions

* `Mutex.Pc`, `Mutex.State`: Where a thread is, and the mutex with the processors.
* `Mutex.instr`: The loads and stores of the four routines.
* `Mutex.system`: All threads, with interrupts and switches.
* `Mutex.Inv`: The argument of the comment in the source.

## Theorems

* `Mutex.Inv.run`, `Mutex.step_inv`: What each instruction keeps.
* `Mutex.no_missed_wakeup`: A sleeper is known to the owner.
-/

namespace Sol7.Mutex

open List Option

open Prod (fst mk snd)

open Function

variable {T : Type} [DecidableEq T] {n : Nat}

/-- Where a thread is. A number is where the search of the processors starts, a list the
    processors that are still to be looked at. -/
inductive Pc (T : Type) (n : Nat) where
  | out
  /-- `mutex_enter` -/
  | enter
  /-- `mutex_vector_enter` -/
  | spin
  | tryenter
  | search (owner : T) (i : Nat) (rem : List (Fin n))
  | lookup (owner : T) (i : Nat)
  | setLoad (owner : T) (i : Nat)
  | setCas (owner : T) (i : Nat) (old : T × Bool)
  | recheck (owner : T) (rem : List (Fin n))
  | checkOwner (owner : T)
  | checkWaiters (owner : T)
  | blocked
  | held
  /-- `mutex_exit` -/
  | compare
  | store
  /-- `mutex_vector_exit` -/
  | vexit
  | vlookup
  | clear
  | wakeup
  | panic
  deriving DecidableEq

/-- The thread owns the mutex. -/
@[grind] def Pc.owns : Pc T n → Bool
  | held | compare | store | vexit | vlookup | clear => true
  | _ => false

/-- The thread is in a section that has the turnstile lock. -/
@[grind] def Pc.locked : Pc T n → Bool
  | setLoad .. | setCas .. | recheck .. | checkOwner _ | checkWaiters _ | clear | wakeup => true
  | _ => false

/-- The owner that a thread waits for once it has set the bit, and the processors that it
    has not looked at since. -/
@[grind] def Pc.rest : Pc T n → Option (T × List (Fin n))
  | recheck owner rem => some (owner, rem)
  | checkOwner owner | checkWaiters owner => some (owner, [])
  | _ => none

/-- The lock word with the waiters bit, the turnstile lock, `cpu_thread` of each processor,
    and the threads. -/
structure State (T : Type) (n : Nat) where
  word : Option (T × Bool)
  tslock : Option T
  cpu : Fin n → Option T
  pc : T → Pc T n

/-- `turnstile_wakeup` of all waiters. -/
def wake (pc : T → Pc T n) (u : T) : Pc T n :=
  if pc u = .blocked then .spin else pc u

/-- The next load or store of a thread. The search of the processors starts anywhere. -/
def instr (s : State T n) (t : T) (i : Nat) : Option (State T n) :=
  let goto (s : State T n) (p : Pc T n) : State T n := { s with pc := update s.pc t p }
  match s.pc t with
  | .enter => some (if s.word = none then goto { s with word := some (t, false) } .held
      else goto s .spin)
  | .spin => some (goto s (match s.word with
      | none => .tryenter
      | some (owner, _) =>
        if owner = t then .panic else .search owner i ((finRange n).rotate i)))
  | .tryenter => some (if s.word = none then goto { s with word := some (t, false) } .held
      else goto s .spin)
  | .search owner i (c :: rem) =>
    some (goto s (if s.cpu c = some owner then .spin else .search owner i rem))
  | .search owner i [] => some (goto s (.lookup owner i))
  | .lookup owner i =>
    if s.tslock = none then some (goto { s with tslock := some t } (.setLoad owner i)) else none
  -- `MUTEX_SET_WAITERS`
  | .setLoad owner i => some (goto s (match s.word with
      | none => .recheck owner ((finRange n).rotate i)
      | some old => .setCas owner i old))
  | .setCas owner i old =>
    some (if s.word = some old then
        goto { s with word := some (old.1, true) } (.recheck owner ((finRange n).rotate i))
      else goto s (.setLoad owner i))
  | .recheck owner (c :: rem) =>
    some (if s.cpu c = some owner then goto { s with tslock := none } .spin
      else goto s (.recheck owner rem))
  | .recheck owner [] => some (goto s (.checkOwner owner))
  | .checkOwner owner =>
    some (if s.word.map fst = some owner then goto s (.checkWaiters owner)
      else goto { s with tslock := none } .spin)
  | .checkWaiters _ =>
    some (goto { s with tslock := none }
      (if s.word.map snd = some true then .blocked else .spin))
  | .compare => some (goto s (if s.word = some (t, false) then .store else .vexit))
  | .store => some (goto { s with word := none } .out)
  | .vexit => some (goto s (if s.word.map fst = some t then .vlookup else .panic))
  | .vlookup => if s.tslock = none then some (goto { s with tslock := some t } .clear) else none
  | .clear => some (goto { s with word := none } .wakeup)
  | .wakeup => some (goto { s with tslock := none, pc := wake s.pc } .out)
  | .out | .blocked | .held | .panic => none

inductive Label (T : Type) (n : Nat) where
  | enter (t : T)
  | exit (t : T)
  | run (t : T) (i : Nat)
  | interrupt (t : T)
  | switch (c : Fin n) (u : Option T)

/-- A thread runs on its processor. An interrupt moves a thread that is about to store back
    to the compare, so a thread that is switched away is not there. -/
def step (s : State T n) : Label T n → Option (State T n)
  | .enter t => if s.pc t = .out then some { s with pc := update s.pc t .enter } else none
  | .exit t => if s.pc t = .held then some { s with pc := update s.pc t .compare } else none
  | .run t i => if ∃ c, s.cpu c = some t then instr s t i else none
  | .interrupt t => if s.pc t = .store then some { s with pc := update s.pc t .compare } else none
  | .switch c u =>
    if (∀ t ∈ s.cpu c, s.pc t ≠ .store) ∧ ∀ t ∈ u, ∀ c, s.cpu c ≠ some t then
      some { s with cpu := update s.cpu c u }
    else none

/-- No thread is in one of the routines. -/
def system (T : Type) [DecidableEq T] (n : Nat) : System (State T n) (Label T n) where
  init := fun s => s.word = none ∧ s.tslock = none ∧ ∀ t, s.pc t = .out
  step := step

/-- The lock word names the owner; who is about to store is on a processor, and on one that
    a thread that has set the bit will still look at; and a sleeper is known to the owner. -/
structure Inv (s : State T n) : Prop where
  owns : ∀ t, (s.pc t).owns = true ↔ s.word.map fst = some t
  running : ∀ t, s.pc t = .store → ∃ c, s.cpu c = some t
  locked : ∀ t, (s.pc t).locked = true → s.tslock = some t
  rest : ∀ t o rem, (s.pc t).rest = some (o, rem) → s.word = some (o, true) → s.pc o = .store →
    ∃ c ∈ rem, s.cpu c = some o
  second : ∀ t o p, s.pc t = .checkWaiters o → s.word = some (p, true) → p = o
  known : ∀ t, s.pc t = .blocked → (∃ u, s.pc u = .wakeup) ∨
    ∃ o, s.word = some (o, true) ∧ s.pc o ≠ .store

variable {s s' : State T n} {p : Pc T n}

omit [DecidableEq T] in
theorem Pc.locked_of_rest {r : T × List (Fin n)} (h : p.rest = some r) : p.locked = true := by
  cases p
  all_goals first | rfl | cases h

variable {t o : T}

section
variable (h : Inv s)
include h

/-- A load, or a store to the turnstile lock, that does not put the thread to sleep. -/
theorem Inv.goto {l : Option T} (howns : p.owns = (s.pc t).owns)
    (hlocked : p.locked = true → l = some t)
    (hl : l = s.tslock ∨ s.tslock = none ∨ s.tslock = some t)
    (hstore : p = .store → (∃ c, s.cpu c = some t) ∧ s.word = some (t, false))
    (hrest : ∀ o rem, p.rest = some (o, rem) → s.word = some (o, true) → s.pc o = .store →
      ∃ c ∈ rem, s.cpu c = some o)
    (hsecond : ∀ o, p = .checkWaiters o → s.word.map fst = some o) (hblocked : p ≠ .blocked)
    (hwakeup : s.pc t ≠ .wakeup) :
    Inv { s with tslock := l, pc := update s.pc t p } := by
  obtain ⟨howns0, hrunning0, hlocked0, hrest0, hsecond0, hknown0⟩ := h
  constructor
  all_goals simp only [update_apply]
  all_goals grind

/-- A thread gets the mutex. -/
theorem Inv.acquire (hword : s.word = none) (ht : s.pc t ≠ .wakeup) :
    Inv { s with word := some (t, false), pc := update s.pc t .held } := by
  obtain ⟨howns, hrunning, hlocked, hrest, hsecond, hknown⟩ := h
  constructor
  all_goals simp only [update_apply]
  all_goals grind

/-- The waiters bit is set. If the owner is about to store, it is on a processor, and all
    of them are still to be looked at. -/
theorem Inv.setWaiters {j : Nat} {old : T × Bool} (hp : s.pc t = .setCas o j old)
    (hword : s.word = some old) :
    Inv { s with word := some (old.1, true),
                 pc := update s.pc t (.recheck o ((finRange n).rotate j)) } := by
  obtain ⟨howns, hrunning, hlocked, hrest, hsecond, hknown⟩ := h
  constructor
  case rest =>
    intro u o' rem hu _ hstore
    dsimp only at hu hstore
    have hot : o' ≠ t := by
      rintro rfl
      simp at hstore
    rw [update_of_ne hot] at hstore
    obtain ⟨c, hc⟩ := hrunning o' hstore
    by_cases hut : u = t
    · refine ⟨c, ?_, hc⟩
      rw [hut, update_self] at hu
      obtain ⟨-, rfl⟩ := mk.inj (some.inj hu)
      simp
    · -- Only one thread has the turnstile lock.
      rw [update_of_ne hut] at hu
      have hu' := hlocked u (Pc.locked_of_rest hu)
      have ht := hlocked t (by rw [hp]; rfl)
      rw [hu'] at ht
      exact absurd (some.inj ht) hut
  all_goals simp only [update_apply]
  all_goals grind

/-- A thread goes to sleep. The word is as it was when the bit was set, and the owner has
    been seen not to run since. -/
theorem Inv.block (hp : s.pc t = .checkWaiters o) (hbit : s.word.map snd = some true) :
    Inv { s with tslock := none, pc := update s.pc t .blocked } := by
  have hword : s.word = some (o, true) := by
    obtain ⟨⟨p, b⟩, hw, rfl⟩ := map_eq_some_iff.mp hbit
    rw [hw, h.second t o p hp hw]
  have hstore : s.pc o ≠ .store := by
    intro hstore
    obtain ⟨c, hc, -⟩ := h.rest t o [] (by rw [hp]; rfl) hword hstore
    cases hc
  obtain ⟨howns, hrunning, hlocked, hrest, hsecond, hknown⟩ := h
  constructor
  case known =>
    refine fun u _ => .inr ⟨o, hword, ?_⟩
    grind [update_apply]
  all_goals simp only [update_apply]
  all_goals grind

/-- The owner clears the word: at once, because there are no sleepers, or on its way to
    wake them. -/
theorem Inv.clear (hp : s.pc t = .store ∧ p = .out ∨ s.pc t = .clear ∧ p = .wakeup) :
    Inv { s with word := none, pc := update s.pc t p } := by
  obtain ⟨howns, hrunning, hlocked, hrest, hsecond, hknown⟩ := h
  constructor
  all_goals simp only [update_apply]
  all_goals grind

/-- All sleepers are woken. -/
theorem Inv.wakeup (hp : s.pc t = .wakeup) :
    Inv { s with tslock := none, pc := update (wake s.pc) t .out } := by
  obtain ⟨howns, hrunning, hlocked, hrest, hsecond, hknown⟩ := h
  constructor
  all_goals simp only [update_apply, wake]
  all_goals grind

/-- An instruction of a thread that runs. -/
theorem Inv.run {i : Nat} (hcpu : ∃ c, s.cpu c = some t) (hs : instr s t i = some s') : Inv s' := by
  have hme := h.owns t
  have hmine := h.locked t
  have hrest := h.rest t
  unfold instr at hs
  cases hp : s.pc t with
  | out | blocked | held | panic =>
    simp only [hp] at hs
    cases hs
  | enter | tryenter =>
    simp only [hp] at hs
    split at hs
    · next hword =>
      cases hs
      exact h.acquire hword (by simp [hp])
    · cases hs
      apply h.goto
      all_goals grind -linarith
  | spin | setLoad | compare | vexit =>
    simp only [hp] at hs
    cases hs
    apply h.goto
    all_goals grind -linarith
  | search o j rem =>
    cases rem
    all_goals simp only [hp] at hs
    all_goals cases hs
    all_goals apply h.goto
    all_goals grind -linarith
  | lookup | vlookup =>
    simp only [hp] at hs
    obtain ⟨hfree, hs⟩ := ite_none_right_eq_some.mp hs
    cases hs
    apply h.goto
    all_goals grind -linarith
  | setCas o j old =>
    simp only [hp] at hs
    split at hs
    · next hword =>
      cases hs
      exact h.setWaiters hp hword
    · cases hs
      apply h.goto
      all_goals grind -linarith
  | recheck o rem =>
    cases rem with
    | nil =>
      simp only [hp] at hs
      cases hs
      apply h.goto
      all_goals grind -linarith
    | cons c rem =>
      simp only [hp] at hs
      split at hs
      all_goals cases hs
      all_goals apply h.goto
      all_goals grind -linarith
  | checkOwner o =>
    simp only [hp] at hs
    split at hs
    all_goals cases hs
    all_goals apply h.goto
    all_goals grind -linarith
  | checkWaiters o =>
    simp only [hp] at hs
    cases hs
    by_cases hbit : s.word.map snd = some true
    · rw [if_pos hbit]
      exact h.block hp hbit
    · apply h.goto
      all_goals grind -linarith
  | store | clear =>
    simp only [hp] at hs
    cases hs
    exact h.clear (by simp [hp])
  | wakeup =>
    simp only [hp] at hs
    cases hs
    exact h.wakeup hp

/-- Every step keeps the invariant. -/
theorem step_inv {a : Label T n} (hs : step s a = some s') : Inv s' := by
  cases a with
  | enter t | exit t | interrupt t =>
    obtain ⟨hp, heq⟩ := ite_none_right_eq_some.mp hs
    cases heq
    apply h.goto
    all_goals grind
  | run t i =>
    obtain ⟨hcpu, hs⟩ := ite_none_right_eq_some.mp hs
    exact h.run hcpu hs
  | switch c u =>
    obtain ⟨hp, heq⟩ := ite_none_right_eq_some.mp hs
    cases heq
    -- A thread that is about to store stays where it is.
    have hstays : ∀ o c', s.pc o = .store → s.cpu c' = some o → update s.cpu c u c' = some o := by
      intro o c' hstore hc'
      have hne : c' ≠ c := by
        rintro rfl
        exact hp.1 o hc' hstore
      rw [update_of_ne hne, hc']
    refine ⟨h.owns, fun t ht => ?_, h.locked, fun t o rem hrest hword hstore => ?_, h.second,
      h.known⟩
    · obtain ⟨c', hc'⟩ := h.running t ht
      exact ⟨c', hstays t c' ht hc'⟩
    · obtain ⟨c', hin, hc'⟩ := h.rest t o rem hrest hword hstore
      exact ⟨c', hin, hstays o c' hstore hc'⟩

end

/-- A thread comes to the store by the compare only. -/
theorem compared {a : Label T n} (hs : step s a = some s') (ho : s'.pc o = .store) :
    s.pc o = .store ∨ s.word = some (o, false) := by
  cases a with
  | enter t | exit t | interrupt t | switch c u =>
    obtain ⟨hp, heq⟩ := ite_none_right_eq_some.mp hs
    cases heq
    grind [update_apply]
  | run t i =>
    obtain ⟨hcpu, hs⟩ := ite_none_right_eq_some.mp hs
    unfold instr at hs
    split at hs
    all_goals try split at hs
    all_goals simp only [some.injEq, reduceCtorEq] at hs
    all_goals subst hs
    all_goals grind [update_apply, wake]

/-- At most one thread owns the mutex. If a thread sleeps and no one has the turnstile lock,
    the mutex is owned, its waiters bit is set, and the owner is not at the store of
    `mutex_exit` and does not get there before it has dropped the mutex. -/
theorem no_missed_wakeup {T : Type} [DecidableEq T] {n : Nat} {s : State T n}
    (hr : (system T n).Reachable s) :
    (∀ t u, (s.pc t).owns = true → (s.pc u).owns = true → t = u) ∧
    ∀ t, s.pc t = .blocked → (∀ u, (s.pc u).locked = false) →
      ∃ o, s.word = some (o, true) ∧ (s.pc o).owns = true ∧ s.pc o ≠ .store ∧
        ∀ a s', step s a = some s' → s'.pc o ≠ .store := by
  have h : Inv s := by
    refine System.Reachable.invariant (system T n) Inv ?_ (fun _ _ _ hi hs => step_inv hi hs) s hr
    rintro s0 ⟨hword, htslock, hout⟩
    constructor
    all_goals grind
  refine ⟨fun t u ht hu => ?_, fun t ht hnone => ?_⟩
  · have ht' := (h.owns t).mp ht
    rw [(h.owns u).mp hu] at ht'
    exact (some.inj ht').symm
  rcases h.known t ht with ⟨u, hu⟩ | ⟨o, hword, hstore⟩
  · have hlocked := hnone u
    rw [hu] at hlocked
    cases hlocked
  refine ⟨o, hword, ?_, hstore, fun a s' hs hs' => ?_⟩
  · rw [h.owns, hword]
    rfl
  · rcases compared hs hs' with hs | hs
    · exact hstore hs
    · rw [hword] at hs
      cases hs

/-- On one processor, a thread is switched away while it owns the mutex, and another one
    goes to sleep. -/
theorem no_missed_wakeup_two : ∃ s : State Bool 1, (system Bool 1).Reachable s ∧
    s.pc false = .blocked ∧ ∃ o, s.word = some (o, true) ∧ (s.pc o).owns = true := by
  have hsome : ((system Bool 1).exec ⟨none, none, fun _ => none, fun _ => .out⟩
      ([.switch 0 (some true), .enter true, .run true 0, .switch 0 (some false), .enter false] ++
        replicate 11 (.run false 0))).isSome = true := by
    decide
  have hr := System.reachable_get (system Bool 1) _ _ ⟨rfl, rfl, fun _ => rfl⟩ hsome
  obtain ⟨o, hword, howns, -⟩ := (no_missed_wakeup hr).2 false rfl (fun u => by cases u <;> rfl)
  exact ⟨_, hr, rfl, o, hword, howns⟩

end Sol7.Mutex
