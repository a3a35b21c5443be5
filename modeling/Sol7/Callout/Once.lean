import Sol7.Callout.History

/-!
# Callouts Run Exactly Once

That a callout is not lost is a count. While a callout waits that the clock has
come to, each time that a thread enters `callout_execute` or a handler returns,
another callout that is no later is taken, and there are only so many of them:
what is made from now on is later than the clock.

## Main definitions

* `CallState.executions`: How often callouts are executed in a run.
* `CallState.Late`: The clock has come to a callout.

## Theorems

* `CallState.Late.exec`: A callout that is late is taken after a number of
  executions.
* `callouts_exactly_once`: Timeouts are not lost, not early, not repeated.
-/

namespace Sol7

open List Option CalloutId CalloutTable

namespace CallState

variable {τ α : Type} {s s' : CallState τ α} {live : Nat → Prop} {t : τ}
  {n bound : Nat}

/-- A step that executes callouts: a thread enters `callout_execute`, or goes on
    after a handler. -/
def executes : CallOp τ α → Bool
  | .execute _ => true
  | .resume _ => true
  | _ => false

/-- How often callouts are executed. -/
def executions (ops : List (CallOp τ α)) : Nat := ops.countP executes

/-- The handler of a callout was called, or it was cancelled. -/
def Settled (s : CallState τ α) (n : Nat) : Prop := n ∈ s.ran ∨ n ∈ s.cancelled

/-- The clock has come to a callout, and all callouts that are no later are
    among the first ones. -/
structure Late (s : CallState τ α) (n bound : Nat) : Prop where
  inv : ∃ live, Inv live s
  made : ∃ m, s.made[n]? = some m ∧ m.runtime ≤ s.ct.curtime ∧
    ∀ k m', s.made[k]? = some m' → m'.runtime ≤ m.runtime → k < bound

/-- The callouts among the first ones whose handlers were called. -/
def taken (s : CallState τ α) (bound : Nat) : Nat := s.ran.countP (· < bound)

theorem Moves.taken_le (h : Moves s s') : s.taken bound ≤ s'.taken bound := by
  obtain ⟨l, hran⟩ := h.ran
  unfold taken
  rw [hran, countP_append]
  omega

theorem Moves.late (h : Moves s s') (hinv : ∃ live, Inv live s') (hl : Late s n bound) :
    Late s' n bound := by
  obtain ⟨⟨live, hs⟩, m, hm, hcur, hbound⟩ := hl
  have hclock := hs.clock
  have hcur' := h.curtime
  refine ⟨hinv, m, ?_, by omega, fun k m' hk hle => ?_⟩
  · rcases h.made with heq | ⟨new, heq, -⟩
    · rw [heq, hm]
    · rw [heq, getElem?_append_left (List.getElem?_eq_some_iff.mp hm).1, hm]
  rcases h.made with heq | ⟨new, heq, hnew⟩
  · exact hbound k m' (heq ▸ hk) hle
  rw [heq] at hk
  by_cases hlt : k < s.made.length
  · rw [getElem?_append_left hlt] at hk
    exact hbound k m' hk hle
  -- What is made now is later than the clock.
  rw [getElem?_append_right (by omega), getElem?_singleton] at hk
  by_cases hz : k - s.made.length = 0
  · rw [if_pos hz, some.injEq] at hk
    subst hk
    omega
  · rw [if_neg hz] at hk
    cases hk

/-- While a late callout waits, every execution takes one of the first ones. -/
theorem Late.execution (hl : Late s' n bound) (hex : Executes s s') (hn : ¬Settled s' n) :
    s.taken bound + 1 ≤ s'.taken bound := by
  obtain ⟨⟨live, hs⟩, m, hm, hcur, hbound⟩ := hl
  rcases hs.fates.fate n (List.getElem?_eq_some_iff.mp hm).1 with ⟨p, hp, hx, hpn⟩ | hdone
  swap
  · exact absurd hdone hn
  have hpend := hs.chains.ticking.pending p hp hx
  obtain ⟨m0, hm0⟩ := hs.records.entry p hp
  have hsame : m0 = m := by
    have hmade := hm0.made
    rw [hpn, hm] at hmade
    exact (some.inj hmade).symm
  subst hsame
  have hrun := hm0.runtime
  rcases hex.ran with ⟨-, hahead⟩ | ⟨k, mk, hran, hk, hle⟩
  · omega
  · have hlt := hbound k mk (hex.made ▸ hk) (by omega)
    unfold taken
    rw [hran, countP_cons_of_pos (by simpa using hlt)]

/-- No callout runs twice, so at most all of the first ones are taken. -/
theorem Inv.taken_le (h : Inv live s) (bound : Nat) : s.taken bound ≤ bound := by
  have hnodup : (s.ran.filter (· < bound)).Nodup := h.fates.once.filter _
  have hsub : s.ran.filter (· < bound) ⊆ range bound := fun k hk => by
    simpa using (mem_filter.mp hk).2
  unfold taken
  rw [countP_eq_length_filter]
  exact (subperm_of_subset hnodup hsub).length_le.trans (le_of_eq length_range)

variable [DecidableEq τ]

theorem Late.step {op : CallOp τ α} (hl : Late s n bound) (hs : s.step op = some s') :
    Late s' n bound ∧
      (Settled s' n ∨ s.taken bound + (if executes op then 1 else 0) ≤ s'.taken bound) := by
  obtain ⟨live, hinv⟩ := hl.inv
  obtain ⟨hinv', hmoves⟩ := hinv.step hs
  have hl' := hmoves.late hinv' hl
  refine ⟨hl', or_iff_not_imp_left.mpr fun hn => ?_⟩
  cases op with
  | execute t => exact hl'.execution (hinv.execute hs).2 hn
  | resume t => exact hl'.execution (hinv.resume hs).2 hn
  | _ => exact hmoves.taken_le

/-- What is settled stays so. -/
theorem settled_exec (ops : List (CallOp τ α)) : ∀ s s' : CallState τ α, (∃ live, Inv live s) →
    (callouts τ α).exec s ops = some s' → (s.ran ⊆ s'.ran ∧ s.cancelled ⊆ s'.cancelled) := by
  induction ops with
  | nil =>
    intro s s' _ hs
    rw [System.exec, some.injEq] at hs
    subst hs
    exact ⟨List.Subset.refl _, List.Subset.refl _⟩
  | cons op ops ih =>
    rintro s s' ⟨live, hinv⟩ hs
    rw [System.exec, bind_eq_some_iff] at hs
    obtain ⟨s1, hs1, hs⟩ := hs
    obtain ⟨hinv1, hmoves⟩ := hinv.step hs1
    obtain ⟨hran, hcan⟩ := ih s1 s' hinv1 hs
    obtain ⟨l, heq⟩ := hmoves.ran
    obtain ⟨l', heq'⟩ := hmoves.cancelled
    rw [heq] at hran
    rw [heq'] at hcan
    exact ⟨fun n hn => hran (mem_append_right _ hn), fun n hn => hcan (mem_append_right _ hn)⟩

/-- In a run a late callout is settled, or each execution takes one of the first
    ones. -/
theorem Late.exec (ops : List (CallOp τ α)) : ∀ s s' : CallState τ α, Late s n bound →
    (callouts τ α).exec s ops = some s' →
    Settled s' n ∨ s.taken bound + executions ops ≤ s'.taken bound := by
  induction ops with
  | nil =>
    intro s s' hl hs
    rw [System.exec, some.injEq] at hs
    exact .inr (hs ▸ le_rfl)
  | cons op ops ih =>
    intro s s' hl hs
    rw [System.exec, bind_eq_some_iff] at hs
    obtain ⟨s1, hs1, hs⟩ := hs
    obtain ⟨hl1, hfirst⟩ := hl.step hs1
    rcases ih s1 s' hl1 hs with hdone | hle
    · exact .inl hdone
    rcases hfirst with hdone | hfirst
    · obtain ⟨hran, hcan⟩ := settled_exec ops s1 s' hl1.inv hs
      exact .inl (hdone.imp (fun hn => hran hn) (fun hn => hcan hn))
    · refine .inr ?_
      unfold executions at hle ⊢
      rw [countP_cons]
      omega

/-- A callout is in the table. -/
def InTable (s : CallState τ α) (cp : Nat) : Prop := cp ∈ s.ct.lbhash (lbHash (s.ct.mem cp).runtime)

/-- The value that an `untimeout` returns at once. -/
def untimeoutValue (s : CallState τ α) (t : τ) (id : CalloutId) : Option Int :=
  (s.ct.untimeout s.lbolt t id).bind fun r => r.2.value

/-- The callout that an id was issued for last. -/
def IssuedFor (s : CallState τ α) (id : CalloutId) (n : Nat) : Prop :=
  (∃ m, s.made[n]? = some m ∧ m.id = id) ∧ ∀ k m, s.made[k]? = some m → m.id = id → k ≤ n

/-- A callout is cancelled only if it waits. -/
theorem Inv.untimeout_value (h : Inv live s) {id : CalloutId} {v : Int}
    (hid : id.executing = false) (hv : s.untimeoutValue t id = some v) (hpos : 0 ≤ v)
    (hs : s.untimeout t id = some s') : ∃ n, s.IssuedFor id n ∧ n ∉ s.ran ∧ n ∈ s'.cancelled := by
  obtain ⟨⟨ct', r⟩, hr, hval⟩ := bind_eq_some_iff.mp hv
  cases r with
  | removed p left =>
    obtain ⟨hp, hxid, hx, rfl⟩ := h.untimeout_spec hid hr
    obtain ⟨m, hm⟩ := h.records.entry p hp
    have hmid : m.id = id := (hm.unmarked hx).symm.trans hxid
    refine ⟨(s.ct.mem p).serial, ⟨⟨m, hm.made, hmid⟩, fun k m' hk hid' => ?_⟩,
      h.fates.waiting p hp hx, ?_⟩
    · exact h.records.latest p m hp hm k m' hk (hid'.trans hmid.symm)
    · have hs' := (ite_none_right_eq_some.mp hs).2
      rw [hr, map_some, some.injEq] at hs'
      subst hs'
      exact mem_cons_self
  | notPending =>
    simp only [UntimeoutResult.value, some.injEq] at hval
    omega
  | waits p xid => cases hval

end CallState

open CallState

/-- In every interleaving: a callout that waits in the table is not behind the
    time of the table; no handler is called twice, or before its time; after an
    `untimeout` that has returned a value that is not negative, the handler was
    not called and never will be; once the clock has come to a callout, it
    is called, unless it is cancelled, by the time that callouts have been
    executed more often than there are callouts; and every thread that does not
    wait can execute callouts. -/
theorem callouts_exactly_once {τ α : Type} [DecidableEq τ] (s : CallState τ α)
    (hr : (callouts τ α).Reachable s) : (∀ cp, s.InTable cp → (s.ct.mem cp).xid.executing = false →
      s.ct.runtime ≤ (s.ct.mem cp).runtime) ∧
    s.ran.Nodup ∧
    (∀ e ∈ s.log, ∃ m, s.made[e.serial]? = some m ∧ m.runtime ≤ e.lbolt ∧ m.func = e.func) ∧
    (∀ t id v s', s.untimeoutValue t id = some v → 0 ≤ v → s.untimeout t id = some s' →
      ∃ n, s.IssuedFor id n ∧ n ∉ s.ran ∧
        ∀ ops s'', (callouts τ α).exec s' ops = some s'' → n ∉ s''.ran) ∧
    (∀ n m s1, s.made[n]? = some m → m.runtime ≤ s.lbolt → s.schedule = some s1 →
      ∀ ops s', (callouts τ α).exec s1 ops = some s' → s.made.length < executions ops →
        s'.ran.count n = 1 ∨ n ∈ s'.cancelled) ∧
    ∀ t, s.wait t = none → (if s.exec t = none then s.execute t else s.resume t).isSome := by
  obtain ⟨live, hinv⟩ := inv_of_reachable hr
  refine ⟨fun cp hcp hx => ?_, hinv.fates.once, hinv.fates.log, ?_, ?_,
    fun _ => hinv.enabled⟩
  · exact hinv.chains.ticking.pending cp (hinv.chains.ticking.lb.mem_own.mp hcp) hx
  · intro t id v s' hv hpos hs
    have hid := (ite_none_right_eq_some.mp hs).1.1
    obtain ⟨n, hissued, hran, hcan⟩ := hinv.untimeout_value hid hv hpos hs
    refine ⟨n, hissued, hran, fun ops s'' hexec => ?_⟩
    have hr' : (callouts τ α).Reachable s' :=
      System.Reachable.of_step _ s s' (.untimeout t id) hr hs
    obtain ⟨live'', h''⟩ := inv_of_reachable (System.Reachable.of_exec _ ops s' s'' hr' hexec)
    have hkeep := (settled_exec ops s' s'' (inv_of_reachable hr') hexec).2
    exact (h''.fates.never n (hkeep hcan)).1
  · intro n m s1 hm hle hs1 ops s' hexec hmany
    obtain ⟨hinv1, -, hcur, hmade⟩ := hinv.schedule hs1
    have hl : Late s1 n s.made.length := by
      refine ⟨⟨live, hinv1⟩, m, hmade ▸ hm, hcur ▸ hle, fun k m' hk _ => ?_⟩
      rw [hmade] at hk
      exact (List.getElem?_eq_some_iff.mp hk).1
    have hr1 : (callouts τ α).Reachable s1 := System.Reachable.of_step _ s s1 .schedule hr hs1
    obtain ⟨live', hinv'⟩ := inv_of_reachable (System.Reachable.of_exec _ ops s1 s' hr1 hexec)
    have hcount := hinv'.taken_le s.made.length
    rcases hl.exec ops s1 s' hexec with (hran | hcan) | htaken
    · exact .inl (count_eq_one_of_mem hinv'.fates.once hran)
    · exact .inr hcan
    · omega

/-- A table after `callout_init`, before anything was made. -/
def freshTable : CallState Nat Nat where
  ct :=
    { freelist := [], curtime := 0, runtime := 0, shortId := 3#32 ||| counterHigh
      longId := (3#32 ||| counterHigh) ||| 1#32 <<< 30, idhash := fun _ => []
      lbhash := fun _ => [], mem := fun _ => ⟨0, 0, 0, none, 0⟩, next := 0 }
  lbolt := 0
  exec := fun _ => none
  wait := fun _ => none
  made := []
  log := []
  cancelled := []

theorem freshTable_init : freshTable.Init :=
  ⟨rfl, rfl, rfl, ⟨3, by decide, rfl, rfl⟩, fun _ => rfl, fun _ => rfl, fun _ => rfl, fun _ => rfl,
    rfl, rfl, rfl⟩

/-- Two callouts for the same tick, one that is cancelled, and the tick. -/
def twoDue : List (CallOp Nat Nat) :=
  [.timeout true 7 1, .timeout true 8 0, .timeout true 9 5, .untimeout 0 0x3fffffd3#32, .tick]

/-- The table is executed by two threads. -/
def executeTwo : List (CallOp Nat Nat) := [.execute 0, .execute 1, .resume 0, .resume 1]

theorem callouts_exactly_once_two :
    (((callouts Nat Nat).exec freshTable twoDue).bind fun s => s.schedule.bind fun s1 =>
      (callouts Nat Nat).exec s1 executeTwo).any (fun s' => s'.ran == [0, 1]) = true ∧
    ∀ s s1 s', (callouts Nat Nat).exec freshTable twoDue = some s → s.schedule = some s1 →
      (callouts Nat Nat).exec s1 executeTwo = some s' → s'.ran.count 0 = 1 ∨ 0 ∈ s'.cancelled := by
  refine ⟨by decide +kernel, fun s s1 s' hs hs1 hs' => ?_⟩
  have hrun : ((callouts Nat Nat).exec freshTable twoDue).any (fun s => s.made.length == 3 &&
      s.made[0]?.any (fun m => m.runtime ≤ s.lbolt)) = true := by decide +kernel
  rw [hs, any_some, Bool.and_eq_true, beq_iff_eq] at hrun
  have h := callouts_exactly_once s
    (System.reachable_of_exec _ twoDue freshTable s freshTable_init hs)
  cases hm : s.made[0]? with
  | none => simp [hm] at hrun
  | some m =>
    have hle : m.runtime ≤ s.lbolt := by simpa [hm] using hrun.2
    exact h.2.2.2.2.1 0 m s1 hm hle hs1 executeTwo s' hs' (by rw [hrun.1]; decide)

end Sol7
