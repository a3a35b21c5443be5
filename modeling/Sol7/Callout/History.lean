import Sol7.Callout.Invariant

/-!
# The History of the Callouts

The parts of the invariant are put together for the interleavings of all
threads, and with the history of the callouts: each callout that was made is
waiting in the table, or its handler was called, or it was cancelled.

## Main definitions

* `CallState.ran`: The callouts whose handlers were called.
* `CallState.Inv`: The invariant of the interleavings.
* `CallState.Moves`: What a step can do to the history.

## Theorems

* `CallState.Inv.execution`: `callout_execute` calls a handler, or is ahead of
  the clock.
* `CallState.Inv.step`: Every step keeps the invariant.
-/

namespace Sol7.CallState

open List Option Function CalloutId CalloutTable

variable {τ α : Type} {s s' : CallState τ α} {live : Nat → Prop} {t : τ}

/-- The numbers of the callouts whose handlers were called. -/
def ran (s : CallState τ α) : List Nat := s.log.map Ran.serial

/-- What became of the callouts that were made. -/
structure Fates (live : Nat → Prop) (s : CallState τ α) : Prop where
  fate : ∀ n < s.made.length,
    (∃ p, live p ∧ (s.ct.mem p).xid.executing = false ∧ (s.ct.mem p).serial = n) ∨
      n ∈ s.ran ∨ n ∈ s.cancelled
  waiting : ∀ p, live p → (s.ct.mem p).xid.executing = false → (s.ct.mem p).serial ∉ s.ran
  kept : ∀ p, live p → (s.ct.mem p).serial ∉ s.cancelled
  once : s.ran.Nodup
  never : ∀ n ∈ s.cancelled, n ∉ s.ran ∧ n < s.made.length
  log : ∀ e ∈ s.log, ∃ m, s.made[e.serial]? = some m ∧ m.runtime ≤ e.lbolt ∧ m.func = e.func

/-- The invariant of the interleavings. -/
structure Inv (live : Nat → Prop) (s : CallState τ α) : Prop where
  chains : CalloutTable.Chains live s.ct
  clock : s.ct.curtime ≤ s.lbolt
  records : Records live s.made s.ct.mem
  handlers : ∀ t p r, s.exec t = some (p, r) → InHandler live s.ct t p r
  fates : Fates live s

/-- What a step can do to the history. -/
structure Moves (s s' : CallState τ α) : Prop where
  curtime : s.ct.curtime ≤ s'.ct.curtime
  made : s'.made = s.made ∨ ∃ m, s'.made = s.made ++ [m] ∧ s.lbolt < m.runtime
  ran : ∃ l, s'.ran = l ++ s.ran
  cancelled : ∃ l, s'.cancelled = l ++ s.cancelled

theorem Moves.of_eq (hcur : s.ct.curtime ≤ s'.ct.curtime) (hmade : s'.made = s.made)
    (hlog : s'.log = s.log) (hcan : s'.cancelled = s.cancelled) : Moves s s' :=
  ⟨hcur, .inl hmade, ⟨[], by rw [CallState.ran, hlog]; rfl⟩, ⟨[], hcan⟩⟩

variable {n p : Nat}

theorem Fates.log_lt (h : Fates live s) (hn : n ∈ s.ran) : n < s.made.length := by
  obtain ⟨e, he, rfl⟩ := mem_map.mp hn
  obtain ⟨m, hm, -⟩ := h.log e he
  exact (List.getElem?_eq_some_iff.mp hm).1

/-- `callout_execute` calls the handler of a callout that is not later than the
    time of the table, or returns when that is ahead of the clock. -/
structure Executes (s s' : CallState τ α) : Prop where
  curtime : s'.ct.curtime = s.ct.curtime
  made : s'.made = s.made
  cancelled : s'.cancelled = s.cancelled
  ran : (s'.ran = s.ran ∧ s'.ct.curtime < s'.ct.runtime) ∨
    ∃ n m, s'.ran = n :: s.ran ∧ s.made[n]? = some m ∧ m.runtime ≤ s'.ct.runtime

theorem Executes.moves (h : Executes s s') : Moves s s' := by
  refine ⟨Int.le_of_eq h.curtime.symm, .inl h.made, ?_, ⟨[], h.cancelled⟩⟩
  rcases h.ran with ⟨heq, -⟩ | ⟨n, m, heq, -⟩
  · exact ⟨[], heq⟩
  · exact ⟨[n], heq⟩

theorem Init.inv (h : s.Init) : Inv (fun _ => False) s := by
  have hran : s.ran = [] := by
    rw [CallState.ran, h.log]
    rfl
  refine ⟨⟨⟨⟨fun b p => ?_, fun b => ?_⟩, fun p hp => hp.elim, ?_⟩, ⟨fun b p => ?_, fun b => ?_⟩,
    fun p _ hp => hp, ?_, fun p hp => ?_, ?_⟩, ?_, ?_, fun t p r ht => ?_, ?_⟩
  · simp [h.lbhash b]
  · simp [h.lbhash b]
  · rw [h.runtime, h.curtime]
    omega
  · simp [h.idhash b]
  · simp [h.idhash b]
  · simp [h.freelist]
  · simp [h.freelist] at hp
  · obtain ⟨table, hlt, hshort, hlong⟩ := h.ids
    have hid : IsId s.ct.shortId := by
      rw [hshort]
      unfold IsId
      rw [BitVec.toNat_or, BitVec.toNat_ofNat]
      exact ⟨Nat.right_le_or, Nat.or_lt_two_pow (by omega) (by decide)⟩
    refine ⟨hid, ?_⟩
    rw [hlong]
    exact ⟨hid.1.trans Nat.left_le_or, Nat.or_lt_two_pow hid.2 (by decide)⟩
  · exact Int.le_of_eq h.curtime
  · exact ⟨fun p hp => hp.elim, fun p q hp => hp.elim, fun p m hp => hp.elim⟩
  · rw [h.exec t] at ht
    cases ht
  · refine ⟨fun n hn => ?_, fun p hp => hp.elim, fun p hp => hp.elim, ?_, fun n hn => ?_,
      fun e he => ?_⟩
    · simp [h.made] at hn
    · simp [hran]
    · simp [h.cancelled] at hn
    · simp [h.log] at he

variable {runtime curtime delta left lbolt r runtime' : Int}

/-! ### Steps that do not execute a callout -/

section
variable (h : Inv live s)
include h

/-- The time of the table goes on. -/
theorem Inv.retime (hticking : Ticking live { s.ct with runtime := runtime, curtime := curtime })
    (hcur : s.ct.curtime ≤ curtime) (hrun : s.ct.runtime ≤ runtime) (hclock : curtime ≤ s.lbolt) :
    Inv live { s with ct := { s.ct with runtime := runtime, curtime := curtime } } :=
  ⟨{ h.chains with ticking := hticking }, hclock, h.records,
    fun t p r ht => (h.handlers t p r ht).retime hcur hrun, { h.fates with }⟩

theorem Inv.tick : Inv live { s with lbolt := s.lbolt + 1 } := by
  have hclock := h.clock
  exact ⟨h.chains, by change s.ct.curtime ≤ s.lbolt + 1; omega, h.records, h.handlers,
    { h.fates with }⟩

theorem Inv.schedule (hs : s.schedule = some s') :
    Inv live s' ∧ Moves s s' ∧ s'.ct.curtime = s.lbolt ∧ s'.made = s.made := by
  have hclock := h.clock
  have hrun := h.chains.ticking.clock
  have hticking : Ticking live { s.ct with curtime := s.lbolt } :=
    ⟨h.chains.ticking.lb, h.chains.ticking.pending, by
      change s.ct.runtime ≤ s.lbolt + 1
      omega⟩
  rcases scheduleLoop_outcome ((s.lbolt - s.ct.runtime).toNat + 2) _ hticking (by
      change (s.lbolt + 1 - s.ct.runtime).toNat < _
      omega) with ⟨runtime', b, hle, heq, hticking'⟩
  unfold CallState.schedule CalloutTable.calloutSchedule at hs
  rw [heq, map_some, some.injEq] at hs
  subst hs
  exact ⟨h.retime hticking' hclock hle le_rfl, Moves.of_eq hclock rfl rfl rfl, rfl, rfl⟩

theorem Inv.timeout {alloc : Bool} {func : α}
    (hs : s.timeout alloc func delta = some s') : (∃ live', Inv live' s') ∧ Moves s s' := by
  obtain ⟨hunused, hs⟩ := ite_none_right_eq_some.mp hs
  obtain ⟨ct', hct, rfl⟩ := map_eq_some_iff.mp hs
  obtain ⟨p, new, hins, hxid, hrun, hfunc, hserial⟩ := timeoutCommon_inserts hct
  have hclock := h.clock
  have hpos := future_pos delta
  have hlater : s.ct.curtime < new.runtime := by omega
  have hid : IsId new.xid := hxid ▸ isId_issued h.chains delta
  have hlen : new.serial = s.made.length := hserial
  rw [← hxid, ← hrun, ← hfunc]
  rw [← hxid] at hunused
  have hrec := h.records.insert h.chains hins hid hlen hunused
  have hold : ∀ q, live q → ct'.mem q = s.ct.mem q := fun q hq => hins.other h.chains hq
  refine ⟨⟨fun q => q = p ∨ live q, h.chains.insert hins hlater, ?_, hrec, ?_, ?_⟩, ?_⟩
  · rw [hins.curtime]
    exact hclock
  · exact fun t q r ht => (h.handlers t q r ht).insert h.chains hins hlater
  · refine ⟨?_, ?_, ?_, h.fates.once, ?_, ?_⟩
    · intro n hn
      rw [length_append, length_singleton] at hn
      by_cases hlast : n = s.made.length
      · refine .inl ⟨p, .inl rfl, ?_, ?_⟩
        · rw [hins.self, hid.not_executing]
        · rw [hins.self, hlast, hlen]
      · rcases h.fates.fate n (by omega) with ⟨q, hq, hx, hn'⟩ | hdone
        · refine .inl ⟨q, .inr hq, ?_, ?_⟩
          · rw [hold q hq, hx]
          · rw [hold q hq, hn']
        · exact .inr hdone
    · rintro q (rfl | hq) hx hran
      · rw [hins.self, hlen] at hran
        exact lt_irrefl _ (h.fates.log_lt hran)
      · rw [hold q hq] at hx hran
        exact h.fates.waiting q hq hx hran
    · rintro q (rfl | hq) hcan
      · rw [hins.self, hlen] at hcan
        exact lt_irrefl _ (h.fates.never _ hcan).2
      · rw [hold q hq] at hcan
        exact h.fates.kept q hq hcan
    · intro n hn
      have hnever := h.fates.never n hn
      refine ⟨hnever.1, ?_⟩
      rw [length_append]
      omega
    · intro e he
      obtain ⟨m, hm, hrest⟩ := h.fates.log e he
      refine ⟨m, ?_, hrest⟩
      rw [getElem?_append_left (List.getElem?_eq_some_iff.mp hm).1, hm]
  · refine ⟨?_, .inr ⟨_, rfl, ?_⟩, ⟨[], rfl⟩, ⟨[], rfl⟩⟩
    · exact Int.le_of_eq hins.curtime.symm
    · change s.lbolt < new.runtime
      omega

/-- A callout that waits is taken out of the table. -/
theorem Inv.remove (hp : live p) (hx : (s.ct.mem p).xid.executing = false) :
    Inv (fun q => live q ∧ q ≠ p)
      { s with ct := s.ct.hashDelete p, cancelled := (s.ct.mem p).serial :: s.cancelled } := by
  have hmem : ∀ q, q ≠ p → s.ct.mem q = s.ct.mem q := fun _ _ => rfl
  have hserial : ∀ q, live q ∧ q ≠ p → (s.ct.mem q).serial ≠ (s.ct.mem p).serial :=
    fun q hq heq => hq.2 (h.records.serial q p hq.1 hp heq)
  refine ⟨h.chains.delete hp hmem, h.clock, h.records.drop hmem, fun t q r ht => ?_, ?_⟩
  · have hh := h.handlers t q r ht
    exact hh.delete h.chains (hh.ne hx) hmem
  refine ⟨fun n hn => ?_, fun q hq => h.fates.waiting q hq.1, fun q hq hcan => ?_, h.fates.once,
    fun n hn => ?_, h.fates.log⟩
  · rcases h.fates.fate n hn with ⟨q, hq, hqx, hn'⟩ | hran | hcan
    · by_cases hqp : q = p
      · exact .inr (.inr (by rw [← hn', hqp]; exact mem_cons_self))
      · exact .inl ⟨q, ⟨hq, hqp⟩, hqx, hn'⟩
    · exact .inr (.inl hran)
    · exact .inr (.inr (mem_cons_of_mem _ hcan))
  · rcases mem_cons.mp hcan with heq | hcan
    · exact hserial q hq heq
    · exact h.fates.kept q hq.1 hcan
  · rcases mem_cons.mp hn with rfl | hn
    · obtain ⟨m, hm⟩ := h.records.entry p hp
      exact ⟨h.fates.waiting p hp hx, hm.serial_lt⟩
    · exact h.fates.never n hn

variable {ct' ct : CalloutTable τ α} {id : CalloutId} [DecidableEq τ]

/-- `untimeout` takes a callout with the given id out, or leaves the table alone. -/
theorem Inv.untimeout_spec {r : UntimeoutResult} (hid : id.executing = false)
    (hs : s.ct.untimeout s.lbolt t id = some (ct', r)) : match r with
    | .removed p _ => live p ∧ (s.ct.mem p).xid = id ∧ (s.ct.mem p).xid.executing = false ∧
        ct' = s.ct.hashDelete p
    | _ => ct' = s.ct := by
  unfold CalloutTable.untimeout at hs
  split at hs
  · next q hfind =>
    split at hs
    · next hq =>
      cases hs
      have hmem := mem_of_find?_eq_some hfind
      exact ⟨((h.chains.id.mem _ q).mp hmem).1, hq, by rw [hq, hid], rfl⟩
    · split at hs
      all_goals
        cases hs
        rfl
  · split at hs
    · cases hs
    · cases hs
      rfl

theorem Inv.untimeout (hs : s.untimeout t id = some s') : (∃ live', Inv live' s') ∧ Moves s s' := by
  obtain ⟨hid, hs⟩ := ite_none_right_eq_some.mp hs
  obtain ⟨⟨ct', r⟩, hr, rfl⟩ := map_eq_some_iff.mp hs
  have hct := h.untimeout_spec hid.1 hr
  cases r with
  | removed p left =>
    obtain ⟨hp, -, hx, rfl⟩ := hct
    exact ⟨⟨_, h.remove hp hx⟩, le_rfl, .inl rfl, ⟨[], rfl⟩, ⟨[_], rfl⟩⟩
  | notPending =>
    rw [show ct' = s.ct from hct]
    exact ⟨⟨live, h⟩, Moves.of_eq le_rfl rfl rfl rfl⟩
  | waits p xid =>
    rw [show ct' = s.ct from hct]
    exact ⟨⟨live, { h with fates := { h.fates with } }⟩, Moves.of_eq le_rfl rfl rfl rfl⟩

theorem Inv.wakeup (hs : s.wakeup t = some s') : Inv live s' ∧ Moves s s' := by
  unfold CallState.wakeup at hs
  split at hs
  · split at hs
    · cases hs
    · cases hs
      exact ⟨{ h with fates := { h.fates with } }, Moves.of_eq le_rfl rfl rfl rfl⟩
  · cases hs

/-! ### Executing callouts -/

/-- The handler of a callout that is due is called. -/
theorem Inv.start (hp : live p) (hdue : s.ct.due r p = true)
    (hclock : r ≤ s.ct.curtime) (hlate : r ≤ s.ct.runtime) (hscan : s.ct.Scanned r p) :
    Inv live (s.executed t (s.ct.mark t p, some (p, r))) := by
  obtain ⟨hrun, hx⟩ := due_iff.mp hdue
  obtain ⟨m, hm⟩ := h.records.entry p hp
  have hlt : (s.ct.mem p).xid.toNat < 2 ^ 31 := hm.unmarked hx ▸ hm.id.2
  have hxmark : ((s.ct.mark t p).mem p).xid.executing = true := by
    rw [mark_self, executing_mark hlt]
  have hcur := h.clock
  refine ⟨h.chains.mark t hlt, h.clock, h.records.mark t hx, fun t' q r' ht' => ?_, ?_⟩
  · change update s.exec t (some (p, r)) t' = some (q, r') at ht'
    by_cases htt : t' = t
    · subst htt
      rw [update_self, some.injEq] at ht'
      obtain ⟨rfl, rfl⟩ := ht'
      exact ⟨hp, hxmark, by change ((s.ct.mark t' p).mem p).executor = _; rw [mark_self],
        (mark_runtime p).trans hrun, hclock, hlate, hscan.congr rfl fun x _ hdue => mark_due hlt hdue⟩
    · rw [update_of_ne htt] at ht'
      exact (h.handlers t' q r' ht').mark hlt hx
  · have hran : (s.executed t (s.ct.mark t p, some (p, r))).ran = (s.ct.mem p).serial :: s.ran := by
      change ((s.ct.mark t p).mem p).serial :: s.ran = _
      rw [mark_serial]
    -- A callout that still waits is another one.
    have hother : ∀ q, live q → ((s.ct.mark t p).mem q).xid.executing = false →
        q ≠ p ∧ (s.ct.mem q).xid.executing = false := by
      intro q _ hqx
      have hqp : q ≠ p := fun heq => by
        rw [heq, hxmark] at hqx
        cases hqx
      exact ⟨hqp, by rwa [mark_other hqp] at hqx⟩
    refine ⟨fun n hn => ?_, fun q hq hqx hqran => ?_, fun q hq hcan => ?_, ?_, fun n hn => ?_,
      fun e he => ?_⟩
    · rcases h.fates.fate n hn with ⟨q, hq, hqx, hn'⟩ | hdone | hdone
      · by_cases hqp : q = p
        · refine .inr (.inl ?_)
          rw [hran, ← hn', hqp]
          exact mem_cons_self
        · refine .inl ⟨q, hq, ?_, ?_⟩
          · change ((s.ct.mark t p).mem q).xid.executing = false
            rw [mark_other hqp, hqx]
          · exact (mark_serial q).trans hn'
      · refine .inr (.inl ?_)
        exact mem_cons_of_mem _ hdone
      · exact .inr (.inr hdone)
    · obtain ⟨hqp, hqx'⟩ := hother q hq hqx
      change ((s.ct.mark t p).mem q).serial ∈ _ at hqran
      rw [mark_serial, hran] at hqran
      rcases mem_cons.mp hqran with heq | hqran
      · exact hqp (h.records.serial q p hq hp heq)
      · exact h.fates.waiting q hq hqx' hqran
    · change ((s.ct.mark t p).mem q).serial ∈ s.cancelled at hcan
      rw [mark_serial] at hcan
      exact h.fates.kept q hq hcan
    · rw [hran]
      exact nodup_cons.mpr ⟨h.fates.waiting p hp hx, h.fates.once⟩
    · rw [hran]
      have hnever := h.fates.never n hn
      refine ⟨fun hmem => ?_, hnever.2⟩
      rcases mem_cons.mp hmem with rfl | hmem
      · exact h.fates.kept p hp hn
      · exact hnever.1 hmem
    · rcases mem_cons.mp he with rfl | he
      · refine ⟨m, ?_, ?_, ?_⟩
        · rw [mark_serial]
          exact hm.made
        · change m.runtime ≤ s.lbolt
          rw [hm.runtime, hrun]
          omega
        · rw [mark_self]
          exact hm.func
      · exact h.fates.log e he

/-- A handler has returned, and its callout is taken out of the table. -/
theorem Inv.finish (ht : s.exec t = some (p, r)) : Inv (fun q => live q ∧ q ≠ p) { s with
        ct := { s.ct.hashDelete p with
          mem := update s.ct.mem p { s.ct.mem p with xid := 0 } }
        exec := update s.exec t none } := by
  have hh := h.handlers t p r ht
  have hmem : ∀ q, q ≠ p → update s.ct.mem p { s.ct.mem p with xid := 0 } q = s.ct.mem q :=
    fun q hq => update_of_ne hq ..
  refine ⟨h.chains.delete hh.live hmem, h.clock, h.records.drop hmem, fun t' q r' ht' => ?_, ?_⟩
  · change update s.exec t none t' = some (q, r') at ht'
    by_cases htt : t' = t
    · subst htt
      exact absurd ht' (by simp)
    rw [update_of_ne htt] at ht'
    have hh' := h.handlers t' q r' ht'
    -- Two threads are not in the handler of one callout.
    refine hh'.delete h.chains (fun heq => htt ?_) hmem
    have hex := hh'.executor
    rw [heq, hh.executor] at hex
    exact (some.inj hex).symm
  · refine ⟨fun n hn => ?_, fun q hq hx => ?_, fun q hq => ?_, h.fates.once, h.fates.never,
      h.fates.log⟩
    · rcases h.fates.fate n hn with ⟨q, hq, hqx, hn'⟩ | hdone
      · have hqp := (hh.ne hqx).symm
        refine .inl ⟨q, ⟨hq, hqp⟩, ?_, ?_⟩
        · change (update s.ct.mem p _ q).xid.executing = false
          rw [hmem q hqp, hqx]
        · change (update s.ct.mem p _ q).serial = n
          rw [hmem q hqp, hn']
      · exact .inr hdone
    · change (update s.ct.mem p _ q).xid.executing = false at hx
      change (update s.ct.mem p _ q).serial ∉ s.ran
      rw [hmem q hq.2] at hx ⊢
      exact h.fates.waiting q hq.1 hx
    · change (update s.ct.mem p _ q).serial ∉ s.cancelled
      rw [hmem q hq.2]
      exact h.fates.kept q hq.1

theorem Inv.executed (hexec : s.exec t = none)
    {r : CalloutTable τ α × Option (Nat × Int)} (hout : Outcome live s.ct t runtime' (some r)) :
    Inv live (s.executed t r) ∧ Executes s (s.executed t r) := by
  have h' : Inv live { s with ct := { s.ct with runtime := runtime' } } :=
    h.retime hout.ticking le_rfl hout.later h.clock
  rcases hout.result with ⟨heq, hahead⟩ | ⟨p, r', heq, hp, hdue, hclock, hlate, hscan⟩
  · rw [some.injEq] at heq
    subst heq
    have hidle : update s.exec t none = s.exec := by rw [← hexec, update_eq_self]
    refine ⟨?_, rfl, rfl, rfl, .inl ⟨rfl, hahead⟩⟩
    unfold CallState.executed
    rw [hidle]
    exact h'
  · rw [some.injEq] at heq
    subst heq
    obtain ⟨m, hm⟩ := h.records.entry p hp
    refine ⟨h'.start hp hdue hclock hlate hscan, rfl, rfl, rfl, .inr ⟨_, m, rfl, ?_, ?_⟩⟩
    · rw [mark_serial]
      exact hm.made
    · rw [hm.runtime, (due_iff.mp hdue).1]
      exact hlate

theorem Inv.execute (hs : s.execute t = some s') : (∃ live', Inv live' s') ∧ Executes s s' := by
  obtain ⟨hidle, hs⟩ := ite_none_right_eq_some.mp hs
  obtain ⟨r, hr, rfl⟩ := map_eq_some_iff.mp hs
  obtain ⟨runtime', hout⟩ := h.chains.ticking.calloutExecute t
  obtain ⟨hinv, hex⟩ := h.executed hidle.1 (hr ▸ hout)
  exact ⟨⟨live, hinv⟩, hex⟩

theorem Inv.resume (hs : s.resume t = some s') : (∃ live', Inv live' s') ∧ Executes s s' := by
  unfold CallState.resume at hs
  cases hexec : s.exec t with
  | none => simp [hexec] at hs
  | some pr =>
    obtain ⟨p, r⟩ := pr
    simp only [hexec] at hs
    obtain ⟨-, hs⟩ := ite_none_right_eq_some.mp hs
    obtain ⟨res, hres, rfl⟩ := map_eq_some_iff.mp hs
    obtain ⟨runtime', hout⟩ := (h.handlers t p r hexec).calloutResume h.chains
    obtain ⟨hinv, hex⟩ := (h.finish hexec).executed (update_self ..) (hres ▸ hout)
    -- What the thread does next does not depend on what it did before.
    have hsame : ({ s with
        ct := { s.ct.hashDelete p with
          mem := update s.ct.mem p { s.ct.mem p with xid := 0 } }
        exec := update s.exec t none } : CallState τ α).executed t res = s.executed t res := by
      obtain ⟨ct', _ | ⟨q, r'⟩⟩ := res
      all_goals simp only [CallState.executed, update_idem]
    rw [hsame] at hinv hex
    exact ⟨⟨_, hinv⟩, hex.curtime, hex.made, hex.cancelled, hex.ran⟩

/-- A thread that does not wait can enter `callout_execute`, or go on with it. -/
theorem Inv.enabled (hwait : s.wait t = none) :
    (if s.exec t = none then s.execute t else s.resume t).isSome = true := by
  unfold CallState.execute CallState.resume
  cases hexec : s.exec t with
  | none =>
    obtain ⟨_, hout⟩ := h.chains.ticking.calloutExecute t
    simpa [hwait] using hout.isSome
  | some pr =>
    obtain ⟨_, hout⟩ := (h.handlers t _ _ hexec).calloutResume h.chains
    simpa [hwait] using hout.isSome

end

variable [DecidableEq τ]

theorem Inv.step {op : CallOp τ α} (h : Inv live s) (hs : s.step op = some s') :
    (∃ live', Inv live' s') ∧ Moves s s' := by
  cases op with
  | tick =>
    have hs' : { s with lbolt := s.lbolt + 1 } = s' := some.inj hs
    subst hs'
    exact ⟨⟨live, h.tick⟩, Moves.of_eq le_rfl rfl rfl rfl⟩
  | schedule => exact ⟨⟨live, (h.schedule hs).1⟩, (h.schedule hs).2.1⟩
  | timeout alloc func delta => exact h.timeout hs
  | untimeout t id => exact h.untimeout hs
  | wakeup t => exact ⟨⟨live, (h.wakeup hs).1⟩, (h.wakeup hs).2⟩
  | execute t => exact ⟨(h.execute hs).1, (h.execute hs).2.moves⟩
  | resume t => exact ⟨(h.resume hs).1, (h.resume hs).2.moves⟩

theorem inv_of_reachable (hr : (callouts τ α).Reachable s) : ∃ live, Inv live s := by
  refine System.Reachable.invariant (callouts τ α) (fun s => ∃ live, Inv live s) ?_ ?_ s hr
  · exact fun s h => ⟨_, Init.inv h⟩
  · exact fun s s' op ⟨live, h⟩ hs => (h.step hs).1

end Sol7.CallState
