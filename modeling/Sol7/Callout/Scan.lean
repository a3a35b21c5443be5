import Sol7.Callout.Model

/-!
# Scanning the Callout Chains

What the loops of `callout_execute` and `callout_schedule_1` do to a table. The
time of a table only moves past a time when no callout is due at it, so a
callout that waits is never left behind. A scan that was interrupted by a
handler goes on behind its callout, and in front of that one nothing is due at
the time of the scan.

## Main definitions

* `CalloutId.IsId`: An id that was issued.
* `CalloutTable.Ticking`: The time of a table has not passed a callout.
* `CalloutTable.Scanned`: Nothing is due in front of a callout.

## Theorems

* `CalloutTable.executeLoop_outcome`: The loops find a callout that is due, or
  the time of the table passes the clock.
* `CalloutTable.scheduleLoop_outcome`: The same for a clock tick.
-/

namespace Sol7

open List Nat

namespace CalloutId

variable {x y : CalloutId}

/-- Ids have the high bit of the counter set, and no mark. -/
def IsId (x : CalloutId) : Prop := 2 ^ 29 ≤ x.toNat ∧ x.toNat < 2 ^ 31

theorem toNat_mark (h : x.toNat < 2 ^ 31) : (x ||| executingBit).toNat = x.toNat + 2 ^ 31 := by
  have hor := two_pow_add_eq_or_of_lt h 1
  rw [BitVec.toNat_or, Nat.or_comm, show executingBit.toNat = 2 ^ 31 * 1 by decide]
  omega

theorem executing_iff : x.executing = true ↔ 2 ^ 31 ≤ x.toNat := by
  have hand : (x &&& executingBit).toNat = (x.toNat.testBit 31).toNat * 2 ^ 31 := by
    rw [BitVec.toNat_and, show executingBit.toNat = 2 ^ 31 by decide, and_two_pow]
  unfold executing
  rw [bne_iff_ne, ne_eq, ← BitVec.toNat_inj, hand, testBit_eq_decide_div_mod_eq]
  by_cases hd : x.toNat / 2 ^ 31 % 2 = 1
  · rw [decide_eq_true hd]
    refine ⟨fun _ => by omega, fun _ => by decide⟩
  · rw [decide_eq_false hd]
    refine ⟨fun hne => absurd (by decide) hne, fun hle => by omega⟩

theorem executing_mark (h : x.toNat < 2 ^ 31) : (x ||| executingBit).executing = true := by
  rw [executing_iff, toNat_mark h]
  omega

theorem IsId.not_executing (h : IsId x) : x.executing = false := by
  rw [← Bool.not_eq_true, executing_iff]
  exact Nat.not_le_of_lt h.2

theorem hash_mark (h : x.toNat < 2 ^ 31) : (x ||| executingBit).hash = x.hash := by
  unfold hash
  rw [toNat_mark h]
  omega

theorem IsId.next (h : IsId x) : IsId x.next := by
  have hsub : (x - counterLow).toNat < 2 ^ 31 := by
    rw [BitVec.toNat_sub, show counterLow.toNat = 16 by decide]
    have := h.1
    have := h.2
    omega
  exact ⟨right_le_or, or_lt_two_pow hsub (by decide)⟩

end CalloutId

namespace CalloutTable

open CalloutTable

variable {τ α : Type} {ct : CalloutTable τ α} {live : Nat → Prop}

/-- The time of a table has not passed a callout that waits, and is at most one
    tick ahead of the clock. -/
structure Ticking (live : Nat → Prop) (ct : CalloutTable τ α) : Prop where
  lb : Chained (fun p => lbHash (ct.mem p).runtime) live ct.lbhash
  pending : ∀ p, live p → (ct.mem p).xid.executing = false → ct.runtime ≤ (ct.mem p).runtime
  clock : ct.runtime ≤ ct.curtime + 1

/-- Nothing is due in front of a callout. -/
def Scanned (ct : CalloutTable τ α) (runtime : Int) (cp : Nat) : Prop :=
  ∃ pre post, ct.lbhash (lbHash runtime) = pre ++ cp :: post ∧ ∀ q ∈ pre, ct.due runtime q = false

theorem due_iff {runtime : Int} {p : Nat} : ct.due runtime p = true ↔
    (ct.mem p).runtime = runtime ∧ (ct.mem p).xid.executing = false := by
  simp only [due, Bool.and_eq_true, beq_iff_eq, Bool.not_eq_true']

/-- If nothing is due, the time of the table may go on. -/
theorem Ticking.turn (h : Ticking live ct) (hclock : ct.runtime ≤ ct.curtime)
    (hnone : ∀ p ∈ ct.lbhash (lbHash ct.runtime), ct.due ct.runtime p = false) :
    Ticking live { ct with runtime := ct.runtime + 1 } := by
  refine ⟨h.lb, fun p hp hx => ?_, by change ct.runtime + 1 ≤ ct.curtime + 1; omega⟩
  have hle := h.pending p hp hx
  by_contra hlt
  have heq : (ct.mem p).runtime = ct.runtime := by
    change ¬ct.runtime + 1 ≤ (ct.mem p).runtime at hlt
    omega
  have hmem : p ∈ ct.lbhash (lbHash ct.runtime) := (h.lb.mem _ p).mpr ⟨hp, by rw [heq]⟩
  exact absurd (hnone p hmem) (by rw [due_iff.mpr ⟨heq, hx⟩]; decide)

/-- The end of a scan, when nothing is due at its time. One of the times that
    the loops can turn for is over. -/
theorem Ticking.advance {runtime : Int} (h : Ticking live ct) (hle : runtime ≤ ct.curtime)
    (hnone : ∀ p ∈ ct.lbhash (lbHash runtime), ct.due runtime p = false) :
    Ticking live (ct.advance runtime) ∧
      ct.advance runtime = { ct with runtime := (ct.advance runtime).runtime } ∧
      ct.runtime ≤ (ct.advance runtime).runtime ∧
      (ct.curtime + 1 - (ct.advance runtime).runtime).toNat + 1 ≤
        (ct.curtime + 1 - ct.runtime).toNat + (if runtime = ct.runtime then 0 else 1) := by
  unfold CalloutTable.advance
  by_cases heq : ct.runtime = runtime
  · subst heq
    simp only [if_true]
    exact ⟨h.turn hle hnone, trivial, by omega, by omega⟩
  · simp only [if_neg heq, if_neg fun h => heq (Eq.symm h)]
    exact ⟨h, trivial, le_rfl, le_rfl⟩

/-- What the loops of `callout_execute` come to. -/
structure Outcome (live : Nat → Prop) (ct : CalloutTable τ α) (t : τ) (runtime' : Int)
    (r : Option (CalloutTable τ α × Option (Nat × Int))) : Prop where
  later : ct.runtime ≤ runtime'
  ticking : Ticking live { ct with runtime := runtime' }
  result : (r = some ({ ct with runtime := runtime' }, none) ∧ ct.curtime < runtime') ∨
    ∃ cp runtime, r = some (({ ct with runtime := runtime' } : CalloutTable τ α).mark t cp,
        some (cp, runtime)) ∧
      live cp ∧ ct.due runtime cp = true ∧ runtime ≤ ct.curtime ∧ runtime ≤ runtime' ∧
      ct.Scanned runtime cp

/-- The fuel is enough. -/
theorem Outcome.isSome {runtime' : Int} {r : Option (CalloutTable τ α × Option (Nat × Int))}
    (h : Outcome live ct t runtime' r) : r.isSome = true := by
  rcases h.result with ⟨rfl, -⟩ | ⟨_, _, rfl, -⟩ <;> rfl

/-- From any place of a scan, the loops find a callout that is due, or the time
    of the table passes the clock. -/
theorem executeLoop_outcome (t : τ) (fuel : Nat) : ∀ (ct : CalloutTable τ α) (runtime : Int)
    (pre cps : List Nat), Ticking live ct → runtime ≤ ct.curtime → runtime ≤ ct.runtime →
    ct.lbhash (lbHash runtime) = pre ++ cps → (∀ q ∈ pre, ct.due runtime q = false) →
    (ct.curtime + 1 - ct.runtime).toNat + (if runtime = ct.runtime then 0 else 1) ≤ fuel →
    ∃ runtime', Outcome live ct t runtime' (executeLoop t fuel ct runtime cps) := by
  induction fuel with
  | zero =>
    intro ct runtime pre cps h hle hlate hcps hpre hfuel
    by_cases heq : runtime = ct.runtime
    · omega
    · rw [if_neg heq] at hfuel
      omega
  | succ fuel ih =>
    intro ct runtime pre cps h hle hlate hcps hpre hfuel
    rw [executeLoop]
    cases hfind : cps.find? (ct.due runtime) with
    | some cp =>
      obtain ⟨hdue, mid, post, rfl, hmid⟩ := find?_eq_some_iff_append.mp hfind
      refine ⟨ct.runtime, le_rfl, h, .inr ⟨cp, runtime, rfl, ?_, hdue, hle,
        hlate, pre ++ mid, post, by rw [hcps, append_assoc], fun q hq => ?_⟩⟩
      · refine ((h.lb.mem (lbHash runtime) cp).mp ?_).1
        rw [hcps]
        simp
      · rcases mem_append.mp hq with hq | hq
        · exact hpre q hq
        · simpa using hmid q hq
    | none =>
      have hnone : ∀ p ∈ ct.lbhash (lbHash runtime), ct.due runtime p = false := by
        intro p hp
        rw [hcps] at hp
        rcases mem_append.mp hp with hp | hp
        · exact hpre p hp
        · simpa using find?_eq_none.mp hfind p hp
      -- Whoever advances the time, the loop goes on with the time of the table.
      have hgo : ∀ ct', Ticking live ct' → ct' = { ct with runtime := ct'.runtime } →
          ct.runtime ≤ ct'.runtime → (ct'.curtime + 1 - ct'.runtime).toNat ≤ fuel →
          ∃ runtime', Outcome live ct t runtime'
            (if ct'.runtime - ct'.curtime ≤ 0 then
              executeLoop t fuel ct' ct'.runtime
                (ct'.lbhash (lbHash ct'.runtime))
            else some (ct', none)) := by
        intro ct' h' heq hlater hfuel'
        by_cases hon : ct'.runtime - ct'.curtime ≤ 0
        · rw [if_pos hon]
          obtain ⟨runtime', hlater', hticking, hresult⟩ :=
              ih ct' ct'.runtime [] _ h' (by omega) le_rfl rfl
            nofun (by simpa using hfuel')
          refine ⟨runtime', by omega, ?_, ?_⟩
          · rw [heq] at hticking
            exact hticking
          · rw [heq] at hresult ⊢
            exact hresult
        · rw [if_neg hon]
          refine ⟨ct'.runtime, hlater, heq ▸ h', .inl ⟨by rw [← heq], ?_⟩⟩
          have : ct'.curtime = ct.curtime := by rw [heq]
          omega
      obtain ⟨hticking, heq, hlater, hless⟩ := h.advance hle hnone
      have hsame : (ct.advance runtime).curtime = ct.curtime := by rw [heq]
      exact hgo (ct.advance runtime) hticking heq hlater (by rw [hsame]; omega)

/-- `callout_execute`, up to the first handler. -/
theorem Ticking.calloutExecute (h : Ticking live ct) (t : τ) :
    ∃ runtime', Outcome live ct t runtime' (ct.calloutExecute t) := by
  unfold CalloutTable.calloutExecute
  by_cases hon : ct.runtime - ct.curtime ≤ 0
  · rw [if_pos hon]
    refine executeLoop_outcome t _ ct ct.runtime [] _ h (by omega) le_rfl rfl
      nofun ?_
    rw [if_pos rfl]
    unfold executeFuel
    omega
  · rw [if_neg hon]
    exact ⟨ct.runtime, le_rfl, h, .inl ⟨rfl, by omega⟩⟩

theorem scheduleLoop_outcome (fuel : Nat) : ∀ ct : CalloutTable τ α, Ticking live ct →
    (ct.curtime + 1 - ct.runtime).toNat < fuel → ∃ runtime' b, ct.runtime ≤ runtime' ∧
      scheduleLoop fuel ct = some ({ ct with runtime := runtime' }, b) ∧
      Ticking live { ct with runtime := runtime' } := by
  induction fuel with
  | zero => exact nofun
  | succ fuel ih =>
    intro ct h hfuel
    rw [scheduleLoop]
    by_cases hon : ct.runtime - ct.curtime ≤ 0
    · rw [if_pos hon]
      by_cases hany : (ct.lbhash (lbHash ct.runtime)).any (ct.due ct.runtime) = true
      · rw [if_pos hany]
        exact ⟨ct.runtime, true, le_rfl, rfl, h⟩
      rw [if_neg hany]
      have hnone : ∀ p ∈ ct.lbhash (lbHash ct.runtime), ct.due ct.runtime p = false := by
        simpa using hany
      have hless : (ct.curtime + 1 - (ct.runtime + 1)).toNat < fuel := by omega
      obtain ⟨runtime', b, hle, heq, hticking⟩ := ih _ (h.turn (by omega) hnone) hless
      refine ⟨runtime', b, ?_, heq, hticking⟩
      change ct.runtime + 1 ≤ runtime' at hle
      omega
    · rw [if_neg hon]
      exact ⟨ct.runtime, false, le_rfl, rfl, h⟩

end CalloutTable

end Sol7
