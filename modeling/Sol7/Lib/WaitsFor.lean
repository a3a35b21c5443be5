import Mathlib

/-!
# Waiting Without a Cycle

Each thing waits for at most one other, and following that never comes back. The
rank of a thing is what rules a cycle out: whatever it waits for has a smaller
one.

## Main definitions

* `Ranked`: Waiting has no cycle.
* `follow`: The things met on the way from one, up to a number of steps.
* `Path`: All the things met on the way from one.

## Theorems

* `Ranked.exists_path`: The way from a thing ends.
* `Path.length_le_card`: It meets no thing twice.
* `Ranked.wait`: A thing that is not met begins to wait.
* `Ranked.stop`: A thing stops to wait, and others may wait for it.
-/

namespace Sol7.WaitsFor

open List Option Function

variable {T : Type*} (next : T → Option T)

/-- Waiting has no cycle. -/
def Ranked : Prop := ∃ rank : T → Nat, ∀ t u, next t = some u → rank u < rank t

/-- The things met on the way from one, up to a number of steps. -/
def follow : Nat → Option T → List T
  | 0, _ => []
  | _ + 1, none => []
  | n + 1, some t => t :: follow n (next t)

/-- All the things met on the way from one. -/
inductive Path : T → List T → Prop
  | stop (t : T) (h : next t = none) : Path t [t]
  | step (t u : T) (l : List T) (h : next t = some u) (hp : Path u l) : Path t (t :: l)

variable {next}

/-- The way from a thing ends. -/
theorem Ranked.exists_path (h : Ranked next) (t : T) : ∃ l, Path next t l := by
  obtain ⟨rank, hrank⟩ := h
  -- The rank goes down with each step.
  induction hn : rank t using Nat.strong_induction_on generalizing t with
  | _ n ih =>
    cases hnext : next t with
    | none => exact ⟨[t], .stop t hnext⟩
    | some u =>
      obtain ⟨l, hl⟩ := ih (rank u) (hn ▸ hrank t u hnext) u rfl
      exact ⟨t :: l, .step t u l hnext hl⟩

variable {l : List T} {t u : T}

/-- What is met later has a smaller rank. -/
theorem Path.rank_le {rank : T → Nat} (hrank : ∀ t u, next t = some u → rank u < rank t)
    (h : Path next t l) : ∀ u ∈ l, rank u ≤ rank t := by
  induction h with
  | stop t _ =>
    intro u hu
    rw [mem_singleton] at hu
    rw [hu]
  | step t v l hnext _ ih =>
    intro u hu
    rcases mem_cons.mp hu with rfl | hu
    · exact le_rfl
    · have h1 := ih u hu
      have h2 := hrank t v hnext
      omega

theorem Path.nodup (hr : Ranked next) (h : Path next t l) : l.Nodup := by
  obtain ⟨rank, hrank⟩ := hr
  induction h with
  | stop t _ => exact nodup_singleton t
  | step t v l hnext hp ih =>
    refine nodup_cons.mpr ⟨?_, ih⟩
    intro ht
    have h1 := hp.rank_le hrank t ht
    have h2 := hrank t v hnext
    omega

/-- The way from a thing is no longer than there are things. -/
theorem Path.length_le_card [Fintype T] (hr : Ranked next) (h : Path next t l) :
    l.length ≤ Fintype.card T :=
  (h.nodup hr).length_le_card

/-- With enough steps, everything on the way is met. -/
theorem follow_eq (h : Path next t l) : ∀ n, l.length ≤ n → follow next n (some t) = l := by
  induction h with
  | stop t hnext =>
    intro n hn
    obtain ⟨n, rfl⟩ : ∃ m, n = m + 1 := ⟨n - 1, by rw [length_singleton] at hn; omega⟩
    rw [follow, hnext]
    cases n <;> rfl
  | step t v l hnext _ ih =>
    intro n hn
    rw [length_cons] at hn
    obtain ⟨n, rfl⟩ : ∃ m, n = m + 1 := ⟨n - 1, by omega⟩
    rw [follow, hnext, ih n (by omega)]

/-- Being met on the way is being reached. -/
theorem Path.mem_of_reflTransGen (hreach : Relation.ReflTransGen (fun a b => next a = some b) t u) :
    ∀ {l : List T}, Path next t l → u ∈ l := by
  induction hreach using Relation.ReflTransGen.head_induction_on with
  | refl =>
    intro l h
    cases h with
    | stop => exact mem_singleton.mpr rfl
    | step => exact mem_cons_self
  | head hab _ ih =>
    intro l h
    cases h with
    | stop _ hnone =>
      rw [hab] at hnone
      cases hnone
    | step _ v l hsome hp =>
      obtain rfl := some.inj (hab.symm.trans hsome)
      exact mem_cons_of_mem _ (ih hp)

variable [DecidableEq T]

/-- A thing that is not met on the way from another begins to wait for it. -/
theorem Ranked.wait [Fintype T] (h : Ranked next) {u : Option T}
    (hfree : t ∉ follow next (Fintype.card T) u) : Ranked (update next t u) := by
  classical
  cases u with
  | none =>
    obtain ⟨rank, hrank⟩ := h
    refine ⟨rank, ?_⟩
    intro a b hab
    by_cases ha : a = t
    · rw [ha, update_self] at hab
      cases hab
    · rw [update_of_ne ha] at hab
      exact hrank a b hab
  | some u =>
    obtain ⟨l, hl⟩ := h.exists_path u
    rw [follow_eq hl _ (hl.length_le_card h)] at hfree
    obtain ⟨rank, hrank⟩ := h
    -- All that come by `t` are lifted above `u`.
    let above : T → Prop := fun a => Relation.ReflTransGen (fun a b => next a = some b) a t
    refine ⟨fun a => if above a then rank a + rank u + 1 else rank a, ?_⟩
    intro a b hab
    by_cases ha : a = t
    · rw [ha, update_self] at hab
      cases hab
      have hu : ¬above u := fun hreach => hfree (hl.mem_of_reflTransGen hreach)
      have ht : above a := ha ▸ Relation.ReflTransGen.refl
      simp only [if_neg hu, if_pos ht]
      omega
    · rw [update_of_ne ha] at hab
      have hlt := hrank a b hab
      by_cases hb : above b
      · have hab' : above a := Relation.ReflTransGen.head hab hb
        simp only [if_pos hb, if_pos hab']
        omega
      · by_cases hab' : above a
        · simp only [if_neg hb, if_pos hab']
          omega
        · simp only [if_neg hb, if_neg hab']
          exact hlt

omit [DecidableEq T] in
/-- Something that does not wait may be waited for by others, and others may stop
    to wait. -/
theorem Ranked.stop {next' : T → Option T} (h : Ranked next) (t : Option T)
    (hstop : ∀ u, t = some u → next' u = none)
    (hold : ∀ a b, next' a = some b → next a = some b ∨ t = some b) : Ranked next' := by
  classical
  obtain ⟨rank, hrank⟩ := h
  refine ⟨fun a => if t = some a then 0 else rank a + 1, ?_⟩
  intro a b hab
  have ha : t ≠ some a := by
    intro ha
    rw [hstop a ha] at hab
    cases hab
  simp only [if_neg ha]
  by_cases hb : t = some b
  · simp only [if_pos hb]
    omega
  rcases hold a b hab with h | h
  · have := hrank a b h
    simp only [if_neg hb]
    omega
  · exact absurd h hb

end Sol7.WaitsFor
