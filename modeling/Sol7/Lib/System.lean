import Mathlib

/-!
# Labelled Systems and Their Runs

A system is an initial predicate and a partial step function over a type of
labels. One label is one atomic step of some thread or party, so a list of
labels is one interleaving, and a statement about every run is a statement
about every interleaving.

Two notions of reachability are kept apart. `Reachable` is every state of
every run. `ReachableVia P` is every state of those runs whose steps all
satisfy `P`, where `P` may read the state before the step and the label; it
is what a statement of the form "in every run that never does such and such"
is made of.

## Main definitions

* `System`: Initial states and a partial labelled step.
* `System.exec`: Running a list of labels.
* `System.Reachable`: States of arbitrary runs.
* `System.ReachableVia`: States of runs whose steps all satisfy a condition.

## Theorems

* `System.Reachable.invariant`: Induction along runs.
* `System.ReachableVia.invariant`: The same for conditional runs.
* `System.reachable_of_exec`: A computed run witnesses reachability.
-/

namespace Sol7

open Option

/-- A labelled transition system with a partial step function. -/
structure System (σ α : Type*) where
  init : σ → Prop
  step : σ → α → Option σ

namespace System

variable {σ α : Type*}

/-- Run a list of labels from a state, stopping at a step that is not
    enabled. -/
def exec (S : System σ α) : σ → List α → Option σ
  | s, [] => some s
  | s, a :: as => (S.step s a).bind fun s' => exec S s' as

/-- The states of the runs whose every step satisfies `P`. -/
inductive ReachableVia (S : System σ α) (P : σ → α → Prop) : σ → Prop
  | init (s : σ) (h : S.init s) : ReachableVia S P s
  | step (s s' : σ) (a : α) (hr : ReachableVia S P s) (hp : P s a)
      (hs : S.step s a = some s') : ReachableVia S P s'

variable (S : System σ α)

/-- The states of all runs. -/
def Reachable : σ → Prop := ReachableVia S fun _ _ => True

/-- The induction rule for conditional runs: what holds initially and
    survives every step that meets the condition holds in every state. -/
theorem ReachableVia.invariant (P : σ → α → Prop) (I : σ → Prop)
    (hinit : ∀ s, S.init s → I s) (hstep : ∀ s s' a, I s → P s a → S.step s a = some s' → I s')
    (s : σ) (hr : ReachableVia S P s) : I s := by
  induction hr with
  | init s h => exact hinit s h
  | step s s' a _ hp hs ih => exact hstep s s' a ih hp hs

/-- The induction rule for arbitrary runs. -/
theorem Reachable.invariant (I : σ → Prop) (hinit : ∀ s, S.init s → I s)
    (hstep : ∀ s s' a, I s → S.step s a = some s' → I s') (s : σ) (hr : Reachable S s) : I s :=
  ReachableVia.invariant S _ I hinit (fun s s' a hi _ hs => hstep s s' a hi hs) s hr

theorem Reachable.of_init (s : σ) (h : S.init s) : Reachable S s :=
  .init s h

theorem Reachable.of_step (s s' : σ) (a : α) (hr : Reachable S s)
    (hs : S.step s a = some s') : Reachable S s' :=
  .step s s' a hr trivial hs

/-- Executing labels from a reachable state stays reachable. -/
theorem Reachable.of_exec (as : List α) :
    ∀ (s s' : σ), Reachable S s → S.exec s as = some s' → Reachable S s' := by
  induction as with
  | nil =>
    intro s s' hr h
    simp only [exec, some.injEq] at h
    exact h ▸ hr
  | cons a as ih =>
    intro s s' hr h
    simp only [exec, bind_eq_some_iff] at h
    obtain ⟨t, hst, hts⟩ := h
    exact ih t s' (.of_step S s t a hr hst) hts

/-- A computed run from an initial state witnesses reachability. -/
theorem reachable_of_exec (as : List α) (s s' : σ) (hi : S.init s)
    (h : S.exec s as = some s') : Reachable S s' :=
  .of_exec S as s s' (.of_init S s hi) h

/-- The state a run of labels ends in, when every label is enabled. -/
theorem reachable_get (as : List α) (s : σ) (hi : S.init s)
    (h : (S.exec s as).isSome = true) : Reachable S ((S.exec s as).get h) :=
  reachable_of_exec S as s _ hi (some_get h).symm

end System

end Sol7
