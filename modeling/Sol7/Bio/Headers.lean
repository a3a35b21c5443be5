import Sol7.Lib.System

/-!
# Buffer Headers

Model of `bio_bhdr_alloc` and `bio_bhdr_free` (`bio.c`). The free list is tested
under its lock, a new pool is built without it and put on the list under it
again. What is done under the lock is one step. The pool replaces what is on the
list by then, which other threads may have put there since the test.

A header is a number. Those of a pool get theirs when it is put on the list, as
nobody else sees them before.

## Main definitions

* `State`, `step`: The list, the headers handed out, and where the threads are.
* `Kept`: No header is lost.

## Theorems

* `bhdrs_kept`: None is lost while pools are put on empty lists.
* `bhdrs_lost`: Two threads find the list empty.
-/

namespace Sol7.Bio

open List Function

/-- `BIO_BHDR_POOL`, which `v.v_buf` is set to. -/
def vBuf : Nat := 100

/-- A thread begins the loop, has found the list empty, or has a new pool. -/
inductive Pc
  | top
  | empty
  | pool
  deriving DecidableEq

/-- The list, `nbuf`, the headers handed out, and where the threads are. -/
structure State (T : Type) where
  bhdrlist : List Nat
  nbuf : Nat
  out : List Nat
  pc : T → Pc

inductive Label (T : Type)
  | test (t : T)
  | zalloc (t : T) (ok : Bool)
  | install (t : T)
  | free (bp : Nat)

variable {T : Type} [DecidableEq T] {s s' : State T}

/-- The locked sections of `bio_bhdr_alloc`, the allocation between them, and
    `bio_bhdr_free`. -/
def step (s : State T) : Label T → Option (State T)
  | .test t =>
    if s.pc t ≠ .top then none
    else match s.bhdrlist with
      | bp :: rest => some { s with bhdrlist := rest, out := bp :: s.out }
      | [] => some { s with pc := update s.pc t .empty }
  -- Without memory, `bio_recycle` frees what it can, and the loop begins again.
  | .zalloc t ok =>
    if s.pc t ≠ .empty then none
    else some { s with pc := update s.pc t (if ok then .pool else .top) }
  | .install t =>
    if s.pc t ≠ .pool then none
    -- The list is not looked at again.
    else some ⟨range' (s.nbuf + 1) (vBuf - 1), s.nbuf + vBuf, s.nbuf :: s.out, update s.pc t .top⟩
  | .free bp =>
    if bp ∉ s.out then none
    else some { s with bhdrlist := bp :: s.bhdrlist, out := s.out.erase bp }

def headers (T : Type) [DecidableEq T] : System (State T) (Label T) :=
  ⟨fun s => s = ⟨[], 0, [], fun _ => .top⟩, step⟩

/-- Each of the headers is on the list once, or it is handed out once. -/
def Kept (s : State T) : Prop := (s.bhdrlist ++ s.out).Perm (range s.nbuf)

/-- A pool is put on an empty list. -/
def OnEmpty (s : State T) : Label T → Prop
  | .install _ => s.bhdrlist = []
  | _ => True

theorem install_kept {t : T} (h : Kept s) (hs : step s (.install t) = some s') :
    Kept s' ↔ s.bhdrlist = [] := by
  simp only [step] at hs
  split_ifs at hs
  cases hs
  constructor
  · intro h'
    have hlen := h.length_eq
    have hlen' := h'.length_eq
    -- What was on the list is counted in `nbuf`, but neither on the list nor handed out.
    simp only [vBuf, length_append, length_range', length_cons, length_range] at hlen hlen'
    exact length_eq_zero_iff.mp (by omega)
  · intro hnil
    rw [Kept, hnil] at h
    refine perm_middle.trans ?_
    change Perm (range' s.nbuf vBuf ++ s.out) _
    rw [range_add]
    exact perm_append_comm.trans (h.append_right _)

theorem step_kept {a : Label T} (h : Kept s) (ha : OnEmpty s a) (hs : step s a = some s') :
    Kept s' := by
  cases a with
  | install t => exact (install_kept h hs).mpr ha
  | test t =>
    simp only [step] at hs
    split_ifs at hs
    split at hs <;> cases hs
    · next hl =>
      rw [Kept, hl] at h
      exact perm_middle.trans h
    · exact h
  | zalloc t ok =>
    simp only [step] at hs
    split_ifs at hs <;> cases hs <;> exact h
  | free bp =>
    simp only [step] at hs
    split_ifs at hs with hout
    cases hs
    exact (perm_middle.symm.trans ((perm_cons_erase hout).symm.append_left _)).trans h

/-- No header is lost in the runs that put pools on empty lists, and one more pool
    loses none if and only if the list is empty. -/
theorem bhdrs_kept (s : State T) (hr : (headers T).ReachableVia OnEmpty s) :
    Kept s ∧ ∀ t s', step s (.install t) = some s' → (Kept s' ↔ s.bhdrlist = []) := by
  have h : Kept s := by
    refine System.ReachableVia.invariant _ _ Kept ?_ (fun _ _ _ => step_kept) s hr
    rintro s rfl
    exact .refl _
  exact ⟨h, fun _ _ => install_kept h⟩

/-- The second thread gets no memory, then a header of the first one's pool. The
    first one frees its header. -/
theorem bhdrs_kept_two : ∃ s, (headers Bool).ReachableVia OnEmpty s ∧ s.nbuf = 100 ∧
    s.out = [1] ∧ Kept s := by
  have h0 : (headers Bool).ReachableVia OnEmpty _ := .init _ rfl
  have h1 := h0.step _ _ (Label.test true) trivial rfl
  have h2 := h1.step _ _ (Label.test false) trivial rfl
  have h3 := h2.step _ _ (Label.zalloc true true) trivial rfl
  have h4 := h3.step _ _ (Label.zalloc false false) trivial rfl
  have h5 := h4.step _ _ (Label.install true) rfl rfl
  have h6 := h5.step _ _ (Label.test false) trivial rfl
  have h7 := h6.step _ _ (Label.free 0) trivial rfl
  exact ⟨_, h7, rfl, rfl, (bhdrs_kept _ h7).1⟩

/-- The pool of the second thread replaces what is left of the first one's. -/
theorem bhdrs_lost : ∃ s, (headers Bool).Reachable s ∧ s.nbuf = 200 ∧ 1 ∉ s.bhdrlist ++ s.out :=
  ⟨_, System.reachable_get (headers Bool) [.test true, .test false, .zalloc true true,
    .zalloc false true, .install true, .install false] _ rfl rfl, rfl, by decide +kernel⟩

end Sol7.Bio
