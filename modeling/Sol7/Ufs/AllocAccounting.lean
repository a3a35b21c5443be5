import Sol7.Ufs.AllocCalls

/-!
# Cylinder Group Accounting

Every call keeps the counters right, so they are right after any run. A fragment
that is handed out is free before and is not free after, and only a call that
frees it makes it free again, so between two calls that hand it out there is one
that frees it.

## Main definitions

* `groups`: The runs of the calls.
* `HandsOut`, `Call.Frees`: What a call hands out, and what it frees.
* `refused`: The end of a `free` that reports an inconsistency.

## Theorems

* `step_cases`: What a call can do.
* `not_free_exec`: What is not free stays so until it is freed.
* `cg_accounting`: The counters are right, and nothing is handed out twice.
* `free_refused_iff`: What a call that is refused leaves behind.
-/

namespace Sol7.Alloc

open List Option

open Prod (fst mk snd)

open Runs

section
variable {fs : Fs} {s s' : State}

/-- The runs of the calls, from any state whose counters are right. -/
def groups (fs : Fs) : System State Call where
  init := Consistent fs
  step := fun s c => if c.Ok fs s then (call fs s c).map fst else none

/-- The fragments that a call hands out, by what it returns. -/
def Call.Handed (fs : Fs) (r f : Nat) : Call → Prop
  | .alloccg _ _ _ size => r ≠ 0 ∧ r ≤ f ∧ f < r + numfrags fs size
  | .fragextend _ _ bprev osize nsize =>
    r ≠ 0 ∧ bprev + numfrags fs osize ≤ f ∧ f < bprev + numfrags fs nsize
  | .free _ _ => False

/-- A call hands out a fragment. -/
def HandsOut (fs : Fs) (s : State) (c : Call) (f : Nat) : Prop :=
  c.Ok fs s ∧ ∃ s' r, call fs s c = some (s', r) ∧ c.Handed fs r f

/-- A call frees a fragment. -/
def Call.Frees (fs : Fs) (f : Nat) : Call → Prop
  | .free bno size => bno ≤ f ∧ f < bno + numfrags fs size
  | _ => False

variable {c : Call} {r f : Nat}

/-- A call takes fragments, among them those that it hands out, or it puts back
    those that it frees. -/
theorem call_cases (hc : Consistent fs s) (hok : c.Ok fs s) (heq : call fs s c = some (s', r)) :
    Consistent fs s' ∧
      ((∃ lo n, Took fs s s' lo n ∧ ∀ f, c.Handed fs r f → lo ≤ f ∧ f < lo + n) ∨
        ∀ f, ¬c.Handed fs r f ∧ (s'.Free fs f ↔ s.Free fs f ∨ c.Frees fs f)) := by
  cases c with
  | alloccg cancel cg bpref size =>
    obtain ⟨r', hr', hc', lo, n, htook, hret⟩ := alloccg_ok hc cancel bpref hok
    obtain rfl := some.inj (hr'.symm.trans heq)
    refine ⟨hc', .inl ⟨lo, n, htook, ?_⟩⟩
    rintro f ⟨hne, h1, h2⟩
    obtain ⟨rfl, rfl⟩ := hret hne
    exact ⟨h1, h2⟩
  | fragextend cancel cg bprev osize nsize =>
    obtain ⟨hc', lo, n, htook, hret⟩ := fragextend_ok hc hok
    have hr := some.inj heq
    rw [hr] at hc' htook hret
    refine ⟨hc', .inl ⟨lo, n, htook, ?_⟩⟩
    rintro f ⟨hne, h1, h2⟩
    obtain ⟨rfl, rfl⟩ := hret hne
    exact ⟨h1, by omega⟩
  | free bno size =>
    obtain ⟨s1, hs1, hpair⟩ := map_eq_some_iff.mp heq
    obtain ⟨rfl, -⟩ := mk.inj hpair
    obtain ⟨hc', hgave⟩ := free_ok hc hok hs1
    exact ⟨hc', .inr fun f => ⟨not_false, hgave f⟩⟩

/-- A step is a call. -/
theorem step_eq (hstep : (groups fs).step s c = some s') :
    c.Ok fs s ∧ ∃ r, call fs s c = some (s', r) := by
  change (if c.Ok fs s then (call fs s c).map fst else none) = some s' at hstep
  split at hstep
  · next hok =>
    obtain ⟨⟨s1, r⟩, hcall, rfl⟩ := map_eq_some_iff.mp hstep
    exact ⟨hok, r, hcall⟩
  · cases hstep

theorem consistent_step (c : Call) (hc : Consistent fs s)
    (hstep : (groups fs).step s c = some s') : Consistent fs s' := by
  obtain ⟨hok, r, hcall⟩ := step_eq hstep
  exact (call_cases hc hok hcall).1

/-- The counters are right after any run. -/
theorem consistent_reachable (hr : System.Reachable (groups fs) s) : Consistent fs s :=
  System.Reachable.invariant (groups fs) (Consistent fs) (fun _ h => h)
    (fun _ _ c hc hstep => consistent_step c hc hstep) s hr

/-- What is handed out was free, and is not free any more. -/
theorem handsOut_free (hc : Consistent fs s) (hout : HandsOut fs s c f) :
    s.Free fs f ∧ ∀ s', (groups fs).step s c = some s' → ¬s'.Free fs f := by
  obtain ⟨hok, s1, r, hcall, hhanded⟩ := hout
  rcases (call_cases hc hok hcall).2 with ⟨lo, n, htook, hin⟩ | hgave
  · obtain ⟨h1, h2⟩ := hin f hhanded
    refine ⟨htook.was f h1 h2, ?_⟩
    intro s' hstep hfree
    obtain ⟨-, r', hcall'⟩ := step_eq hstep
    obtain ⟨rfl, -⟩ := mk.inj (some.inj (hcall.symm.trans hcall'))
    exact ((htook.now f).mp hfree).2 ⟨h1, h2⟩
  · exact absurd hhanded (hgave f).1

/-- What is not free stays so in a step that does not free it. -/
theorem not_free_step (hc : Consistent fs s) (hnot : ¬s.Free fs f) (hkeep : ¬c.Frees fs f)
    (hstep : (groups fs).step s c = some s') : ¬s'.Free fs f := by
  obtain ⟨hok, r, hcall⟩ := step_eq hstep
  rcases (call_cases hc hok hcall).2 with ⟨lo, n, htook, -⟩ | hgave
  · exact fun hfree => hnot ((htook.now f).mp hfree).1
  · intro hfree
    rcases (hgave f).2.mp hfree with h | h
    · exact hnot h
    · exact hkeep h

/-- What is not free stays so until it is freed. -/
theorem not_free_exec : ∀ (cs : List Call) (s s' : State), Consistent fs s →
    ¬s.Free fs f → (∀ c ∈ cs, ¬c.Frees fs f) → (groups fs).exec s cs = some s' →
    Consistent fs s' ∧ ¬s'.Free fs f := by
  intro cs
  induction cs with
  | nil =>
    intro s s' hc hnot _ hexec
    cases hexec
    exact ⟨hc, hnot⟩
  | cons c cs ih =>
    intro s s' hc hnot hkeep hexec
    obtain ⟨s1, hstep, hexec⟩ := bind_eq_some_iff.mp hexec
    exact ih s1 s' (consistent_step c hc hstep)
      (not_free_step hc hnot (hkeep c mem_cons_self) hstep)
      (fun c' hc' => hkeep c' (mem_cons_of_mem _ hc')) hexec

/-- After any run of allocations, extensions and frees, the counters of every
    cylinder group and of the file system are right. A call that allocates or
    extends returns; the fragments that it hands out were free; and they are not
    handed out again before they have been freed. -/
theorem cg_accounting (hr : System.Reachable (groups fs) s) : Consistent fs s ∧
    (∀ c : Call, c.Ok fs s → (∀ bno size, c ≠ .free bno size) →
      ((groups fs).step s c).isSome) ∧
    (∀ c f, HandsOut fs s c f → s.Free fs f) ∧
    ∀ c c' cs s1 s2 f, (groups fs).step s c = some s1 → HandsOut fs s c f →
      (groups fs).exec s1 cs = some s2 → (∀ a ∈ cs, ¬a.Frees fs f) → ¬HandsOut fs s2 c' f := by
  have hc := consistent_reachable hr
  refine ⟨hc, ?_, fun c f hout => (handsOut_free hc hout).1, ?_⟩
  · intro c hok halloc
    change (if c.Ok fs s then (call fs s c).map fst else none).isSome = true
    rw [if_pos hok]
    cases c with
    | alloccg cancel cg bpref size =>
      obtain ⟨r, hr, -⟩ := alloccg_ok hc cancel bpref hok
      rw [call, hr]
      rfl
    | fragextend cancel cg bprev osize nsize => rfl
    | free bno size => exact absurd rfl (halloc bno size)
  · intro c c' cs s1 s2 f hstep hout hexec hkeep hagain
    have hnot := (handsOut_free hc hout).2 s1 hstep
    obtain ⟨hc2, hnot2⟩ := not_free_exec cs s1 s2 (consistent_step c hc hstep) hnot hkeep hexec
    exact hnot2 (handsOut_free hc2 hagain).1

/-- A group of which nothing is free. -/
def usedCg (g : Nat) : Cg := ⟨g, ⟨0, 0⟩, 0, 0, fun _ => 0, fun _ => 0, fun _ _ => 0, fun _ => 0#8⟩

/-- A file system of which nothing is free. -/
def usedState : State := ⟨usedCg, fun _ => ⟨0, 0⟩, ⟨0, 0⟩⟩

theorem usedState_consistent (fs : Fs) : Consistent fs usedState := by
  have hblock : ∀ g h i, block fs (usedState.cgs g).blksfree h i = false := by
    intro g h i
    unfold block
    rw [isset_eq]
    change (decide (i < fs.frag) && (0#8).getLsbD _) = false
    rw [BitVec.getLsbD_zero, Bool.and_false]
  have hwholes : ∀ g (sel : Nat → Prop) [DecidablePred sel],
      wholes (nblk fs) fs.frag (block fs (usedState.cgs g).blksfree) sel = 0 := by
    intro g sel _
    unfold wholes
    rw [Finset.card_eq_zero, Finset.filter_eq_empty_iff]
    rintro h _ ⟨hfull, -⟩
    have hb := hfull 0 fs.frag_pos
    rw [hblock] at hb
    cases hb
  have hpieces : ∀ g f, pieces (nblk fs) fs.frag (block fs (usedState.cgs g).blksfree) f = 0 := by
    intro g f
    refine Finset.sum_eq_zero fun h hh => ?_
    obtain ⟨i, -, hb⟩ := (Finset.mem_filter.mp hh).2.1
    rw [hblock] at hb
    cases hb
  refine ⟨fun g _ => ⟨?_, ?_, ?_, ?_, ?_, ?_⟩, fun _ _ => rfl, fun _ _ => rfl, ?_, ?_⟩
  · rw [hwholes]
    rfl
  · rw [hpieces]
    rfl
  · intro k _ _
    rw [hpieces]
    rfl
  · intro c
    rw [hwholes]
    rfl
  · intro c r
    rw [hwholes]
    rfl
  · exact fun h _ i => hblock g h i
  · exact (Finset.sum_eq_zero fun _ _ => rfl).symm
  · exact (Finset.sum_eq_zero fun _ _ => rfl).symm

/-- A block is freed; then a fragment is allocated, for which the block is hacked
    up, and is extended. One fragment of the block is left. -/
theorem cg_accounting_hackup : ∃ s, System.Reachable (groups twoBlocks) s ∧
    (s.cgs 0).cs = ⟨0, 1⟩ ∧ (s.cgs 0).frsum 1 = 1 ∧ s.cstotal = ⟨0, 1⟩ ∧
    Consistent twoBlocks s := by
  have hr := System.reachable_get (groups twoBlocks)
    [.free 4 4096, .alloccg (fun _ => false) 0 0 1024,
      .fragextend (fun _ => false) 0 4 1024 3072] usedState (usedState_consistent _)
    (by decide +kernel)
  exact ⟨_, hr, by decide +kernel, by decide +kernel, by decide +kernel, (cg_accounting hr).1⟩

end

/-! ### A call that is refused -/

variable (fs : Fs)

/-- Deallocate fragments one by one, up to one that is free. -/
def freeFrags (bno : Nat) : Nat → Nat → (Nat → BitVec 8) → Nat → BitVec 8
  | 0, _, map => map
  | n + 1, i, map =>
    if isset map (bno + i) then map else freeFrags bno n (i + 1) (setbit map (bno + i))

/-- What a `free` that reports an inconsistency leaves behind, and whether it
    still holds `vfs_lock`. -/
def refused (s : State) (bno size : Nat) : State × Bool :=
  if size > bsize fs ∨ fragoff fs size ≠ 0 then (s, false)
  else if size = bsize fs then (s, false)
  else
    let cgp := s.cgs (dtog fs bno)
    let bno' := dtogd fs bno
    let bmap := blkmap fs cgp.blksfree (bno' - fragnum fs bno')
    -- The counts of the old frags are gone, and there is no `mutex_exit`.
    (s.setCg (dtog fs bno) { cgp with
      frsum := fragacct fs bmap cgp.frsum (-1)
      blksfree := freeFrags bno' (numfrags fs size) 0 cgp.blksfree }, true)

variable {fs}

/-- The fragments in front of the first free one become free. -/
theorem freeFrags_spec {bno : Nat} : ∀ (n i : Nat) (map : Nat → BitVec 8),
    (∃ m < n, isset map (bno + (i + m)) = true) →
    ∃ k < n, isset map (bno + (i + k)) = true ∧ (∀ m < k, isset map (bno + (i + m)) = false) ∧
      ∀ j, isset (freeFrags bno n i map) j =
        (isset map j || decide (bno + i ≤ j ∧ j < bno + (i + k))) := by
  intro n
  induction n with
  | zero =>
    rintro i map ⟨m, hm, -⟩
    cases hm
  | succ n ih =>
    rintro i map ⟨m, hm, hset⟩
    rw [freeFrags]
    by_cases hfree : isset map (bno + i) = true
    · exact ⟨0, Nat.succ_pos n, hfree, by simp, by simp [hfree]⟩
    have hput : ∀ j, isset (setbit map (bno + i)) j = if j = bno + i then true else isset map j :=
      isset_setbit (bno + i)
    have hlater : ∃ m < n, isset (setbit map (bno + i)) (bno + (i + 1 + m)) = true :=
      ⟨m - 1, by grind, by grind⟩
    obtain ⟨k, hk, hat, hbefore, hall⟩ := ih (i + 1) _ hlater
    refine ⟨k + 1, Nat.succ_lt_succ hk, by grind, fun m hm => ?_, by grind⟩
    have := hbefore (m - 1)
    grind

/-- A refused call changes nothing and holds no lock if and only if it was not
    asked to free a fragment. Otherwise what is in front of the first free
    fragment has been freed. -/
theorem free_refused_iff (s : State) (bno size : Nat) (h : free fs s bno size = none) :
    (refused fs s bno size = (s, false) ↔
      size > bsize fs ∨ fragoff fs size ≠ 0 ∨ size = bsize fs) ∧
    (refused fs s bno size ≠ (s, false) → ∃ k < numfrags fs size,
      isset (s.cgs (dtog fs bno)).blksfree (dtogd fs bno + k) = true ∧
      (∀ m < k, isset (s.cgs (dtog fs bno)).blksfree (dtogd fs bno + m) = false) ∧ ∀ j,
        isset ((refused fs s bno size).1.cgs (dtog fs bno)).blksfree j =
          (isset (s.cgs (dtog fs bno)).blksfree j ||
            decide (dtogd fs bno ≤ j ∧ j < dtogd fs bno + k))) := by
  unfold free at h
  unfold refused
  by_cases hbad : size > bsize fs ∨ fragoff fs size ≠ 0
  · rw [if_pos hbad]
    exact ⟨iff_of_true rfl (by tauto), absurd rfl⟩
  rw [if_neg hbad] at h ⊢
  by_cases hfull : size = bsize fs
  · rw [if_pos hfull]
    exact ⟨iff_of_true rfl (by tauto), absurd rfl⟩
  rw [if_neg hfull] at h ⊢
  refine ⟨iff_of_false (fun heq => by cases congrArg snd heq) (by tauto), fun _ => ?_⟩
  have hfrag : ∃ m < numfrags fs size,
      isset (s.cgs (dtog fs bno)).blksfree (dtogd fs bno + (0 + m)) = true := by
    dsimp only at h
    split at h
    · next hany => simpa using hany
    · split at h <;> cases h
  obtain ⟨k, hk, hspec⟩ := freeFrags_spec _ 0 _ hfrag
  simp only [zero_add, add_zero] at hspec
  simp only [State.setCg, Function.update_self]
  exact ⟨k, hk, hspec⟩

/-- Two fragments are freed before one that is free is found. -/
theorem free_refused_iff_third : ∃ s, free twoBlocks s 0 3072 = none ∧
    refused twoBlocks s 0 3072 ≠ (s, false) := by
  refine ⟨(free twoBlocks usedState 2 1024).get (by decide +kernel), by decide +kernel, ?_⟩
  rw [ne_eq, (free_refused_iff _ 0 3072 (by decide +kernel)).1]
  decide

/-- The lock is held, and fragments that were not freed are counted as gone and
    are marked free. -/
theorem free_refused_half : ∃ s, free twoBlocks s 0 3072 = none ∧
    (refused twoBlocks s 0 3072).2 = true ∧ (s.cgs 0).frsum 1 = 1 ∧
    ((refused twoBlocks s 0 3072).1.cgs 0).frsum 1 = 0 ∧ isset (s.cgs 0).blksfree 0 = false ∧
    isset ((refused twoBlocks s 0 3072).1.cgs 0).blksfree 0 = true :=
  ⟨(free twoBlocks usedState 2 1024).get (by decide +kernel), by decide +kernel, by decide +kernel,
    by decide +kernel, by decide +kernel, by decide +kernel, by decide +kernel⟩

end Sol7.Alloc
