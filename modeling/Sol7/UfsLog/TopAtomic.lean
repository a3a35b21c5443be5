import Sol7.UfsLog.Top

/-!
# Operations Are Atomic

What the counters of the transaction routines count, and why an operation
never straddles a commit. An operation is *inside* the current transaction
from the moment it is counted in `mtm_active` until its end; a sync operation
that was admitted to the next transaction *wants in* until the hand-over
bumps `mtm_seq`, at which point it is inside although it has not woken yet.

The proof is three invariants over the moves of `Top`. `Phase` says who
closed the transaction: nobody is committing, or one thread drains, or one
thread flushes. `Counts` says what the three counters count. `Txns` says
which transaction each operation belongs to.

## Main definitions

* `Pc.inside`, `Pc.insideSync`: Whether a thread's operation is inside the
  current transaction.
* `Pc.wants`: Whether it was admitted to the next one.
* `Phase`, `Counts`, `Txns`: The invariants.

## Theorems

* `inv_of_reachable`: The invariants hold in every reachable state.
* `inside_run`: Until it ends, an operation stays inside one transaction, and
  the transaction id does not move.
* `operation_atomicity`: All of it, for every interleaving.
-/

namespace Sol7.UfsLog

open Option Function

namespace Top

open Pc

/-- The operation is inside the current transaction. A thread that wanted in
    is inside once the sequence number has moved. -/
def Pc.inside (seq : UInt16) : Pc → Bool
  | .wantin _ q => q != seq
  | .sync _ => true
  | .async _ => true
  | _ => false

/-- The operation is inside, and it is a sync one. -/
def Pc.insideSync (seq : UInt16) : Pc → Bool
  | .wantin _ q => q != seq
  | .sync _ => true
  | _ => false

/-- The operation was admitted to the next transaction. -/
def Pc.wants (seq : UInt16) : Pc → Bool
  | .wantin _ q => q == seq
  | _ => false

/-- The thread is the one that commits. -/
def Pc.committing : Pc → Bool
  | .drain => true
  | .flush _ => true
  | _ => false

variable {T : Type}

section

/-- Who is committing. The transaction is closed to async operations only
    while its last ones drain, and to sync operations from the first sync end
    to the hand-over. -/
inductive Phase (s : State T) : Prop
  | running (hnone : ∀ u, (s.pc u).committing = false) (hasync : s.m.closedAsync = false)
      (hsync : s.m.closedSync = true → 0 < s.m.activesync) (hn : s.commits = s.opens)
  | draining (t : T) (hpc : s.pc t = .drain) (hone : ∀ u, u ≠ t → (s.pc u).committing = false)
      (hasync : s.m.closedAsync = true) (hsync : s.m.closedSync = true)
      (hzero : s.m.activesync = 0) (hn : s.commits = s.opens)
  | flushing (t : T) (tid : UInt32) (hpc : s.pc t = .flush tid)
      (hone : ∀ u, u ≠ t → (s.pc u).committing = false)
      (hasync : s.m.closedAsync = false) (hsync : s.m.closedSync = true)
      (hzero : s.m.activesync = 0) (hn : s.commits = s.opens + 1)

variable {s s' : State T}

theorem Phase.of_open (h : Phase s) (hcs : s.m.closedSync = false) :
    s.m.closedAsync = false ∧ s.commits = s.opens := by
  cases h with
  | running _ hasync _ hn => exact ⟨hasync, hn⟩
  | draining _ _ _ _ hsync _ _ => rw [hsync] at hcs; cases hcs
  | flushing _ _ _ _ _ hsync _ _ => rw [hsync] at hcs; cases hcs

variable {t : T}

theorem eq_of_committing {c : T} (hone : ∀ u, u ≠ c → (s.pc u).committing = false)
    (ht : (s.pc t).committing = true) : t = c := by
  by_contra hne
  simp [hone t hne] at ht

/-- A thread that commits is the only one, and either drains or flushes. -/
theorem Phase.of_committing (h : Phase s) (hcom : (s.pc t).committing = true) :
    (∀ u, u ≠ t → (s.pc u).committing = false) ∧ s.m.activesync = 0 ∧
      (s.pc t = .drain ∧ s.m.closedAsync = true ∧ s.commits = s.opens ∨
        (∃ tid, s.pc t = .flush tid) ∧ s.commits = s.opens + 1) := by
  cases h with
  | running hnone _ _ _ => simp [hnone t] at hcom
  | draining c hpc hone hasync _ hzero hn =>
    obtain rfl := eq_of_committing hone hcom
    exact ⟨hone, hzero, .inl ⟨hpc, hasync, hn⟩⟩
  | flushing c tid hpc hone _ _ hzero hn =>
    obtain rfl := eq_of_committing hone hcom
    exact ⟨hone, hzero, .inr ⟨⟨tid, hpc⟩, hn⟩⟩

theorem Phase.of_drain (h : Phase s) (hpc : s.pc t = .drain) :
    (∀ u, u ≠ t → (s.pc u).committing = false) ∧ s.m.activesync = 0 ∧ s.m.closedAsync = true ∧
      s.commits = s.opens := by
  simpa [hpc] using h.of_committing (t := t) (by rw [hpc]; rfl)

theorem Phase.of_flush (h : Phase s) {tid : UInt32} (hpc : s.pc t = .flush tid) :
    (∀ u, u ≠ t → (s.pc u).committing = false) ∧ s.m.activesync = 0 ∧ s.commits = s.opens + 1 := by
  simpa [hpc] using h.of_committing (t := t) (by rw [hpc]; rfl)

variable [DecidableEq T]

/-- A thread that moves between two places outside the commit leaves the
    other threads' test alone. -/
theorem committing_update {pc : T → Pc} {p : Pc} {P : T → Prop}
    (h : ∀ u, P u → (pc u).committing = false) (hp : p.committing = false) :
    ∀ u, P u → (Function.update pc t p u).committing = false := by
  intro u hu
  by_cases hut : u = t
  · rw [hut, update_self, hp]
  · rw [update_of_ne hut, h u hu]

/-- A phase survives a thread's move outside the commit, as long as the flags
    stay and the count of sync operations meets what the phase asks of it. -/
theorem Phase.other (h : Phase s) {p : Pc} (hpc' : s'.pc = Function.update s.pc t p)
    (ht : (s.pc t).committing = false) (hp : p.committing = false)
    (ha : s'.m.closedAsync = s.m.closedAsync) (hs : s'.m.closedSync = s.m.closedSync)
    (hc : s'.commits = s.commits) (ho : s'.opens = s.opens)
    (hrun : s.m.closedSync = true → 0 < s.m.activesync → 0 < s'.m.activesync)
    (hzero : s.m.closedSync = true → s.m.activesync = 0 → s'.m.activesync = 0) : Phase s' := by
  cases h with
  | running hnone hasync hsync hn =>
    refine .running ?_ (ha ▸ hasync) ?_ (by rw [hc, ho, hn])
    · rw [hpc']
      exact fun u => committing_update (P := fun _ => True) (fun u _ => hnone u) hp u trivial
    · intro h
      exact hrun (hs ▸ h) (hsync (hs ▸ h))
  | draining c hpc hone hasync hsync hz hn =>
    have hct : c ≠ t := by
      rintro rfl
      rw [hpc] at ht
      cases ht
    refine .draining c ?_ ?_ (ha ▸ hasync) (hs ▸ hsync) (hzero hsync hz) (by rw [hc, ho, hn])
    · rw [hpc', update_of_ne hct, hpc]
    · rw [hpc']
      exact committing_update hone hp
  | flushing c tid hpc hone hasync hsync hz hn =>
    have hct : c ≠ t := by
      rintro rfl
      rw [hpc] at ht
      cases ht
    refine .flushing c tid ?_ ?_ (ha ▸ hasync) (hs ▸ hsync) (hzero hsync hz)
      (by rw [hc, ho, hn])
    · rw [hpc', update_of_ne hct, hpc]
    · rw [hpc']
      exact committing_update hone hp

end

section
variable [Fintype T]

/-- What the three counters count. -/
structure Counts (s : State T) : Prop where
  active : s.m.active = census (inside s.m.seq) s.pc
  activesync : s.m.activesync = census (insideSync s.m.seq) s.pc
  wantin : s.m.wantin = census (wants s.m.seq) s.pc

variable {s s' : State T} {t u : T}

theorem Counts.active_pos (h : Counts s) (ht : (s.pc t).inside s.m.seq = true) : 0 < s.m.active :=
  h.active ▸ census_pos _ _ t ht

theorem Counts.activesync_pos (h : Counts s) (ht : (s.pc t).insideSync s.m.seq = true) :
    0 < s.m.activesync :=
  h.activesync ▸ census_pos _ _ t ht

/-- With no sync operation inside, whoever waits at its begin still wants
    in. -/
theorem Counts.wantin_seq (h : Counts s) (h0 : s.m.activesync = 0) {size : UInt32} {q : UInt16}
    (hu : s.pc u = .wantin size q) : q = s.m.seq := by
  have hz := census_eq_zero _ _ (h.activesync ▸ h0) u
  rw [hu] at hz
  simpa [insideSync] using hz

variable [DecidableEq T]

/-- One thread's move keeps the counts if each counter moves by what the
    thread contributes before and after. -/
theorem Counts.update (h : Counts s) (t : T) (p : Pc) (hpc : s'.pc = Function.update s.pc t p)
    (hseq : s'.m.seq = s.m.seq)
    (ha : s'.m.active + ((s.pc t).inside s.m.seq).toNat = s.m.active + (p.inside s.m.seq).toNat)
    (hs : s'.m.activesync + ((s.pc t).insideSync s.m.seq).toNat =
      s.m.activesync + (p.insideSync s.m.seq).toNat)
    (hw : s'.m.wantin + ((s.pc t).wants s.m.seq).toNat = s.m.wantin + (p.wants s.m.seq).toNat) :
    Counts s' := by
  have h1 := census_update (inside s.m.seq) s.pc t p
  have h2 := census_update (insideSync s.m.seq) s.pc t p
  have h3 := census_update (wants s.m.seq) s.pc t p
  have e1 := h.active
  have e2 := h.activesync
  have e3 := h.wantin
  constructor
  · rw [hpc, hseq]
    omega
  · rw [hpc, hseq]
    omega
  · rw [hpc, hseq]
    omega

/-- The hand-over bumps the sequence number: everybody who wants in moves to
    the inside, nobody else does, and nobody wants in any more. -/
theorem Counts.handover (h : Counts s) (h0 : s.m.activesync = 0) {tid : UInt32}
    (hpc : s.pc t = .flush tid) (u : T) : (Function.update s.pc t out u).inside (s.m.seq + 1) =
        ((s.pc u).inside s.m.seq || (s.pc u).wants s.m.seq) ∧
      (Function.update s.pc t out u).insideSync (s.m.seq + 1) = (s.pc u).wants s.m.seq ∧
      (Function.update s.pc t out u).wants (s.m.seq + 1) = false := by
  by_cases hut : u = t
  · rw [hut, hpc]
    simp [inside, insideSync, wants]
  rw [update_of_ne hut]
  cases hu : s.pc u with
  | wantin size q =>
    have hq := h.wantin_seq h0 hu
    simp [inside, insideSync, wants, hq]
  | sync size =>
    have := h.activesync_pos (by rw [hu]; rfl)
    omega
  | _ => simp [inside, insideSync, wants]

theorem Counts.reopen (h : Counts s) (h0 : s.m.activesync = 0) (t : T) (tid : UInt32)
    (hpc : s.pc t = .flush tid) : Counts (topEndSyncOpen s t tid) := by
  have hdisj : ∀ u, ¬((s.pc u).inside s.m.seq = true ∧ (s.pc u).wants s.m.seq = true) := by
    intro u
    cases s.pc u <;> simp [inside, wants]
  constructor
  · simp only [topEndSyncOpen]
    rw [h.active, h.wantin, ← census_or _ _ _ hdisj]
    simp only [census, h.handover h0 hpc]
  · simp only [topEndSyncOpen]
    rw [h.wantin]
    simp only [census, h.handover h0 hpc]
  · exact (census_zero _ _ fun u => (h.handover h0 hpc u).2.2).symm

/-- Every move keeps the counts. -/
theorem Counts.move {a : Act T} (h : Counts s) (hph : Phase s) (hm : Move s a s') : Counts s' := by
  cases hm with
  | idle _ _ _ => exact { h with }
  | want t _ hpc _ _ | enterSync t _ hpc _ _ | enterAsync t _ hpc _ _ | endResume t _ hpc =>
    refine h.update t _ rfl rfl ?_ ?_ ?_ <;>
      simp [hpc, inside, insideSync, wants]
  | resume t size seq hpc hseq =>
    refine h.update t _ rfl rfl ?_ ?_ ?_ <;>
      simp [hpc, inside, insideSync, wants, hseq]
  | endSyncWait t size hpc _ | endSyncLast t size hpc _ =>
    have h1 := h.active_pos (by rw [hpc]; rfl)
    have h2 := h.activesync_pos (by rw [hpc]; rfl)
    refine h.update t _ rfl rfl ?_ ?_ ?_ <;>
      simp [hpc, inside, insideSync, wants] <;> omega
  | endAsync t size hpc =>
    have h1 := h.active_pos (by rw [hpc]; rfl)
    refine h.update t .out rfl rfl ?_ ?_ ?_ <;>
      simp [hpc, inside, insideSync, wants, topEndAsync]
    omega
  | commit t hpc _ =>
    obtain ⟨dirty, tid, he⟩ := logmapCommit_frame s.m
    refine h.update t (.flush (logmapCommit s.m).tid) rfl ?_ ?_ ?_ ?_ <;>
      simp [hpc, inside, insideSync, wants, topEndSyncCommit, he]
  | reopen t tid hpc => exact h.reopen (hph.of_flush hpc).2.1 t tid hpc

end

section
variable [Fintype T]

/-- While a sync operation is inside, nobody is committing yet. -/
theorem Phase.running_of_sync {s : State T} (h : Phase s) (hc : Counts s) {t : T}
    {size : UInt32} (hpc : s.pc t = .sync size) :
    (∀ u, (s.pc u).committing = false) ∧ s.m.closedAsync = false ∧ s.commits = s.opens := by
  have hpos := hc.activesync_pos (by rw [hpc]; rfl)
  cases h with
  | running hnone hasync _ hn => exact ⟨hnone, hasync, hn⟩
  | draining _ _ _ _ _ hzero _ => omega
  | flushing _ _ _ _ _ _ hzero _ => omega

variable [DecidableEq T]

/-- Every move leads from phase to phase. -/
theorem Phase.move {s s' : State T} {a : Act T} (h : Phase s) (hc : Counts s)
    (hm : Move s a s') : Phase s' := by
  cases hm with
  | idle _ _ _ =>
    cases h with
    | running h1 h2 h3 h4 => exact .running h1 h2 h3 h4
    | draining t h1 h2 h3 h4 h5 h6 => exact .draining t h1 h2 h3 h4 h5 h6
    | flushing t tid h1 h2 h3 h4 h5 h6 => exact .flushing t tid h1 h2 h3 h4 h5 h6
  | want _ _ hpc _ _ | enterAsync _ _ hpc _ _ | resume _ _ _ hpc _ | endAsync _ _ hpc
  | endResume _ _ hpc =>
    exact h.other rfl (by rw [hpc]; rfl) rfl rfl rfl rfl rfl (fun _ h => h) (fun _ h => h)
  | enterSync t size hpc hcl _ =>
    refine h.other rfl (by rw [hpc]; rfl) rfl rfl rfl rfl rfl ?_ ?_
    · exact fun hs => absurd hs (by simp [hcl])
    · exact fun hs => absurd hs (by simp [hcl])
  | endSyncWait t size hpc hmore =>
    obtain ⟨hnone, hasync, hn⟩ := h.running_of_sync hc hpc
    refine .running ?_ hasync (fun _ => pos_of_ne_zero hmore) hn
    exact fun u => committing_update (P := fun _ => True) (fun u _ => hnone u) rfl u trivial
  | endSyncLast t size hpc hlast =>
    obtain ⟨hnone, -, hn⟩ := h.running_of_sync hc hpc
    refine .draining t (update_self ..) ?_ rfl rfl hlast hn
    intro u hu
    simp only [update_of_ne hu, hnone u]
  | commit t hpc _ =>
    obtain ⟨dirty, tid, he⟩ := logmapCommit_frame s.m
    obtain ⟨hone, hzero, -, hn⟩ := h.of_drain hpc
    refine .flushing t (logmapCommit s.m).tid (update_self ..) ?_ rfl rfl ?_ ?_
    · intro u hu
      simp only [topEndSyncCommit, update_of_ne hu, hone u hu]
    · simp only [topEndSyncCommit, he, hzero]
    · simp only [topEndSyncCommit, hn]
  | reopen t tid hpc =>
    obtain ⟨hone, hzero, hn⟩ := h.of_flush hpc
    refine .running ?_ rfl nofun ?_
    · intro u
      by_cases hut : u = t
      · simp only [topEndSyncOpen, hut, update_self, committing]
      · simp only [topEndSyncOpen, update_of_ne hut, hone u hut]
    · simp only [topEndSyncOpen, hn]

end

section

/-- Which transaction each operation belongs to: the current one is numbered
    by the commits so far, the next one follows the last hand-over. -/
structure Txns (s : State T) : Prop where
  inside : ∀ t, (s.pc t).inside s.m.seq = true → s.txn t = s.commits
  wants : ∀ t, (s.pc t).wants s.m.seq = true → s.txn t = s.opens + 1

variable [DecidableEq T]

/-- One thread's move keeps the others' transactions. -/
theorem Txns.update {s s' : State T} (h : Txns s) (t : T) (p : Pc)
    (hpc : s'.pc = Function.update s.pc t p) (hseq : s'.m.seq = s.m.seq)
    (hc : s'.commits = s.commits) (ho : s'.opens = s.opens) (htxn : ∀ u, u ≠ t → s'.txn u = s.txn u)
    (hin : p.inside s.m.seq = true → s'.txn t = s.commits)
    (hwant : p.wants s.m.seq = true → s'.txn t = s.opens + 1) : Txns s' := by
  constructor
  · intro u hu
    rw [hc]
    by_cases hut : u = t
    · rw [hpc, hut, update_self, hseq] at hu
      rw [hut, hin hu]
    · rw [hpc, update_of_ne hut, hseq] at hu
      rw [htxn u hut, h.inside u hu]
  · intro u hu
    rw [ho]
    by_cases hut : u = t
    · rw [hpc, hut, update_self, hseq] at hu
      rw [hut, hwant hu]
    · rw [hpc, update_of_ne hut, hseq] at hu
      rw [htxn u hut, h.wants u hu]

variable [Fintype T]

/-- Every move keeps each operation in its transaction. -/
theorem Txns.move {s s' : State T} {a : Act T} (h : Txns s) (hph : Phase s) (hcn : Counts s)
    (hm : Move s a s') : Txns s' := by
  cases hm with
  | idle _ _ _ => exact ⟨h.inside, h.wants⟩
  | want t size hpc _ _ =>
    refine h.update t _ rfl rfl rfl rfl (fun u hu => update_of_ne hu ..) ?_ ?_
    · exact fun hc => absurd hc (by simp [Pc.inside])
    · exact fun _ => update_self ..
  | enterSync t size hpc _ _ | enterAsync t size hpc _ _ =>
    refine h.update t _ rfl rfl rfl rfl (fun u hu => update_of_ne hu ..) ?_ ?_
    · exact fun _ => update_self ..
    · exact nofun
  | resume t size seq hpc hseq =>
    refine h.update t _ rfl rfl rfl rfl (fun _ _ => rfl) ?_ ?_
    · exact fun _ => h.inside t (by simp [hpc, Pc.inside, hseq])
    · exact nofun
  | endSyncWait t size hpc _ | endSyncLast t size hpc _ | endResume t size hpc =>
    exact h.update t _ rfl rfl rfl rfl (fun _ _ => rfl) nofun nofun
  | endAsync t size hpc =>
    exact h.update t .out rfl rfl rfl rfl (fun _ _ => rfl) nofun nofun
  | commit t hpc hactive =>
    -- Nobody is inside, so nobody is left behind in the old transaction.
    obtain ⟨dirty, tid, he⟩ := logmapCommit_frame s.m
    constructor
    · intro u hu
      simp only [topEndSyncCommit, he] at hu
      by_cases hut : u = t
      · simp [hut, Pc.inside] at hu
      · rw [update_of_ne hut] at hu
        have := hcn.active_pos hu
        omega
    · intro u hu
      simp only [topEndSyncCommit, he] at hu ⊢
      by_cases hut : u = t
      · simp [hut, Pc.wants] at hu
      · rw [update_of_ne hut] at hu
        exact h.wants u hu
  | reopen t tid hpc =>
    obtain ⟨-, h0, hn⟩ := hph.of_flush hpc
    constructor
    · intro u hu
      simp only [topEndSyncOpen] at hu ⊢
      rw [(hcn.handover h0 hpc u).1, Bool.or_eq_true] at hu
      rcases hu with hu | hu
      · exact h.inside u hu
      · rw [h.wants u hu, hn]
    · intro u hu
      simp only [topEndSyncOpen] at hu
      rw [(hcn.handover h0 hpc u).2.2] at hu
      cases hu

end

section
variable [Fintype T]

/-- The invariants together. -/
structure Inv (s : State T) : Prop where
  phase : Phase s
  counts : Counts s
  txns : Txns s

theorem inv_of_fresh (s : State T) (h : Fresh s) : Inv s := by
  obtain ⟨hcs, hca, ha, has, hw, -, -, hpc, hc, ho, -⟩ := h
  refine ⟨.running ?_ hca ?_ (by rw [hc, ho]), ⟨?_, ?_, ?_⟩, ⟨?_, ?_⟩⟩
  · intro u
    rw [hpc u]
    rfl
  · exact fun h => absurd h (by simp [hcs])
  · exact ha.trans (census_zero _ _ fun t => by rw [hpc t]; rfl).symm
  · exact has.trans (census_zero _ _ fun t => by rw [hpc t]; rfl).symm
  · exact hw.trans (census_zero _ _ fun t => by rw [hpc t]; rfl).symm
  · intro t ht
    simp [hpc t, inside] at ht
  · intro t ht
    simp [hpc t, wants] at ht

variable [DecidableEq T]

theorem Inv.move {s s' : State T} {a : Act T} (h : Inv s) (hm : Move s a s') : Inv s' :=
  ⟨h.phase.move h.counts hm, h.counts.move h.phase hm, h.txns.move h.phase h.counts hm⟩

theorem Inv.step {s s' : State T} {a : Act T} (h : Inv s) (hs : step s a = some s') : Inv s' := by
  rcases move_of_step s s' a hs with hm | ⟨t, r, -, hm, hpc, h0, rfl⟩
  · exact h.move hm
  · exact (h.move hm).move (.commit t hpc h0)

/-- The invariants hold in every reachable state. -/
theorem inv_of_reachable (s : State T) (hr : (top T).Reachable s) : Inv s :=
  System.Reachable.invariant (top T) Inv inv_of_fresh (fun _ _ _ hi hs => hi.step hs) s hr

/-- A move that is not the operation's own end leaves it inside the same
    transaction and does not move the transaction id. -/
theorem inside_move {s s' : State T} {a : Act T} (h : Inv s) (t : T)
    (ht : (s.pc t).inside s.m.seq = true) (hes : a ≠ .endSync t) (hea : a ≠ .endAsync t)
    (hm : Move s a s') :
    (s'.pc t).inside s'.m.seq = true ∧ s'.m.tid = s.m.tid ∧ s'.txn t = s.txn t := by
  -- A thread that stands outside is not the one whose operation is inside.
  have hother : ∀ {u : T} {p : Pc}, s.pc u = p → p.inside s.m.seq = false → t ≠ u := by
    rintro u p hu hp rfl
    rw [hu, hp] at ht
    cases ht
  cases hm with
  | idle _ _ _ => exact ⟨ht, rfl, rfl⟩
  | want u size hpc _ _ | enterSync u size hpc _ _ | enterAsync u size hpc _ _ =>
    have hne := hother hpc rfl
    exact ⟨by simpa only [update_of_ne hne] using ht, rfl, update_of_ne hne ..⟩
  | resume u size seq hpc _ =>
    refine ⟨?_, rfl, rfl⟩
    by_cases hut : t = u
    · simp only [hut, update_self, inside]
    · simpa only [update_of_ne hut] using ht
  | endSyncWait u size hpc _ | endSyncLast u size hpc _ =>
    have hne : t ≠ u := fun hc => hes (by rw [hc])
    exact ⟨by simpa only [update_of_ne hne] using ht, rfl, rfl⟩
  | endAsync u size hpc =>
    have hne : t ≠ u := fun hc => hea (by rw [hc])
    exact ⟨by simpa only [topEndAsync, update_of_ne hne] using ht, rfl, rfl⟩
  | endResume u seq hpc =>
    have hne := hother hpc rfl
    exact ⟨by simpa only [update_of_ne hne] using ht, rfl, rfl⟩
  | commit u hpc hactive =>
    have := h.counts.active_pos ht
    omega
  | reopen u tid hpc =>
    refine ⟨?_, rfl, rfl⟩
    have hh := (h.counts.handover (h.phase.of_flush hpc).2.1 hpc t).1
    simp only [topEndSyncOpen]
    rw [hh, ht, Bool.true_or]

/-- A step that commits leaves nobody inside. -/
theorem commit_step {s s' : State T} {a : Act T} (h : Inv s) (hs : Top.step s a = some s')
    (hc : s'.commits ≠ s.commits) :
    s'.m.active = 0 ∧ ∀ u, (s'.pc u).inside s'.m.seq = false := by
  have hcommit : ∀ (r : State T) (t : T), r.m.active = 0 → (topEndSyncCommit r t).m.active = 0 := by
    intro r t h0
    obtain ⟨dirty, tid, he⟩ := logmapCommit_frame r.m
    simp only [topEndSyncCommit, he, h0]
  have h0 : s'.m.active = 0 := by
    rcases move_of_step s s' a hs with hm | ⟨t, r, -, -, -, h0, rfl⟩
    · cases hm with
      | commit t _ h0 => exact hcommit s t h0
      | _ => exact absurd rfl hc
    · exact hcommit r t h0
  exact ⟨h0, census_eq_zero _ _ ((h.step hs).counts.active ▸ h0)⟩

/-- From its begin until its end an operation stays inside one transaction,
    whatever the other threads do meanwhile, and the id does not move. -/
theorem inside_run (t : T) (as : List (Act T)) :
    ∀ (s s' : State T), Inv s → (s.pc t).inside s.m.seq = true →
      (∀ a ∈ as, a ≠ .endSync t ∧ a ≠ .endAsync t) → (top T).exec s as = some s' →
      (s'.pc t).inside s'.m.seq = true ∧ s'.m.tid = s.m.tid ∧ s'.txn t = s.txn t := by
  induction as with
  | nil =>
    intro s s' _ ht _ h
    simp only [System.exec, some.injEq] at h
    exact h ▸ ⟨ht, rfl, rfl⟩
  | cons a as ih =>
    intro s s' hi ht hno h
    simp only [System.exec, bind_eq_some_iff] at h
    obtain ⟨r, hsr, hrs⟩ := h
    have ha := hno a List.mem_cons_self
    obtain ⟨h1, h2, h3⟩ : (r.pc t).inside r.m.seq = true ∧ r.m.tid = s.m.tid ∧ r.txn t = s.txn t := by
      rcases move_of_step s r a hsr with hm | ⟨u, q, -, hm, hpc, h0, rfl⟩
      · exact inside_move hi t ht ha.1 ha.2 hm
      · -- Nobody commits while the operation is inside.
        have := (hi.move hm).counts.active_pos (inside_move hi t ht ha.1 ha.2 hm).1
        omega
    obtain ⟨k1, k2, k3⟩ := ih r s' (hi.step hsr) h1
      (fun b hb => hno b (List.mem_cons_of_mem a hb)) hrs
    exact ⟨k1, k2.trans h2, k3.trans h3⟩

/-- Operation atomicity, for every interleaving: the counters count the
    operations inside the current transaction and those admitted to the next
    one; the incore commit runs only when nobody is inside; the hand-over
    makes exactly the operations that wanted in the sync operations of the
    transaction they were admitted to; and from begin to end an operation
    sees one transaction and one transaction id. -/
theorem operation_atomicity (s : State T) (hr : (top T).Reachable s) :
    s.m.active = census (inside s.m.seq) s.pc ∧
      s.m.activesync = census (insideSync s.m.seq) s.pc ∧
      s.m.wantin = census (wants s.m.seq) s.pc ∧
      (∀ t, (s.pc t).inside s.m.seq = true → s.txn t = s.commits) ∧
      (∀ t, (s.pc t).wants s.m.seq = true → s.txn t = s.opens + 1) ∧
      (∀ t s', (top T).step s (.commit t) = some s' →
        s.m.active = 0 ∧ ∀ u, (s.pc u).inside s.m.seq = false) ∧
      (∀ a s', (top T).step s a = some s' → s'.commits ≠ s.commits →
        s'.m.active = 0 ∧ ∀ u, (s'.pc u).inside s'.m.seq = false) ∧
      (∀ t s', (top T).step s (.reopen t) = some s' → s'.commits = s.opens + 1 ∧
        ∀ u, (s'.pc u).insideSync s'.m.seq = (s.pc u).wants s.m.seq) ∧
      (∀ t as s', (s.pc t).inside s.m.seq = true →
        (∀ a ∈ as, a ≠ .endSync t ∧ a ≠ .endAsync t) → (top T).exec s as = some s' →
        (s'.pc t).inside s'.m.seq = true ∧ s'.m.tid = s.m.tid ∧ s'.txn t = s.txn t) := by
  have hi := inv_of_reachable s hr
  refine ⟨hi.counts.active, hi.counts.activesync, hi.counts.wantin, hi.txns.inside,
    hi.txns.wants, ?_, fun a s' => commit_step hi, ?_, fun t as s' => inside_run t as s s' hi⟩
  · intro t s' hs
    have h0 : s.m.active = 0 := by
      simp only [top, Top.step, ite_none_right_eq_some] at hs
      exact hs.1.2
    exact ⟨h0, census_eq_zero _ _ (hi.counts.active ▸ h0)⟩
  · intro t s' hs
    simp only [top, Top.step] at hs
    split at hs
    next tid hpc =>
      cases hs
      obtain ⟨-, h0, hn⟩ := hi.phase.of_flush hpc
      exact ⟨hn, fun u => (hi.counts.handover h0 hpc u).2.1⟩
    next => cases hs

end

/-- A sync operation has ended and drains; an async one is still inside. -/
theorem operation_atomicity_draining :
    ∃ s : State (Fin 2), (top (Fin 2)).Reachable s ∧ s.pc 0 = .drain ∧ s.m.active = 1 ∧
      s.m.active = census (inside s.m.seq) s.pc :=
  have hr := System.reachable_get (top (Fin 2)) [.beginSync 0 10, .beginAsync 1 5, .endSync 0]
    (State.fresh (Fin 2) 100 7) (State.fresh_fresh 100 7) rfl
  ⟨_, hr, rfl, rfl, (operation_atomicity _ hr).1⟩

end Top

end Sol7.UfsLog
