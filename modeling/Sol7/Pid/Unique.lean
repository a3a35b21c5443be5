import Sol7.Pid.Tables

/-!
# Process Ids Are Unique

A pid structure is in memory as long as its process or somebody else holds it,
which is what the count of its references says. The slot of an active process
points back to the process, which keeps slots apart.

## Main definitions

* `PidState.Procs`: The processes and their pid structures.
* `PidState.Refs`: Every reference is counted.
* `PidState.Inv`: The invariant of the runs.

## Theorems

* `PidState.Inv.live_iff`: A structure is in memory if and only if it is in use.
* `PidState.Inv.step`: Every step keeps the invariant.
* `pids_unique`: Ids and slots are unique, and `prfind` finds active processes.
-/

namespace Sol7

open List Option Function

namespace PidState

open PidTable

variable {s s' : PidState} {prp p pidp : Nat} {kind : HoldKind}

/-- How often a structure is held, other than by its process. -/
def holdsOf (s : PidState) (p : Nat) : Nat := s.holds.countP fun h => h.2 == p

/-- The processes and their pid structures. -/
structure Procs (t : PidTable) (phase : Nat → ProcPhase) : Prop where
  heap : ∀ prp, phase prp ≠ .absent → t.pidp prp ∈ t.heap
  inj : ∀ prp prp', phase prp ≠ .absent → phase prp' ≠ .absent →
    t.pidp prp = t.pidp prp' → prp = prp'
  active : ∀ prp, phase prp = .active → (t.pid (t.pidp prp)).prinactive = false ∧
    t.procdir (t.pid (t.pidp prp)).prslot = .proc prp
  exiting : ∀ prp, phase prp = .exiting → (t.pid (t.pidp prp)).prinactive = true
  owner : ∀ p ∈ t.heap, (t.pid p).prinactive = false → ∃ prp, phase prp = .active ∧ t.pidp prp = p

/-- Every reference is counted: the one of the process, and the others. -/
structure Refs (s : PidState) : Prop where
  held : ∀ kind p, (kind, p) ∈ s.holds → p ∈ s.t.heap
  own : ∀ prp, s.phase prp ≠ .absent → (s.t.pid (s.t.pidp prp)).ref = s.holdsOf (s.t.pidp prp) + 1
  orphan : ∀ p ∈ s.t.heap, (∀ prp, ¬s.HasPid prp p) →
    (s.t.pid p).ref = s.holdsOf p ∧ 0 < s.holdsOf p

/-- The invariant of the runs. -/
structure Inv (s : PidState) : Prop where
  tables : Tables s.t
  procs : Procs s.t s.phase
  refs : Refs s

theorem holdsOf_pos_iff : 0 < s.holdsOf p ↔ s.Held p := by
  unfold holdsOf Held
  rw [countP_pos_iff]
  constructor
  · rintro ⟨⟨kind, q⟩, hmem, heq⟩
    exact ⟨kind, by rwa [← eq_of_beq heq]⟩
  · rintro ⟨kind, hmem⟩
    exact ⟨(kind, p), hmem, beq_self_eq_true p⟩

/-- A structure is in memory if and only if it is in use. -/
theorem Inv.live_iff (h : Inv s) : s.Live p ↔ p ∈ s.t.heap := by
  constructor
  · rintro (⟨prp, hphase, rfl⟩ | ⟨kind, hheld⟩)
    · exact h.procs.heap prp hphase
    · exact h.refs.held kind p hheld
  · intro hp
    by_cases howned : ∃ prp, s.HasPid prp p
    · exact .inl howned
    · refine .inr (holdsOf_pos_iff.mp (h.refs.orphan p hp fun prp hprp => ?_).2)
      exact howned ⟨prp, hprp⟩

/-! ### Steps -/

theorem Inv.setmin (h : Inv s) (hs : s.setmin = some s') : Inv s' := by
  obtain ⟨hlt, hs⟩ := ite_none_right_eq_some.mp hs
  cases hs
  have hrange := h.tables.range
  exact ⟨{ h.tables with range := ⟨hlt, hrange.2.1, le_rfl⟩ }, { h.procs with },
    { h.refs with }⟩

theorem Inv.assigned (h : Inv s) {pep newpid : Nat} {next : Option Nat}
    (hprp : s.phase prp = .absent) (hnew : pidp ∉ s.t.heap) (hfirst : s.t.procentfree = some pep)
    (hlink : s.t.procdir pep = .next next) (hid : ∀ q ∈ s.t.heap, (s.t.pid q).id ≠ newpid)
    (hrange : s.t.minpid ≤ newpid ∧ newpid < s.t.maxpid) : Inv { s with
      t := s.t.assigned prp pidp pep newpid next
      phase := update s.phase prp .active } := by
  have htables := h.tables.assigned prp hfirst hlink hnew hid hrange
  obtain ⟨hold, hself⟩ := assigned_pid prp pep newpid next hnew
  generalize ht : s.t.assigned prp pidp pep newpid next = t' at *
  have hheap : t'.heap = pidp :: s.t.heap := ht ▸ rfl
  have hdir : t'.procdir = update s.t.procdir pep (.proc prp) := ht ▸ rfl
  have hpidp : t'.pidp prp = pidp := ht ▸ update_self ..
  have hother : ∀ q, q ≠ prp → t'.pidp q = s.t.pidp q := fun q hq => ht ▸ update_of_ne hq ..
  -- A process that was there before keeps its structure and its phase.
  have hcases : ∀ q, update s.phase prp .active q ≠ .absent →
      q = prp ∨ (q ≠ prp ∧ s.phase q ≠ .absent) := by
    intro q hq
    by_cases heq : q = prp
    · exact .inl heq
    · rw [update_of_ne heq] at hq
      exact .inr ⟨heq, hq⟩
  have hcount : s.holdsOf pidp = 0 := by
    by_contra hpos
    obtain ⟨kind, hheld⟩ := holdsOf_pos_iff.mp (pos_of_ne_zero hpos)
    exact hnew (h.refs.held kind pidp hheld)
  refine ⟨htables, ⟨?_, ?_, ?_, ?_, ?_⟩, ?_, ?_, ?_⟩
  · intro q hq
    rw [hheap]
    rcases hcases q hq with rfl | ⟨hqp, hq⟩
    · exact mem_cons.mpr (.inl hpidp)
    · exact mem_cons_of_mem _ ((hother q hqp).symm ▸ h.procs.heap q hq)
  · intro q q' hq hq' heq
    rcases hcases q hq with hqp | ⟨hqp, hq1⟩
    · rcases hcases q' hq' with hqp' | ⟨hqp', hq1'⟩
      · rw [hqp, hqp']
      · rw [hqp, hpidp, hother q' hqp'] at heq
        exact absurd (heq ▸ h.procs.heap q' hq1') hnew
    · rcases hcases q' hq' with hqp' | ⟨hqp', hq1'⟩
      · rw [hqp', hpidp, hother q hqp] at heq
        exact absurd (heq ▸ h.procs.heap q hq1) hnew
      · rw [hother q hqp, hother q' hqp'] at heq
        exact h.procs.inj q q' hq1 hq1' heq
  · intro q hq
    change update s.phase prp .active q = .active at hq
    rw [hdir]
    by_cases hqp : q = prp
    · subst hqp
      rw [hpidp, hself]
      exact ⟨rfl, update_self ..⟩
    rw [update_of_ne hqp] at hq
    have hact := h.procs.active q hq
    have hheap := h.procs.heap q (by rw [hq]; decide)
    rw [hother q hqp, hold _ hheap]
    refine ⟨hact.1, ?_⟩
    -- The slot of another process holds a process, so it was not free.
    have hslot : (s.t.pid (s.t.pidp q)).prslot ≠ pep := fun heq => by
      rw [heq, hlink] at hact
      exact absurd hact.2 (by simp)
    rw [update_of_ne hslot]
    exact hact.2
  · intro q hq
    change update s.phase prp .active q = .exiting at hq
    by_cases hqp : q = prp
    · subst hqp
      rw [update_self] at hq
      cases hq
    · rw [update_of_ne hqp] at hq
      rw [hother q hqp, hold _ (h.procs.heap q (by rw [hq]; decide))]
      exact h.procs.exiting q hq
  · intro q hq hin
    rw [hheap] at hq
    rcases mem_cons.mp hq with rfl | hq
    · exact ⟨prp, update_self .., hpidp⟩
    rw [hold q hq] at hin
    obtain ⟨prp', hact, hpid⟩ := h.procs.owner q hq hin
    have hne' : prp' ≠ prp := fun heq => by
      rw [heq, hprp] at hact
      cases hact
    exact ⟨prp', (update_of_ne hne' ..).trans hact, (hother prp' hne').trans hpid⟩
  · exact fun kind q hq => hheap ▸ mem_cons_of_mem _ (h.refs.held kind q hq)
  · intro q hq
    change (t'.pid (t'.pidp q)).ref = s.holdsOf (t'.pidp q) + 1
    rcases hcases q hq with rfl | ⟨hqp, hq⟩
    · rw [hpidp, hself, hcount]
    · rw [hother q hqp, hold _ (h.procs.heap q hq)]
      exact h.refs.own q hq
  · intro q hq hnone
    rw [hheap] at hq
    rcases mem_cons.mp hq with rfl | hq
    · exact absurd hpidp fun hp => hnone prp ⟨(update_self ..).trans_ne (by decide), hp⟩
    · rw [hold q hq]
      refine h.refs.orphan q hq fun prp' hprp' => ?_
      have hne' : prp' ≠ prp := fun heq => hprp'.1 (heq ▸ hprp)
      exact hnone prp' ⟨(update_of_ne hne' ..).trans_ne hprp'.1, (hother prp' hne').trans hprp'.2⟩

theorem Inv.create (h : Inv s) (hs : s.create prp pidp = some s') : Inv s' := by
  obtain ⟨hnew, hs⟩ := ite_none_right_eq_some.mp hs
  obtain ⟨⟨t', r⟩, hr, rfl⟩ := map_eq_some_iff.mp hs
  cases r with
  | none => exact h
  | some newpid =>
    obtain ⟨pep, next, hfirst, hlink, rfl, hid, hrange⟩ := h.tables.pidAssign hr
    exact h.assigned hnew.1 hnew.2 hfirst hlink hid hrange

theorem Inv.entryFree (h : Inv s) (hs : s.entryFree prp = some s') : Inv s' := by
  obtain ⟨hact, hs⟩ := ite_none_right_eq_some.mp hs
  cases hs
  obtain ⟨hin, hslot⟩ := h.procs.active prp hact
  have hpresent : s.phase prp ≠ .absent := by rw [hact]; decide
  have hself : (s.t.procEntryFree (s.t.pidp prp)).pid (s.t.pidp prp) =
      { s.t.pid (s.t.pidp prp) with prinactive := true } := update_self ..
  have hold : ∀ q, q ≠ s.t.pidp prp → (s.t.procEntryFree (s.t.pidp prp)).pid q = s.t.pid q :=
    fun q hq => update_of_ne hq ..
  have href : ∀ q, ((s.t.procEntryFree (s.t.pidp prp)).pid q).ref = (s.t.pid q).ref :=
    update_field PidStruct.ref rfl
  have hinj : ∀ q, q ≠ prp → s.phase q ≠ .absent → s.t.pidp q ≠ s.t.pidp prp :=
    fun q hqp hq heq => hqp (h.procs.inj q prp hq hpresent heq)
  have hphase : ∀ q, update s.phase prp .exiting q ≠ .absent ↔ s.phase q ≠ .absent := by
    intro q
    by_cases hq : q = prp
    · rw [hq, update_self]
      exact ⟨fun _ => hpresent, fun _ => by decide⟩
    · rw [update_of_ne hq]
  refine ⟨h.tables.procEntryFree hslot, ⟨?_, ?_, ?_, ?_, ?_⟩, h.refs.held, ?_, ?_⟩
  · exact fun q hq => h.procs.heap q ((hphase q).mp hq)
  · exact fun q q' hq hq' => h.procs.inj q q' ((hphase q).mp hq) ((hphase q').mp hq')
  · intro q hq
    change update s.phase prp .exiting q = .active at hq
    have hqp : q ≠ prp := fun heq => by
      rw [heq, update_self] at hq
      cases hq
    rw [update_of_ne hqp] at hq
    have hqact := h.procs.active q hq
    change ((s.t.procEntryFree _).pid (s.t.pidp q)).prinactive = false ∧
      update s.t.procdir _ _ ((s.t.procEntryFree _).pid (s.t.pidp q)).prslot = _
    rw [hold _ (hinj q hqp (by rw [hq]; decide))]
    refine ⟨hqact.1, ?_⟩
    -- Another active process has another slot.
    have hslots : (s.t.pid (s.t.pidp q)).prslot ≠ (s.t.pid (s.t.pidp prp)).prslot := fun heq => by
      have heq' := hqact.2
      rw [heq, hslot, Procent.proc.injEq] at heq'
      exact hqp heq'.symm
    rw [update_of_ne hslots]
    exact hqact.2
  · intro q hq
    change update s.phase prp .exiting q = .exiting at hq
    change ((s.t.procEntryFree _).pid (s.t.pidp q)).prinactive = true
    by_cases hqp : q = prp
    · rw [hqp, hself]
    rw [update_of_ne hqp] at hq
    rw [hold _ (hinj q hqp (by rw [hq]; decide))]
    exact h.procs.exiting q hq
  · intro q hq hqin
    have hne : q ≠ s.t.pidp prp := fun heq => by
      rw [heq, hself] at hqin
      cases hqin
    rw [hold q hne] at hqin
    obtain ⟨prp', hact', hpid⟩ := h.procs.owner q hq hqin
    have hne' : prp' ≠ prp := fun heq => hne (by rw [← hpid, heq])
    exact ⟨prp', (update_of_ne hne' ..).trans hact', hpid⟩
  · intro q hq
    rw [href]
    exact h.refs.own q ((hphase q).mp hq)
  · intro q hq hnone
    rw [href]
    refine h.refs.orphan q hq fun prp' hprp' => hnone prp' ⟨(hphase prp').mpr hprp'.1, hprp'.2⟩

/-! ### References -/

section
variable {t : PidTable} {phase : Nat → ProcPhase}

/-- The processes do not depend on the counts of references. -/
theorem Procs.setRef (h : Procs t phase) (p ref : Nat) :
    Procs { t with pid := update t.pid p { t.pid p with ref := ref } } phase := by
  refine ⟨h.heap, h.inj, ?_, ?_, ?_⟩ <;>
    simp only [update_field PidStruct.prinactive, update_field PidStruct.prslot]
  · exact h.active
  · exact h.exiting
  · exact h.owner

/-- A structure that belongs to no process is freed. -/
theorem Procs.erase (h : Procs t phase) (hnone : ∀ prp, phase prp ≠ .absent → t.pidp prp ≠ p)
    (hnodup : t.heap.Nodup) (hash : Nat → List Nat) :
    Procs { t with pidhash := hash, heap := t.heap.erase p } phase := by
  refine ⟨fun q hq => ?_, h.inj, h.active, h.exiting, fun q hq => ?_⟩
  · exact hnodup.mem_erase_iff.mpr ⟨hnone q hq, h.heap q hq⟩
  · exact h.owner q (mem_of_mem_erase hq)

/-- A process has gone. -/
theorem Procs.leave (h : Procs t phase) (hprp : phase prp = .exiting) :
    Procs t (update phase prp .absent) := by
  have hcases : ∀ q, update phase prp .absent q ≠ .absent → q ≠ prp ∧ phase q ≠ .absent := by
    intro q hq
    by_cases hqp : q = prp
    · rw [hqp, update_self] at hq
      exact absurd rfl hq
    · rw [update_of_ne hqp] at hq
      exact ⟨hqp, hq⟩
  refine ⟨fun q hq => h.heap q (hcases q hq).2,
    fun q q' hq hq' => h.inj q q' (hcases q hq).2 (hcases q' hq').2, fun q hq => ?_,
    fun q hq => ?_, fun q hq hin => ?_⟩
  · have hqp := (hcases q (by rw [hq]; decide)).1
    rw [update_of_ne hqp] at hq
    exact h.active q hq
  · have hqp := (hcases q (by rw [hq]; decide)).1
    rw [update_of_ne hqp] at hq
    exact h.exiting q hq
  · obtain ⟨prp', hact, hpid⟩ := h.owner q hq hin
    have hne : prp' ≠ prp := fun heq => by
      rw [heq, hprp] at hact
      cases hact
    exact ⟨prp', (update_of_ne hne ..).trans hact, hpid⟩

end

/-- One more hold of a structure. -/
theorem countP_cons_hold (holds : List (HoldKind × Nat)) (q : Nat) :
    ((kind, p) :: holds).countP (fun h => h.2 == q) =
      holds.countP (fun h => h.2 == q) + if q = p then 1 else 0 := by
  by_cases hq : q = p
  · simp [hq]
  · have hpq : ¬p = q := fun h => hq h.symm
    simp [hq, hpq]

/-- Every reference is counted, and a structure counts one that is to be given up. -/
structure ReleDue (s : PidState) (p : Nat) : Prop where
  heap : p ∈ s.t.heap
  held : ∀ kind q, (kind, q) ∈ s.holds → q ∈ s.t.heap
  own : ∀ prp, s.phase prp ≠ .absent → (s.t.pid (s.t.pidp prp)).ref =
    s.holdsOf (s.t.pidp prp) + 1 + if s.t.pidp prp = p then 1 else 0
  orphan : ∀ q ∈ s.t.heap, (∀ prp, ¬s.HasPid prp q) →
    (s.t.pid q).ref = s.holdsOf q + (if q = p then 1 else 0) ∧ (q ≠ p → 0 < s.holdsOf q)

/-- Giving up a reference to a structure, of which there may be more. -/
theorem ReleDue.rele {t' : PidTable} (h : ReleDue s p) (htables : Tables s.t)
    (hprocs : Procs s.t s.phase) (hs : s.t.pidReleMacro p = some t') : Inv { s with t := t' } := by
  unfold pidReleMacro at hs
  by_cases hmore : (s.t.pid p).ref > 1
  · rw [if_pos hmore] at hs
    cases hs
    have href : ∀ q, (update s.t.pid p { s.t.pid p with ref := (s.t.pid p).ref - 1 } q).ref =
        (s.t.pid q).ref - if q = p then 1 else 0 := by
      intro q
      by_cases hq : q = p
      · rw [hq, update_self, if_pos rfl]
      · rw [update_of_ne hq, if_neg hq, Nat.sub_zero]
    refine ⟨htables.setRef _ _, hprocs.setRef _ _, h.held, fun q hq => ?_, fun q hq hno => ?_⟩
    · exact (href _).trans (by rw [h.own q hq, Nat.add_sub_cancel]; rfl)
    obtain ⟨hq, hpos⟩ := h.orphan q hq hno
    refine ⟨(href q).trans (by rw [hq, Nat.add_sub_cancel]; rfl), ?_⟩
    change 0 < s.holdsOf q
    by_cases hqp : q = p
    · rw [hqp, if_pos rfl] at hq
      rw [hqp]
      omega
    · exact hpos hqp
  · rw [if_neg hmore] at hs
    obtain ⟨t1, heq, ht1, htables1⟩ := htables.pidRele h.heap
    obtain rfl := some.inj (heq.symm.trans hs)
    -- The last reference is not the one of a process.
    have hnone : ∀ q, ¬s.HasPid q p := by
      rintro q ⟨hq, rfl⟩
      have hown := h.own q hq
      rw [if_pos rfl] at hown
      omega
    have hone := (h.orphan p h.heap hnone).1
    rw [if_pos rfl] at hone
    subst ht1
    refine ⟨htables1, hprocs.erase (fun q hq heq => hnone q ⟨hq, heq⟩) htables.heap _,
      fun kind q hq => ?_, fun q hq => ?_, fun q hq hno => ?_⟩
    · refine htables.heap.mem_erase_iff.mpr ⟨fun heq => ?_, h.held kind q hq⟩
      have hpos : 0 < s.holdsOf p := holdsOf_pos_iff.mpr ⟨kind, heq ▸ hq⟩
      omega
    · have hown := h.own q hq
      rwa [if_neg fun heq => hnone q ⟨hq, heq⟩] at hown
    · have hq' := htables.heap.mem_erase_iff.mp hq
      obtain ⟨hq, hpos⟩ := h.orphan q hq'.2 hno
      rw [if_neg hq'.1] at hq
      exact ⟨hq, hpos hq'.1⟩

theorem Inv.exitRele (h : Inv s) (hs : s.exitRele prp = some s') : Inv s' := by
  obtain ⟨hprp, hs⟩ := ite_none_right_eq_some.mp hs
  obtain ⟨t', ht', rfl⟩ := map_eq_some_iff.mp hs
  have hpresent : s.phase prp ≠ .absent := by rw [hprp]; decide
  have hdue : ReleDue { s with phase := update s.phase prp .absent } (s.t.pidp prp) := by
    refine ⟨h.procs.heap prp hpresent, h.refs.held, fun q hq => ?_, fun q hq hno => ?_⟩
    · have hqp : q ≠ prp := fun heq => hq (by rw [heq]; exact update_self ..)
      replace hq : s.phase q ≠ .absent := fun habs => hq (by rw [← habs]; exact update_of_ne hqp ..)
      rw [if_neg fun heq => hqp (h.procs.inj q prp hq hpresent heq)]
      exact h.refs.own q hq
    by_cases hqp : q = s.t.pidp prp
    · rw [if_pos hqp, hqp]
      exact ⟨h.refs.own prp hpresent, absurd rfl⟩
    rw [if_neg hqp]
    have horphan := h.refs.orphan q hq fun prp' hprp' => by
      have hne : prp' ≠ prp := fun heq => hqp (by rw [← hprp'.2, heq])
      exact hno prp' ⟨(update_of_ne hne ..).trans_ne hprp'.1, hprp'.2⟩
    exact ⟨horphan.1, fun _ => horphan.2⟩
  exact hdue.rele h.tables (h.procs.leave hprp) ht'

theorem Inv.hold (h : Inv s) (hs : s.hold kind p = some s') : Inv s' := by
  obtain ⟨hp, hs⟩ := ite_none_right_eq_some.mp hs
  cases hs
  have hcount : ∀ q, ((kind, p) :: s.holds).countP (fun h => h.2 == q) =
      s.holdsOf q + if q = p then 1 else 0 := countP_cons_hold s.holds
  have href : ∀ q, (update s.t.pid p { s.t.pid p with ref := (s.t.pid p).ref + 1 } q).ref =
      (s.t.pid q).ref + if q = p then 1 else 0 := by
    intro q
    by_cases hq : q = p
    · rw [hq, update_self, if_pos rfl]
    · rw [update_of_ne hq, if_neg hq, add_zero]
  refine ⟨h.tables.setRef _ _, h.procs.setRef _ _, fun k q hq => ?_, fun q hq => ?_,
    fun q hq hno => ?_⟩
  · rcases mem_cons.mp hq with heq | hq
    · rw [Prod.mk.injEq] at heq
      exact heq.2 ▸ hp
    · exact h.refs.held k q hq
  · have hown := h.refs.own q hq
    change (update s.t.pid p _ (s.t.pidp q)).ref =
      ((kind, p) :: s.holds).countP (fun h => h.2 == s.t.pidp q) + 1
    rw [href, hcount]
    omega
  · have horphan := h.refs.orphan q hq hno
    change (update s.t.pid p _ q).ref = ((kind, p) :: s.holds).countP (fun h => h.2 == q) ∧
      0 < ((kind, p) :: s.holds).countP (fun h => h.2 == q)
    rw [href, hcount]
    omega

theorem Inv.rele (h : Inv s) (hs : s.rele kind p = some s') : Inv s' := by
  obtain ⟨hmem, hs⟩ := ite_none_right_eq_some.mp hs
  obtain ⟨t', ht', rfl⟩ := map_eq_some_iff.mp hs
  have hcount : ∀ q, s.holdsOf q = ({ s with
      holds := s.holds.erase (kind, p) } : PidState).holdsOf q + if q = p then 1 else 0 :=
    fun q => ((perm_cons_erase hmem).countP_eq _).trans (countP_cons_hold _ q)
  have hdue : ReleDue { s with holds := s.holds.erase (kind, p) } p := by
    refine ⟨h.refs.held kind p hmem, fun k q hq => h.refs.held k q (mem_of_mem_erase hq),
      fun q hq => ?_, fun q hq hno => ?_⟩
    · have hown := h.refs.own q hq
      rw [hcount, add_right_comm] at hown
      exact hown
    · have horphan := h.refs.orphan q hq hno
      rw [hcount] at horphan
      refine ⟨horphan.1, fun hne => ?_⟩
      rw [if_neg hne] at horphan
      exact horphan.2
  exact hdue.rele h.tables h.procs ht'

/-- Every step keeps the invariant. -/
theorem Inv.step {op : PidOp} (h : Inv s) (hs : s.step op = some s') : Inv s' := by
  cases op with
  | setmin => exact h.setmin hs
  | create prp pidp => exact h.create hs
  | entryFree prp => exact h.entryFree hs
  | exitRele prp => exact h.exitRele hs
  | hold kind p => exact h.hold hs
  | rele kind p => exact h.rele hs

theorem Init.inv (h : s.Init) : Inv s := by
  have hphase : ∀ q, s.phase q ≠ .absent → q = 0 := by
    intro q hq
    by_contra hne
    rw [h.phase q, if_neg hne] at hq
    exact hq rfl
  have hzero : s.phase 0 = .active := by rw [h.phase 0, if_pos rfl]
  have hheap : ∀ p, p ∈ s.t.heap ↔ p = 0 := by
    intro p
    rw [h.heap, mem_singleton]
  refine ⟨⟨⟨fun b p => ?_, fun b => ?_⟩, ?_, ?_, ?_, ?_⟩, ⟨?_, ?_, ?_, ?_, ?_⟩, ?_, ?_, ?_⟩
  · rw [hheap, h.pidhash b]
    by_cases hb : b = s.t.hashPid 0
    · rw [if_pos hb, mem_singleton]
      refine ⟨fun hp => ⟨hp, ?_⟩, fun hp => hp.1⟩
      rw [hp, h.pid, hb]
    · rw [if_neg hb]
      refine ⟨nofun, fun ⟨hp, hk⟩ => absurd ?_ hb⟩
      rw [hp, h.pid] at hk
      exact hk.symm
  · rw [h.pidhash b]
    split
    · exact nodup_singleton 0
    · exact nodup_nil
  · rw [h.heap]
    exact nodup_singleton 0
  · intro p hp q hq _
    rw [(hheap p).mp hp, (hheap q).mp hq]
  · have := h.ids
    omega
  · obtain ⟨nproc, hn, hfirst, hlinks⟩ := h.free
    -- The slots are linked in order, from any of them on.
    have hchain : ∀ k i, 1 ≤ i → i + k = nproc → 0 < k →
        Linked (fun c => (s.t.procdir c).link) (some i) (List.range' i k) := by
      intro k
      induction k with
      | zero => exact fun i _ _ hk => absurd hk (lt_irrefl 0)
      | succ k ih =>
        intro i hi hsum _
        have hlink := hlinks i hi (by omega)
        by_cases hk : k = 0
        · subst hk
          refine .cons i none [] ?_ .nil
          rw [hlink, if_neg (by omega)]
          rfl
        · refine .cons i (some (i + 1)) _ ?_ (ih (i + 1) (by omega) (by omega) (by omega))
          rw [hlink, if_pos (by omega)]
          rfl
    refine ⟨List.range' 1 (nproc - 1), ?_, nodup_range'⟩
    rw [hfirst]
    exact hchain (nproc - 1) 1 le_rfl (by omega) (by omega)
  · intro q hq
    rw [hphase q hq, h.pidp, hheap]
  · intro q q' hq hq' _
    rw [hphase q hq, hphase q' hq']
  · intro q hq
    rw [hphase q (by rw [hq]; decide), h.pidp, h.pid]
    exact ⟨rfl, h.procdir⟩
  · intro q hq
    have hq0 := hphase q (by rw [hq]; decide)
    rw [hq0, hzero] at hq
    cases hq
  · intro p hp _
    exact ⟨0, hzero, by rw [h.pidp, (hheap p).mp hp]⟩
  · intro kind p hp
    rw [h.holds] at hp
    rw [hheap]
    rcases mem_cons.mp hp with heq | hp
    · exact congrArg Prod.snd heq
    · exact congrArg Prod.snd (mem_singleton.mp hp)
  · intro q hq
    rw [hphase q hq, h.pidp, h.pid, holdsOf, h.holds]
    rfl
  · intro p hp hno
    exact absurd ⟨by rw [hzero]; decide, by rw [h.pidp, (hheap p).mp hp]⟩ (hno 0)

theorem inv_of_reachable (hr : pids.Reachable s) : Inv s :=
  System.Reachable.invariant pids Inv (fun _ h => h.inv) (fun _ _ _ h hs => h.step hs) s hr

/-- `prfind` finds the active processes. -/
theorem Inv.prfind (h : Inv s) (id : Nat) : (∀ prp, s.t.prfind id = some (.proc prp) ↔
      s.phase prp = .active ∧ (s.t.pid (s.t.pidp prp)).id = id) ∧
    ∀ pep, s.t.prfind id ≠ some (.next pep) := by
  unfold PidTable.prfind
  cases hlook : s.t.pidLookup id with
  | none =>
    refine ⟨fun prp => ⟨nofun, fun ⟨hact, hid⟩ => ?_⟩, fun pep => by simp⟩
    have hheap := h.procs.heap prp (by rw [hact]; decide)
    exact absurd hid (h.tables.pidLookup_none.mp hlook _ hheap)
  | some p =>
    obtain ⟨hp, hid⟩ := h.tables.pidLookup_some.mp hlook
    simp only
    by_cases hin : (s.t.pid p).prinactive = false
    · rw [if_pos hin]
      obtain ⟨prp, hact, hpid⟩ := h.procs.owner p hp hin
      have hslot := (h.procs.active prp hact).2
      rw [hpid] at hslot
      rw [hslot]
      refine ⟨fun prp' => ?_, fun pep => by simp⟩
      rw [some.injEq, Procent.proc.injEq]
      constructor
      · rintro rfl
        exact ⟨hact, by rw [hpid, hid]⟩
      rintro ⟨hact', hid'⟩
      have hheap' := h.procs.heap prp' (by rw [hact']; decide)
      have hsame := h.tables.ids _ hheap' p hp (hid'.trans hid.symm)
      exact h.procs.inj prp prp' (by rw [hact]; decide) (by rw [hact']; decide)
        (hpid.trans hsame.symm)
    · rw [if_neg hin]
      refine ⟨fun prp => ⟨nofun, fun ⟨hact, hid'⟩ => ?_⟩, fun pep => by simp⟩
      have hheap' := h.procs.heap prp (by rw [hact]; decide)
      have hsame := h.tables.ids _ hheap' p hp (hid'.trans hid.symm)
      exact absurd (hsame ▸ (h.procs.active prp hact).1) hin

end PidState

open PidTable PidState

/-- In every sequence of creations, exits, holds and releases: the ids of the
    live pid structures are distinct, and each of them is on its chain; the
    slots of active processes are distinct and not free; the id that
    `pid_assign` returns is not in use; it returns if there is an id that is not
    in use; and `prfind` finds the active processes. -/
theorem pids_unique (s : PidState) (hr : pids.Reachable s) :
    (∀ p q, s.Live p → s.Live q → (s.t.pid p).id = (s.t.pid q).id → p = q) ∧
    (∀ p, s.Live p → p ∈ s.t.pidhash (s.t.hashPid (s.t.pid p).id)) ∧
    (∀ prp prp', s.phase prp = .active → s.phase prp' = .active →
      (s.t.pid (s.t.pidp prp)).prslot = (s.t.pid (s.t.pidp prp')).prslot → prp = prp') ∧
    (∀ prp l, s.phase prp = .active →
      Linked (fun c => (s.t.procdir c).link) s.t.procentfree l →
      (s.t.pid (s.t.pidp prp)).prslot ∉ l) ∧
    (∀ prp pidp t' newpid, s.t.pidAssign prp pidp = some (t', some newpid) →
      s.t.minpid ≤ newpid ∧ newpid < s.t.maxpid ∧ ∀ p, s.Live p → (s.t.pid p).id ≠ newpid) ∧
    (∀ prp pidp id, s.t.minpid ≤ id → id < s.t.maxpid → (∀ p, s.Live p → (s.t.pid p).id ≠ id) →
      (s.t.pidAssign prp pidp).isSome = true) ∧
    (∀ id prp, s.t.prfind id = some (.proc prp) ↔
      s.phase prp = .active ∧ (s.t.pid (s.t.pidp prp)).id = id) ∧
    ∀ id pep, s.t.prfind id ≠ some (.next pep) := by
  have h := inv_of_reachable hr
  refine ⟨?_, ?_, ?_, ?_, ?_, ?_, fun id => (h.prfind id).1, fun id => (h.prfind id).2⟩
  · exact fun p q hp hq => h.tables.ids p (h.live_iff.mp hp) q (h.live_iff.mp hq)
  · exact fun p hp => h.tables.chained.mem_own.mpr (h.live_iff.mp hp)
  · intro prp prp' hact hact' hslot
    have heq := (h.procs.active prp hact).2
    rw [hslot, (h.procs.active prp' hact').2, Procent.proc.injEq] at heq
    exact heq.symm
  · intro prp l hact hl hmem
    have hsome := hl.isSome hmem
    rw [(h.procs.active prp hact).2] at hsome
    cases hsome
  · intro prp pidp t' newpid hs
    obtain ⟨pep, next, -, -, -, hid, hmin, hmax⟩ := h.tables.pidAssign hs
    exact ⟨hmin, hmax, fun p hp => hid p (h.live_iff.mp hp)⟩
  · intro prp pidp id hmin hmax hfree
    have hsearch := h.tables.search_isSome ⟨hmin, hmax⟩ fun p hp => hfree p (h.live_iff.mpr hp)
    unfold pidAssign
    cases hfirst : s.t.procentfree with
    | none => rfl
    | some pep =>
      obtain ⟨l, hl, -⟩ := h.tables.free
      rw [hfirst] at hl
      cases hl with
      | cons _ n rest hlink _ =>
        cases hdir : s.t.procdir pep with
        | proc prp' =>
          rw [hdir] at hlink
          exact absurd hlink (by simp [Procent.link])
        | next next =>
          simp only [hdir, isSome_map]
          exact hsearch

/-- Process 0 in a directory of three slots. -/
def smallPids : PidState where
  t :=
    { hashsz := 2, pidhash := fun b => if b = 0 then [0] else []
      pid := fun _ => { prinactive := false, prslot := 0, id := 0, ref := 3 }
      procdir := fun i => if i = 0 then .proc 0 else if i = 1 then .next (some 2) else .next none
      procentfree := some 1, minpid := 0, mpid := 0, maxpid := 4, pidp := fun _ => 0, heap := [0] }
  phase := fun prp => if prp = 0 then .active else .absent
  holds := [(.group, 0), (.session, 0)]

theorem smallPids_init : smallPids.Init := by
  refine ⟨fun _ => rfl, rfl, rfl, rfl, rfl, fun _ => rfl, by decide, rfl, 3, by decide, rfl, ?_⟩
  intro i hi hlt
  rcases (by omega : i = 1 ∨ i = 2) with rfl | rfl
  · rfl
  · rfl

/-- A process leaves while its group keeps its id, and its slot is used again. -/
def pidsRun : List PidOp :=
  [.setmin, .create 1 10, .hold .group 10, .create 2 11, .entryFree 1, .exitRele 1, .create 3 12]

theorem pids_unique_recycled : (pids.exec smallPids pidsRun).any (fun s => s.t.prfind 1 == none &&
      s.t.prfind 3 == some (.proc 3) && (s.t.pid 12).prslot == (s.t.pid 10).prslot) = true ∧
    ∀ s, pids.exec smallPids pidsRun = some s →
      ∀ p q, s.Live p → s.Live q → (s.t.pid p).id = (s.t.pid q).id → p = q :=
  ⟨by decide +kernel, fun s hs =>
    (pids_unique s (System.reachable_of_exec pids pidsRun smallPids s smallPids_init hs)).1⟩

end Sol7
