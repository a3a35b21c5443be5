import Sol7.Pid.Model

/-!
# The Tables of Process Ids

The chains of pid structures, the ids, and the free entries of the process
directory. As long as a structure is in memory it is on its chain, so the
search of `pid_assign` sees every id that is in use.

## Main definitions

* `PidTable.Tables`: The chains, the ids and the free entries.

## Theorems

* `PidTable.searchPid_spec`, `PidTable.searchPid_isSome`: The search for an id.
* `PidTable.Tables.assigned`, `PidTable.Tables.pidRele`,
  `PidTable.Tables.procEntryFree`: The tables after a change.
-/

namespace Sol7.PidTable

open List Option Function

variable {t : PidTable} {p q : Nat}

/-- The chains, the ids, and the free entries of the directory. -/
structure Tables (t : PidTable) : Prop where
  chained : Chained (fun p => t.hashPid (t.pid p).id) (· ∈ t.heap) t.pidhash
  heap : t.heap.Nodup
  ids : ∀ p ∈ t.heap, ∀ q ∈ t.heap, (t.pid p).id = (t.pid q).id → p = q
  range : t.minpid < t.maxpid ∧ t.mpid < t.maxpid ∧ t.minpid ≤ t.mpid + 1
  free : ∃ l, Linked (fun c => (t.procdir c).link) t.procentfree l ∧ l.Nodup

/-! ### Looking for an id -/

variable {id mpid prp pidp pep newpid : Nat}

theorem Tables.pidLookup_some (h : Tables t) :
    t.pidLookup id = some p ↔ p ∈ t.heap ∧ (t.pid p).id = id := by
  unfold pidLookup
  constructor
  · intro hfind
    have hid : (t.pid p).id = id := by simpa using find?_some hfind
    exact ⟨((h.chained.mem _ p).mp (mem_of_find?_eq_some hfind)).1, hid⟩
  rintro ⟨hp, rfl⟩
  cases hfind : (t.pidhash (t.hashPid (t.pid p).id)).find? fun q => (t.pid q).id == (t.pid p).id with
  | none =>
    have hno := find?_eq_none.mp hfind p (h.chained.mem_own.mpr hp)
    exact absurd (by simp) hno
  | some q =>
    have hid : (t.pid q).id = (t.pid p).id := by simpa using find?_some hfind
    have hq := ((h.chained.mem _ q).mp (mem_of_find?_eq_some hfind)).1
    rw [h.ids q hq p hp hid]

theorem Tables.pidLookup_none (h : Tables t) :
    t.pidLookup id = none ↔ ∀ p ∈ t.heap, (t.pid p).id ≠ id := by
  rw [eq_none_iff_forall_ne_some]
  simp only [ne_eq, h.pidLookup_some, not_and]

theorem nextPid_range (h : t.minpid < t.maxpid ∧ mpid < t.maxpid ∧ t.minpid ≤ mpid + 1) :
    t.minpid ≤ t.nextPid mpid ∧ t.nextPid mpid < t.maxpid := by
  unfold nextPid
  by_cases hlast : mpid + 1 = t.maxpid
  · rw [if_pos hlast]
    omega
  · rw [if_neg hlast]
    omega

/-- The id that is found is not in use. -/
theorem searchPid_spec (fuel : Nat) : ∀ mpid,
    t.minpid < t.maxpid ∧ mpid < t.maxpid ∧ t.minpid ≤ mpid + 1 →
    t.searchPid fuel mpid = some id → t.pidLookup id = none ∧ t.minpid ≤ id ∧ id < t.maxpid := by
  induction fuel with
  | zero => exact nofun
  | succ fuel ih =>
    intro mpid hrange hs
    have hnext := nextPid_range hrange
    rw [searchPid] at hs
    by_cases hused : (t.pidLookup (t.nextPid mpid)).isSome = true
    · rw [if_pos hused] at hs
      exact ih (t.nextPid mpid) ⟨hrange.1, hnext.2, by omega⟩ hs
    · rw [if_neg hused, some.injEq] at hs
      subst hs
      exact ⟨by simpa using hused, hnext⟩

/-- How many ids are tried before one is come to, when it is searched for behind
    another one. -/
def distance (t : PidTable) (mpid id : Nat) : Nat :=
  if mpid < id then id - mpid else t.maxpid - mpid + (id - t.minpid)

/-- The search ends at an id that is free, if not before. -/
theorem searchPid_isSome (hid : t.minpid ≤ id ∧ id < t.maxpid) (hfree : t.pidLookup id = none)
    (fuel : Nat) : ∀ mpid, t.minpid < t.maxpid ∧ mpid < t.maxpid ∧ t.minpid ≤ mpid + 1 →
    t.distance mpid id ≤ fuel → (t.searchPid fuel mpid).isSome = true := by
  induction fuel with
  | zero =>
    intro mpid hrange hd
    unfold distance at hd
    split at hd <;> omega
  | succ fuel ih =>
    intro mpid hrange hd
    have hnext := nextPid_range hrange
    rw [searchPid]
    by_cases hused : (t.pidLookup (t.nextPid mpid)).isSome = true
    · rw [if_pos hused]
      refine ih (t.nextPid mpid) ⟨hrange.1, hnext.2, by omega⟩ ?_
      have hne : t.nextPid mpid ≠ id := fun heq => by
        rw [heq, hfree] at hused
        cases hused
      unfold distance nextPid at *
      by_cases hlast : mpid + 1 = t.maxpid
      · rw [if_pos hlast] at hne ⊢
        rw [if_neg (by omega)] at hd
        rw [if_pos (by omega)]
        omega
      rw [if_neg hlast] at hne ⊢
      by_cases hlt : mpid < id
      · rw [if_pos hlt] at hd
        rw [if_pos (by omega)]
        omega
      · rw [if_neg hlt] at hd
        rw [if_neg (by omega)]
        omega
    · rw [if_neg hused]
      rfl

theorem Tables.search_isSome (h : Tables t) (hid : t.minpid ≤ id ∧ id < t.maxpid)
    (hfree : ∀ p ∈ t.heap, (t.pid p).id ≠ id) :
    (t.searchPid t.searchFuel t.mpid).isSome = true := by
  refine searchPid_isSome hid (h.pidLookup_none.mpr hfree) _ _ h.range ?_
  unfold distance searchFuel
  split <;> omega

/-! ### Changes of the tables -/

/-- The directory, and the id and slot of a structure, are not changed by
    counting references. -/
theorem Tables.setRef (h : Tables t) (p ref : Nat) :
    Tables { t with pid := update t.pid p { t.pid p with ref := ref } } := by
  have hid : ∀ q, (update t.pid p { t.pid p with ref := ref } q).id = (t.pid q).id :=
    update_field PidStruct.id rfl
  refine ⟨h.chained.congr fun q _ => ?_, h.heap, fun q hq q' hq' heq => ?_, h.range, h.free⟩
  · change t.hashPid (update t.pid p _ q).id = _
    rw [hid q]
  · rw [hid q, hid q'] at heq
    exact h.ids q hq q' hq' heq

/-- The structure of the new process, and those of the others. -/
theorem assigned_pid (prp pep newpid : Nat) (next : Option Nat) (hnew : pidp ∉ t.heap) :
    (∀ q ∈ t.heap, (t.assigned prp pidp pep newpid next).pid q = t.pid q) ∧
    (t.assigned prp pidp pep newpid next).pid pidp =
      { prinactive := false, prslot := pep, id := newpid, ref := 1 } :=
  ⟨fun q hq => update_of_ne (fun heq : q = pidp => hnew (heq ▸ hq)) _ _, update_self ..⟩

/-- A process gets a free entry, and an id that is not in use. -/
theorem Tables.assigned (h : Tables t) (prp : Nat) {next : Option Nat}
    (hfirst : t.procentfree = some pep) (hlink : t.procdir pep = .next next) (hnew : pidp ∉ t.heap)
    (hid : ∀ q ∈ t.heap, (t.pid q).id ≠ newpid) (hrange : t.minpid ≤ newpid ∧ newpid < t.maxpid) :
    Tables (t.assigned prp pidp pep newpid next) := by
  have hne : ∀ q ∈ t.heap, q ≠ pidp := fun q hq heq => hnew (heq ▸ hq)
  obtain ⟨hold, hself⟩ := assigned_pid prp pep newpid next hnew
  refine ⟨?_, nodup_cons.mpr ⟨hnew, h.heap⟩, ?_, ?_, ?_⟩
  · have hchained : Chained (fun q => t.hashPid ((t.assigned prp pidp pep newpid next).pid q).id)
        (fun q => q = pidp ∨ q ∈ t.heap) (link t.pidhash (t.hashPid newpid) pidp) :=
      h.chained.link hnew (fun q hq => by rw [hold q hq]) (by rw [hself])
    refine ⟨fun b q => ?_, hchained.nodup⟩
    exact (hchained.mem b q).trans (and_congr_left fun _ => mem_cons.symm)
  · intro q hq q' hq' heq
    rcases mem_cons.mp hq with hq | hq
    · rcases mem_cons.mp hq' with hq' | hq'
      · rw [hq, hq']
      · rw [hq, hself, hold q' hq'] at heq
        exact absurd heq.symm (hid q' hq')
    · rcases mem_cons.mp hq' with hq' | hq'
      · rw [hq', hself, hold q hq] at heq
        exact absurd heq (hid q hq)
      · rw [hold q hq, hold q' hq'] at heq
        exact h.ids q hq q' hq' heq
  · have := h.range
    exact ⟨this.1, hrange.2, Nat.le_succ_of_le hrange.1⟩
  · obtain ⟨l, hl, hnodup⟩ := h.free
    rw [hfirst] at hl
    have hlink' : (t.procdir pep).link = some next := by rw [hlink]; rfl
    obtain ⟨rest, rfl, hrest⟩ := hl.head hlink'
    rw [nodup_cons] at hnodup
    refine ⟨rest, hrest.congr fun c hc => ?_, hnodup.2⟩
    have hc : c ≠ pep := fun heq => hnodup.1 (heq ▸ hc)
    change (update t.procdir pep _ c).link = _
    rw [update_of_ne hc]

/-- The last reference is given up. -/
theorem Tables.pidRele (h : Tables t) (hp : p ∈ t.heap) : ∃ t', t.pidRele p = some t' ∧
    t' = { t with
      pidhash := unlink t.pidhash (t.hashPid (t.pid p).id) p, heap := t.heap.erase p } ∧
    Tables t' := by
  refine ⟨_, if_pos (h.chained.mem_own.mpr hp), rfl, ?_, h.heap.erase p, ?_, h.range, h.free⟩
  · have hchained : Chained (fun q => t.hashPid (t.pid q).id) (fun q => q ∈ t.heap ∧ q ≠ p)
        (unlink t.pidhash (t.hashPid (t.pid p).id) p) := h.chained.unlink (fun q _ _ => rfl) rfl
    refine ⟨fun b q => ?_, hchained.nodup⟩
    refine (hchained.mem b q).trans (and_congr_left fun _ => ?_)
    rw [h.heap.mem_erase_iff]
    exact and_comm
  · intro q hq q' hq'
    exact h.ids q (mem_of_mem_erase hq) q' (mem_of_mem_erase hq')

/-- The entry of a process is put on the free list. -/
theorem Tables.procEntryFree (h : Tables t) (hslot : t.procdir (t.pid p).prslot = .proc prp) :
    Tables (t.procEntryFree p) := by
  have hid : ∀ q, ((t.procEntryFree p).pid q).id = (t.pid q).id :=
    update_field PidStruct.id rfl
  refine ⟨h.chained.congr fun q _ => ?_, h.heap, fun q hq q' hq' heq => ?_, h.range, ?_⟩
  · change t.hashPid ((t.procEntryFree p).pid q).id = _
    rw [hid q]
  · rw [hid q, hid q'] at heq
    exact h.ids q hq q' hq' heq
  obtain ⟨l, hl, hnodup⟩ := h.free
  -- The entry holds a process, so it is not on the free list.
  have hnot : (t.pid p).prslot ∉ l := fun hmem => by
    have hsome := hl.isSome hmem
    rw [hslot] at hsome
    cases hsome
  refine ⟨(t.pid p).prslot :: l, .cons _ t.procentfree l ?_ ?_, nodup_cons.mpr ⟨hnot, hnodup⟩⟩
  · change (update t.procdir _ _ _).link = _
    rw [update_self]
    rfl
  · refine hl.congr fun c hc => ?_
    have hc : c ≠ (t.pid p).prslot := fun heq => hnot (heq ▸ hc)
    change (update t.procdir _ _ c).link = _
    rw [update_of_ne hc]

/-- What `pid_assign` does when it returns an id. -/
theorem Tables.pidAssign (h : Tables t) {t' : PidTable}
    (hs : t.pidAssign prp pidp = some (t', some newpid)) : ∃ pep next,
    t.procentfree = some pep ∧ t.procdir pep = .next next ∧
      t' = t.assigned prp pidp pep newpid next ∧ (∀ q ∈ t.heap, (t.pid q).id ≠ newpid) ∧
      t.minpid ≤ newpid ∧ newpid < t.maxpid := by
  unfold PidTable.pidAssign at hs
  cases hfirst : t.procentfree with
  | none => simp [hfirst] at hs
  | some pep =>
    cases hlink : t.procdir pep with
    | proc prp' => simp [hfirst, hlink] at hs
    | next next =>
      simp only [hfirst, hlink] at hs
      obtain ⟨id, hsearch, heq⟩ := map_eq_some_iff.mp hs
      obtain ⟨rfl, rfl⟩ := heq
      obtain ⟨hnone, hrange⟩ := searchPid_spec _ _ h.range hsearch
      exact ⟨pep, next, rfl, hlink, rfl, h.pidLookup_none.mp hnone, hrange⟩

end Sol7.PidTable
