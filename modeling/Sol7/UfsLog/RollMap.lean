import Sol7.UfsLog.Roll

/-!
# The Logmap Beside the Roll Thread

What is always true of the logmap while it is being rolled. Deltas are in the
order of their ages and of their transactions, and every delta lies within one
block. A delta on the cancel list either lies where something was cancelled,
or is covered by a newer delta of the current transaction, which is not on the
cancel list: so the deltas that a commit frees are not missed.

The roll thread only knows the deltas that it has flagged. All other routines
leave these where they are, whatever flags they change.

## Main definitions

* `Me.bare`: An entry without its flags.
* `Ordered`: Order and shape of the entries.
* `MapOk`: The invariant of the logmap.
* `RollState.rolled`: The deltas that are being rolled.
* `KeepsRoll`: A change of entries that leaves those alone.

## Theorems

* `Ordered.filterMap`, `Ordered.put`: Entries are changed, dropped and added.
* `rollList_eq`: The age list has the deltas in the order of the logmap.
* `removeRoll_spec`: What a pass of `logmap_remove_roll` removes.
* `MapOk.addBegin` and so on: The invariant is kept.
-/

namespace Sol7.UfsLog

open List Mtm RollState Me
open Bool (and_eq_true not_eq_true' or_eq_true)

/-! ### Entries -/

namespace Me

variable {β : Type} [Zero β]

/-- An entry without its flags. -/
def bare {δ : Type} (me : Me δ) : Me δ := { me with roll := false, cancel := false, aged := false }

theorem at_bare (me : Me (Nat → β)) (x : Nat) : me.bare.at x = me.at x := rfl

variable {d e me : Me (Nat → β)}

theorem at_congr (h : d.bare = e.bare) (x : Nat) : d.at x = e.at x := by
  rw [← at_bare d, h, at_bare]

variable {δ : Type}

/-- Entries that differ in their flags only. -/
theorem eq_of_bare {d e : Me δ} (h : d.bare = e.bare) :
    ∃ r c a, d = { e with roll := r, cancel := c, aged := a } := by
  cases d
  cases e
  cases h
  exact ⟨_, _, _, rfl⟩

variable {x mof nb mblkno mblkno' : Nat}

theorem at_ne_none : me.at x ≠ none ↔ me.dt ≠ .cancel ∧ me.mof ≤ x ∧ x < me.mof + me.nb := by
  unfold Me.at
  split
  · next h => exact ⟨fun _ => h, fun _ => Option.some_ne_none _⟩
  · next h => exact ⟨absurd rfl, fun hin => absurd hin h⟩

/-- What lies within new data is covered by it. -/
theorem covers_of_within (hw : me.within mof nb = true) (hx : me.at x ≠ none) :
    mof ≤ x ∧ x < mof + nb := by
  rw [at_ne_none] at hx
  unfold within at hw
  rw [and_eq_true, decide_eq_true_eq, decide_eq_true_eq] at hw
  omega

/-- A delta that lies in one of the roll thread's blocks. -/
def inBlk {δ : Type} (mblkno : Nat) (me : Me δ) : Bool :=
  devBsize * mblkno ≤ me.mof && me.mof < devBsize * mblkno + mapBlockSize

/-- Blocks do not overlap. -/
theorem inBlk_inj (ha : mblkno % 16 = 0) (ha' : mblkno' % 16 = 0) {e : Me δ}
    (he : e.inBlk mblkno = true) (he' : e.inBlk mblkno' = true) : mblkno = mblkno' := by
  unfold inBlk devBsize mapBlockSize at he he'
  rw [and_eq_true, decide_eq_true_eq, decide_eq_true_eq] at he he'
  omega

theorem inBlk_iff {me : Me δ} : me.inBlk mblkno = true ↔
    devBsize * mblkno ≤ me.mof ∧ me.mof < devBsize * mblkno + mapBlockSize := by
  unfold inBlk
  rw [and_eq_true, decide_eq_true_eq, decide_eq_true_eq]

end Me

/-! ### The order of the logmap -/

/-- Order and shape of the entries. -/
structure Ordered {δ : Type} (m : Mtm δ) : Prop where
  ages : m.entries.Pairwise fun d e => d.age < e.age
  age : ∀ e ∈ m.entries, e.age < m.age
  tids : m.entries.Pairwise fun d e => d.tid ≤ e.tid
  tid : ∀ e ∈ m.entries, e.tid ≤ m.tid
  block : ∀ e ∈ m.entries, 0 < e.nb ∧ e.mof % mapBlockSize + e.nb ≤ mapBlockSize
  ud : ∀ e ∈ m.entries, e.dt ≠ .ud

namespace Ordered

variable {δ : Type} {m m' : Mtm δ}

/-- Entries may change their flags, and may be dropped. -/
theorem filterMap (h : Ordered m) {f : Me δ → Option (Me δ)}
    (hf : ∀ e ∈ m.entries, ∀ e', f e = some e' → e'.bare = e.bare)
    (hentries : m'.entries = m.entries.filterMap f) (hage : m'.age = m.age)
    (htid : m.tid ≤ m'.tid) : Ordered m' := by
  -- Each entry is an old one, but for its flags.
  have hold : ∀ e' ∈ m'.entries, ∃ e ∈ m.entries, ∃ r c a,
      e' = { e with roll := r, cancel := c, aged := a } := by
    intro e' he'
    rw [hentries, mem_filterMap] at he'
    obtain ⟨e, he, hfe⟩ := he'
    exact ⟨e, he, eq_of_bare (hf e he e' hfe)⟩
  have hpair : ∀ {R : Me δ → Me δ → Prop}, (∀ d d' e e', d'.bare = d.bare → e'.bare = e.bare →
      R d e → R d' e') → m.entries.Pairwise R → m'.entries.Pairwise R := by
    intro R hR hp
    rw [hentries, pairwise_filterMap]
    refine hp.imp_of_mem fun {d e} hd he hde d' hd' e' he' => ?_
    exact hR d d' e e' (hf d hd d' hd') (hf e he e' he') hde
  refine ⟨hpair ?_ h.ages, ?_, hpair ?_ h.tids, ?_, ?_, ?_⟩
  · intro d d' e e' hd he hlt
    obtain ⟨_, _, _, rfl⟩ := eq_of_bare hd
    obtain ⟨_, _, _, rfl⟩ := eq_of_bare he
    exact hlt
  · intro e' he'
    obtain ⟨e, he, _, _, _, rfl⟩ := hold e' he'
    exact hage ▸ h.age e he
  · intro d d' e e' hd he hle
    obtain ⟨_, _, _, rfl⟩ := eq_of_bare hd
    obtain ⟨_, _, _, rfl⟩ := eq_of_bare he
    exact hle
  · intro e' he'
    obtain ⟨e, he, _, _, _, rfl⟩ := hold e' he'
    exact (h.tid e he).trans htid
  · intro e' he'
    obtain ⟨e, he, _, _, _, rfl⟩ := hold e' he'
    exact h.block e he
  · intro e' he'
    obtain ⟨e, he, _, _, _, rfl⟩ := hold e' he'
    exact h.ud e he

theorem sublist (h : Ordered m) (hs : m'.entries.Sublist m.entries) (hage : m'.age = m.age)
    (htid : m.tid ≤ m'.tid) : Ordered m' where
  ages := h.ages.sublist hs
  age := fun e he => hage ▸ h.age e (hs.subset he)
  tids := h.tids.sublist hs
  tid := fun e he => le_trans (h.tid e (hs.subset he)) htid
  block := fun e he => h.block e (hs.subset he)
  ud := fun e he => h.ud e (hs.subset he)

/-- An entry of an earlier transaction is older. -/
theorem age_lt (h : Ordered m) {d e : Me δ} (hd : d ∈ m.entries) (he : e ∈ m.entries)
    (hlt : e.tid < d.tid) : e.age < d.age := by
  obtain ⟨i, hi, rfl⟩ := getElem_of_mem hd
  obtain ⟨j, hj, rfl⟩ := getElem_of_mem he
  rcases lt_trichotomy i j with hij | rfl | hij
  · exact absurd hlt (not_lt.mpr (pairwise_iff_getElem.mp h.tids i j hi hj hij))
  · exact absurd hlt (lt_irrefl _)
  · exact pairwise_iff_getElem.mp h.ages j i hj hi hij

/-- A new entry is the newest one. -/
theorem put (h : Ordered m) {me : Me δ}
    (hblock : 0 < me.nb ∧ me.mof % mapBlockSize + me.nb ≤ mapBlockSize) (hud : me.dt ≠ .ud) :
    Ordered (m.put me) := by
  have hforall : ∀ {P : Me δ → Prop}, (∀ e ∈ m.entries, P e) →
      P { me with tid := m.tid, age := m.age } → ∀ e ∈ (m.put me).entries, P e := by
    intro P hP hnew e he
    rcases mem_append.mp he with he | he
    · exact hP e he
    · rw [mem_singleton.mp he]
      exact hnew
  refine ⟨?_, hforall (fun e he => Nat.lt_succ_of_lt (h.age e he)) (Nat.lt_succ_self _), ?_,
    hforall h.tid le_rfl, hforall h.block hblock, hforall h.ud hud⟩
  · refine pairwise_append.mpr ⟨h.ages, pairwise_singleton _ _, fun d hd e he => ?_⟩
    rw [mem_singleton.mp he]
    exact h.age d hd
  · refine pairwise_append.mpr ⟨h.tids, pairwise_singleton _ _, fun d hd e he => ?_⟩
    rw [mem_singleton.mp he]
    exact h.tid d hd

end Ordered

/-! ### Lists of deltas -/

section
variable {δ : Type} {m : Mtm δ}

/-- Sorting the chain, which has the newest entry first, gives the order of the
    logmap. -/
theorem foldl_listAge {l : List (Me δ)} (hs : l.Pairwise fun d e => d.age < e.age) :
    l.reverse.foldl listAge [] = l := by
  induction l with
  | nil => rfl
  | cons me l ih =>
    rw [pairwise_cons] at hs
    rw [reverse_cons, foldl_append, ih hs.2]
    cases l with
    | nil => rfl
    | cons d l => exact if_pos (hs.1 d mem_cons_self)

theorem rollList_eq (h : Ordered m) (mof nb : Nat) :
    m.rollList mof nb = m.entries.filter (m.rollable mof nb) := by
  unfold rollList
  rw [filter_reverse]
  exact foldl_listAge (h.ages.sublist filter_sublist)

/-- New data leaves an entry alone, or frees or cancels it. -/
theorem superseded_cases (mof nb : Nat) (e : Me δ) :
    m.consumes mof nb e = false ∧ m.superseded mof nb e = some e ∨
      m.consumes mof nb e = true ∧
        (m.superseded mof nb e = none ∨ m.superseded mof nb e = some { e with cancel := true }) := by
  unfold superseded
  cases hc : m.consumes mof nb e with
  | false => exact .inl ⟨rfl, rfl⟩
  | true =>
    refine .inr ⟨rfl, ?_⟩
    rw [if_pos rfl]
    split
    · exact .inl rfl
    · exact .inr rfl

theorem consumes_iff (mof nb : Nat) (e : Me δ) :
    m.consumes mof nb e = true ↔ mapIndex m.nhash e.mof = mapIndex m.nhash mof ∧
      e.within mof nb = true ∧ e.roll = false ∧ e.cancel = false := by
  unfold consumes
  simp only [and_eq_true, not_eq_true', beq_iff_eq, and_assoc]

/-- A pass of `logmap_remove_roll` keeps what is not being rolled, and if it
    does not end early it leaves nothing of the block that is. -/
theorem removeRollFrom_spec (mof nb : Nat) (l : List (Me δ)) :
    (m.removeRollFrom mof nb l).1.Sublist l ∧
      (m.removeRollFrom mof nb l).1.filter (fun e => !e.roll) = l.filter (fun e => !e.roll) ∧
      ((m.removeRollFrom mof nb l).2 = true → ∀ e ∈ (m.removeRollFrom mof nb l).1,
        e.roll = true → mapIndex m.nhash e.mof = mapIndex m.nhash mof → e.within mof nb = false) := by
  induction l with
  | nil => exact ⟨.refl _, rfl, nofun⟩
  | cons me l ih =>
    obtain ⟨hsub, hrest, hdone⟩ := ih
    unfold removeRollFrom
    split
    · next hrem =>
        rw [and_eq_true, and_eq_true] at hrem
        split
        · exact ⟨.refl _, rfl, nofun⟩
        · refine ⟨hsub.cons _, ?_, hdone⟩
          rw [hrest, filter_cons_of_neg (by rw [hrem.1.2]; decide)]
    · next hkeep =>
        refine ⟨hsub.cons_cons _, ?_, fun hf e he hroll hidx => ?_⟩
        · rw [filter_cons, filter_cons, hrest]
        · rcases mem_cons.mp he with rfl | he
          · rw [hidx, hroll, beq_self_eq_true, Bool.and_self, Bool.true_and] at hkeep
            exact Bool.eq_false_iff.mpr hkeep
          · exact hdone hf e he hroll hidx

theorem removeRoll_spec (mof nb : Nat) : (m.removeRoll mof nb).entries.Sublist m.entries ∧
      (m.removeRoll mof nb).entries.filter (fun e => !e.roll) =
        m.entries.filter (fun e => !e.roll) ∧
      (m.removeRollDone mof nb = true → ∀ e ∈ (m.removeRoll mof nb).entries, e.roll = true →
        mapIndex m.nhash e.mof = mapIndex m.nhash mof → e.within mof nb = false) := by
  obtain ⟨hsub, hrest, hdone⟩ := removeRollFrom_spec mof nb m.entries.reverse
  refine ⟨?_, ?_, fun hf e he => hdone hf e (mem_reverse.mp he)⟩
  · rw [← reverse_sublist, removeRoll, reverse_reverse]
    exact hsub
  · change (m.removeRollFrom mof nb m.entries.reverse).1.reverse.filter _ = _
    rw [filter_reverse, hrest, ← filter_reverse, reverse_reverse]

end

/-! ### The invariant of the logmap -/

/-- The invariant of the logmap. -/
structure MapOk {β : Type} [Zero β] (s : RollState β) : Prop where
  ordered : Ordered s.map
  committid : s.map.committid = s.map.tid ∨ s.map.committid + 1 = s.map.tid
  cancels : ∀ e ∈ s.map.entries, e.dt = .cancel → e.cancel = true
  rolls : ∀ e ∈ s.map.entries, e.roll = true → e.tid < s.map.committid ∧ e.dt ≠ .cancel
  low : ∀ d ∈ s.map.entries, d.roll = false → d.dt ≠ .cancel → ∀ e ∈ s.map.entries,
    e.roll = true → d.mof / mapBlockSize = e.mof / mapBlockSize → e.age < d.age
  covered : ∀ e ∈ s.map.entries, e.cancel = true → ∀ x, e.at x ≠ none →
    s.doomed x = true ∨ (∃ n, s.adding = some n ∧ n.at x ≠ none) ∨
      ∃ d ∈ s.map.entries, d.cancel = false ∧ d.tid = s.map.tid ∧ d.at x ≠ none ∧ e.age < d.age
  adding : ∀ n, s.adding = some n → s.committing = false ∧
    (0 < n.nb ∧ n.mof % mapBlockSize + n.nb ≤ mapBlockSize) ∧ n.dt ≠ .ud ∧ n.dt ≠ .cancel ∧
      n.roll = false ∧ n.cancel = false
  committing : s.committing = true → s.map.committid = s.map.tid

/-- The deltas that are being rolled. -/
def RollState.rolled {β : Type} (s : RollState β) : List (Me (Nat → β)) :=
  (s.map.entries.filter Me.roll).map Me.bare

/-- The deltas that are being rolled stay, and no others join them. -/
structure KeepsRoll {δ : Type} (es : List (Me δ)) (f : Me δ → Option (Me δ)) : Prop where
  bare : ∀ e ∈ es, ∀ e', f e = some e' → e'.bare = e.bare ∧ e'.roll = e.roll
  stays : ∀ e ∈ es, e.roll = true → f e ≠ none

theorem KeepsRoll.rolled {δ : Type} {es : List (Me δ)} {f : Me δ → Option (Me δ)}
    (h : KeepsRoll es f) :
    ((es.filterMap f).filter Me.roll).map Me.bare = (es.filter Me.roll).map Me.bare := by
  induction es with
  | nil => rfl
  | cons e es ih =>
    have hrest := ih ⟨(forall_mem_cons.mp h.bare).2, (forall_mem_cons.mp h.stays).2⟩
    rw [filterMap_cons]
    cases hf : f e with
    | none =>
      have hno : e.roll = false := by
        by_contra hroll
        exact h.stays e mem_cons_self (Bool.eq_true_of_not_eq_false hroll) hf
      rw [filter_cons_of_neg (by simp [hno])]
      exact hrest
    | some e' =>
      obtain ⟨hbare, hroll⟩ := h.bare e mem_cons_self e' hf
      rw [filter_cons, filter_cons, hroll]
      split
      · rw [map_cons, map_cons, hrest, hbare]
      · exact hrest

theorem rolled_append {δ : Type} (es : List (Me δ)) {me : Me δ} (hroll : me.roll = false) :
    ((es ++ [me]).filter roll).map bare = (es.filter roll).map bare := by
  rw [filter_append, filter_cons_of_neg (Bool.eq_false_iff.mp hroll), filter_nil, append_nil]

theorem logFree_iff {β : Type} {s : RollState β} :
    s.logFree = true ↔ s.adding = none ∧ s.committing = false := by
  unfold logFree
  rw [and_eq_true, Option.isNone_iff_eq_none, not_eq_true']

theorem inMapBlock_iff {mof nb : Nat} :
    inMapBlock mof nb = true ↔ 0 < nb ∧ mof % mapBlockSize + nb ≤ mapBlockSize := by
  unfold inMapBlock
  rw [and_eq_true, decide_eq_true_eq, decide_eq_true_eq]

theorem supersede_keepsRoll {δ : Type} (m : Mtm δ) (mof nb : Nat) :
    KeepsRoll m.entries (m.superseded mof nb) := by
  refine ⟨fun e _ e' hfe => ?_, fun e _ hroll hfe => ?_⟩
  · rcases superseded_cases mof nb e with ⟨_, heq⟩ | ⟨_, heq | heq⟩ <;>
      rw [heq] at hfe <;> cases hfe <;> exact ⟨rfl, rfl⟩
  rcases superseded_cases mof nb e with ⟨_, heq⟩ | ⟨hc, _⟩
  · rw [heq] at hfe
    exact absurd hfe (Option.some_ne_none e)
  · have hno := ((consumes_iff mof nb e).mp hc).2.2.1
    exact nomatch hno.symm.trans hroll

section
variable {δ : Type} {age : Nat} {e e' : Me δ}

/-- A turn of `logmap_free_cancel` touches only what is on the cancel list. -/
theorem freed_of_not_cancel (hc : e.cancel = false) :
    (if e.age = age then cancelled e else some e) = some e := by
  unfold cancelled
  rw [hc, if_neg Bool.false_ne_true, ite_self]

theorem freed_some (h : (if e.age = age then cancelled e else some e) = some e') :
    e' = e ∨ e.roll = true ∧ e' = { e with cancel := false } := by
  unfold cancelled at h
  split at h
  · split at h
    · split at h
      · next hroll =>
          cases h
          exact .inr ⟨hroll, rfl⟩
      · cases h
    · cases h
      exact .inl rfl
  · cases h
    exact .inl rfl

theorem freed_none (h : (if e.age = age then cancelled e else some e) = none) :
    e.cancel = true ∧ e.roll = false := by
  unfold cancelled at h
  split at h
  · split at h
    · next hc =>
        split at h
        · cases h
        · next hroll => exact ⟨hc, Bool.eq_false_iff.mpr hroll⟩
    · cases h
  · cases h

theorem freeCancelOne_keepsRoll (m : Mtm δ) (age : Nat) :
    KeepsRoll m.entries (fun e => if e.age = age then cancelled e else some e) := by
  refine ⟨fun e _ e' hfe => ?_, fun e _ hroll hfe => ?_⟩
  · rcases freed_some hfe with rfl | ⟨_, rfl⟩ <;> exact ⟨rfl, rfl⟩
  · exact Bool.false_ne_true ((freed_none hfe).2.symm.trans hroll)

end

namespace MapOk

variable {β : Type} [Zero β] {s s' : RollState β}

/-- A byte of a delta on the cancel list has been cancelled, or there is newer data. -/
def Covered (s : RollState β) (x age : Nat) : Prop :=
  s.doomed x = true ∨ (∃ n, s.adding = some n ∧ n.at x ≠ none) ∨
    ∃ d ∈ s.map.entries, d.cancel = false ∧ d.tid = s.map.tid ∧ d.at x ≠ none ∧ age < d.age

/-- The operations beside the roll thread are where they were. -/
structure SameOps (s s' : RollState β) : Prop where
  adding : s'.adding = s.adding
  committing : s'.committing = s.committing
  doomed : s'.doomed = s.doomed

/-- A delta that is being written to the log. -/
def Pending (s : RollState β) (n : Me (Nat → β)) : Prop :=
  s.committing = false ∧ (0 < n.nb ∧ n.mof % mapBlockSize + n.nb ≤ mapBlockSize) ∧ n.dt ≠ .ud ∧
    n.dt ≠ .cancel ∧ n.roll = false ∧ n.cancel = false

theorem SameOps.pending (hsame : SameOps s s') (h : MapOk s) (n : Me (Nat → β))
    (hn : s'.adding = some n) : Pending s' n := by
  unfold Pending
  rw [hsame.committing]
  exact h.adding n (hsame.adding ▸ hn)

/-- Deltas of the current transaction that are not on the cancel list stay. -/
theorem Covered.imp {x age : Nat} (h : Covered s x age) (hsame : SameOps s s')
    (htid : s'.map.tid = s.map.tid)
    (hstays : ∀ d ∈ s.map.entries, d.cancel = false → d.tid = s.map.tid →
      ∃ d' ∈ s'.map.entries, d'.cancel = false ∧ d'.bare = d.bare) : Covered s' x age := by
  unfold Covered
  rw [hsame.doomed, hsame.adding, htid]
  rcases h with hd | hn | ⟨d, hd, hdc, hdt, hdx, hlt⟩
  · exact .inl hd
  · exact .inr (.inl hn)
  · obtain ⟨d', hd', hdc', hbare⟩ := hstays d hd hdc hdt
    obtain ⟨_, _, _, rfl⟩ := eq_of_bare hbare
    exact .inr (.inr ⟨_, hd', hdc', hdt, hdx, hlt⟩)

/-- The roll thread's own fields do not matter. -/
theorem congr (h : MapOk s) (hmap : s'.map = s.map) (hsame : SameOps s s') : MapOk s' := by
  obtain ⟨hadding, hcommitting, hdoomed⟩ := hsame
  cases s'
  subst hmap hadding hcommitting hdoomed
  exact { h with }

section
variable {f : Me (Nat → β) → Option (Me (Nat → β))} (h : MapOk s)
  (hentries : s'.map.entries = s.map.entries.filterMap f)
  (hage : s'.map.age = s.map.age) (htid : s'.map.tid = s.map.tid)
  (hcom : s'.map.committid = s.map.committid)
  (hcommitting : s'.committing = true → s.committing = true)
  (hcancels : ∀ e ∈ s.map.entries, ∀ e', f e = some e' → e.dt = .cancel → e'.cancel = true)
  (hcovered : ∀ e ∈ s.map.entries, ∀ e', f e = some e' → e'.cancel = true → ∀ x,
    e.at x ≠ none → Covered s' x e.age)
  (hadding : ∀ n, s'.adding = some n → Pending s' n)
include h hentries hage htid hcom hcommitting hcancels hcovered hadding

/-- Flags are changed and entries are dropped. -/
theorem change (hbare : ∀ e ∈ s.map.entries, ∀ e', f e = some e' → e'.bare = e.bare)
    (hrolls : ∀ e ∈ s.map.entries, ∀ e', f e = some e' → e'.roll = true →
      e.tid < s.map.committid ∧ e.dt ≠ .cancel)
    (hlow : ∀ d ∈ s.map.entries, ∀ d', f d = some d' → d'.roll = false → d.dt ≠ .cancel →
      ∀ e ∈ s.map.entries, ∀ e', f e = some e' → e'.roll = true →
        d.mof / mapBlockSize = e.mof / mapBlockSize → e.age < d.age) : MapOk s' := by
  have hold : ∀ e' ∈ s'.map.entries, ∃ e ∈ s.map.entries, f e = some e' ∧ ∃ r c a,
      e' = { e with roll := r, cancel := c, aged := a } := by
    intro e' he'
    rw [hentries, mem_filterMap] at he'
    obtain ⟨e, he, hfe⟩ := he'
    exact ⟨e, he, hfe, eq_of_bare (hbare e he e' hfe)⟩
  refine ⟨h.ordered.filterMap hbare hentries hage (le_of_eq htid.symm), ?_, ?_, ?_, ?_, ?_,
    hadding, ?_⟩
  · rw [htid, hcom]
    exact h.committid
  · intro e' he' hdt
    obtain ⟨e, he, hfe, _, _, _, rfl⟩ := hold e' he'
    exact hcancels e he _ hfe hdt
  · intro e' he' hroll
    obtain ⟨e, he, hfe, _, _, _, rfl⟩ := hold e' he'
    exact hcom ▸ hrolls e he _ hfe hroll
  · intro d' hd' hdr hdt e' he' her hblk
    obtain ⟨d, hd, hfd, _, _, _, rfl⟩ := hold d' hd'
    obtain ⟨e, he, hfe, _, _, _, rfl⟩ := hold e' he'
    exact hlow d hd _ hfd hdr hdt e he _ hfe her hblk
  · intro e' he' hc x hx
    obtain ⟨e, he, hfe, _, _, _, rfl⟩ := hold e' he'
    exact hcovered e he _ hfe hc x hx
  · intro hc
    rw [hcom, htid]
    exact h.committing (hcommitting hc)

/-- The same if the deltas that are being rolled are left alone. -/
theorem filterMap (hk : KeepsRoll s.map.entries f) : MapOk s' := by
  refine h.change hentries hage htid hcom hcommitting hcancels hcovered hadding
    (fun e he e' hfe => (hk.bare e he e' hfe).1) ?_ ?_
  · intro e he e' hfe hroll
    exact h.rolls e he ((hk.bare e he e' hfe).2 ▸ hroll)
  · intro d hd d' hfd hdr hdt e he e' hfe her hblk
    exact h.low d hd ((hk.bare d hd d' hfd).2 ▸ hdr) hdt e he ((hk.bare e he e' hfe).2 ▸ her) hblk

end

variable {dirty mof nb age mblkno mblkno' : Nat}

section
variable (h : MapOk s)
include h

/-- An entry is added. -/
theorem put {me : Me (Nat → β)} (hmap : s'.map = { s.map.put me with dirty := dirty })
    (hblock : 0 < me.nb ∧ me.mof % mapBlockSize + me.nb ≤ mapBlockSize) (hud : me.dt ≠ .ud)
    (hroll : me.roll = false) (hcancel : me.dt = .cancel ↔ me.cancel = true)
    (hadding : s'.adding = none) (hcommitting : s'.committing = s.committing)
    (hdoomed : ∀ x, s.doomed x = true ∨ (∃ n, s.adding = some n ∧ n.at x ≠ none) →
      s'.doomed x = true ∨ me.at x ≠ none) : MapOk s' := by
  cases s'
  subst hmap
  have hord := h.ordered.put hblock hud
  have hmem : ∀ e ∈ s.map.entries ++ [{ me with tid := s.map.tid, age := s.map.age }],
      e ∈ s.map.entries ∨ e = { me with tid := s.map.tid, age := s.map.age } := by
    intro e he
    rwa [mem_append, mem_singleton] at he
  refine ⟨{ hord with }, h.committid, ?_, ?_, ?_, ?_, ?_, ?_⟩
  · intro e he hdt
    rcases hmem e he with he | rfl
    · exact h.cancels e he hdt
    · exact hcancel.mp hdt
  · intro e he hr
    rcases hmem e he with he | rfl
    · exact h.rolls e he hr
    · exact nomatch hroll.symm.trans hr
  · intro d hd hdr hdt e he her hblk
    rcases hmem e he with he | rfl
    · rcases hmem d hd with hd | rfl
      · exact h.low d hd hdr hdt e he her hblk
      · exact h.ordered.age e he
    · exact nomatch hroll.symm.trans her
  · intro e he hc x hx
    rcases hmem e he with he | rfl
    · rcases or_assoc.mpr (h.covered e he hc x hx) with hc | ⟨d, hd, hrest⟩
      · rcases hdoomed x hc with hd | hme
        · exact .inl hd
        · -- What the new delta covers need not be covered otherwise.
          have hdt := (at_ne_none.mp hme).1
          exact .inr (.inr ⟨_, mem_append_right _ mem_cons_self,
            Bool.eq_false_iff.mpr fun hc => hdt (hcancel.mpr hc), rfl, hme, h.ordered.age e he⟩)
      · exact .inr (.inr ⟨d, mem_append_left _ hd, hrest⟩)
    · exact absurd (hcancel.mpr hc) (at_ne_none.mp hx).1
  · intro n hn
    exact nomatch hadding.symm.trans hn
  · exact fun hc => h.committing (hcommitting ▸ hc)

/-- The new data of `logmap_add` supersedes what it covers. -/
theorem addBegin {dt : DeltaType} {src : Nat → β}
    (hs : s.addBegin mof nb dt src = some s') : MapOk s' ∧ s'.rolled = s.rolled := by
  unfold RollState.addBegin at hs
  simp only [Option.ite_none_right_eq_some, and_eq_true, decide_eq_true_eq,
    Option.some.injEq, logFree_iff, inMapBlock_iff] at hs
  obtain ⟨⟨⟨⟨⟨hnone, hcommitting⟩, hblock⟩, hud⟩, hdt⟩, rfl⟩ := hs
  have hkeeps := supersede_keepsRoll s.map mof nb
  refine ⟨h.filterMap rfl rfl rfl rfl id ?_ ?_ ?_ hkeeps, hkeeps.rolled⟩
  · intro e he e' hfe hcan
    have hc := h.cancels e he hcan
    rcases superseded_cases mof nb e with ⟨_, heq⟩ | ⟨_, heq | heq⟩ <;>
      rw [heq] at hfe <;> cases hfe
    · exact hc
    · rfl
  · intro e he e' hfe hc x hx
    -- Whatever is covered by the new data is covered.
    have hnew : mof ≤ x ∧ x < mof + nb → ∃ n, some (newEntry mof nb dt src) = some n ∧
        n.at x ≠ none := fun hin => ⟨_, rfl, at_ne_none.mpr ⟨hdt, hin⟩⟩
    rcases superseded_cases mof nb e with ⟨_, heq⟩ | ⟨hcons, _⟩
    · rw [heq] at hfe
      cases hfe
      rcases h.covered e he hc x hx with hd | ⟨n, hn, _⟩ | ⟨d, hd, hdc, hdt', hdx, hlt⟩
      · exact .inl hd
      · exact nomatch hnone.symm.trans hn
      · rcases superseded_cases mof nb d with ⟨_, hfd⟩ | ⟨hcd, _⟩
        · exact .inr (.inr ⟨d, mem_filterMap.mpr ⟨d, hd, hfd⟩, hdc, hdt', hdx, hlt⟩)
        · have hw := ((consumes_iff mof nb d).mp hcd).2.1
          exact .inr (.inl (hnew (covers_of_within hw hdx)))
    · have hw := ((consumes_iff mof nb e).mp hcons).2.1
      exact .inr (.inl (hnew (covers_of_within hw hx)))
  · intro n hn
    cases hn
    exact ⟨hcommitting, hblock, hud, hdt, rfl, rfl⟩

/-- The delta is put on the map. -/
theorem addEnd (hs : s.addEnd = some s') : MapOk s' ∧ s'.rolled = s.rolled := by
  unfold RollState.addEnd at hs
  split at hs
  · cases hs
  next me hme =>
    cases hs
    obtain ⟨hcom, hblock, hud, hdt, hroll, hcancel⟩ := h.adding me hme
    constructor
    · refine h.put rfl hblock hud hroll ?_ rfl rfl ?_
      · rw [hcancel]
        exact ⟨fun hc => absurd hc hdt, nofun⟩
      · rintro x (hd | ⟨n, hn, hx⟩)
        · by_cases hx : me.at x = none
          · refine .inl ?_
            change (s.doomed x && !(me.at x).isSome) = true
            rw [hd, hx]
            rfl
          · exact .inr hx
        · rw [hme] at hn
          cases hn
          exact .inr hx
    · exact rolled_append s.map.entries hroll

/-- A cancel is put on the map, and on the cancel list. -/
theorem cancelDelta (hs : s.cancelDelta mof nb = some s') : MapOk s' ∧ s'.rolled = s.rolled := by
  unfold RollState.cancelDelta at hs
  simp only [Option.ite_none_right_eq_some, and_eq_true, Option.some.injEq, logFree_iff,
    inMapBlock_iff] at hs
  obtain ⟨⟨⟨hnone, _⟩, hblock⟩, rfl⟩ := hs
  constructor
  · refine h.put rfl hblock (show DeltaType.cancel ≠ .ud by decide) rfl
      ⟨fun _ => rfl, fun _ => rfl⟩ hnone rfl ?_
    rintro x (hd | ⟨n, hn, _⟩)
    · exact .inl hd
    · exact nomatch hnone.symm.trans hn
  · exact rolled_append s.map.entries rfl

variable {f : Me (Nat → β) → Me (Nat → β)}

/-- A change of flags, other than `ME_ROLL`. -/
theorem mapFlags (hf : ∀ e, (f e).bare = e.bare ∧ (f e).roll = e.roll)
    (hmap : s'.map = { s.map with entries := s.map.entries.map f })
    (hcancels : ∀ e, e.cancel = true → (f e).cancel = true)
    (hcommitting : s'.committing = s.committing)
    (hcovered : ∀ e ∈ s.map.entries, (f e).cancel = true → ∀ x, e.at x ≠ none → Covered s' x e.age)
    (hadding : ∀ n, s'.adding = some n → Pending s' n) : MapOk s' ∧ s'.rolled = s.rolled := by
  cases s'
  subst hmap
  have hentries : s.map.entries.map f = s.map.entries.filterMap fun e => some (f e) :=
    (congrFun filterMap_eq_map _).symm
  have hkeeps : KeepsRoll s.map.entries fun e => some (f e) := by
    refine ⟨fun e _ e' hfe => ?_, fun e _ _ => Option.some_ne_none _⟩
    cases hfe
    exact hf e
  constructor
  · refine h.filterMap hentries rfl rfl rfl (fun hc => hcommitting ▸ hc) ?_ ?_ hadding hkeeps
    · intro e he e' hfe hcan
      cases hfe
      exact hcancels e (h.cancels e he hcan)
    · intro e he e' hfe
      cases hfe
      exact hcovered e he
  · rw [hentries]
    exact hkeeps.rolled

/-- `logmap_cancel` puts entries on the cancel list, all of which lie in what is
    cancelled. -/
theorem cancel (hs : s.cancel mof nb = some s') : MapOk s' ∧ s'.rolled = s.rolled := by
  unfold RollState.cancel at hs
  simp only [Option.ite_none_right_eq_some, and_eq_true, Option.some.injEq,
    all_eq_true, or_eq_true, not_eq_true', inMapBlock_iff] at hs
  obtain ⟨⟨⟨_, _⟩, hwithin⟩, rfl⟩ := hs
  -- An entry that is cancelled now says nothing outside of what is cancelled.
  have hdoom : ∀ e ∈ s.map.entries, s.map.cancelable mof nb e = true → ∀ x, e.at x ≠ none →
      (s.doomed x || (decide (mof ≤ x) && decide (x < mof + nb))) = true := by
    intro e he hc x hx
    rcases hwithin e he with hno | hw
    · exact nomatch hno.symm.trans hc
    · obtain ⟨hlo, hhi⟩ := covers_of_within hw hx
      rw [decide_eq_true hlo, decide_eq_true hhi]
      exact Bool.or_true _
  refine h.mapFlags ?_ rfl ?_ rfl ?_ h.adding
  · intro e
    split <;> exact ⟨rfl, rfl⟩
  · intro e hc
    split
    · rfl
    · exact hc
  · intro e he hc x hx
    by_cases hcan : s.map.cancelable mof nb e = true
    · exact .inl (hdoom e he hcan x hx)
    rw [if_neg hcan] at hc
    rcases h.covered e he hc x hx with hd | hn | ⟨d, hd, hdc, hrest⟩
    · refine .inl ?_
      change (s.doomed x || _) = true
      rw [hd]
      rfl
    · exact .inr (.inl hn)
    · by_cases hdcan : s.map.cancelable mof nb d = true
      · exact .inl (hdoom d hd hdcan x hrest.2.1)
      · exact .inr (.inr ⟨d, mem_map.mpr ⟨d, hd, if_neg hdcan⟩, hdc, hrest⟩)

/-- Flags that only say that somebody is reading. -/
theorem mapAged (hf : ∀ e, (f e).bare = e.bare ∧ (f e).roll = e.roll ∧ (f e).cancel = e.cancel)
    (hmap : s'.map = { s.map with entries := s.map.entries.map f }) (hsame : SameOps s s') :
    MapOk s' ∧ s'.rolled = s.rolled := by
  refine h.mapFlags (fun e => ⟨(hf e).1, (hf e).2.1⟩) hmap (fun e hc => (hf e).2.2 ▸ hc)
    hsame.committing (fun e he hc x hx => ?_) (hsame.pending h)
  rw [(hf e).2.2] at hc
  refine .imp (h.covered e he hc x hx) hsame (by rw [hmap]) fun d hd hdc _ => ?_
  rw [hmap]
  exact ⟨f d, mem_map_of_mem hd, (hf d).2.2.trans hdc, (hf d).1⟩

theorem setAge {readers : List (List Nat)} :
    MapOk { s with map := s.map.setAge mof nb, readers := readers } ∧
      rolled { s with map := s.map.setAge mof nb, readers := readers } = s.rolled := by
  refine h.mapAged
    (fun e => ?_) rfl ⟨rfl, rfl, rfl⟩
  split <;> exact ⟨rfl, rfl, rfl⟩

theorem listPut {ages : List Nat} (hmap : s'.map = s.map.listPut ages)
    (hsame : SameOps s s') : MapOk s' ∧ s'.rolled = s.rolled := by
  refine h.mapAged
    (fun e => ?_) hmap hsame
  split <;> exact ⟨rfl, rfl, rfl⟩

/-- A turn of `logmap_free_cancel`: the deltas that cover others stay. -/
theorem freeCancel (hs : s.freeCancel age = some s') : MapOk s' ∧ s'.rolled = s.rolled := by
  unfold RollState.freeCancel at hs
  simp only [Option.ite_none_right_eq_some, and_eq_true, Option.some.injEq] at hs
  obtain ⟨_, rfl⟩ := hs
  have hkeeps := freeCancelOne_keepsRoll s.map age
  refine ⟨h.filterMap rfl rfl rfl rfl id ?_ ?_ h.adding hkeeps, hkeeps.rolled⟩
  · intro e he e' hfe hdt
    rcases freed_some hfe with rfl | ⟨hroll, _⟩
    · exact h.cancels e' he hdt
    · exact absurd hdt (h.rolls e he hroll).2
  · intro e he e' hfe hc x hx
    rcases freed_some hfe with rfl | ⟨_, rfl⟩
    · refine .imp (h.covered e' he hc x hx) ⟨rfl, rfl, rfl⟩ rfl fun d hd hdc _ => ?_
      exact ⟨d, mem_filterMap.mpr ⟨d, hd, freed_of_not_cancel hdc⟩, hdc, rfl⟩
    · cases hc

/-- With the cancel list empty, the transaction may end. -/
theorem commitEnd (hs : s.commitEnd = some s') : MapOk s' ∧ s'.rolled = s.rolled := by
  unfold RollState.commitEnd at hs
  simp only [Option.ite_none_right_eq_some, and_eq_true, not_eq_true',
    any_eq_false, Option.some.injEq] at hs
  obtain ⟨⟨hcommitting, hnone⟩, rfl⟩ := hs
  have hcom := h.committing hcommitting
  refine ⟨⟨h.ordered.sublist (.refl _) rfl (Nat.le_succ _), ?_, h.cancels, h.rolls,
    h.low, fun e he hc => absurd hc (hnone e he), ?_, nofun⟩, rfl⟩
  · exact .inr (congrArg (· + 1) hcom)
  · intro n hn
    exact nomatch (h.adding n hn).1.symm.trans hcommitting

/-- The commit is on the log device: the transaction may be rolled. -/
theorem commitDone (hs : s.commitDone = some s') : MapOk s' ∧ s'.rolled = s.rolled := by
  obtain ⟨-, heq⟩ := Option.ite_none_right_eq_some.mp hs
  cases heq
  have hle : s.map.committid ≤ s.map.tid := by rcases h.committid with hc | hc <;> omega
  exact ⟨⟨h.ordered.sublist (.refl _) rfl le_rfl, .inl rfl, h.cancels,
    fun e he hr => ⟨lt_of_lt_of_le (h.rolls e he hr).1 hle, (h.rolls e he hr).2⟩, h.low,
    h.covered, h.adding, fun _ => rfl⟩, rfl⟩

theorem commitBegin (hs : s.commitBegin = some s') : MapOk s' ∧ s'.rolled = s.rolled := by
  unfold RollState.commitBegin at hs
  simp only [Option.ite_none_right_eq_some, and_eq_true, Option.some.injEq, logFree_iff,
    beq_iff_eq] at hs
  obtain ⟨⟨⟨⟨hnone, _⟩, hcom⟩, _⟩, rfl⟩ := hs
  refine ⟨{ h with adding := fun n hn => ?_, committing := fun _ => hcom }, rfl⟩
  exact nomatch hnone.symm.trans hn

/-- Ages start anew in an empty map. -/
theorem sethead (hs : s.sethead = some s') : MapOk s' ∧ s'.rolled = s.rolled := by
  unfold RollState.sethead at hs
  split at hs
  · obtain ⟨-, heq⟩ := Option.ite_none_right_eq_some.mp hs
    cases heq
    refine ⟨{ h with ordered := { h.ordered with age := fun e he => ?_ } }, rfl⟩
    rw [if_neg (by rw [List.isEmpty_iff]; exact ne_nil_of_mem he)]
    exact h.ordered.age e he
  · cases hs

/-! ### The roll thread's own changes -/

/-- What may be rolled of a block: all deltas of earlier transactions. -/
theorem rollable_iff (ha : mblkno % 16 = 0) {e : Me (Nat → β)} (he : e ∈ s.map.entries) :
    s.map.rollable (devBsize * mblkno) mapBlockSize e = true ↔
      e.tid < s.map.committid ∧ e.dt ≠ .cancel ∧ e.inBlk mblkno = true := by
  have hud := h.ordered.ud e he
  have htid := h.ordered.tid e he
  have hblock := h.ordered.block e he
  have hcom := h.committid
  unfold rollable overlaps mapIndex
  rw [inBlk_iff]
  unfold devBsize mapBlockSize at *
  simp only [and_eq_true, or_eq_true, decide_eq_true_eq, beq_iff_eq]
  constructor
  · rintro ⟨⟨⟨⟨⟨_, h1⟩, h2⟩, h3⟩, _⟩, h5⟩
    refine ⟨by omega, h3, by omega⟩
  · rintro ⟨hlt, hdt, hin⟩
    have hsame : e.mof / 8192 = 512 * mblkno / 8192 := by omega
    rw [hsame]
    exact ⟨⟨⟨⟨⟨rfl, by omega⟩, by omega⟩, hdt⟩, hud⟩, .inr hin⟩

end

/-- What `logmap_list_get_roll` does to an entry. -/
def rollMark (m : Mtm (Nat → β)) (mof nb : Nat) (me : Me (Nat → β)) : Me (Nat → β) :=
  if m.rollable mof nb me then { me with roll := true, aged := true } else me

omit [Zero β] in
theorem rollMark_flags (m : Mtm (Nat → β)) (mof nb : Nat) (me : Me (Nat → β)) :
    (rollMark m mof nb me).bare = me.bare ∧ (rollMark m mof nb me).cancel = me.cancel ∧
      (rollMark m mof nb me).roll = (me.roll || m.rollable mof nb me) := by
  unfold rollMark
  split
  · next hr => exact ⟨rfl, rfl, by rw [hr, Bool.or_true]⟩
  · next hr => exact ⟨rfl, rfl, by rw [Bool.eq_false_iff.mpr hr, Bool.or_false]⟩

omit [Zero β] in
/-- The deltas of a block that are being rolled after a change of flags. -/
theorem filter_rolled_map (hf : ∀ e, (f e).bare = e.bare) (mblkno : Nat)
    (es : List (Me (Nat → β))) : (((es.map f).filter roll).map bare).filter (inBlk mblkno) =
      (es.filter fun e => (f e).roll && e.inBlk mblkno).map bare := by
  induction es with
  | nil => rfl
  | cons e es ih =>
    have hin : (f e).bare.inBlk mblkno = e.inBlk mblkno := by
      rw [hf]
      rfl
    rw [map_cons, filter_cons, filter_cons]
    cases hr : (f e).roll with
    | false => exact ih
    | true =>
      rw [if_pos rfl, map_cons, filter_cons, hin, Bool.true_and, ih, hf]
      split <;> rfl

/-- The deltas of the block that may be rolled are flagged, and no flag is
    cleared. -/
theorem setRoll_rolled (h : MapOk s) (ha : mblkno % 16 = 0)
    (hmap : s'.map = s.map.setRoll (devBsize * mblkno) mapBlockSize) (ha' : mblkno' % 16 = 0) :
    s'.rolled.filter (Me.inBlk mblkno') =
      if mblkno' = mblkno then (s.map.rollList (devBsize * mblkno) mapBlockSize).map Me.bare
      else s.rolled.filter (Me.inBlk mblkno') := by
  have hnew := filter_rolled_map (fun e => (rollMark_flags s.map (devBsize * mblkno)
    mapBlockSize e).1) mblkno' s.map.entries
  have hold := filter_rolled_map (f := id) (fun _ => rfl) mblkno' s.map.entries
  rw [map_id] at hold
  rw [rolled, hmap]
  refine hnew.trans ?_
  split
  · next heq =>
      subst heq
      rw [rollList_eq h.ordered]
      refine congrArg _ (filter_congr fun e he => ?_)
      rw [(rollMark_flags _ _ _ e).2.2]
      -- What is being rolled in the block could be rolled anew.
      cases hr : s.map.rollable (devBsize * mblkno') mapBlockSize e with
      | true => rw [Bool.or_true, Bool.true_and, ((h.rollable_iff ha he).mp hr).2.2]
      | false =>
        rw [Bool.or_false, Bool.and_eq_false_iff]
        by_contra hc
        rw [not_or, Bool.not_eq_false, Bool.not_eq_false] at hc
        have hroll := h.rolls e he hc.1
        have := (h.rollable_iff ha he).mpr ⟨hroll.1, hroll.2, hc.2⟩
        exact nomatch hr.symm.trans this
  · next hne =>
      refine Eq.trans (congrArg _ (filter_congr fun e he => ?_)) hold.symm
      rw [(rollMark_flags _ _ _ e).2.2]
      cases hin : e.inBlk mblkno' with
      | false => rw [Bool.and_false, Bool.and_false]
      | true =>
        cases hr : s.map.rollable (devBsize * mblkno) mapBlockSize e with
        | false => rw [Bool.or_false]; rfl
        | true => exact absurd (inBlk_inj ha' ha hin ((h.rollable_iff ha he).mp hr).2.2) hne

/-- After `logmap_list_get_roll` all deltas of the block that may be rolled are
    being rolled. -/
theorem setRoll (h : MapOk s) (ha : mblkno % 16 = 0)
    (hmap : s'.map = s.map.setRoll (devBsize * mblkno) mapBlockSize) (hsame : SameOps s s') :
    MapOk s' := by
  have hflags := rollMark_flags s.map (devBsize * mblkno) mapBlockSize
  have hpending := hsame.pending h
  cases s'
  subst hmap
  refine h.change (f := fun e => some (rollMark s.map (devBsize * mblkno) mapBlockSize e))
    (congrFun filterMap_eq_map _).symm rfl rfl rfl (fun hc => hsame.committing ▸ hc) ?_ ?_
    hpending ?_ ?_ ?_
  · rintro e he e' ⟨⟩ hdt
    rw [(hflags e).2.1]
    exact h.cancels e he hdt
  · rintro e he e' ⟨⟩ hc x hx
    rw [(hflags e).2.1] at hc
    refine .imp (h.covered e he hc x hx) hsame rfl fun d hd hdc _ => ?_
    exact ⟨_, mem_map_of_mem hd, (hflags d).2.1.trans hdc, (hflags d).1⟩
  · rintro e he e' ⟨⟩
    exact (hflags e).1
  · rintro e he e' ⟨⟩ hr
    rw [(hflags e).2.2, or_eq_true] at hr
    rcases hr with hr | hr
    · exact h.rolls e he hr
    · obtain ⟨h1, h2, _⟩ := (h.rollable_iff ha he).mp hr
      exact ⟨h1, h2⟩
  · rintro d hd d' ⟨⟩ hdr hdt e he e' ⟨⟩ her hblk
    rw [(hflags d).2.2, Bool.or_eq_false_iff] at hdr
    rw [(hflags e).2.2, or_eq_true] at her
    rcases her with her | her
    · exact h.low d hd hdr.1 hdt e he her hblk
    -- A delta of the block that may not be rolled is of a later transaction.
    obtain ⟨hlt, _, hin⟩ := (h.rollable_iff ha he).mp her
    refine h.ordered.age_lt hd he (hlt.trans_le ?_)
    by_contra hge
    have hdin : d.inBlk mblkno = true := by
      rw [inBlk_iff] at hin ⊢
      unfold devBsize mapBlockSize at *
      omega
    have hd' := (h.rollable_iff ha hd).mpr ⟨lt_of_not_ge hge, hdt, hdin⟩
    exact nomatch hdr.2.symm.trans hd'

/-- A pass of `logmap_remove_roll`. What covers others is of the current
    transaction, and is not removed. -/
theorem removeRoll (h : MapOk s) (hmap : s'.map = s.map.removeRoll mof nb)
    (hsame : SameOps s s') : MapOk s' := by
  obtain ⟨hsub, hrest, _⟩ := removeRoll_spec mof nb
  have hpending := hsame.pending h
  have hkeep : ∀ d ∈ s.map.entries, d.roll = false → d ∈ (s.map.removeRoll mof nb).entries := by
    intro d hd hr
    refine mem_of_mem_filter (p := fun e => !e.roll) ?_
    rw [hrest, mem_filter, hr]
    exact ⟨hd, rfl⟩
  cases s'
  subst hmap
  refine ⟨h.ordered.sublist hsub rfl le_rfl, h.committid,
    fun e he => h.cancels e (hsub.subset he), fun e he => h.rolls e (hsub.subset he),
    fun d hd hdr hdt e he => h.low d (hsub.subset hd) hdr hdt e (hsub.subset he), ?_, hpending,
    fun hc => h.committing (hsame.committing ▸ hc)⟩
  · intro e he hc x hx
    refine Covered.imp (h.covered e (hsub.subset he) hc x hx) hsame rfl fun d hd hdc hdt => ?_
    refine ⟨d, hkeep d hd (Bool.eq_false_iff.mpr fun hr => ?_), hdc, rfl⟩
    have hlt := (h.rolls d hd hr).1
    rcases h.committid with hc | hc <;> omega

end MapOk

end Sol7.UfsLog
