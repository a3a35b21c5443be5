import Sol7.UfsLog.Logscan

/-!
# The Logmap That a Scan Rebuilds

A scan adds the deltas of the log to the logmap one by one. A delta of the
current transaction that a later one covers is freed at once; one of an
earlier transaction is put on the cancel list, and freed when the current
transaction turns out to be committed. `live` says in one go what should be
left: the deltas that are no cancels and that no later delta supersedes.

## Main definitions

* `supersedes`: A delta covers another one.
* `live`: The deltas that count.
* `Rebuilt`: The logmap after the deltas of committed transactions and those
  of the current one.

## Theorems

* `live_append`: What later deltas leave of earlier ones.
* `ofBytes_header`, `verify_ofBytes`: A header can be read back.
* `Rebuilt.delta`: Adding a delta.
* `Rebuilt.commit`: Committing the current transaction.
* `Rebuilt.abort`: Dropping it.
-/

namespace Sol7.UfsLog

open List Me Mtm Bool

/-- A later delta supersedes an earlier one that lies within it. Userdata
    supersedes nothing, and only entries on the same hash chain are found. -/
def supersedes (nhash : Nat) (new old : MapEntry) : Bool :=
  new.dt ≠ .ud && mapIndex nhash old.mof == mapIndex nhash new.mof &&
    new.mof ≤ old.mof && old.mof + old.nb ≤ new.mof + new.nb

/-- The deltas of a list that are no cancels and not superseded. -/
def live (nhash : Nat) : List MapEntry → List MapEntry
  | [] => []
  | d :: ds =>
    if d.dt = .cancel ∨ ds.any (fun new => supersedes nhash new d) = true then live nhash ds
    else d :: live nhash ds

/-- Later deltas leave those earlier ones that they do not supersede. -/
theorem live_append (nhash : Nat) (ds es : List MapEntry) : live nhash (ds ++ es) =
      (live nhash ds).filter (fun d => !es.any fun new => supersedes nhash new d) ++
        live nhash es := by
  induction ds with
  | nil => rfl
  | cons d ds ih =>
    rw [cons_append, live, live, ih, any_append]
    by_cases hd : d.dt = .cancel ∨ ds.any (fun new => supersedes nhash new d) = true
    · rw [if_pos hd, if_pos (by simp only [or_eq_true]; tauto)]
    rw [if_neg hd, filter_cons]
    by_cases he : es.any (fun new => supersedes nhash new d) = true
    · rw [if_pos (by simp only [or_eq_true]; tauto), if_neg (by simp only [he]; decide)]
    · rw [if_neg (by simp only [or_eq_true]; tauto),
        if_pos (by simp only [not_eq_true] at he; rw [he]; rfl)]
      rfl

/-- A delta as it comes back from a scan: userdata is marked as scanned. -/
def MapEntry.scanned (me : MapEntry) : MapEntry :=
  { me with dt := if me.dt = .ud then .sud else me.dt }

/-! ### Headers -/

/-- A delta that the scan does not take for a media failure. -/
structure MapEntry.Valid (me : MapEntry) : Prop where
  mof : me.mof < 2 ^ 63
  nb : me.nb ≤ mapBlockSize
  dt : me.dt ≠ .none
  delta : me.dt ≠ .commit

/-- A header can be read back. -/
theorem ofBytes_header {me : MapEntry} (hmof : me.mof < 2 ^ 63) (hnb : me.nb < 2 ^ 31) :
    Delta.ofBytes me.header = { mof := me.mof, nb := me.nb, typ := me.dt.code } := by
  have hcode := me.dt.code_lt
  have h8 : (bigEndian 8 me.mof).length = 8 := length_bigEndian 8 me.mof
  have h4 : (bigEndian 4 me.nb).length = 4 := length_bigEndian 4 me.nb
  have h12 : (bigEndian 8 me.mof ++ bigEndian 4 me.nb).length = 12 := by rw [length_append, h8, h4]
  unfold Delta.ofBytes MapEntry.header
  rw [drop_left' h12, append_assoc, take_left' h8, drop_left' h8, take_left' h4]
  rw [bigEndianValue_bigEndian, bigEndianValue_bigEndian, bigEndianValue_bigEndian,
    Nat.mod_eq_of_lt (hmof.trans (by decide)), Nat.mod_eq_of_lt (by omega),
    Nat.mod_eq_of_lt (by omega)]
  have hm : (me.mof : Int).bmod (2 ^ 64) = me.mof := by
    rw [Int.bmod_def]
    omega
  have hn : (me.nb : Int).bmod (2 ^ 32) = me.nb := by
    rw [Int.bmod_def]
    omega
  rw [hm, hn]

/-- A valid delta passes the check of the scan. -/
theorem verify_ofBytes {me : MapEntry} (h : me.Valid) :
    (Delta.ofBytes me.header).verify = some me.dt := by
  have hmof := h.mof
  have hnb := h.nb
  unfold mapBlockSize at hnb
  rw [ofBytes_header hmof (by omega)]
  have hdt : ({ mof := me.mof, nb := me.nb, typ := me.dt.code } : Delta).dt = some me.dt := by
    unfold Delta.dt
    rw [if_neg (DeltaType.code_ne_zero h.dt), DeltaType.ofCode_code]
  have hok : (0 : Int) ≤ me.nb ∧ (me.nb : Int) ≤ mapBlockSize ∧ (0 : Int) ≤ me.mof := by
    unfold mapBlockSize
    omega
  unfold Delta.verify
  rw [hdt]
  have hne := h.delta
  cases hd : me.dt <;> first | exact absurd hd hne | exact if_pos hok

/-! ### Rebuilding the logmap -/

/-- Entries are kept as they are or dropped. -/
theorem filterMap_eq_filter_of {α : Type} {f : α → Option α} {p : α → Bool} {l : List α}
    (h : ∀ e ∈ l, f e = if p e then some e else none) : l.filterMap f = l.filter p := by
  rw [← filterMap_eq_filter]
  refine filterMap_congr fun e he => ?_
  rw [h e he]
  rfl

/-- What is known of an entry: the delta, and whether it is cancelled. -/
def Me.core (e : Me Nat) : MapEntry × Bool :=
  ({ mof := e.mof, nb := e.nb, dt := e.dt, lof := e.src }, e.cancel)

/-- The entries of the current transaction: cancels wait on the cancel list,
    and what is superseded has been freed. -/
def pend (nhash : Nat) : List MapEntry → List (MapEntry × Bool)
  | [] => []
  | d :: ds =>
    if d.dt = .cancel then (d.scanned, true) :: pend nhash ds
    else if ds.any (fun new => supersedes nhash new d) then pend nhash ds
    else (d.scanned, false) :: pend nhash ds

/-- The logmap after the deltas `done` of committed transactions and the
    deltas `cur` of the current one. -/
structure Rebuilt (m : Mtm Nat) (done cur : List MapEntry) : Prop where
  entries : ∃ old new, m.entries = old ++ new ∧ old.map core = (live m.nhash done).map
      (fun d => (d.scanned, cur.any fun new => supersedes m.nhash new d)) ∧
    new.map core = pend m.nhash cur ∧
    (∀ e ∈ old, e.tid < m.tid ∧ e.roll = false) ∧
    (∀ e ∈ new, e.tid = m.tid ∧ e.roll = false ∧ e.aged = false)
  dirty : m.dirty = 0 → cur = []

theorem pend_snoc (nhash : Nat) (cur : List MapEntry) (me : MapEntry) : pend nhash (cur ++ [me]) =
      (pend nhash cur).filter (fun x => x.2 || !supersedes nhash me x.1) ++
        [(me.scanned, decide (me.dt = .cancel))] := by
  induction cur with
  | nil =>
    show pend nhash [me] = [(me.scanned, decide (me.dt = .cancel))]
    unfold pend
    by_cases hc : me.dt = .cancel
    · rw [if_pos hc, decide_eq_true hc]
      rfl
    · rw [if_neg hc, decide_eq_false hc]
      rfl
  | cons d ds ih =>
    rw [cons_append, pend, pend, ih, any_append]
    have hsame : supersedes nhash me d.scanned = supersedes nhash me d := rfl
    by_cases hc : d.dt = .cancel
    · rw [if_pos hc, if_pos hc, filter_cons, if_pos (by rfl), cons_append]
    rw [if_neg hc, if_neg hc]
    cases hd : ds.any (fun new => supersedes nhash new d) with
    | true => rfl
    | false =>
      simp only [any_cons, any_nil, Bool.or_false, Bool.false_or,
        Bool.false_eq_true, if_false, filter_cons, hsame]
      cases supersedes nhash me d <;> rfl

/-- Without its cancels, the current transaction is what counts of it. -/
theorem pend_filter (nhash : Nat) (cur : List MapEntry) : (pend nhash cur).filter (fun x => !x.2) =
      (live nhash cur).map (fun d => (d.scanned, false)) := by
  induction cur with
  | nil => rfl
  | cons d ds ih =>
    rw [pend, live]
    by_cases hc : d.dt = .cancel
    · rw [if_pos hc, if_pos (.inl hc), filter_cons, if_neg (by simp), ih]
    rw [if_neg hc]
    by_cases hs : ds.any (fun new => supersedes nhash new d) = true
    · rw [if_pos hs, if_pos (.inr hs), ih]
    · rw [if_neg hs, if_neg (not_or.mpr ⟨hc, hs⟩), filter_cons, if_pos (by rfl), ih, map_cons]

namespace Rebuilt

variable {m : Mtm Nat} {done cur : List MapEntry} {me : MapEntry} {e : Me Nat}

/-- Which entries new data consumes, in terms of what is known of them. -/
theorem consumes_eq (hud : me.dt ≠ .ud) (hroll : e.roll = false) :
    m.consumes me.mof me.nb e = (supersedes m.nhash me e.core.1 && !e.core.2) := by
  unfold consumes within supersedes core
  rw [hroll, decide_eq_true hud]
  simp only [Bool.not_false, Bool.and_true, Bool.true_and, Bool.and_assoc]

/-- What the search does to the entries of earlier transactions. -/
def mark (m : Mtm Nat) (me : MapEntry) (e : Me Nat) : Me Nat :=
  if m.consumes me.mof me.nb e then { e with cancel := true } else e

theorem core_mark (hud : me.dt ≠ .ud) (hroll : e.roll = false) :
    (mark m me e).core = (e.core.1, e.core.2 || supersedes m.nhash me e.core.1) := by
  unfold mark
  rw [consumes_eq hud hroll]
  cases hs : supersedes m.nhash me e.core.1 with
  | false =>
    rw [Bool.or_false]
    rfl
  | true =>
    cases hc : e.core.2 with
    | false => rfl
    | true =>
      show e.core = (e.core.1, true)
      rw [← hc]

variable {old new l : List (Me Nat)}

/-- The search marks entries of earlier transactions and frees those of the
    current one. -/
theorem supersede_entries (hsplit : m.entries = old ++ new)
    (hold : ∀ e ∈ old, e.tid < m.tid ∧ e.roll = false)
    (hnew : ∀ e ∈ new, e.tid = m.tid ∧ e.roll = false ∧ e.aged = false) :
    (m.supersede me.mof me.nb).entries =
      old.map (mark m me) ++ new.filter (fun e => !m.consumes me.mof me.nb e) := by
  have h1 : old.filterMap (m.superseded me.mof me.nb) = old.map (mark m me) := by
    refine filterMap_eq_map_iff_forall_eq_some.mpr fun e he => ?_
    have htid := (hold e he).1
    unfold superseded mark
    rw [if_neg (show ¬(m.tid = e.tid ∧ e.aged = false) by omega)]
    split <;> rfl
  have h2 : new.filterMap (m.superseded me.mof me.nb) =
      new.filter (fun e => !m.consumes me.mof me.nb e) := by
    refine filterMap_eq_filter_of fun e he => ?_
    have hflags := hnew e he
    unfold superseded
    rw [if_pos (show m.tid = e.tid ∧ e.aged = false from ⟨hflags.1.symm, hflags.2.2⟩)]
    cases m.consumes me.mof me.nb e <;> rfl
  show m.entries.filterMap _ = _
  rw [hsplit, filterMap_append, h1, h2]

/-- Adding a delta that is not userdata. -/
theorem add (h : Rebuilt m done cur) (hud : me.dt ≠ .ud)
    (hcore : e.core = (me, decide (me.dt = .cancel))) (hroll : e.roll = false)
    (haged : e.aged = false) :
    Rebuilt (({ m with dirty := m.dirty + 1 }.supersede me.mof me.nb).put e) done
      (cur ++ [me]) := by
  obtain ⟨old, new, hsplit, hold, hnew, hoflags, hnflags⟩ := h.entries
  refine ⟨⟨old.map (mark m me),
    new.filter (fun e => !m.consumes me.mof me.nb e) ++ [{ e with tid := m.tid, age := m.age }],
    ?_, ?_, ?_, ?_, ?_⟩, fun hd => absurd hd (Nat.succ_ne_zero _)⟩
  · show (supersede { m with dirty := m.dirty + 1 } me.mof me.nb).entries ++ _ = _
    rw [supersede_entries (m := { m with dirty := m.dirty + 1 }) hsplit hoflags hnflags,
      append_assoc]
    rfl
  · -- A delta that was already cancelled stays so.
    have hmark : (old.map (mark m me)).map core =
        (old.map core).map (fun x => (x.1, x.2 || supersedes m.nhash me x.1)) := by
      rw [map_map, map_map]
      exact map_congr_left fun e he => core_mark hud (hoflags e he).2
    rw [hmark, hold, map_map]
    refine map_congr_left fun d _ => ?_
    rw [any_append, any_cons, any_nil, Bool.or_false]
    rfl
  · have hfilter : (new.filter (fun e => !m.consumes me.mof me.nb e)).map core =
        (new.map core).filter (fun x => x.2 || !supersedes m.nhash me x.1) := by
      rw [filter_map]
      congr 1
      refine filter_congr fun e he => ?_
      rw [consumes_eq hud (hnflags e he).2.1, Bool.not_and, Bool.not_not, Bool.or_comm]
      rfl
    have hscan : me.scanned = me := by
      unfold MapEntry.scanned
      rw [if_neg hud]
    rw [map_append, hfilter, hnew]
    show _ ++ [e.core] = pend m.nhash _
    rw [hcore, pend_snoc, hscan]
  · intro e he
    obtain ⟨e', he', rfl⟩ := mem_map.mp he
    have hf := hoflags e' he'
    unfold mark
    split <;> exact hf
  · intro e' he'
    rcases mem_append.mp he' with hin | hin
    · exact hnflags e' (mem_of_mem_filter hin)
    · rw [mem_singleton.mp hin]
      exact ⟨rfl, hroll, haged⟩

/-- Adding userdata. -/
theorem addUd (h : Rebuilt m done cur) (hud : me.dt = .ud) (hcore : e.core = (me.scanned, false))
    (hroll : e.roll = false) (haged : e.aged = false) :
    Rebuilt ({ m with dirty := m.dirty + 1 }.put e) done (cur ++ [me]) := by
  obtain ⟨old, new, hsplit, hold, hnew, hoflags, hnflags⟩ := h.entries
  have hnone : ∀ d, supersedes m.nhash me d = false := by
    intro d
    unfold supersedes
    rw [decide_eq_false (not_not_intro hud)]
    rfl
  refine ⟨⟨old, new ++ [{ e with tid := m.tid, age := m.age }], ?_, ?_, ?_, hoflags, ?_⟩,
    fun hd => absurd hd (Nat.succ_ne_zero _)⟩
  · show m.entries ++ _ = _
    rw [hsplit, append_assoc]
  · rw [hold]
    refine map_congr_left fun d _ => ?_
    rw [any_append, any_cons, any_nil, Bool.or_false]
    show (_, _) = (_, _ || supersedes m.nhash me d)
    rw [hnone, Bool.or_false]
    rfl
  · rw [map_append, hnew]
    show _ ++ [e.core] = pend m.nhash _
    have hcancel : me.dt ≠ .cancel := by rw [hud]; decide
    rw [hcore, pend_snoc, decide_eq_false hcancel, filter_eq_self.mpr]
    intro x _
    rw [hnone, Bool.not_false, Bool.or_true]
  · intro e' he'
    rcases mem_append.mp he' with hin | hin
    · exact hnflags e' hin
    · rw [mem_singleton.mp hin]
      exact ⟨rfl, hroll, haged⟩

/-- Freeing what is on the cancel list. -/
theorem core_freeCancel (hl : ∀ e ∈ l, e.roll = false) :
    (l.filterMap cancelled).map core = (l.map core).filter (fun x => !x.2) := by
  have hkeep : l.filterMap cancelled = l.filter (fun e => !e.cancel) := by
    refine filterMap_eq_filter_of fun e he => ?_
    unfold cancelled
    rw [hl e he]
    cases e.cancel <;> rfl
  rw [hkeep, filter_map]
  rfl

/-- An entry that stays is one of those that were there. -/
theorem mem_freeCancel (h : e ∈ l.filterMap cancelled) :
    ∃ e' ∈ l, e.tid = e'.tid ∧ e.roll = e'.roll := by
  obtain ⟨e', he', heq⟩ := mem_filterMap.mp h
  refine ⟨e', he', ?_⟩
  unfold cancelled at heq
  split at heq
  · split at heq
    · cases heq
      exact ⟨rfl, rfl⟩
    · cases heq
  · cases heq
    exact ⟨rfl, rfl⟩

/-- Committing the current transaction. -/
theorem commit (h : Rebuilt m done cur) (s : Scan) (hm : s.map = m) (lof : Nat) :
    Rebuilt (s.logscanCommit lof).1.map (done ++ cur) [] := by
  obtain ⟨old, new, hsplit, hold, hnew, hoflags, hnflags⟩ := h.entries
  unfold Scan.logscanCommit
  rw [hm]
  by_cases hd : m.dirty = 0
  · -- Nothing was added since the last commit.
    simp only [hd, if_true]
    have hcur := h.dirty hd
    subst hcur
    rw [append_nil]
    exact ⟨⟨old, new, hsplit, hold, hnew, hoflags, hnflags⟩, fun _ => rfl⟩
  · simp only [hd, if_false]
    refine ⟨⟨m.freeCancel.entries, [], (append_nil _).symm, ?_, rfl, ?_, nofun⟩, fun _ => rfl⟩
    · show (m.entries.filterMap cancelled).map core =
        (live m.nhash (done ++ cur)).map (fun d => (d.scanned, false))
      rw [hsplit, filterMap_append, map_append, core_freeCancel (fun e he => (hoflags e he).2),
        core_freeCancel (fun e he => (hnflags e he).2.1), hold, hnew, pend_filter, live_append,
        map_append, filter_map]
      congr 1
      -- What is left of the earlier transactions is not on the cancel list.
      refine map_congr_left fun d hd => ?_
      have hsup := (mem_filter.mp hd).2
      simp only [Function.comp_apply, not_eq_true'] at hsup
      rw [hsup]
    · intro e he
      obtain ⟨e', he', htid, hroll⟩ := mem_freeCancel he
      rw [htid, hroll]
      rw [hsplit] at he'
      show _ < m.tid + 1 ∧ _
      rcases mem_append.mp he' with hin | hin
      · have := hoflags e' hin
        exact ⟨by omega, this.2⟩
      · have := hnflags e' hin
        exact ⟨by omega, this.2.1⟩

/-- Dropping the current transaction leaves what counts of the others. -/
theorem abort (h : Rebuilt m done cur) : m.abort.entries.map core =
      (live m.nhash done).map (fun d => (d.scanned, false)) := by
  obtain ⟨old, new, hsplit, hold, hnew, hoflags, hnflags⟩ := h.entries
  have hdrop : (new.map fun e => { e with cancel := false }).filter
      (fun e => e.tid ≠ m.tid) = [] := by
    refine filter_eq_nil_iff.mpr fun e he => ?_
    obtain ⟨e', he', rfl⟩ := mem_map.mp he
    simp only [(hnflags e' he').1, ne_eq, not_true_eq_false, decide_false, false_eq_true,
      not_false_eq_true]
  have hkeep : (old.map fun e => { e with cancel := false }).filter
      (fun e => e.tid ≠ m.tid) = old.map fun e => { e with cancel := false } := by
    refine filter_eq_self.mpr fun e he => ?_
    obtain ⟨e', he', rfl⟩ := mem_map.mp he
    have := (hoflags e' he').1
    exact decide_eq_true (ne_of_lt this)
  have hcore : (old.map fun e => { e with cancel := false }).map core =
      (old.map core).map (fun x => (x.1, false)) := by
    rw [map_map, map_map]
    rfl
  show ((m.entries.map fun e => { e with cancel := false }).filter
    (fun e => e.tid ≠ m.tid)).map core = _
  rw [hsplit, map_append, filter_append, hdrop, hkeep, append_nil, hcore, hold, map_map]
  rfl

end Rebuilt

end Sol7.UfsLog
