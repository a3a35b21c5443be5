import Sol7.Callout.Scan

/-!
# The Invariant of the Callout Table

What holds of a callout table between any two steps, for the callouts that are
in it. Every step is made of few changes to the table: its time goes on, a
callout is linked in, a callout is marked, a callout is taken out. The parts of
the invariant are kept by each of them.

## Main definitions

* `CalloutTable.Chains`: Both chains and the free list.
* `CalloutTable.InHandler`: A thread that is in a handler.
* `CalloutTable.Records`: The callouts in the table are ones that were made.

## Theorems

* `CalloutTable.Chains.insert`, `CalloutTable.Chains.mark`,
  `CalloutTable.Chains.delete`: The chains after a change. The other parts have
  lemmas of the same names.
* `CalloutTable.timeoutCommon_inserts`: What `timeout_common` changes.
-/

namespace Sol7.CalloutTable

open List Option Function CalloutId

variable {τ α : Type} {ct ct' : CalloutTable τ α} {live : Nat → Prop} {p : Nat}
  {new : Callout τ α}

/-- The chains and the free list of a table. -/
structure Chains (live : Nat → Prop) (ct : CalloutTable τ α) : Prop where
  ticking : ct.Ticking live
  id : Chained (fun p => (ct.mem p).xid.hash) live ct.idhash
  free : ∀ p ∈ ct.freelist, ¬live p
  freeNodup : ct.freelist.Nodup
  bound : ∀ p, live p ∨ p ∈ ct.freelist → p < ct.next
  ids : IsId ct.shortId ∧ IsId ct.longId

/-- A thread is in the handler of a callout: it is marked, and nothing is due in
    front of it. -/
structure InHandler (live : Nat → Prop) (ct : CalloutTable τ α) (t : τ) (p : Nat) (r : Int) :
    Prop where
  live : live p
  executing : (ct.mem p).xid.executing = true
  executor : (ct.mem p).executor = some t
  runtime : (ct.mem p).runtime = r
  clock : r ≤ ct.curtime
  late : r ≤ ct.runtime
  scanned : ct.Scanned r p

/-- A callout is one that was made. -/
structure IsMade (made : List (Made α)) (c : Callout τ α) (m : Made α) : Prop where
  made : made[c.serial]? = some m
  id : IsId m.id
  runtime : m.runtime = c.runtime
  func : m.func = c.func
  xid : c.xid = m.id ∨ c.xid = m.id ||| executingBit

/-- The callouts in the table are ones that were made, and their ids were not
    issued again. -/
structure Records (live : Nat → Prop) (made : List (Made α)) (mem : Nat → Callout τ α) : Prop where
  entry : ∀ p, live p → ∃ m, IsMade made (mem p) m
  serial : ∀ p q, live p → live q → (mem p).serial = (mem q).serial → p = q
  latest : ∀ p m, live p → IsMade made (mem p) m → ∀ (n : Nat) (m' : Made α),
    made[n]? = some m' → m'.id = m.id → n ≤ (mem p).serial

variable {made : List (Made α)}

theorem IsMade.serial_lt {c : Callout τ α} {m : Made α} (h : IsMade made c m) :
    c.serial < made.length :=
  (List.getElem?_eq_some_iff.mp h.made).1

theorem IsMade.unmarked {c : Callout τ α} {m : Made α} (h : IsMade made c m)
    (hx : c.xid.executing = false) : c.xid = m.id :=
  h.xid.resolve_right fun hmark => by
    rw [hmark, executing_mark h.id.2] at hx
    cases hx

variable {r runtime curtime lbolt delta : Int}

/-- A scan is not disturbed by what is done to the table, as long as nothing
    that is due at its time appears in front of it. -/
theorem Scanned.congr (h : ct.Scanned r p) (hlb : ct'.lbhash = ct.lbhash)
    (hdue : ∀ q ∈ ct.lbhash (lbHash r), ct.due r q = false → ct'.due r q = false) :
    ct'.Scanned r p := by
  obtain ⟨pre, post, heq, hpre⟩ := h
  refine ⟨pre, post, hlb ▸ heq, fun q hq => hdue q ?_ (hpre q hq)⟩
  rw [heq]
  exact mem_append_left _ hq

variable {t t' : τ}

theorem InHandler.retime (h : InHandler live ct t p r) (hcur : ct.curtime ≤ curtime)
    (hrun : ct.runtime ≤ runtime) :
    InHandler live { ct with runtime := runtime, curtime := curtime } t p r :=
  { h with clock := Int.le_trans h.clock hcur, late := Int.le_trans h.late hrun }

/-- A callout that waits is another one. -/
theorem InHandler.ne {q : Nat} (hh : InHandler live ct t q r)
    (hp : (ct.mem p).xid.executing = false) : q ≠ p := by
  rintro rfl
  rw [hh.executing] at hp
  cases hp

/-! ### A callout is linked in -/

/-- What `timeout_common` does to the table. -/
structure Inserts (ct ct' : CalloutTable τ α) (p : Nat) (new : Callout τ α) : Prop where
  mem : ct'.mem = update ct.mem p new
  idhash : ct'.idhash = link ct.idhash new.xid.hash p
  lbhash : ct'.lbhash = link ct.lbhash (lbHash new.runtime) p
  curtime : ct'.curtime = ct.curtime
  runtime : ct'.runtime = ct.runtime
  ids : IsId ct.shortId ∧ IsId ct.longId → IsId ct'.shortId ∧ IsId ct'.longId
  place : (p = ct.next ∧ ct'.next = ct.next + 1 ∧ ct'.freelist = ct.freelist) ∨
    (ct.freelist = p :: ct'.freelist ∧ ct'.next = ct.next)

theorem future_pos (delta : Int) : 1 ≤ future delta := by
  unfold future
  split <;> omega

/-- Issuing an id changes nothing but the ids. -/
theorem issue_eq (ct : CalloutTable τ α) (delta : Int) : ∃ shortId longId,
    ct.issue delta = { ct with shortId := shortId, longId := longId } ∧
      (IsId ct.shortId ∧ IsId ct.longId → IsId shortId ∧ IsId longId) := by
  unfold issue
  by_cases hlong : future delta > longtermTicks
  · rw [if_pos hlong]
    exact ⟨_, _, rfl, fun h => ⟨h.1, h.2.next⟩⟩
  · rw [if_neg hlong]
    exact ⟨_, _, rfl, fun h => ⟨h.1.next, h.2⟩⟩

theorem isId_issued (h : Chains live ct) (delta : Int) : IsId (ct.issued delta) := by
  unfold issued
  by_cases hlong : future delta > longtermTicks
  · rw [if_pos hlong]
    exact h.ids.2.next
  · rw [if_neg hlong]
    exact h.ids.1.next

theorem takeCallout_eq {alloc : Bool} (h : ct.takeCallout alloc = some (p, ct')) :
    (p = ct.next ∧ ct' = { ct with next := ct.next + 1 }) ∨
      ∃ rest, ct.freelist = p :: rest ∧ ct' = { ct with freelist := rest } := by
  unfold takeCallout at h
  cases alloc with
  | true =>
    simp only [if_true, some.injEq, Prod.mk.injEq] at h
    exact .inl ⟨h.1.symm, h.2.symm⟩
  | false =>
    cases hfree : ct.freelist with
    | nil => simp [hfree] at h
    | cons q rest =>
      simp only [hfree, Bool.false_eq_true, if_false, some.injEq, Prod.mk.injEq] at h
      exact .inr ⟨rest, by rw [h.1], h.2.symm⟩

variable {serial q : Nat}

theorem timeoutCommon_inserts {alloc : Bool} {func : α}
    (h : ct.timeoutCommon alloc lbolt func delta serial = some ct') : ∃ p new,
      Inserts ct ct' p new ∧ new.xid = ct.issued delta ∧ new.runtime = lbolt + future delta ∧
      new.func = func ∧ new.serial = serial := by
  obtain ⟨⟨p, ct1⟩, htake, rfl⟩ := map_eq_some_iff.mp h
  obtain ⟨shortId, longId, hissue, hids⟩ := issue_eq ct1 delta
  let new : Callout τ α :=
    ⟨ct.issued delta, lbolt + future delta, func,
      if alloc then none else (ct.mem p).executor, serial⟩
  refine ⟨p, new, ?_, rfl, rfl, rfl, rfl⟩
  rw [hissue]
  rcases takeCallout_eq htake with ⟨rfl, rfl⟩ | ⟨rest, hfree, rfl⟩
  · refine ⟨rfl, ?_, ?_, rfl, rfl, hids, .inl ⟨rfl, rfl, rfl⟩⟩
    all_goals
      simp only [hashInsert, update_self]
      rfl
  · refine ⟨rfl, ?_, ?_, rfl, rfl, hids, .inr ⟨hfree, rfl⟩⟩
    all_goals
      simp only [hashInsert, update_self]
      rfl

theorem Inserts.self (h : Inserts ct ct' p new) : ct'.mem p = new := by rw [h.mem, update_self]

theorem Inserts.not_live (h : Inserts ct ct' p new) (hc : Chains live ct) : ¬live p := by
  rcases h.place with ⟨rfl, -⟩ | ⟨hfree, -⟩
  · exact fun hl => lt_irrefl _ (hc.bound _ (.inl hl))
  · exact hc.free p (by rw [hfree]; exact mem_cons_self)

theorem Inserts.other (h : Inserts ct ct' p new) (hc : Chains live ct) (hq : live q) :
    ct'.mem q = ct.mem q := by
  have hne : q ≠ p := fun heq => h.not_live hc (heq ▸ hq)
  rw [h.mem, update_of_ne hne]

theorem Chains.insert (h : Chains live ct) (hins : Inserts ct ct' p new)
    (hrun : ct.curtime < new.runtime) : Chains (fun q => q = p ∨ live q) ct' := by
  have hclock := h.ticking.clock
  refine ⟨⟨?_, ?_, ?_⟩, ?_, ?_, ?_, ?_, hins.ids h.ids⟩
  · rw [hins.lbhash]
    exact h.ticking.lb.link (hins.not_live h) (fun q hq => by rw [hins.other h hq])
      (by rw [hins.self])
  · rintro q (rfl | hq) hx
    · rw [hins.self, hins.runtime]
      omega
    · rw [hins.other h hq] at hx ⊢
      rw [hins.runtime]
      exact h.ticking.pending q hq hx
  · rw [hins.runtime, hins.curtime]
    exact hclock
  · rw [hins.idhash]
    exact h.id.link (hins.not_live h) (fun q hq => by rw [hins.other h hq]) (by rw [hins.self])
  · rintro q hq (rfl | hl)
    · rcases hins.place with ⟨rfl, -, hfree⟩ | ⟨hfree, -⟩
      · exact lt_irrefl _ (h.bound _ (.inr (hfree ▸ hq)))
      · exact (nodup_cons.mp (hfree ▸ h.freeNodup)).1 hq
    · refine h.free q ?_ hl
      rcases hins.place with ⟨-, -, hfree⟩ | ⟨hfree, -⟩
      · exact hfree ▸ hq
      · exact hfree ▸ mem_cons_of_mem _ hq
  · rcases hins.place with ⟨-, -, hfree⟩ | ⟨hfree, -⟩
    · exact hfree ▸ h.freeNodup
    · exact (nodup_cons.mp (hfree ▸ h.freeNodup)).2
  · intro q hq
    rcases hins.place with ⟨rfl, hnext, hfree⟩ | ⟨hfree, hnext⟩
    · rw [hnext]
      rcases hq with (rfl | hq) | hq
      · exact Nat.lt_succ_self _
      · exact Nat.lt_succ_of_lt (h.bound q (.inl hq))
      · exact Nat.lt_succ_of_lt (h.bound q (.inr (hfree ▸ hq)))
    · rw [hnext]
      rcases hq with (rfl | hq) | hq
      · exact h.bound q (.inr (hfree ▸ mem_cons_self))
      · exact h.bound q (.inl hq)
      · exact h.bound q (.inr (hfree ▸ mem_cons_of_mem _ hq))

/-- What is new is in front, but is not due yet. -/
theorem InHandler.insert (hh : InHandler live ct t q r) (h : Chains live ct)
    (hins : Inserts ct ct' p new) (hrun : ct.curtime < new.runtime) :
    InHandler (fun q => q = p ∨ live q) ct' t q r := by
  have hother := hins.other h hh.live
  refine ⟨.inr hh.live, hother ▸ hh.executing, hother ▸ hh.executor, hother ▸ hh.runtime,
    hins.curtime ▸ hh.clock, hins.runtime ▸ hh.late, ?_⟩
  obtain ⟨pre, post, heq, hpre⟩ := hh.scanned
  have hdue : ∀ x ∈ pre, ct'.due r x = false := by
    intro x hx
    have hlive : live x := ((h.ticking.lb.mem (lbHash r) x).mp (by rw [heq]; simp [hx])).1
    rw [due, hins.other h hlive]
    exact hpre x hx
  by_cases hb : lbHash r = lbHash new.runtime
  · refine ⟨p :: pre, post, ?_, fun x hx => ?_⟩
    · rw [hins.lbhash, link, ← hb, update_self, heq]
      rfl
    · rcases mem_cons.mp hx with rfl | hx
      · have hlt := hh.clock
        rw [← Bool.not_eq_true, due_iff, hins.self]
        exact fun hr => by omega
      · exact hdue x hx
  · refine ⟨pre, post, ?_, hdue⟩
    rw [hins.lbhash, link, update_of_ne hb, heq]

/-- The new callout gets the next number, and an id that is not in the table. -/
theorem Records.insert (hr : Records live made ct.mem) (h : Chains live ct)
    (hins : Inserts ct ct' p new) (hid : IsId new.xid) (hserial : new.serial = made.length)
    (hunused : ∀ q ∈ ct.idhash new.xid.hash,
      (ct.mem q).xid ≠ new.xid ∧ (ct.mem q).xid ≠ new.xid ||| executingBit) :
    Records (fun q => q = p ∨ live q) (made ++ [⟨new.xid, new.runtime, new.func⟩]) ct'.mem := by
  have hold : ∀ q m, live q → IsMade made (ct.mem q) m →
      IsMade (made ++ [⟨new.xid, new.runtime, new.func⟩]) (ct'.mem q) m := by
    intro q m hq hm
    rw [hins.other h hq]
    exact { hm with made := by rw [getElem?_append_left hm.serial_lt, hm.made] }
  have hlt : ∀ q, live q → (ct.mem q).serial < made.length := by
    intro q hq
    obtain ⟨m, hm⟩ := hr.entry q hq
    exact hm.serial_lt
  refine ⟨?_, ?_, ?_⟩
  · rintro q (rfl | hq)
    · rw [hins.self]
      refine ⟨⟨new.xid, new.runtime, new.func⟩, ?_, hid, rfl, rfl, .inl rfl⟩
      rw [hserial, getElem?_append_right le_rfl, Nat.sub_self]
      rfl
    · obtain ⟨m, hm⟩ := hr.entry q hq
      exact ⟨m, hold q m hq hm⟩
  · rintro q q' (rfl | hq) (rfl | hq') heq
    · rfl
    · rw [hins.self, hins.other h hq', hserial] at heq
      exact absurd heq.symm (ne_of_lt (hlt q' hq'))
    · rw [hins.self, hins.other h hq, hserial] at heq
      exact absurd heq (ne_of_lt (hlt q hq))
    · rw [hins.other h hq, hins.other h hq'] at heq
      exact hr.serial q q' hq hq' heq
  · intro q m hq hm n m' hn heq
    have hnlt : n < made.length + 1 := by simpa using (List.getElem?_eq_some_iff.mp hn).1
    rcases hq with rfl | hq
    · rw [hins.self, hserial]
      omega
    obtain ⟨m0, hm0⟩ := hr.entry q hq
    have hsame : m0 = m := some.inj ((hold q m0 hq hm0).made.symm.trans hm.made)
    subst hsame
    rw [hins.other h hq]
    by_cases hlast : n = made.length
    · -- The id is not the one of a callout in the table.
      subst hlast
      rw [getElem?_append_right le_rfl, Nat.sub_self] at hn
      cases hn
      have hhash : (ct.mem q).xid.hash = new.xid.hash := by
        rcases hm0.xid with hx | hx
        · rw [hx, ← heq]
        · rw [hx, ← heq, hash_mark hid.2]
      have hu := hunused q ((h.id.mem _ q).mpr ⟨hq, hhash⟩)
      rw [show new.xid = m0.id from heq] at hu
      exact absurd hm0.xid (not_or.mpr hu)
    · rw [getElem?_append_left (by omega)] at hn
      exact hr.latest q m0 hq hm0 n m' hn heq

/-! ### A callout is marked -/

theorem mark_other (hq : q ≠ p) : (ct.mark t p).mem q = ct.mem q := update_of_ne hq ..

theorem mark_self : (ct.mark t p).mem p =
    { ct.mem p with xid := (ct.mem p).xid ||| executingBit, executor := some t } :=
  update_self ..

theorem mark_serial (q : Nat) : ((ct.mark t p).mem q).serial = (ct.mem q).serial :=
  update_field Callout.serial (by rfl) q

theorem mark_runtime (q : Nat) : ((ct.mark t p).mem q).runtime = (ct.mem q).runtime :=
  update_field Callout.runtime (by rfl) q

theorem mark_due (hx : (ct.mem p).xid.toNat < 2 ^ 31) (h : ct.due r q = false) :
    (ct.mark t p).due r q = false := by
  by_cases hq : q = p
  · subst hq
    rw [due, mark_self, executing_mark hx]
    exact Bool.and_false _
  · rw [due, mark_other hq]
    exact h

theorem Chains.mark (h : Chains live ct) (t : τ) (hx : (ct.mem p).xid.toNat < 2 ^ 31) :
    Chains live (ct.mark t p) := by
  refine ⟨⟨h.ticking.lb.congr fun q _ => by rw [mark_runtime], fun q hq hx' => ?_,
    h.ticking.clock⟩, h.id.congr fun q _ => ?_, h.free, h.freeNodup, h.bound, h.ids⟩
  · by_cases hqp : q = p
    · subst hqp
      rw [mark_self, executing_mark hx] at hx'
      cases hx'
    · rw [mark_other hqp] at hx' ⊢
      exact h.ticking.pending q hq hx'
  · exact update_field (fun c : Callout τ α => c.xid.hash) (by exact hash_mark hx) q

theorem InHandler.mark (hh : InHandler live ct t' q r) (hx : (ct.mem p).xid.toNat < 2 ^ 31)
    (hp : (ct.mem p).xid.executing = false) : InHandler live (ct.mark t p) t' q r := by
  have hother : (ct.mark t p).mem q = ct.mem q := mark_other (hh.ne hp)
  exact ⟨hh.live, hother ▸ hh.executing, hother ▸ hh.executor, hother ▸ hh.runtime, hh.clock,
    hh.late, hh.scanned.congr rfl fun x _ hdue => mark_due hx hdue⟩

theorem Records.mark (hr : Records live made ct.mem) (t : τ) (hp : (ct.mem p).xid.executing = false)
     : Records live made (ct.mark t p).mem := by
  have hback : ∀ q m, live q → IsMade made ((ct.mark t p).mem q) m → IsMade made (ct.mem q) m := by
    intro q m hq hm
    obtain ⟨m0, hm0⟩ := hr.entry q hq
    have hmade := hm.made
    rw [mark_serial, hm0.made] at hmade
    exact some.inj hmade ▸ hm0
  refine ⟨fun q hq => ?_, fun q q' hq hq' heq => ?_, fun q m hq hm n m' hn heq => ?_⟩
  · obtain ⟨m, hm⟩ := hr.entry q hq
    refine ⟨m, ?_⟩
    by_cases hqp : q = p
    · subst hqp
      rw [mark_self]
      exact { hm with xid := .inr (by rw [hm.unmarked hp]) }
    · rw [mark_other hqp]
      exact hm
  · rw [mark_serial, mark_serial] at heq
    exact hr.serial q q' hq hq' heq
  · rw [mark_serial]
    exact hr.latest q m hq (hback q m hq hm) n m' hn heq

/-! ### A callout is taken out -/

variable {mem' mem : Nat → Callout τ α}

/-- A callout is taken out of both chains and put on the free list. It may be
    changed then. -/
theorem Chains.delete (h : Chains live ct) (hp : live p) (hmem : ∀ q, q ≠ p → mem' q = ct.mem q) :
    Chains (fun q => live q ∧ q ≠ p) { ct.hashDelete p with mem := mem' } := by
  refine ⟨⟨h.ticking.lb.unlink (fun q _ hne => ?_) rfl, fun q hq hx => ?_, h.ticking.clock⟩,
    h.id.unlink (fun q _ hne => ?_) rfl, ?_, ?_, ?_, h.ids⟩
  · change lbHash (mem' q).runtime = _
    rw [hmem q hne]
  · change (mem' q).xid.executing = false at hx
    change ct.runtime ≤ (mem' q).runtime
    rw [hmem q hq.2] at hx ⊢
    exact h.ticking.pending q hq.1 hx
  · change (mem' q).xid.hash = _
    rw [hmem q hne]
  · intro q hq hl
    rcases mem_cons.mp hq with rfl | hq
    · exact hl.2 rfl
    · exact h.free q hq hl.1
  · exact nodup_cons.mpr ⟨fun hmem => h.free p hmem hp, h.freeNodup⟩
  · rintro q (hq | hq)
    · exact h.bound q (.inl hq.1)
    · rcases mem_cons.mp hq with rfl | hq
      · exact h.bound q (.inl hp)
      · exact h.bound q (.inr hq)

theorem InHandler.delete (hh : InHandler live ct t q r) (h : Chains live ct) (hne : q ≠ p)
    (hmem : ∀ q, q ≠ p → mem' q = ct.mem q) :
    InHandler (fun q => live q ∧ q ≠ p) { ct.hashDelete p with mem := mem' } t q r := by
  have hother := hmem q hne
  refine ⟨⟨hh.live, hne⟩, ?_, ?_, ?_, hh.clock, hh.late, ?_⟩
  · change (mem' q).xid.executing = true
    exact hother ▸ hh.executing
  · change (mem' q).executor = some t
    exact hother ▸ hh.executor
  · change (mem' q).runtime = r
    exact hother ▸ hh.runtime
  obtain ⟨pre, post, heq, hpre⟩ := hh.scanned
  have hdue : ∀ x ∈ pre, x ≠ p →
      ({ ct.hashDelete p with mem := mem' } : CalloutTable τ α).due r x = false := by
    intro x hx hxp
    change ((mem' x).runtime == r && !(mem' x).xid.executing) = false
    rw [hmem x hxp]
    exact hpre x hx
  have hnodup := h.ticking.lb.nodup (lbHash r)
  rw [heq] at hnodup
  change ∃ pre post, unlink ct.lbhash _ p (lbHash r) = pre ++ q :: post ∧ _
  by_cases hb : lbHash r = lbHash (ct.mem p).runtime
  · rw [unlink, ← hb, update_self, heq]
    by_cases hp : p ∈ pre
    · refine ⟨pre.erase p, post, erase_append_left _ hp, fun x hx => ?_⟩
      have hx' := (nodup_append.mp hnodup).1.mem_erase_iff.mp hx
      exact hdue x hx'.2 hx'.1
    · refine ⟨pre, post.erase p, ?_, fun x hx => hdue x hx fun hxp => hp (hxp ▸ hx)⟩
      rw [erase_append_right _ hp, erase_cons_tail (by simpa using hne)]
  · rw [unlink, update_of_ne hb, heq]
    refine ⟨pre, post, rfl, fun x hx => hdue x hx fun hxp => hb ?_⟩
    have hmem' : x ∈ ct.lbhash (lbHash r) := by
      rw [heq]
      exact mem_append_left _ hx
    rw [← hxp]
    exact (((h.ticking.lb.mem (lbHash r) x).mp hmem').2).symm

theorem Records.drop (hr : Records live made mem) (hmem : ∀ q, q ≠ p → mem' q = mem q) :
    Records (fun q => live q ∧ q ≠ p) made mem' := by
  refine ⟨fun q hq => ?_, fun q q' hq hq' heq => ?_, fun q m hq hm => ?_⟩
  · rw [hmem q hq.2]
    exact hr.entry q hq.1
  · rw [hmem q hq.2, hmem q' hq'.2] at heq
    exact hr.serial q q' hq.1 hq'.1 heq
  · rw [hmem q hq.2] at hm ⊢
    exact hr.latest q m hq.1 hm

/-- A handler has returned, and its callout is taken out: `callout_execute` up to
    the next handler. -/
theorem InHandler.calloutResume (hh : InHandler live ct t p r) (h : Chains live ct) :
    ∃ runtime', Outcome (fun q => live q ∧ q ≠ p)
      { ct.hashDelete p with mem := update ct.mem p { ct.mem p with xid := 0 } } t runtime'
      (ct.calloutResume t p r) := by
  obtain ⟨pre, post, heq, hpre⟩ := hh.scanned
  have hnodup := h.ticking.lb.nodup (lbHash r)
  rw [heq] at hnodup
  have hp : p ∉ pre := fun hmem => (nodup_append.mp hnodup).2.2 p hmem p mem_cons_self rfl
  have hmem : ∀ q, q ≠ p → update ct.mem p { ct.mem p with xid := 0 } q = ct.mem q :=
    fun q hq => update_of_ne hq ..
  have hbehind : behind p (ct.lbhash (lbHash r)) = post := by
    have hall : ∀ q ∈ pre, (q != p) = true := fun q hq => bne_iff_ne.mpr fun hqp => hp (hqp ▸ hq)
    rw [heq, behind, dropWhile_append_of_pos hall]
    simp
  unfold CalloutTable.calloutResume
  rw [hbehind]
  refine executeLoop_outcome t _ _ r pre post (h.delete hh.live hmem).ticking hh.clock hh.late
    ?_ ?_ ?_
  · change unlink ct.lbhash (lbHash (ct.mem p).runtime) p (lbHash r) = pre ++ post
    rw [hh.runtime, unlink, update_self, heq, erase_append_right _ hp, erase_cons_head]
  · intro q hq
    have hqp : q ≠ p := fun heq => hp (heq ▸ hq)
    have hdue := hpre q hq
    change ((update ct.mem p _ q).runtime == r &&
      !(update ct.mem p _ q).xid.executing) = false
    rw [hmem q hqp]
    exact hdue
  · change (ct.curtime + 1 - ct.runtime).toNat + (if r = ct.runtime then 0 else 1) ≤ _
    unfold executeFuel
    by_cases hr : r = ct.runtime
    · rw [if_pos hr]
      omega
    · rw [if_neg hr]
      omega

end Sol7.CalloutTable
