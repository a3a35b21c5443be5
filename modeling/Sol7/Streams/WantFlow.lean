import Sol7.Streams.QueueRefine
import Sol7.Streams.Want

/-!
# What the Routines Do to Flow Control

The water marks never change, and a routine that puts messages on the queue or
takes them off leaves the flags of waiting writers alone. The counts follow from
the list of messages.

## Main definitions

* `SameMarks`: The marks and the flags of waiting writers are the same.

## Theorems

* `sameMarks_putq`, `sameMarks_putbq`, `sameMarks_rmvqNoenab`,
  `sameMarks_getqNoenab`, `sameMarks_flushDetach`, `sameMarks_reput`: The routines.
* `putq_steady`, `putbq_steady`, `getqNoenab_steady`, `reput_steady`: A larger bound on
  the loops does not change the result.
* `flushbandFind_mem`: What the loop of `flushband` finds, whatever the bound.
-/

namespace Sol7.Streams

open List Option

open Prod (mk)

variable {ι : Type}

/-- The marks and the flags of waiting writers are the same. The record of a band
    may be new. -/
structure SameMarks (q q' : Queue ι) : Prop where
  wantw : q'.wantw = q.wantw
  wantwsync : q'.wantwsync = q.wantwsync
  hiwat : q'.hiwat = q.hiwat
  lowat : q'.lowat = q.lowat
  bands : ∀ (i : Nat) r', q'.bands[i]? = some r' →
    (∃ r, q.bands[i]? = some r ∧ r'.wantw = r.wantw ∧ r'.hiwat = r.hiwat ∧ r'.lowat = r.lowat) ∨
    r'.wantw = false ∧ r'.hiwat = q.hiwat ∧ r'.lowat = q.lowat

namespace SameMarks

variable {q q1 q2 : Queue ι}

/-- Nothing that is about marks has changed. -/
theorem of_eq (h : (q1.wantw, q1.wantwsync, q1.hiwat, q1.lowat, q1.bands) =
    (q.wantw, q.wantwsync, q.hiwat, q.lowat, q.bands)) : SameMarks q q1 := by
  simp only [mk.injEq] at h
  obtain ⟨hw, hs, hh, hl, hb⟩ := h
  exact ⟨hw, hs, hh, hl, fun _ r hr => .inl ⟨r, hb ▸ hr, rfl, rfl, rfl⟩⟩

theorem trans (h1 : SameMarks q q1) (h2 : SameMarks q1 q2) : SameMarks q q2 := by
  refine ⟨h2.wantw.trans h1.wantw, h2.wantwsync.trans h1.wantwsync, h2.hiwat.trans h1.hiwat,
    h2.lowat.trans h1.lowat, fun i r2 hr2 => ?_⟩
  rcases h2.bands i r2 hr2 with ⟨r1, hr1, hw2, hh2, hl2⟩ | ⟨hw2, hh2, hl2⟩
  · rcases h1.bands i r1 hr1 with ⟨r, hr, hw1, hh1, hl1⟩ | ⟨hw1, hh1, hl1⟩
    · exact .inl ⟨r, hr, hw2.trans hw1, hh2.trans hh1, hl2.trans hl1⟩
    · exact .inr ⟨hw2.trans hw1, hh2.trans hh1, hl2.trans hl1⟩
  · exact .inr ⟨hw2, hh2.trans h1.hiwat, hl2.trans h1.lowat⟩

/-- The record of a band is changed in other respects. -/
theorem setQband (q : Queue ι) (band : Nat) {f : Qband ι → Qband ι}
    (hf : ∀ r, (f r).wantw = r.wantw ∧ (f r).hiwat = r.hiwat ∧ (f r).lowat = r.lowat) :
    SameMarks q (q.setQband band f) := by
  refine ⟨rfl, rfl, rfl, rfl, fun i r' hr' => .inl ?_⟩
  rw [Queue.getElem?_setQband] at hr'
  split at hr'
  · obtain ⟨r, hr, rfl⟩ := map_eq_some_iff.mp hr'
    exact ⟨r, hr, hf r⟩
  · exact ⟨r', hr', rfl, rfl, rfl⟩

theorem addCount (q : Queue ι) (x : ι) : SameMarks q (q.addCount x) := by
  unfold Queue.addCount
  split
  · exact of_eq rfl
  · exact setQband q _ fun r => ⟨rfl, rfl, rfl⟩

theorem subCount (q : Queue ι) (x : ι) : SameMarks q (q.subCount x) := by
  unfold Queue.subCount
  split
  · exact of_eq rfl
  · exact setQband q _ fun r => ⟨rfl, rfl, rfl⟩

end SameMarks

theorem sameMarks_flushDetach (q : Queue ι) : SameMarks q q.flushDetach := by
  refine ⟨rfl, rfl, rfl, rfl, fun i r' hr' => .inl ?_⟩
  unfold Queue.flushDetach at hr'
  rw [getElem?_map] at hr'
  obtain ⟨r, hr, rfl⟩ := map_eq_some_iff.mp hr'
  exact ⟨r, hr, rfl, rfl, rfl⟩

variable {q q' : Queue ι} {x : ι} {fuel : Nat}

/-- The order of the messages does not matter for the counts. -/
theorem bytes_perm {msg : ι → Msg} {band : Nat} {l l' : List ι} (h : l.Perm l') :
    bytes msg (inBand msg band l) = bytes msg (inBand msg band l') :=
  ((h.filter _).map _).sum_nat

variable {n : Nat} {l : List ι} {start bp last : Option ι} {p p' : ι → Bool} {keep : Msg → Bool}

theorem before_steady : Steady fun n => q.before (scan q.list.next p n start) := by
  intro fuel n r h hle
  cases hscan : scan q.list.next p fuel start with
  | none => simp [hscan, Queue.before] at h
  | some c =>
    simp only [hscan] at h
    simp only [scan_mono hscan hle, h]

/-- The two scans that look for the place of a message in a band. -/
theorem place_steady : Steady fun n => match scan q.list.next p n start with
    | some (some tmp) => q.before (scan q.list.next p' n (some tmp))
    | _ => none := by
  intro fuel n r h hle
  cases hscan : scan q.list.next p fuel start with
  | none => simp [hscan] at h
  | some c =>
    simp only [hscan] at h
    simp only [scan_mono hscan hle]
    cases c with
    | none => cases h
    | some tmp => exact before_steady h hle

theorem putqPlace_steady : Steady fun n => q.putqPlace n x := by
  unfold Queue.putqPlace
  cases q.list.first with
  | none => exact .const _
  | some first =>
    cases q.list.last with
    | none => exact .const _
    | some last =>
      dsimp only
      cases q.qband (q.msg x).band with
      | none => exact .ite (.const _) before_steady
      | some qbp => exact .ite (.const _) (.ite (.const _) place_steady)

theorem putbqPlace_steady : Steady fun n => q.putbqPlace n x := by
  unfold Queue.putbqPlace
  cases q.list.first with
  | none => exact .const _
  | some first =>
    refine .ite (.const _) ?_
    -- A band without messages is looked for in the same way as one without a record.
    cases q.list.last with
    | none =>
      rcases q.qband (q.msg x).band with _ | ⟨_ | tmp, _, _, _, _, _, _⟩
      all_goals exact .const _
    | some last =>
      rcases q.qband (q.msg x).band with _ | ⟨_ | tmp, _, _, _, _, _, _⟩
      · exact .ite (.const _) place_steady
      · exact .ite (.const _) place_steady
      · exact .const _

variable [DecidableEq ι]

theorem sameMarks_prepare (q : Queue ι) (x : ι) : SameMarks q (q.prepare x) := by
  have hforce : SameMarks q (q.forceBand x) := by
    unfold Queue.forceBand
    split <;> exact .of_eq rfl
  refine hforce.trans ⟨rfl, rfl, rfl, rfl, fun i r' hr' => ?_⟩
  unfold Queue.prepare Queue.allocBands at hr'
  by_cases hi : i < (q.forceBand x).bands.length
  · rw [getElem?_append_left hi] at hr'
    exact .inl ⟨r', hr', rfl, rfl, rfl⟩
  · rw [getElem?_append_right (le_of_not_gt hi)] at hr'
    have := eq_of_mem_replicate (mem_of_getElem? hr')
    subst this
    exact .inr ⟨rfl, rfl, rfl⟩

theorem sameMarks_place {p n : Option ι} {f : Qband ι → Qband ι}
    (hf : ∀ r, (f r).wantw = r.wantw ∧ (f r).hiwat = r.hiwat ∧ (f r).lowat = r.lowat) (e : Bool) :
    SameMarks q { q.place x p n f with enab := e } := by
  have hlink : SameMarks q { q with list := q.list.link p x n } := .of_eq rfl
  have hplace : SameMarks q (q.place x p n f) :=
    (hlink.trans (.setQband _ _ hf)).trans (.addCount _ x)
  exact hplace.trans (.of_eq rfl)

theorem sameMarks_putq (h : q.putq fuel x = some q') : SameMarks q q' := by
  obtain ⟨⟨p, n⟩, -, rfl⟩ := map_eq_some_iff.mp h
  refine (sameMarks_prepare q x).trans ?_
  exact sameMarks_place (f := Queue.putqBand _ x) (fun r => ⟨rfl, rfl, rfl⟩) _

theorem sameMarks_putbq (h : q.putbq fuel x = some q') : SameMarks q q' := by
  obtain ⟨⟨p, n⟩, -, rfl⟩ := map_eq_some_iff.mp h
  refine (sameMarks_prepare q x).trans ?_
  exact sameMarks_place (f := Queue.putbqBand _ x) (fun r => ⟨rfl, rfl, rfl⟩) _

theorem sameMarks_rmvqNoenab (q : Queue ι) (x : ι) : SameMarks q (q.rmvqNoenab x) := by
  refine SameMarks.trans ?_ (SameMarks.subCount _ x)
  refine (SameMarks.setQband q (q.msg x).band fun r => ?_).trans (SameMarks.of_eq rfl)
  exact ⟨rfl, rfl, rfl⟩

theorem sameMarks_getqNoenab {bp : Option ι} (h : q.getqNoenab fuel = some (q', bp)) :
    SameMarks q q' := by
  unfold Queue.getqNoenab at h
  split at h
  · obtain ⟨rfl, -⟩ := mk.inj (some.inj h)
    exact .of_eq rfl
  next first _ =>
  split at h
  · split at h
    · cases h
    · obtain ⟨rfl, -⟩ := mk.inj (some.inj h)
      exact .of_eq rfl
    · obtain ⟨rfl, -⟩ := mk.inj (some.inj h)
      exact sameMarks_rmvqNoenab q _
  · obtain ⟨rfl, -⟩ := mk.inj (some.inj h)
    have hpop : SameMarks q (q.popFirst first) := .of_eq rfl
    have hset := SameMarks.setQband (q.popFirst first) (q.msg first).band
      (f := Queue.getqBand (q.list.next first)) fun r => by
        unfold Queue.getqBand
        split
        · exact ⟨rfl, rfl, rfl⟩
        · exact ⟨rfl, rfl, rfl⟩
    exact ((hpop.trans hset).trans (.subCount _ first)).trans (.of_eq rfl)

theorem sameMarks_reput {keep : Msg → Bool} (h : q.reput fuel keep x = some q') :
    SameMarks q q' := by
  unfold Queue.reput at h
  dsimp only at h
  split at h
  · refine .trans ?_ (sameMarks_putq h)
    exact .of_eq rfl
  · cases h
    exact .of_eq rfl

/-! ### Results that do not depend on the bound -/

theorem putq_steady : Steady fun n => q.putq n x := putqPlace_steady.map _

theorem putbq_steady : Steady fun n => q.putbq n x := putbqPlace_steady.map _

theorem getqNoenab_steady : Steady fun n => q.getqNoenab n := by
  unfold Queue.getqNoenab
  cases q.list.first with
  | none => exact .const _
  | some first =>
    refine .ite ?_ (.const _)
    intro fuel n r h hle
    cases hscan : scan q.list.next (fun t => (q.msg t).noget) fuel (some first) with
    | none => simp [hscan] at h
    | some c =>
      simp only [hscan] at h
      simp only [scan_mono hscan hle, h]

theorem reput_steady : Steady fun n => q.reput n keep x := .ite putq_steady (.const _)

/-- What the loop of `flushband` finds is on the list and is to be freed. -/
theorem flushbandFind_mem {pri : Nat} {flag fin : Bool} (h : Threaded (links start q.list.next) l)
    (hfind : q.flushbandFind pri flag last fuel start = some (some (x, fin))) :
    x ∈ l ∧ (q.msg x).band = pri := by
  induction fuel generalizing start l with
  | zero => cases hfind
  | succ n ih =>
    have hband : ∀ m, q.flushbandFrees pri flag m = true → (q.msg m).band = pri := by
      intro m hm
      unfold Queue.flushbandFrees at hm
      rw [Bool.and_eq_true, decide_eq_true_eq] at hm
      exact hm.1
    unfold Queue.flushbandFind at hfind
    cases l with
    | nil =>
      rw [h.head_links] at hfind
      split at hfind
      · cases hfind
      · cases hfind
    | cons c b =>
      rw [h.head_links, head?_cons] at hfind
      split at hfind
      · rw [bind_some] at hfind
        split at hfind
        · next hfrees =>
          obtain ⟨rfl, -⟩ := mk.inj (some.inj (some.inj hfind))
          exact ⟨mem_cons_self, hband _ hfrees⟩
        · cases hfind
      · dsimp only at hfind
        split at hfind
        · next hfrees =>
          obtain ⟨rfl, -⟩ := mk.inj (some.inj (some.inj hfind))
          exact ⟨mem_cons_self, hband _ hfrees⟩
        · obtain ⟨hmem, hpri⟩ := ih h.tail_links hfind
          exact ⟨mem_cons_of_mem c hmem, hpri⟩

end Sol7.Streams
