import Sol7.Dispatcher.Model

/-!
# A Coherent Dispatch Queue

The pointers, the counts, the bitmap and the cached maxima of a dispatch queue are
put in terms of the lists of threads at each priority. Putting a thread on a list
and taking one off change all of them together, and this is all that the five
routines do.

The bound for unbound threads may be too high. Putting a thread on raises it if
need be, and taking one off lowers it only to the highest priority of all threads.

## Main definitions

* `Coherent`: The queue agrees with the lists of its threads.

## Theorems

* `Coherent.insert`, `Coherent.remove`: A thread is put on a list or taken off.
* `setbackdq_spec`, `setfrontdq_spec`, `setkpdq_spec`: Putting a thread on.
* `dispdeq_spec`, `disp_spec`: Taking a thread off.
* `firstUnbound_spec`, `fixLoop_spec`: The search for an unbound thread.
-/

namespace Sol7.Dispatcher

open List Option Function Disp

variable {ι : Type} {lp64 : Bool}

/-- The queue agrees with the lists of the threads at each priority. -/
structure Coherent (d : Disp ι lp64) (link : ι → Option ι) (bound : ι → Bool)
    (ls : Nat → List ι) : Prop where
  lists : ∀ p, (d.q p).toFifo.Holds link (ls p)
  runcnt : ∀ p, (d.q p).sruncnt = (ls p).length
  range : ∀ p, d.npri ≤ p → ls p = []
  total : d.nrunnable = ∑ p ∈ Finset.range d.npri, (ls p).length
  bit : ∀ p, active d.qactmap p = true ↔ ls p ≠ []
  maxrun : Highest d.maxrunpri fun p => ls p ≠ []
  unboundLe : d.maxUnboundPri ≤ d.maxrunpri
  unboundGe : -1 ≤ d.maxUnboundPri
  unbound : ∀ p, ∀ t ∈ ls p, bound t = false → (p : Int) ≤ d.maxUnboundPri

variable {d d' : Disp ι lp64} {link link' : ι → Option ι} {bound : ι → Bool}
  {ls : Nat → List ι} {p : Nat} {l a b : List ι} {x : ι}

section
variable {act : Nat → Word lp64} {m : Int} (h : Coherent d link bound ls)
include h

/-- Only the links and the bindings of threads on the queue matter. -/
theorem Coherent.congr {bound' : ι → Bool}
    (hlink : ∀ p, ∀ t ∈ ls p, link' t = link t) (hbound : ∀ p, ∀ t ∈ ls p, bound' t = bound t) :
    Coherent d link' bound' ls := by
  refine { h with
    lists := fun p => (h.lists p).congr (hlink p)
    unbound := fun p t ht hb => h.unbound p t ht ?_ }
  rw [← hbound p t ht]
  exact hb

theorem Coherent.sruncnt_ne : (d.q p).sruncnt ≠ 0 ↔ ls p ≠ [] := by
  rw [h.runcnt, ne_eq, length_eq_zero_iff]

theorem Coherent.lt_npri (hne : ls p ≠ []) : p < d.npri := by
  by_contra hlt
  exact hne (h.range p (by omega))

omit h in
/-- The number of threads when one list gets longer or shorter. -/
theorem sum_update (ls : Nat → List ι) {n : Nat} (hp : p < n) (l : List ι) :
    (∑ i ∈ Finset.range n, (update ls p l i).length) + (ls p).length =
      (∑ i ∈ Finset.range n, (ls i).length) + l.length := by
  have hmem := Finset.mem_range.mpr hp
  simp only [apply_update fun _ => List.length]
  rw [Finset.sum_update_of_mem hmem, Finset.sum_eq_add_sum_sdiff_singleton_of_mem hmem]
  omega

variable {f : Fifo ι}

/-- The lists and their lengths when one of them is changed. -/
theorem Coherent.relist (hp : p < d.npri) {n : Nat} (hf : f.Holds link' l) (hn : n = l.length)
    (hframe : ∀ q, q ≠ p → ∀ t ∈ ls q, link' t = link t) :
    (∀ q, (update d.q p ⟨f, n⟩ q).Holds link' (update ls p l q)) ∧
      (∀ q, (update d.q p ⟨f, n⟩ q).sruncnt = (update ls p l q).length) ∧
      ∀ q, d.npri ≤ q → update ls p l q = [] := by
  refine ⟨fun q => ?_, fun q => ?_, fun q hqn => ?_⟩
  · by_cases hqp : q = p
    · subst hqp
      rw [update_self, update_self]
      exact hf
    · rw [update_of_ne hqp, update_of_ne hqp]
      exact (h.lists q).congr (hframe q hqp)
  · by_cases hqp : q = p
    · rw [hqp, update_self, update_self]
      exact hn
    · rw [update_of_ne hqp, update_of_ne hqp]
      exact h.runcnt q
  · rw [update_of_ne (by omega)]
    exact h.range q hqn

theorem Coherent.insert (hp : p < d.npri) (hl : l.Perm (x :: ls p)) (hf : f.Holds link' l)
    (hframe : ∀ q, q ≠ p → ∀ t ∈ ls q, link' t = link t)
    (hd : d' = ⟨d.npri, update d.q p ⟨f, (d.q p).sruncnt + 1⟩, act, max d.maxrunpri p,
      d'.maxUnboundPri, d.nrunnable + 1⟩)
    (hbit : ∀ q, active act q = (decide (q = p) || active d.qactmap q))
    (hmaxu : d'.maxUnboundPri = d.maxUnboundPri ∧ (bound x = false → (p : Int) ≤ d.maxUnboundPri) ∨
      d'.maxUnboundPri = max d.maxUnboundPri p) : Coherent d' link' bound (update ls p l) := by
  cases d'
  cases hd
  dsimp only at hmaxu
  have hne : l ≠ [] := ne_nil_of_mem (hl.mem_iff.mpr mem_cons_self)
  have hcases : ∀ q, update ls p l q ≠ [] ↔ q = p ∨ ls q ≠ [] := by
    intro q
    by_cases hqp : q = p
    · subst hqp
      simp [hne]
    · simp [hqp]
  have hge := h.unboundGe
  have hle := h.unboundLe
  rcases h.relist hp (n := (d.q p).sruncnt + 1) hf (by rw [hl.length_eq, length_cons, h.runcnt])
    hframe with ⟨hlists, hruncnt, hrange⟩
  refine ⟨hlists, hruncnt, hrange, ?_, fun q => ?_, ?_, ?_, ?_, fun q t ht hb => ?_⟩ <;>
    dsimp only
  · have hsum := sum_update ls hp l
    rw [hl.length_eq, length_cons] at hsum
    rw [h.total]
    omega
  · rw [hbit, hcases, Bool.or_eq_true, decide_eq_true_eq, h.bit]
  · rcases h.maxrun with ⟨hm, hno⟩ | ⟨m, hm, hpm, hmost⟩
    · refine .inr ⟨p, by omega, (hcases p).mpr (.inl rfl), fun q hq' => ?_⟩
      rcases (hcases q).mp hq' with rfl | hq'
      · exact le_rfl
      · exact absurd hq' (hno q)
    · refine .inr ⟨max m p, by omega, (hcases _).mpr ?_, fun q hq' => ?_⟩
      · rcases le_total m p with hmp | hmp
        · exact .inl (max_eq_right hmp)
        · rw [max_eq_left hmp]
          exact .inr hpm
      · rcases (hcases q).mp hq' with rfl | hq'
        · exact le_max_right _ _
        · exact (hmost q hq').trans (le_max_left _ _)
  · omega
  · omega
  · by_cases hqp : q = p
    · subst hqp
      rw [update_self] at ht
      rcases mem_cons.mp (hl.mem_iff.mp ht) with rfl | ht
      · rcases hmaxu with ⟨hm, hx⟩ | hm
        · rw [hm]
          exact hx hb
        · omega
      · have := h.unbound q t ht hb
        omega
    · rw [update_of_ne hqp] at ht
      have := h.unbound q t ht hb
      omega

/-- A thread is taken off the list of a priority. -/
theorem Coherent.remove (hl : (x :: l).Perm (ls p))
    (hf : f.Holds link' l) (hframe : ∀ q, q ≠ p → ∀ t ∈ ls q, link' t = link t)
    (hd : d' = ⟨d.npri, update d.q p ⟨f, (d.q p).sruncnt - 1⟩, act, m, d'.maxUnboundPri,
      d.nrunnable - 1⟩) (hbit : ∀ q, active act q = true ↔ update ls p l q ≠ [])
    (hmax : Highest m fun q => update ls p l q ≠ [])
    (hmaxu : d'.maxUnboundPri = min d.maxUnboundPri m) :
    Coherent d' link' bound (update ls p l) := by
  cases d'
  cases hd
  dsimp only at hmaxu
  have hp := h.lt_npri (ne_nil_of_mem (hl.mem_iff.mp mem_cons_self))
  have hlen := hl.length_eq
  rw [length_cons] at hlen
  have hsub : ∀ q, ∀ t ∈ update ls p l q, t ∈ ls q := by
    intro q t ht
    by_cases hqp : q = p
    · subst hqp
      rw [update_self] at ht
      exact hl.mem_iff.mp (mem_cons_of_mem x ht)
    · rwa [update_of_ne hqp] at ht
  have hge := h.unboundGe
  have hge' := hmax.ge
  have hcount := h.runcnt p
  obtain ⟨hlists, hruncnt, hrange⟩ := h.relist hp (n := (d.q p).sruncnt - 1) hf (by omega) hframe
  refine ⟨hlists, hruncnt, hrange, ?_, hbit, hmax, ?_, ?_, fun q t ht hb => ?_⟩ <;> dsimp only
  · have hsum := sum_update ls hp l
    rw [h.total]
    omega
  · omega
  · omega
  · have hold := h.unbound q t (hsub q t ht) hb
    have hnew := hmax.le fun hnil => by
      rw [hnil] at ht
      cases ht
    omega

end

/-! ### Putting a thread on -/

section

/-- What putting a thread on does to the rest. -/
structure Puts (d d' : Disp ι lp64) (link link' : ι → Option ι) (ls : Nat → List ι) (p : Nat)
    (x : ι) (unbound : Bool) : Prop where
  maxrun : d'.maxrunpri = max d.maxrunpri p
  maxUnbound : unbound = true → d'.maxUnboundPri = max d.maxUnboundPri p
  links : ∀ y, y ≠ x → y ∉ ls p → link' y = link y

/-- The two ends of a list that is not empty. -/
theorem Coherent.holds_concat [DecidableEq ι] (h : Coherent d link bound ls) (hx : x ∉ ls p)
    (hne : ls p ≠ []) : ∃ e, (d.q p).last = some e ∧ e ∈ ls p ∧ Fifo.Holds ⟨(d.q p).first, some x⟩
        (update (update link x none) e (some x)) (ls p ++ [x]) := by
  have hlast := (h.lists p).last
  rcases eq_nil_or_concat' (ls p) with hnil | ⟨l, e, hl⟩
  · exact absurd hnil hne
  · have he : (d.q p).last = some e := by rw [hlast, hl, getLast?_concat]
    exact ⟨e, he, by simp [hl], (h.lists p).concat hx he⟩

variable (h : Coherent d link bound ls) (hp : p < d.npri) (hnew : ∀ q, x ∉ ls q)
include h hp hnew

theorem Coherent.insert_first (hnil : ls p = []) (hx : link' x = none)
    (hframe : ∀ y, y ≠ x → link' y = link y)
    (hd : d' = ⟨d.npri, update d.q p ⟨⟨some x, some x⟩, (d.q p).sruncnt + 1⟩, btSet d.qactmap p,
      if d.maxrunpri < p then p else d.maxrunpri, d'.maxUnboundPri, d.nrunnable + 1⟩)
    (hmaxu : d'.maxUnboundPri = if bound x = false then
      (if d.maxUnboundPri < p then (p : Int) else d.maxUnboundPri) else d.maxUnboundPri) :
    Coherent d' link' bound (update ls p [x]) ∧ Puts d d' link link' ls p x (!bound x) := by
  rw [← max_def_lt] at hd
  have hmaxu' : bound x = false → d'.maxUnboundPri = max d.maxUnboundPri p := by
    intro hb
    rw [hmaxu, if_pos hb, max_def_lt]
  refine ⟨?_, by rw [hd], fun hb => hmaxu' (by simpa using hb), fun y hy _ => hframe y hy⟩
  refine h.insert hp (by rw [hnil]) (Fifo.holds_singleton hx)
    (fun q _ t ht => hframe t fun heq => hnew q (heq ▸ ht)) hd (active_btSet _ p) ?_
  cases hb : bound x with
  | false => exact .inr (hmaxu' hb)
  | true =>
    rw [hb] at hmaxu
    exact .inl ⟨hmaxu, by simp⟩

variable (hdisj : ∀ q, q ≠ p → ∀ t ∈ ls q, t ∉ ls p)
include hdisj

/-- A further thread of a list, at either end. -/
theorem Coherent.insert_more {l : List ι} {f : Fifo ι} (hne : ls p ≠ [])
    (hl : l.Perm (x :: ls p)) (hf : f.Holds link' l)
    (hframe : ∀ y, y ≠ x → y ∉ ls p → link' y = link y)
    (hd : d' = ⟨d.npri, update d.q p ⟨f, (d.q p).sruncnt + 1⟩, d.qactmap, d.maxrunpri,
      d'.maxUnboundPri, d.nrunnable + 1⟩)
    (hmaxu : d'.maxUnboundPri = d.maxUnboundPri ∧ (bound x = false → (p : Int) ≤ d.maxUnboundPri) ∨
      d'.maxUnboundPri = max d.maxUnboundPri p) :
    Coherent d' link' bound (update ls p l) ∧ Puts d d' link link' ls p x (!bound x) := by
  have hle : (p : Int) ≤ d.maxrunpri := h.maxrun.le hne
  rw [← max_eq_left hle] at hd
  refine ⟨?_, by rw [hd], fun hb => ?_, hframe⟩
  · refine h.insert hp hl hf (fun q hqp t ht => ?_) hd (fun q => ?_) hmaxu
    · exact hframe t (fun heq => hnew q (heq ▸ ht)) (hdisj q hqp t ht)
    · by_cases hqp : q = p
      · subst hqp
        simp [(h.bit q).mpr hne]
      · simp [hqp]
  · rcases hmaxu with ⟨hm, hx⟩ | hm
    · have := hx (by simpa using hb)
      omega
    · exact hm

variable [DecidableEq ι]

theorem setbackdq_spec : ∃ d' link', d.setbackdq link x p (!bound x) = some (d', link') ∧
      Coherent d' link' bound (update ls p (ls p ++ [x])) ∧
      Puts d d' link link' ls p x (!bound x) := by
  unfold setbackdq
  dsimp only
  by_cases hne : ls p ≠ []
  · obtain ⟨e, he, hmem, hf⟩ := h.holds_concat (hnew p) hne
    rw [if_pos (h.sruncnt_ne.mpr hne), he]
    refine ⟨_, _, rfl, ?_⟩
    refine h.insert_more hp hnew hdisj hne (perm_append_singleton x (ls p)) hf
      (fun y hy hyl => ?_) ?_ ?_
    · have hye : y ≠ e := fun heq => hyl (heq ▸ hmem)
      dsimp only
      rw [update_of_ne hye, update_of_ne hy]
    all_goals cases hb : bound x
    all_goals try rfl
    · exact .inr (max_def_lt ..).symm
    · exact .inl ⟨rfl, by simp⟩
  · rw [if_neg fun hc => hne (h.sruncnt_ne.mp hc)]
    have hnil : ls p = [] := by simpa using hne
    refine ⟨_, _, rfl, ?_⟩
    rw [hnil]
    refine h.insert_first hp hnew hnil (update_self ..)
      (fun y hy => update_of_ne hy ..) ?_ ?_
    all_goals cases hb : bound x
    all_goals rfl

theorem setfrontdq_spec :
    Coherent (d.setfrontdq link x p (!bound x)).1 (d.setfrontdq link x p (!bound x)).2 bound
        (update ls p (x :: ls p)) ∧
      Puts d (d.setfrontdq link x p (!bound x)).1 link (d.setfrontdq link x p (!bound x)).2 ls p x
        (!bound x) := by
  unfold setfrontdq
  dsimp only
  by_cases hne : ls p ≠ []
  · rw [if_pos (h.sruncnt_ne.mpr hne)]
    refine h.insert_more hp hnew hdisj hne .rfl
      ((h.lists p).cons (hnew p) hne) (fun y hy _ => update_of_ne hy ..) ?_ ?_
    all_goals cases hb : bound x
    all_goals try rfl
    · exact .inr (max_def_lt ..).symm
    · exact .inl ⟨rfl, by simp⟩
  · rw [if_neg fun hc => hne (h.sruncnt_ne.mp hc)]
    have hnil : ls p = [] := by simpa using hne
    rw [hnil]
    refine h.insert_first hp hnew hnil (update_self ..)
      (fun y hy => update_of_ne hy ..) ?_ ?_
    all_goals cases hb : bound x
    all_goals rfl

/-- On the kp queue the two maxima are the same, so that the second one need not be
    looked at when the list is not empty. The link of the thread is null already. -/
theorem setkpdq_spec (back : Bool) (hkp : d.maxUnboundPri = d.maxrunpri) (hx : link x = none)
    (hb : bound x = false) : ∃ d' link', d.setkpdq link x p back = some (d', link') ∧
      Coherent d' link' bound (update ls p (if back then ls p ++ [x] else x :: ls p)) ∧
      Puts d d' link link' ls p x (!bound x) := by
  unfold setkpdq
  by_cases hne : ls p ≠ []
  · have hle : (p : Int) ≤ d.maxUnboundPri := hkp ▸ h.maxrun.le hne
    rw [if_pos (h.sruncnt_ne.mpr hne)]
    cases back with
    | true =>
      obtain ⟨e, he, hmem, hf⟩ := h.holds_concat (hnew p) hne
      rw [if_pos rfl, he]
      refine ⟨_, _, rfl, ?_⟩
      refine h.insert_more hp hnew hdisj hne (perm_append_singleton x (ls p)) hf
        (fun y hy hyl => ?_) rfl (.inl ⟨rfl, fun _ => hle⟩)
      have hye : y ≠ e := fun heq => hyl (heq ▸ hmem)
      rw [update_of_ne hye, update_of_ne hy]
    | false =>
      refine ⟨_, _, rfl, ?_⟩
      exact h.insert_more hp hnew hdisj hne .rfl
        ((h.lists p).cons (hnew p) hne) (fun y hy _ => update_of_ne hy ..) rfl
        (.inl ⟨rfl, fun _ => hle⟩)
  · rw [if_neg fun hc => hne (h.sruncnt_ne.mp hc)]
    have hnil : ls p = [] := by simpa using hne
    refine ⟨_, _, rfl, ?_⟩
    have hlist : (if back then ls p ++ [x] else x :: ls p) = [x] := by
      rw [hnil]
      exact ite_self _
    rw [hlist]
    refine h.insert_first hp hnew hnil ?_ (fun y hy => ?_) rfl ?_
    · split
      · exact hx
      · exact update_self ..
    · split
      · rfl
      · exact update_of_ne hy ..
    · rw [if_pos hb]
      rfl

end

/-! ### Taking a thread off -/

section

/-- What taking a thread off does to the rest. -/
structure Takes (d d' : Disp ι lp64) (link link' : ι → Option ι) (ls : Nat → List ι) (p : Nat)
    (x : ι) : Prop where
  maxrun : d'.maxrunpri ≤ d.maxrunpri
  maxUnbound : d'.maxUnboundPri = min d.maxUnboundPri d'.maxrunpri
  self : link' x = none
  links : ∀ y, y ∉ ls p → link' y = link y

theorem update_nil {q : Nat} (hnil : ls q = []) : update ls p [] q = [] := by
  rw [update_apply, hnil, ite_self]

variable (h : Coherent d link bound ls)
include h

/-- The lists that are not empty when a list has lost its only thread. -/
theorem Coherent.active_cleared (q : Nat) :
    active (btClear d.qactmap p) q = true ↔ update ls p [] q ≠ [] := by
  rw [active_btClear, Bool.and_eq_true, Bool.not_eq_true', h.bit]
  by_cases hqp : q = p
  · simp [hqp]
  · simp [hqp]

/-- The highest priority is found again in the bitmap, from the word of the old one
    down. -/
theorem Coherent.highest_cleared (hp : (p : Int) = d.maxrunpri) :
    Highest (btGethighbit (btClear d.qactmap p) (p >>> btUlshift lp64)) fun q =>
      update ls p [] q ≠ [] := by
  refine (btGethighbit_spec _ _).congr fun q => ?_
  rw [h.active_cleared, shiftRight_btUlshift]
  refine ⟨fun hq => ⟨Nat.div_le_div_right ?_, hq⟩, fun hq => hq.2⟩
  have hle : (q : Int) ≤ d.maxrunpri := h.maxrun.le fun hnil => hq (update_nil hnil)
  omega

/-- No list has a thread if the count is zero. -/
theorem Coherent.highest_none (hp : ls p = [x])
    (hrun : d.nrunnable - 1 = 0) : Highest (-1) fun q => update ls p [] q ≠ [] := by
  refine .inl ⟨rfl, fun q hq => hq ?_⟩
  have hsum := sum_update ls (h.lt_npri (p := p) (by simp [hp])) []
  rw [hp, ← h.total] at hsum
  simp only [length_cons, length_nil] at hsum
  by_cases hqn : q < d.npri
  · have hzero : ∑ i ∈ Finset.range d.npri, (update ls p [] i).length = 0 := by omega
    have := Finset.sum_eq_zero_iff.mp hzero q (Finset.mem_range.mpr hqn)
    exact length_eq_zero_iff.mp this
  · exact update_nil (h.range q (by omega))

/-- The list of a lower priority has lost its only thread. -/
theorem Coherent.highest_kept (hl : ls p = [x])
    (hp : (p : Int) ≠ d.maxrunpri) : Highest d.maxrunpri fun q => update ls p [] q ≠ [] := by
  rcases h.maxrun with ⟨-, hno⟩ | ⟨m, hm, hne, hmost⟩
  · refine absurd (hno p) ?_
    simp [hl]
  have hmp : m ≠ p := by
    rintro rfl
    exact hp hm.symm
  refine .inr ⟨m, hm, ?_, fun q hq => hmost q fun hnil => hq ?_⟩
  · dsimp only
    rw [update_of_ne hmp]
    exact hne
  · exact update_nil hnil

variable (hdisj : ∀ q, q ≠ p → ∀ t ∈ ls q, t ∉ ls p)
include hdisj

/-- The part of the two removals that is about a list that is not empty yet. -/
theorem Coherent.remove_more {f : Fifo ι} (hl : (x :: l).Perm (ls p))
    (hne : l ≠ []) (hf : f.Holds link' l) (hx : link' x = none)
    (hframe : ∀ y, y ∉ ls p → link' y = link y)
    (hd : d' = ⟨d.npri, update d.q p ⟨f, (d.q p).sruncnt - 1⟩, d.qactmap, d.maxrunpri,
      d.maxUnboundPri, d.nrunnable - 1⟩) :
    Coherent d' link' bound (update ls p l) ∧ Takes d d' link link' ls p x := by
  have hsame : ∀ q, update ls p l q ≠ [] ↔ ls q ≠ [] := by
    intro q
    by_cases hqp : q = p
    · subst hqp
      rw [update_self]
      exact iff_of_true hne (ne_nil_of_mem (hl.mem_iff.mp mem_cons_self))
    · rw [update_of_ne hqp]
  have hmin := (min_eq_left h.unboundLe).symm
  subst hd
  refine ⟨?_, le_rfl, hmin, hx, hframe⟩
  refine h.remove hl hf (fun q hqp t ht => hframe t (hdisj q hqp t ht)) rfl (fun q => ?_) ?_ hmin
  · rw [h.bit, hsame]
  · exact h.maxrun.congr hsame

/-- The part of the two removals that is about the last thread of a list. -/
theorem Coherent.remove_last {m : Int} (hl : ls p = [x])
    (hx : link' x = none) (hframe : ∀ y, y ∉ ls p → link' y = link y)
    (hd : d' = ⟨d.npri, update d.q p ⟨⟨none, none⟩, (d.q p).sruncnt - 1⟩, btClear d.qactmap p, m,
      d'.maxUnboundPri, d.nrunnable - 1⟩)
    (hhigh : Highest m fun q => update ls p [] q ≠ [])
    (hmaxu : d'.maxUnboundPri = min d.maxUnboundPri m) :
    Coherent d' link' bound (update ls p []) ∧ Takes d d' link link' ls p x := by
  have hle : m ≤ d.maxrunpri := by
    rcases hhigh with ⟨hm, -⟩ | ⟨q, hm, hq', -⟩
    · rw [hm]
      exact h.maxrun.ge
    · rw [hm]
      exact h.maxrun.le fun hnil => hq' (update_nil hnil)
  refine ⟨?_, by rw [hd]; exact hle, by rw [hmaxu, hd], hx, hframe⟩
  exact h.remove (by rw [hl]) (Fifo.holds_nil link')
    (fun q hqp t ht => hframe t (hdisj q hqp t ht)) hd h.active_cleared hhigh hmaxu

variable [DecidableEq ι]

/-- `dispdeq` finds a thread that is on the queue and takes it off. -/
theorem dispdeq_spec (hl : ls p = a ++ x :: b) : ∃ d' link', d.dispdeq link x p = some (d', link') ∧
      Coherent d' link' bound (update ls p (a ++ b)) ∧ Takes d d' link link' ls p x := by
  have hlist := h.lists p
  rw [hl] at hlist
  have hxa : x ∉ a := fun hmem =>
    (nodup_append.mp hlist.nodup).2.2 x hmem x mem_cons_self rfl
  have hcnt := h.runcnt p
  rw [hl, length_append, length_cons] at hcnt
  unfold dispdeq store
  dsimp only
  rw [findPrev_spec hlist.fwd hxa (by omega), or_none, map_some]
  have hself : ((d.q p).toFifo.unlink link a.getLast? x).2 x = none := Fifo.unlink_link_self _
  have hframe : ∀ y, y ∉ ls p → ((d.q p).toFifo.unlink link a.getLast? x).2 y = link y := by
    intro y hy
    rw [hl] at hy
    exact Fifo.unlink_link_of_not_mem hy
  by_cases hzero : (d.q p).sruncnt - 1 = 0
  · -- The list is empty now, and the maxima may have to be lowered.
    have hnil : a ++ b = [] := length_eq_zero_iff.mp (by rw [length_append]; omega)
    obtain ⟨rfl, rfl⟩ := append_eq_nil_iff.mp hnil
    have hunlink : ((d.q p).toFifo.unlink link ([] : List ι).getLast? x).1 = ⟨none, none⟩ := by
      have hnext : link x = none := Fifo.Holds.link_eq hlist
      unfold Fifo.unlink
      rw [hnext]
      rfl
    have hge := h.unboundGe
    rw [if_pos hzero, hunlink]
    by_cases hrun : d.nrunnable - 1 = 0
    · rw [if_pos hrun]
      refine ⟨_, _, rfl, h.remove_last hdisj hl hself hframe rfl
        (h.highest_none hl hrun) ?_⟩
      dsimp only
      omega
    · rw [if_neg hrun]
      by_cases hmax : (p : Int) = d.maxrunpri
      · rw [if_pos hmax]
        refine ⟨_, _, rfl, h.remove_last hdisj hl hself hframe rfl ?_ ?_⟩
        · have hnat : d.maxrunpri.toNat = p := by omega
          have hhigh := h.highest_cleared hmax
          rw [← hnat] at hhigh ⊢
          exact hhigh
        · exact (min_def_lt' ..).symm
      · rw [if_neg hmax]
        have hle := h.unboundLe
        refine ⟨_, _, rfl, h.remove_last hdisj hl hself hframe rfl (h.highest_kept hl hmax) ?_⟩
        dsimp only
        omega
  · rw [if_neg hzero]
    have hne : a ++ b ≠ [] := fun hnil => hzero (by
      have := congrArg List.length hnil
      rw [length_append, length_nil] at this
      omega)
    refine ⟨_, _, rfl, h.remove_more hdisj ?_ hne hlist.unlink hself hframe rfl⟩
    rw [hl]
    exact perm_middle.symm

/-- `disp` takes off the first thread of the highest priority. -/
theorem disp_spec (hl : ls p = x :: b) (hp : d.maxrunpri = p) :
    ∃ d' link', d.disp link = some (d', link', some x) ∧
      Coherent d' link' bound (update ls p b) ∧ Takes d d' link link' ls p x := by
  have hlist := h.lists p
  rw [hl] at hlist
  have hnext : link x = b.head? := Fifo.Holds.link_eq (a := []) hlist
  have hfirst : (d.q p).first = some x := hlist.first_eq
  unfold disp store
  rw [if_neg (by omega)]
  dsimp only
  have hnat : d.maxrunpri.toNat = p := by omega
  rw [hnat, hfirst, map_some]
  cases b with
  | nil =>
    rw [head?_nil] at hnext
    rw [if_pos hnext]
    have hge := h.unboundGe
    by_cases hrun : d.nrunnable - 1 = 0
    · rw [if_pos hrun]
      refine ⟨_, _, rfl, h.remove_last hdisj hl hnext (fun _ _ => rfl) rfl
        (h.highest_none hl hrun) ?_⟩
      dsimp only
      omega
    · rw [if_neg hrun]
      exact ⟨_, _, rfl, h.remove_last hdisj hl hnext (fun _ _ => rfl) rfl
        (h.highest_cleared hp.symm) (min_def_lt' ..).symm⟩
  | cons c b =>
    rw [if_neg (by rw [hnext]; simp)]
    have hunlink := Fifo.Holds.unlink (a := []) hlist
    refine ⟨_, _, rfl, h.remove_more hdisj (by rw [hl]) (cons_ne_nil c b) ?_ (update_self ..)
      (fun y hy => ?_) rfl⟩
    · unfold Fifo.unlink at hunlink
      rw [if_neg (by rw [hnext]; simp)] at hunlink
      exact hunlink
    · have hne : y ≠ x := fun heq => hy (by rw [hl, heq]; exact mem_cons_self)
      exact update_of_ne hne ..

end

/-! ### The search for an unbound thread -/

theorem firstUnbound_spec (h : Coherent d link bound ls) (p : Nat) :
    d.firstUnbound link bound p = some ((ls p).find? fun t => !bound t) := by
  refine scan_spec (h.lists p).fwd ?_
  rw [h.runcnt]
  omega

/-- The loop finds the highest priority below a given one that has an unbound
    thread. -/
theorem fixLoop_spec (h : Coherent d link bound ls) {n p : Nat} (hn : p < n) :
    ∃ m, d.fixLoop link bound n p = some m ∧
      Highest m fun q => q < p ∧ ∃ t ∈ ls q, bound t = false := by
  induction n generalizing p with
  | zero => omega
  | succ n ih =>
    have hnext := nextLower_spec d.qactmap p
    -- A priority with an unbound thread is an active one.
    have hact : ∀ q, (∃ t ∈ ls q, bound t = false) → active d.qactmap q = true := by
      rintro q ⟨t, ht, -⟩
      exact (h.bit q).mpr (ne_nil_of_mem ht)
    unfold fixLoop
    rcases hnext with ⟨hm, hno⟩ | ⟨m, hm, ⟨hlt, hm'⟩, hmost⟩
    · rw [hm]
      exact ⟨-1, rfl, .inl ⟨rfl, fun q hq => hno q ⟨hq.1, hact q hq.2⟩⟩⟩
    rw [hm, if_neg (by omega), Int.toNat_natCast, firstUnbound_spec h]
    cases hfind : (ls m).find? fun t => !bound t with
    | none =>
      rw [find?_eq_none] at hfind
      obtain ⟨m', hloop, hhigh⟩ := ih (p := m) (by omega)
      refine ⟨m', hloop, hhigh.congr fun q => ⟨fun hq => ⟨?_, hq.2⟩, fun hq => ⟨?_, hq.2⟩⟩⟩
      · refine lt_of_le_of_ne (hmost q ⟨hq.1, hact q hq.2⟩) ?_
        rintro rfl
        obtain ⟨t, ht, hb⟩ := hq.2
        exact hfind t ht (by simp [hb])
      · exact hq.1.trans hlt
    | some t =>
      refine ⟨m, rfl, .inr ⟨m, rfl, ⟨hlt, t, mem_of_find?_eq_some hfind, ?_⟩, ?_⟩⟩
      · simpa using find?_some hfind
      · intro q hq
        exact hmost q ⟨hq.1, hact q hq.2⟩

end Sol7.Dispatcher
