import Sol7.Dispatcher.Coherent

/-!
# All Dispatch Queues

Threads are put on the queues of processors and partitions and taken off again in
any order. A thread is on the list that its record names and on no other one, so
that a change of one list leaves the links of all other lists alone.

## Main definitions

* `Inv`: Every queue is coherent, and a thread is where its record says.

## Theorems

* `Inv.commit`: A change of one list.
* `Inv.setback`, `Inv.setfront`, `Inv.setkpdq`: Putting a thread on a queue.
* `Inv.dispdeq`, `Inv.disp`, `Inv.dispGetbest`: Taking a thread off.
* `dispatch_queues_coherent`: Every state of every run.
-/

namespace Sol7.Dispatcher

open List Option Function

variable {ι κ π : Type} {lp64 : Bool}

/-- Every queue is coherent, and a thread is where its record says. -/
structure Inv (w : World ι κ π lp64) (ls : Qid κ π → Nat → List ι) : Prop where
  coherent : ∀ k, Coherent (w.queue k) w.link w.bound (ls k)
  mem : ∀ k p t, t ∈ ls k p ↔
    w.onQueue t = true ∧ (w.thread t).dispQueue = k ∧ (w.thread t).prio = p
  free : ∀ t, w.onQueue t = false → w.link t = none
  kp : ∀ part, (w.queue (.kp part)).maxUnboundPri = (w.queue (.kp part)).maxrunpri
  kpUnbound : ∀ part p, ∀ t ∈ ls (.kp part) p, w.bound t = false

section

open World (onQueue bound)

variable {w : World ι κ π lp64}
  {ls : Qid κ π → Nat → List ι} {k : Qid κ π} {p : Nat} {x : ι} {l : List ι} {d' : Disp ι lp64}
  {link' : ι → Option ι} {t' : Thread κ π}

theorem Inv.unique (h : Inv w ls) {k' : Qid κ π} {p' : Nat} (hx : x ∈ ls k p) (hx' : x ∈ ls k' p') :
    k' = k ∧ p' = p := by
  have h1 := (h.mem k p x).mp hx
  have h2 := (h.mem k' p' x).mp hx'
  exact ⟨h2.2.1.symm.trans h1.2.1, h2.2.2.symm.trans h1.2.2⟩

theorem Inv.disjoint (h : Inv w ls) (q : Nat) (hq : q ≠ p) (t : ι) (ht : t ∈ ls k q) : t ∉ ls k p :=
  fun ht' => hq (h.unique ht' ht).2

theorem onQueue_of_not_run (h : (w.thread x).run = false) : w.onQueue x = false := by
  unfold onQueue
  rw [h]
  rfl

/-- A thread that is not on a queue is on no list. -/
theorem Inv.not_mem (h : Inv w ls) (hoff : w.onQueue x = false) (k : Qid κ π) (p : Nat) :
    x ∉ ls k p := by
  intro hx
  rw [((h.mem k p x).mp hx).1] at hoff
  cases hoff

theorem isNone_eq_not_bound (x : ι) : (w.thread x).boundCpu.isNone = !w.bound x := by
  unfold bound
  cases (w.thread x).boundCpu with
  | none => rfl
  | some c => rfl

/-- A routine that puts a thread on a queue keeps the invariant if it returns, and
    it returns if the priority is one of the queue. -/
def Enqueues (w : World ι κ π lp64) (x : ι) (r : Option (World ι κ π lp64)) : Prop :=
  (∀ w', r = some w' → ∃ ls', Inv w' ls') ∧
    ((∀ k, (w.thread x).prio < (w.queue k).npri) → r.isSome = true)

theorem enqueues_of {r : Option (World ι κ π lp64)} {k : Qid κ π}
    (hsome : (w.thread x).prio < (w.queue k).npri → ∃ w', r = some w' ∧ ∃ ls', Inv w' ls')
    (hnone : ¬(w.thread x).prio < (w.queue k).npri → r = none) : Enqueues w x r := by
  refine ⟨fun w' hr => ?_, fun hp => ?_⟩
  · by_cases hp : (w.thread x).prio < (w.queue k).npri
    · obtain ⟨w'', hr', hinv⟩ := hsome hp
      rw [hr'] at hr
      exact some.inj hr ▸ hinv
    · rw [hnone hp] at hr
      cases hr
  · obtain ⟨w', hr, -⟩ := hsome (hp k)
    rw [hr]
    rfl

theorem Initial.inv (h : Initial w) : Inv w fun _ _ => [] := by
  refine ⟨fun k => ?_, fun k p t => ?_, fun t _ => h.link t, fun part => ?_, by simp⟩
  · refine ⟨fun p => ?_, fun p => ?_, fun _ _ => rfl, ?_, fun p => ?_, .inl ⟨h.maxrunpri k, by simp⟩,
      ?_, ?_, by simp⟩
    · rw [h.q]
      exact Fifo.holds_nil w.link
    · rw [h.q]
      rfl
    · rw [h.nrunnable]
      simp
    · unfold active
      rw [h.qactmap]
      simp
    · rw [h.maxrunpri, h.maxUnboundPri]
    · rw [h.maxUnboundPri]
  · simp [h.off t]
  · rw [h.maxrunpri, h.maxUnboundPri]

variable [DecidableEq ι] [DecidableEq κ] [DecidableEq π]

@[simp] theorem commit_queue (k' : Qid κ π) :
    (w.commit k d' link' x t').queue k' = update w.queue k d' k' :=
  rfl

@[simp] theorem commit_thread (y : ι) :
    (w.commit k d' link' x t').thread y = update w.thread x t' y :=
  rfl

@[simp] theorem commit_link : (w.commit k d' link' x t').link = link' := rfl

omit [DecidableEq ι] in
theorem update_update (k' : Qid κ π) (p' : Nat) :
    update ls k (update (ls k) p l) k' p' = if k' = k ∧ p' = p then l else ls k' p' := by
  by_cases hk : k' = k
  · subst hk
    simp [update_apply]
  · simp [hk]

/-- The list of one priority of one queue changes by one thread. -/
theorem Inv.commit (h : Inv w ls) (hc : Coherent d' link' w.bound (update (ls k) p l))
    (hbound : t'.boundCpu = (w.thread x).boundCpu) (hmem : ∀ y, y ≠ x → (y ∈ l ↔ y ∈ ls k p))
    (hx : ∀ k' p', x ∈ update ls k (update (ls k) p l) k' p' ↔
      (t'.run && t'.loaded) = true ∧ t'.dispQueue = k' ∧ t'.prio = p')
    (hother : ∀ k', k' ≠ k → ∀ p', x ∉ ls k' p')
    (hlinks : ∀ y, y ≠ x → y ∉ ls k p → link' y = w.link y)
    (hself : (t'.run && t'.loaded) = false → link' x = none)
    (hkp : ∀ part, k = .kp part → d'.maxUnboundPri = d'.maxrunpri ∧ (x ∈ l → t'.boundCpu = none)) :
    Inv (w.commit k d' link' x t') (update ls k (update (ls k) p l)) := by
  have hbound' : (w.commit k d' link' x t').bound = w.bound := by
    funext y
    by_cases hy : y = x
    · subst hy
      unfold bound
      rw [commit_thread, update_self, hbound]
    · unfold bound
      rw [commit_thread, update_of_ne hy]
  have hthread : ∀ y, y ≠ x → (w.commit k d' link' x t').thread y = w.thread y :=
    fun y hy => update_of_ne hy ..
  have hthreadx : (w.commit k d' link' x t').thread x = t' := update_self ..
  have honq : ∀ y, y ≠ x → (w.commit k d' link' x t').onQueue y = w.onQueue y := by
    intro y hy
    unfold onQueue
    rw [hthread y hy]
  have honqx : (w.commit k d' link' x t').onQueue x = (t'.run && t'.loaded) := by
    unfold onQueue
    rw [hthreadx]
  refine ⟨fun k' => ?_, fun k' p' y => ?_, fun y hy => ?_, fun part => ?_, fun part p' y hy => ?_⟩
  · rw [hbound']
    by_cases hk : k' = k
    · subst hk
      rw [commit_queue, commit_link, update_self, update_self]
      exact hc
    · rw [commit_queue, commit_link, update_of_ne hk, update_of_ne hk]
      -- The threads of another queue are not on the list that changes.
      refine (h.coherent k').congr (fun q t ht => hlinks t ?_ ?_) fun _ _ _ => rfl
      · exact fun heq => hother k' hk q (heq ▸ ht)
      · exact fun ht' => hk (h.unique ht' ht).1
  · by_cases hy : y = x
    · subst hy
      rw [hx, honqx, hthreadx]
    · rw [honq y hy, hthread y hy, ← h.mem k' p' y, update_update]
      split_ifs with heq
      · rw [heq.1, heq.2]
        exact hmem y hy
      · rfl
  · by_cases hyx : y = x
    · subst hyx
      exact hself (honqx ▸ hy)
    · rw [honq y hyx] at hy
      refine (hlinks y hyx fun hmem' => ?_).trans (h.free y hy)
      rw [((h.mem k p y).mp hmem').1] at hy
      cases hy
  · by_cases hk : Qid.kp part = k
    · subst hk
      rw [commit_queue, update_self]
      exact (hkp part rfl).1
    · rw [commit_queue, update_of_ne hk]
      exact h.kp part
  · rw [hbound']
    rw [update_update] at hy
    split_ifs at hy with heq
    · obtain ⟨rfl, rfl⟩ := heq
      by_cases hyx : y = x
      · subst hyx
        have hnone := (hkp part rfl).2 hy
        unfold bound
        rw [← hbound, hnone]
        rfl
      · exact h.kpUnbound part p' y ((hmem y hyx).mp hy)
    · exact h.kpUnbound part p' y hy

theorem Inv.enqueued (h : Inv w ls) (hoff : (w.thread x).run = false)
    (hload : (w.thread x).loaded = true) (hl : l.Perm (x :: ls k (w.thread x).prio))
    (hc : Coherent d' link' w.bound (update (ls k) (w.thread x).prio l))
    (hputs : Puts (w.queue k) d' w.link link' (ls k) (w.thread x).prio x (!w.bound x))
    (hkp : ∀ part, k = .kp part → w.bound x = false) : Inv (w.enqueued k x (d', link'))
      (update ls k (update (ls k) (w.thread x).prio l)) := by
  have hnew := h.not_mem (onQueue_of_not_run hoff)
  refine h.commit hc rfl (fun y hy => ?_) (fun k' p' => ?_) (fun k' _ p' => hnew k' p')
    hputs.links (fun hrun => ?_) fun part hk => ⟨?_, fun _ => ?_⟩
  · rw [hl.mem_iff, mem_cons]
    exact or_iff_right hy
  · rw [hload, Bool.and_true, eq_self_iff_true, true_and, update_update]
    split_ifs with heq
    · simp [hl.mem_iff, heq]
    · exact iff_of_false (hnew k' p') fun hx => heq ⟨hx.1.symm, hx.2.symm⟩
  · rw [hload] at hrun
    cases hrun
  · have hb := hkp part hk
    rw [hputs.maxUnbound (by simp [hb]), hputs.maxrun, hk, h.kp part]
  · have hb := hkp part hk
    unfold bound at hb
    simpa using hb

theorem Inv.dequeued (h : Inv w ls) (hmem : x ∈ ls k p) (hl : (x :: l).Perm (ls k p))
    (hc : Coherent d' link' w.bound (update (ls k) p l))
    (htakes : Takes (w.queue k) d' w.link link' (ls k) p x) :
    Inv (w.commit k d' link' x { w.thread x with run := false })
      (update ls k (update (ls k) p l)) := by
  have hnd : x ∉ l := by
    have := hl.nodup_iff.mpr ((h.coherent k).lists p).nodup
    exact (nodup_cons.mp this).1
  refine h.commit hc rfl (fun y hy => ?_) (fun k' p' => ?_) (fun k' hk p' hx => ?_)
    (fun y _ hy => htakes.links y hy) (fun _ => htakes.self) fun part hk => ⟨?_, fun hx => ?_⟩
  · rw [← hl.mem_iff, mem_cons]
    exact (or_iff_right hy).symm
  · refine iff_of_false (fun hx => ?_) (by simp)
    rw [update_update] at hx
    split_ifs at hx with heq
    · exact hnd hx
    · exact heq (h.unique hmem hx)
  · exact hk (h.unique hmem hx).1
  · have hkp := h.kp part
    rw [← hk] at hkp
    rw [htakes.maxUnbound, hkp]
    exact Int.min_eq_right htakes.maxrun
  · exact absurd hx hnd

omit [DecidableEq κ] [DecidableEq π] in
/-- The record of a thread that is not on a queue changes. -/
theorem Inv.record (h : Inv w ls) (hoff : w.onQueue x = false)
    (hoff' : (t'.run && t'.loaded) = false) : Inv { w with thread := update w.thread x t' } ls := by
  have hnew := h.not_mem hoff
  have hthread : ∀ y, y ≠ x → update w.thread x t' y = w.thread y := fun y hy => update_of_ne hy ..
  have hmem : ∀ k p t, t ∈ ls k p → t ≠ x := fun k p t ht heq => hnew k p (heq ▸ ht)
  refine ⟨fun k => ?_, fun k p y => ?_, fun y hy => ?_, h.kp, fun part p y hy => ?_⟩
  · refine (h.coherent k).congr (fun _ _ _ => rfl) fun p t ht => ?_
    unfold bound
    dsimp only
    rw [hthread t (hmem k p t ht)]
  · by_cases hyx : y = x
    · subst hyx
      refine iff_of_false (hnew k p) ?_
      unfold onQueue
      dsimp only
      rw [update_self, hoff']
      simp
    · unfold onQueue
      dsimp only
      rw [hthread y hyx]
      exact h.mem k p y
  · by_cases hyx : y = x
    · subst hyx
      exact h.free y hoff
    · unfold onQueue at hy
      dsimp only at hy
      rw [hthread y hyx] at hy
      exact h.free y hy
  · have := h.kpUnbound part p y hy
    unfold bound at this ⊢
    dsimp only
    rw [hthread y (hmem _ _ y hy)]
    exact this

/-! ### Putting a thread on a queue -/

section
variable (h : Inv w ls) (hoff : (w.thread x).run = false)
include h hoff

theorem Inv.setback (hload : (w.thread x).loaded = true) (cp : κ)
    (hp : (w.thread x).prio < (w.queue (.cpu cp)).npri) :
    ∃ w', w.setback x cp = some w' ∧ ∃ ls', Inv w' ls' := by
  have hnew := h.not_mem (onQueue_of_not_run hoff)
  obtain ⟨d', link', heq, hc, hputs⟩ := setbackdq_spec (h.coherent (.cpu cp)) hp (hnew _) h.disjoint
  unfold World.setback
  rw [if_pos hp, isNone_eq_not_bound, heq]
  exact ⟨_, rfl, _, h.enqueued hoff hload (perm_append_singleton x _) hc hputs
    nofun⟩

theorem Inv.setfront (hload : (w.thread x).loaded = true) (cp : κ)
    (hp : (w.thread x).prio < (w.queue (.cpu cp)).npri) :
    ∃ w', w.setfront x cp = some w' ∧ ∃ ls', Inv w' ls' := by
  have hnew := h.not_mem (onQueue_of_not_run hoff)
  obtain ⟨hc, hputs⟩ := setfrontdq_spec (h.coherent (.cpu cp)) hp (hnew _) h.disjoint
  unfold World.setfront
  rw [if_pos hp, isNone_eq_not_bound]
  exact ⟨_, rfl, _, h.enqueued hoff hload .rfl hc hputs nofun⟩

theorem Inv.setkpdq (back : Bool) (hload : (w.thread x).loaded = true)
    (hb : (w.thread x).boundCpu = none)
    (hp : (w.thread x).prio < (w.queue (.kp (w.thread x).cpupart)).npri) :
    ∃ w', w.setkpdq x back = some w' ∧ ∃ ls', Inv w' ls' := by
  have hoff' := onQueue_of_not_run hoff
  have hbound : w.bound x = false := by
    unfold bound
    rw [hb]
    rfl
  rcases setkpdq_spec (h.coherent (.kp (w.thread x).cpupart)) hp (h.not_mem hoff' _) h.disjoint
    back (h.kp _) (h.free x hoff') hbound with ⟨d', link', heq, hc, hputs⟩
  unfold World.setkpdq
  rw [if_pos hp, heq]
  refine ⟨_, rfl, _, h.enqueued hoff hload ?_ hc hputs fun _ _ => hbound⟩
  cases back with
  | true => exact perm_append_singleton x _
  | false => exact .rfl

omit [DecidableEq κ] [DecidableEq π] in
/-- Whatever queue is chosen, the thread is put on it. -/
theorem Inv.choose {ncpus kpqpri : Nat} {cp : κ} {onCpu : κ → Option (World ι κ π lp64)}
    {onKp : Option (World ι κ π lp64)}
    (hcpu : (w.thread x).loaded = true → ∀ c, Enqueues w x (onCpu c))
    (hkp : (w.thread x).loaded = true → (w.thread x).boundCpu = none → Enqueues w x onKp) :
    Enqueues w x (w.choose ncpus kpqpri x cp onCpu onKp) := by
  unfold World.choose
  dsimp only
  split
  · next hload =>
    split
    · exact hcpu hload cp
    split
    · next c _ => exact hcpu hload c
    · next hb =>
      split
      · exact hkp hload hb
      · exact hcpu hload cp
  · next hload =>
    refine ⟨fun w' heq => ⟨ls, some.inj heq ▸ h.record (onQueue_of_not_run hoff) ?_⟩, fun _ => rfl⟩
    simpa using hload

theorem Inv.setbackdq (ncpus kpqpri : Nat) (cp : κ) :
    Enqueues w x (w.setbackdq ncpus kpqpri x cp) := by
  refine h.choose hoff (fun hload c => ?_) (fun hload hb => ?_)
  · exact enqueues_of (h.setback hoff hload c) fun hp => if_neg hp
  · exact enqueues_of (h.setkpdq hoff true hload hb) fun hp => if_neg hp

theorem Inv.setfrontdq (ncpus kpqpri : Nat) (cp : κ) :
    Enqueues w x (w.setfrontdq ncpus kpqpri x cp) := by
  refine h.choose hoff (fun hload c => ?_) (fun hload hb => ?_)
  · exact enqueues_of (h.setfront hoff hload c) fun hp => if_neg hp
  · exact enqueues_of (h.setkpdq hoff false hload hb) fun hp => if_neg hp

end

/-! ### Taking a thread off a queue -/

/-- A thread that is on a queue is found. -/
theorem Inv.dispdeq (h : Inv w ls) (x : ι) :
    ∃ w', w.dispdeq x = some w' ∧ (∃ ls', Inv w' ls') ∧ w'.onQueue x = false := by
  unfold World.dispdeq
  by_cases hrun : (w.thread x).run = true
  · by_cases hload : (w.thread x).loaded = true
    · have hmem : x ∈ ls (w.thread x).dispQueue (w.thread x).prio := by
        refine (h.mem _ _ x).mpr ⟨?_, rfl, rfl⟩
        unfold onQueue
        rw [hrun, hload]
        rfl
      obtain ⟨a, b, hl⟩ := append_of_mem hmem
      obtain ⟨d', link', heq, hc, htakes⟩ := dispdeq_spec (h.coherent _) h.disjoint hl
      rw [if_pos hrun, if_pos hload, heq]
      refine ⟨_, rfl, ⟨_, h.dequeued hmem ?_ hc htakes⟩, ?_⟩
      · rw [hl]
        exact perm_middle.symm
      · unfold onQueue
        rw [commit_thread, update_self]
        rfl
    · rw [if_pos hrun, if_neg hload]
      refine ⟨w, rfl, ⟨ls, h⟩, ?_⟩
      unfold onQueue
      simp [hload]
  · rw [if_neg hrun]
    refine ⟨w, rfl, ⟨ls, h⟩, ?_⟩
    unfold onQueue
    simp [hrun]

/-- `disp` takes the first thread of the highest priority. -/
theorem Inv.disp (h : Inv w ls) (k : Qid κ π) :
    ∃ w' r, w.disp k = some (w', r) ∧ (∃ ls', Inv w' ls') ∧
      ((∀ p, ls k p = []) ∧ r = none ∨
        ∃ p x, r = some x ∧ (ls k p).head? = some x ∧ ∀ q, ls k q ≠ [] → q ≤ p) := by
  unfold World.disp
  rcases (h.coherent k).maxrun with ⟨hm, hno⟩ | ⟨p, hm, hne, hmost⟩
  · have hdisp : (w.queue k).disp w.link = some (w.queue k, w.link, none) := if_pos hm
    rw [hdisp]
    exact ⟨w, none, rfl, ⟨ls, h⟩, .inl ⟨fun p => by simpa using hno p, rfl⟩⟩
  obtain ⟨x, b, hl⟩ := exists_cons_of_ne_nil hne
  obtain ⟨d', link', heq, hc, htakes⟩ := disp_spec (h.coherent k) h.disjoint hl hm
  rw [heq]
  have hmem : x ∈ ls k p := hl ▸ mem_cons_self
  refine ⟨_, some x, rfl, ⟨_, h.dequeued hmem (hl ▸ .rfl) hc htakes⟩, .inr ?_⟩
  exact ⟨p, x, rfl, by rw [hl, head?_cons], hmost⟩

/-- `disp_getbest` takes an unbound thread of the highest priority that has one,
    unless its bound was too high and is lowered. -/
theorem Inv.dispGetbest (h : Inv w ls) (k : Qid κ π) (cp : κ) :
    ∃ w' r, w.dispGetbest k cp = some (w', r) ∧ (∃ ls', Inv w' ls') ∧ match r with
      | some x => ∃ p, (ls k p).find? (fun t => !w.bound t) = some x ∧
          ∀ q, ∀ t ∈ ls k q, w.bound t = false → q ≤ p
      | none => (∀ q, ∀ t ∈ ls k q, w.bound t = true) ∨
          (w'.queue k).maxUnboundPri < (w.queue k).maxUnboundPri := by
  have hc := h.coherent k
  unfold World.dispGetbest
  by_cases hnone : (w.queue k).maxUnboundPri = -1
  · rw [if_pos hnone]
    refine ⟨w, none, rfl, ⟨ls, h⟩, .inl fun q t ht => ?_⟩
    by_contra hb
    have := hc.unbound q t ht (by simpa using hb)
    omega
  rw [if_neg hnone, firstUnbound_spec hc]
  have hge := hc.unboundGe
  obtain ⟨p, hp⟩ : ∃ p : Nat, (w.queue k).maxUnboundPri = p :=
    ⟨(w.queue k).maxUnboundPri.toNat, by omega⟩
  rw [hp, Int.toNat_natCast]
  cases hfind : (ls k p).find? fun t => !w.bound t with
  | none =>
    -- There is no unbound thread at the bound, so it can be lowered.
    obtain ⟨m, hloop, hhigh⟩ := fixLoop_spec hc (Nat.lt_succ_self p)
    have hlt : m < p := by
      rcases hhigh with ⟨rfl, -⟩ | ⟨q, rfl, hq, -⟩
      · omega
      · exact Int.ofNat_lt.mpr hq.1
    have hfix : (w.queue k).dispFixUnboundPri w.link w.bound p =
        some { w.queue k with maxUnboundPri := m } := by
      unfold Disp.dispFixUnboundPri
      rw [hloop, map_some]
    rw [hfix, map_some]
    refine ⟨_, none, rfl, ⟨ls, ?_⟩, .inr ?_⟩
    · rw [find?_eq_none] at hfind
      have hle := hc.unboundLe
      have hcoh : Coherent { w.queue k with maxUnboundPri := m } w.link w.bound (ls k) := by
        refine { hc with
          unboundLe := ?_, unboundGe := hhigh.ge, unbound := fun q t ht hb => ?_ }
        · change m ≤ (w.queue k).maxrunpri
          omega
        refine hhigh.le ⟨?_, t, ht, hb⟩
        have hqp := hc.unbound q t ht hb
        refine lt_of_le_of_ne (by omega) ?_
        rintro rfl
        exact hfind t ht (by simp [hb])
      refine ⟨fun k' => ?_, h.mem, h.free, fun part => ?_, h.kpUnbound⟩
      · dsimp only
        by_cases hk : k' = k
        · subst hk
          rw [update_self]
          exact hcoh
        · rw [update_of_ne hk]
          exact h.coherent k'
      · dsimp only
        by_cases hk : Qid.kp part = k
        · -- On a kp queue the bound is exact, and all threads are unbound.
          subst hk
          have hkp := h.kp part
          rcases hc.maxrun with ⟨hm, -⟩ | ⟨q, hm, hne, -⟩
          · omega
          · obtain rfl : q = p := by omega
            obtain ⟨t, ht⟩ := exists_mem_of_ne_nil _ hne
            exact absurd (h.kpUnbound part q t ht) (by simpa using hfind t ht)
        · rw [update_of_ne hk]
          exact h.kp part
    · dsimp only
      rw [update_self]
      exact hlt
  | some x =>
    obtain ⟨w', hdeq, ⟨ls', hinv⟩, hoff⟩ := h.dispdeq x
    dsimp only
    rw [hdeq, map_some]
    refine ⟨_, some x, rfl, ⟨ls', hinv.record hoff ?_⟩, p, hfind, fun q t ht hb => ?_⟩
    · exact hoff
    · have := hc.unbound q t ht hb
      omega

/-! ### Every run -/

theorem step_inv {ncpus kpqpri : Nat} {w' : World ι κ π lp64} {label : Label ι κ π} (h : Inv w ls)
    (hstep : step ncpus kpqpri w label = some w') : ∃ ls', Inv w' ls' := by
  cases label with
  | setbackdq tp cp =>
    unfold step at hstep
    dsimp only at hstep
    split at hstep
    · cases hstep
    · next hrun => exact (h.setbackdq (by simpa using hrun) ncpus kpqpri cp).1 w' hstep
  | setfrontdq tp cp =>
    unfold step at hstep
    dsimp only at hstep
    split at hstep
    · cases hstep
    · next hrun => exact (h.setfrontdq (by simpa using hrun) ncpus kpqpri cp).1 w' hstep
  | dispdeq tp =>
    obtain ⟨w'', heq, hinv, -⟩ := h.dispdeq tp
    have := heq.symm.trans hstep
    exact some.inj this ▸ hinv
  | disp k =>
    obtain ⟨w'', r, heq, hinv, -⟩ := h.disp k
    unfold step at hstep
    dsimp only at hstep
    rw [heq] at hstep
    exact some.inj hstep ▸ hinv
  | dispGetbest k cp =>
    obtain ⟨w'', r, heq, hinv, -⟩ := h.dispGetbest k cp
    unfold step at hstep
    dsimp only at hstep
    rw [heq] at hstep
    exact some.inj hstep ▸ hinv
  | change tp t =>
    unfold step at hstep
    dsimp only at hstep
    split at hstep
    · cases hstep
    · next hoff =>
      cases hstep
      exact ⟨ls, h.record (by simpa using hoff) rfl⟩

end

end Sol7.Dispatcher
