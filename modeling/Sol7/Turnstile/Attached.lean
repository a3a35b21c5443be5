import Sol7.Turnstile.Model

/-!
# Which Turnstile Belongs to Whom

A turnstile is active, or on the freelist of an active one, or attached to a
thread that runs, and only one of these. An active turnstile has one waiter more
than its freelist is long, and every thread that sleeps for its object sleeps in
it.

## Main definitions

* `State.sleepers`: The threads that sleep in a turnstile.
* `Attached`: Which turnstile belongs to whom.
* `Place`, `State.At`: The places where a turnstile can be.

## Theorems

* `sleepqInsert_perm`, `sleepqInsert_sorted`: A thread is put on a sleep queue.
* `Attached.of_perm`: The order within the queues does not matter.
* `Attached.moved`: A turnstile that goes from one place to another is in one place.
* `Attached.attach_sleep`: A thread goes to sleep.
* `Attached.wakeOne`: A thread wakes up.
-/

namespace Sol7.Turnstile

open List Option Function State

/-! ### Queues -/

section
variable {T : Type*} {disp : T → Nat} {c : T}

theorem sleepqInsert_perm (disp : T → Nat) (c : T) :
    ∀ q : List T, (sleepqInsert disp c q).Perm (c :: q) := by
  intro q
  induction q with
  | nil => exact .rfl
  | cons tp q ih =>
    rw [sleepqInsert]
    split
    · exact .rfl
    · exact (ih.cons tp).trans (.swap _ _ _)

/-- A sorted queue stays sorted. -/
theorem sleepqInsert_sorted (disp : T → Nat) (c : T) : ∀ q : List T,
    q.Pairwise (fun a b => disp b ≤ disp a) →
    (sleepqInsert disp c q).Pairwise fun a b => disp b ≤ disp a := by
  intro q
  induction q with
  | nil =>
    intro _
    exact pairwise_singleton _ _
  | cons tp q ih =>
    intro h
    rw [pairwise_cons] at h
    rw [sleepqInsert]
    by_cases hgt : disp c > disp tp
    · rw [if_pos hgt]
      refine pairwise_cons.mpr ⟨?_, pairwise_cons.mpr h⟩
      intro b hb
      rcases mem_cons.mp hb with rfl | hb
      · exact hgt.le
      · exact (h.1 b hb).trans hgt.le
    · rw [if_neg hgt]
      refine pairwise_cons.mpr ⟨?_, ih h.2⟩
      intro b hb
      rcases mem_cons.mp ((sleepqInsert_perm disp c q).subset hb) with rfl | hb
      · exact not_lt.mp hgt
      · exact h.1 b hb

end

variable {T O : Type*}

/-- The threads that sleep in a turnstile. -/
def State.sleepers (s : State T O) (k : T) : List T := s.sleepq k .writer ++ s.sleepq k .reader

variable {k t k' : T}

theorem mem_sleepers {s : State T O} {q : SleepQ} (h : t ∈ s.sleepq k q) : t ∈ s.sleepers k := by
  cases q with
  | writer => exact mem_append_left _ h
  | reader => exact mem_append_right _ h

/-- Which turnstile belongs to whom. -/
structure Attached (s : State T O) : Prop where
  nodup : s.first.Nodup
  idle : ∀ k, k ∉ s.first → s.sleepers k = [] ∧ s.free k = []
  count : ∀ k ∈ s.first, (s.free k).length + 1 = (s.sleepers k).length
  waiters : ∀ k, s.waiters k = (s.sleepers k).length
  running : ∀ t, s.wchan t = none → s.tts t ∉ s.first
  distinct : ∀ t t', s.wchan t = none → s.wchan t' = none → s.tts t = s.tts t' → t = t'
  spare : ∀ k, ∀ f ∈ s.free k, f ∉ s.first ∧ ∀ t, s.wchan t = none → s.tts t ≠ f
  spares : ∀ k, (s.free k).Nodup
  disjoint : ∀ k k' f, f ∈ s.free k → f ∈ s.free k' → k = k'
  object : ∀ k ∈ s.first, ∀ k' ∈ s.first, s.sobj k = s.sobj k' → k = k'
  asleep : ∀ k, ∀ t ∈ s.sleepers k, s.wchan t ≠ none ∧ s.wchan t = s.sobj k ∧ s.tts t = k
  sleeps : ∀ t, s.wchan t ≠ none → t ∈ s.sleepers (s.tts t)
  single : ∀ k, (s.sleepers k).Nodup

variable {s s' : State T O} {o : O}

theorem Attached.mem_first (h : Attached s) (ht : t ∈ s.sleepers k) : k ∈ s.first := by
  by_contra hno
  rw [(h.idle k hno).1] at ht
  cases ht

/-- A thread that sleeps does so in an active turnstile of its object. -/
theorem Attached.active (h : Attached s) (ht : s.wchan t = some o) :
    s.tts t ∈ s.first ∧ s.sobj (s.tts t) = some o := by
  have hin := h.sleeps t (by rw [ht]; exact some_ne_none o)
  refine ⟨h.mem_first hin, ?_⟩
  rw [← (h.asleep _ t hin).2.1, ht]

/-- The order within the queues does not matter. -/
theorem Attached.of_perm (h : Attached s) (hfirst : s'.first = s.first) (htts : s'.tts = s.tts)
    (hwchan : s'.wchan = s.wchan) (hfree : s'.free = s.free) (hsobj : s'.sobj = s.sobj)
    (hwaiters : s'.waiters = s.waiters) (hperm : ∀ k, (s'.sleepers k).Perm (s.sleepers k)) :
    Attached s' := by
  cases s'
  subst hfirst htts hwchan hfree hsobj hwaiters
  refine ⟨h.nodup, fun k hk => ⟨?_, (h.idle k hk).2⟩, fun k hk => ?_, fun k => ?_, h.running,
    h.distinct, h.spare, h.spares, h.disjoint, h.object, fun k t ht => ?_, fun t ht => ?_,
    fun k => (hperm k).nodup_iff.mpr (h.single k)⟩
  · have hp := hperm k
    rw [(h.idle k hk).1] at hp
    exact hp.eq_nil
  · rw [(hperm k).length_eq]
    exact h.count k hk
  · rw [(hperm k).length_eq]
    exact h.waiters k
  · exact h.asleep k t ((hperm k).mem_iff.mp ht)
  · exact (hperm _).mem_iff.mpr (h.sleeps t ht)

theorem lookup_eq_some [DecidableEq O] (h : s.lookup o = some k) :
    k ∈ s.first ∧ s.sobj k = some o :=
  ⟨mem_of_find?_eq_some h, by simpa using find?_some h⟩

theorem lookup_eq_none [DecidableEq O] (h : s.lookup o = none) :
    ∀ k ∈ s.first, s.sobj k ≠ some o := by
  intro k hk
  have := find?_eq_none.mp h k hk
  simpa using this

variable {q : SleepQ}

/-- Who slept in a turnstile before a thread was woken. -/
theorem sleepers_of_queue (hqueue : s.sleepq k q = t :: s'.sleepq k q)
    (hothers : ∀ k' q', ¬(k' = k ∧ q' = q) → s'.sleepq k' q' = s.sleepq k' q') :
    (s.sleepers k).Perm (t :: s'.sleepers k) ∧ ∀ k', k' ≠ k → s'.sleepers k' = s.sleepers k' := by
  constructor
  · unfold sleepers
    cases q with
    | writer =>
      rw [hqueue, hothers k .reader (by simp)]
      exact .rfl
    | reader =>
      rw [hqueue, hothers k .writer (by simp)]
      exact perm_middle
  · intro k' hne
    unfold sleepers
    rw [hothers k' .writer (fun h => hne h.1), hothers k' .reader (fun h => hne h.1)]

/-- Where a turnstile can be. -/
inductive Place (T : Type*)
  | active
  /-- On the freelist of a turnstile. -/
  | spare (k : T)
  /-- With a thread that runs. -/
  | thread (t : T)

def State.At (s : State T O) (f : T) : Place T → Prop
  | .active => f ∈ s.first
  | .spare k => f ∈ s.free k
  | .thread t => s.wchan t = none ∧ s.tts t = f

variable {f g : T} {p p' a d : Place T}

/-- A turnstile is in one place. -/
theorem Attached.at_unique (h : Attached s) (hp : s.At f p) (hp' : s.At f p') : p = p' := by
  cases p with
  | active =>
    cases p' with
    | active => rfl
    | spare k => exact absurd hp (h.spare k f hp').1
    | thread t => exact absurd (hp'.2 ▸ hp) (h.running t hp'.1)
  | spare k =>
    cases p' with
    | active => exact absurd hp' (h.spare k f hp).1
    | spare k' => exact congrArg _ (h.disjoint k k' f hp hp')
    | thread t => exact absurd hp'.2 ((h.spare k f hp).2 t hp'.1)
  | thread t =>
    cases p' with
    | active => exact absurd (hp.2 ▸ hp') (h.running t hp.1)
    | spare k => exact absurd hp.2 ((h.spare k f hp').2 t hp.1)
    | thread t' => exact congrArg _ (h.distinct t t' hp.1 hp'.1 (hp.2.trans hp'.2.symm))

/-- It still is after one turnstile has gone to another place. -/
theorem Attached.moved (h : Attached s) (hold : s.At g a) (hgone : ¬s'.At g a)
    (hmove : ∀ f p, s'.At f p → f = g ∧ p = d ∨ s.At f p) :
    (∀ t, s'.wchan t = none → s'.tts t ∉ s'.first) ∧
      (∀ t t', s'.wchan t = none → s'.wchan t' = none → s'.tts t = s'.tts t' → t = t') ∧
      (∀ k, ∀ f ∈ s'.free k, f ∉ s'.first ∧ ∀ t, s'.wchan t = none → s'.tts t ≠ f) ∧
      ∀ k k' f, f ∈ s'.free k → f ∈ s'.free k' → k = k' := by
  have hnew : ∀ p, s'.At g p → p = d := by
    intro p hp
    rcases hmove g p hp with ⟨-, heq⟩ | hp0
    · exact heq
    · exact absurd (h.at_unique hp0 hold ▸ hp) hgone
  have hone : ∀ f p p', s'.At f p → s'.At f p' → p = p' := by
    intro f p p' hp hp'
    by_cases hf : f = g
    · rw [hf] at hp hp'
      rw [hnew p hp, hnew p' hp']
    · exact h.at_unique ((hmove f p hp).resolve_left fun hg => hf hg.1)
        ((hmove f p' hp').resolve_left fun hg => hf hg.1)
  refine ⟨fun t ht hin => ?_, fun t t' ht ht' heq => ?_,
    fun k f hf => ⟨fun hin => ?_, fun t ht heq => ?_⟩, fun k k' f hf hf' => ?_⟩
  · cases hone _ (.thread t) .active ⟨ht, rfl⟩ hin
  · cases hone _ (.thread t) (.thread t') ⟨ht, rfl⟩ ⟨ht', heq.symm⟩
    rfl
  · cases hone f (.spare k) .active hf hin
  · cases hone f (.spare k) (.thread t) hf ⟨ht, heq⟩
  · cases hone f (.spare k) (.spare k') hf hf'
    rfl

variable [DecidableEq T]

/-- A queue is stored. -/
theorem sleepers_setQ_of_ne (hne : k' ≠ k) (q : SleepQ) (l : List T) :
    (s.setQ k q l).sleepers k' = s.sleepers k' := by
  unfold sleepers setQ
  simp only [hne, false_and, if_false]

/-- A queue is stored that has something else instead of a part. -/
theorem sleepers_setQ_perm {l x y : List T} (hl : (x ++ l).Perm (y ++ s.sleepq k q)) :
    (x ++ (s.setQ k q l).sleepers k).Perm (y ++ s.sleepers k) := by
  unfold sleepers setQ
  cases q with
  | writer =>
    simp only [true_and, if_true, reduceCtorEq, if_false]
    rw [← append_assoc, ← append_assoc]
    exact hl.append_right _
  | reader =>
    simp only [true_and, reduceCtorEq, if_false, if_true]
    have hcomm : ∀ a b c : List T, (a ++ (b ++ c)).Perm (b ++ (a ++ c)) := by
      intro a b c
      rw [← append_assoc, ← append_assoc]
      exact perm_append_comm.append_right c
    exact (hcomm _ _ _).trans ((hl.append_left _).trans (hcomm _ _ _))

/-! ### Going to sleep -/

/-- Who sleeps in a turnstile after a thread has been put to sleep. -/
theorem sleepers_sleep (t : T) (q : SleepQ) (o : O) :
    ((s.sleep t q o).sleepers (s.tts t)).Perm (t :: s.sleepers (s.tts t)) ∧
      ∀ k, k ≠ s.tts t → (s.sleep t q o).sleepers k = s.sleepers k := by
  constructor
  · refine sleepers_setQ_perm (x := []) (y := [t]) ?_
    exact sleepqInsert_perm _ _ _
  · intro k hk
    exact sleepers_setQ_of_ne hk _ _

/-- A running thread is put to sleep in a turnstile. Its own one becomes active or spare
    there. -/
theorem Attached.falls_asleep (h : Attached s) (ht : s.wchan t = none)
    (htts : s'.tts = update s.tts t k) (hwchan : s'.wchan = update s.wchan t (some o))
    (hwaiters : s'.waiters = update s.waiters k (s.waiters k + 1))
    (hself : (s'.sleepers k).Perm (t :: s.sleepers k))
    (hother : ∀ k', k' ≠ k → s'.sleepers k' = s.sleepers k') (hobj : s'.sobj k = some o)
    (hsobj : ∀ k', s.sleepers k' ≠ [] → s'.sobj k' = s.sobj k')
    (hplace : ∀ f p, s'.At f p → (∃ t', p = .thread t') ∨ f = s.tts t ∧ p = d ∨ s.At f p)
    (hnodup : s'.first.Nodup) (hidle : ∀ k', k' ∉ s'.first → s'.sleepers k' = [] ∧ s'.free k' = [])
    (hcount : ∀ k' ∈ s'.first, (s'.free k').length + 1 = (s'.sleepers k').length)
    (hspares : ∀ k', (s'.free k').Nodup)
    (hobject : ∀ k1 ∈ s'.first, ∀ k2 ∈ s'.first, s'.sobj k1 = s'.sobj k2 → k1 = k2) :
    Attached s' := by
  have hgone : ∀ f, ¬s'.At f (.thread t) := by
    intro f hf
    have hnone := hf.1
    rw [hwchan, update_self] at hnone
    cases hnone
  have hmove : ∀ f p, s'.At f p → f = s.tts t ∧ p = d ∨ s.At f p := by
    intro f p hp
    rcases hplace f p hp with ⟨t', rfl⟩ | hcase
    · have hne : t' ≠ t := fun heq => hgone f (heq ▸ hp)
      obtain ⟨hrun, rfl⟩ := hp
      rw [hwchan, update_of_ne hne] at hrun
      exact .inr ⟨hrun, by rw [htts, update_of_ne hne]⟩
    · exact hcase
  obtain ⟨hr, hd, hs, hdisj⟩ := h.moved (a := .thread t) ⟨ht, rfl⟩ (hgone _) hmove
  refine ⟨hnodup, hidle, hcount, fun k' => ?_, hr, hd, hs, hspares, hdisj, hobject,
    fun k' t' ht' => ?_, fun t' ht' => ?_, fun k' => ?_⟩
  · rw [hwaiters]
    by_cases hne : k' = k
    · rw [hne, update_self, hself.length_eq, h.waiters, length_cons]
    · rw [update_of_ne hne, hother k' hne]
      exact h.waiters k'
  · rw [hwchan, htts]
    have hcase : t' = t ∧ k' = k ∨ t' ∈ s.sleepers k' := by
      by_cases hne : k' = k
      · rw [hne] at ht'
        rcases mem_cons.mp (hself.subset ht') with heq | hin
        · exact .inl ⟨heq, hne⟩
        · exact .inr (hne ▸ hin)
      · rw [hother k' hne] at ht'
        exact .inr ht'
    rcases hcase with ⟨rfl, rfl⟩ | hin
    · rw [update_self, update_self]
      exact ⟨some_ne_none o, hobj.symm, rfl⟩
    · obtain ⟨h1, h2, h3⟩ := h.asleep k' t' hin
      have hnt : t' ≠ t := fun heq => h1 (heq ▸ ht)
      rw [update_of_ne hnt, update_of_ne hnt, hsobj k' (ne_nil_of_mem hin)]
      exact ⟨h1, h2, h3⟩
  · rw [htts]
    rw [hwchan] at ht'
    by_cases hnt : t' = t
    · rw [hnt, update_self]
      exact hself.symm.subset mem_cons_self
    rw [update_of_ne hnt] at ht' ⊢
    have hin := h.sleeps t' ht'
    by_cases hne : s.tts t' = k
    · rw [hne] at hin ⊢
      exact hself.symm.subset (mem_cons_of_mem _ hin)
    · rw [hother _ hne]
      exact hin
  · by_cases hne : k' = k
    · rw [hne]
      refine hself.nodup_iff.mpr (nodup_cons.mpr ⟨?_, h.single k⟩)
      exact fun hin => (h.asleep k t hin).1 ht
    · rw [hother k' hne]
      exact h.single k'

/-- The first thread to block on an object. -/
theorem Attached.sleep_first [DecidableEq O] (h : Attached s) (ht : s.wchan t = none)
    (hnone : s.lookup o = none) (q : SleepQ) : Attached ((s.attach t o).sleep t q o) := by
  have hk := h.running t ht
  have hidle := h.idle _ hk
  have hnew := lookup_eq_none hnone
  have hne : ∀ k ∈ s.first, k ≠ s.tts t := fun k hk' heq => hk (heq ▸ hk')
  unfold State.attach
  rw [hnone]
  obtain ⟨hself, hother⟩ := sleepers_sleep (s := { s with
    sobj := update s.sobj (s.tts t) (some o), first := s.tts t :: s.first }) t q o
  refine h.falls_asleep ht (update_eq_self ..).symm rfl rfl hself hother
    (update_self ..) (d := .active) (fun k' hin => ?_) (fun f p hp => ?_) (nodup_cons.mpr ⟨hk, h.nodup⟩) (fun k' hk' => ?_)
    (fun k' hk' => ?_) h.spares fun k1 hk1 k2 hk2 heq => ?_
  · exact update_of_ne (fun heq : k' = s.tts t => hin (heq ▸ hidle.1)) ..
  · cases p with
    | active => exact .inr ((mem_cons.mp hp).imp_left fun heq => ⟨heq, rfl⟩)
    | spare k' => exact .inr (.inr hp)
    | thread t' => exact .inl ⟨t', rfl⟩
  · have hnot := not_or.mp (mem_cons.not.mp hk')
    rw [hother k' hnot.1]
    exact h.idle k' hnot.2
  · rcases mem_cons.mp hk' with rfl | hk'
    · rw [hself.length_eq]
      change (s.free _).length + 1 = (t :: s.sleepers _).length
      rw [hidle.1, hidle.2]
      rfl
    · rw [hother k' (hne k' hk')]
      exact h.count k' hk'
  · change update s.sobj (s.tts t) (some o) k1 = update s.sobj (s.tts t) (some o) k2 at heq
    rcases mem_cons.mp hk1 with h1 | h1
    · rcases mem_cons.mp hk2 with h2 | h2
      · rw [h1, h2]
      · rw [h1, update_self, update_of_ne (hne k2 h2)] at heq
        exact absurd heq.symm (hnew k2 h2)
    · rcases mem_cons.mp hk2 with h2 | h2
      · rw [h2, update_self, update_of_ne (hne k1 h1)] at heq
        exact absurd heq (hnew k1 h1)
      · rw [update_of_ne (hne k1 h1), update_of_ne (hne k2 h2)] at heq
        exact h.object k1 h1 k2 h2 heq

/-- Another thread that blocks on an object. -/
theorem Attached.sleep_next [DecidableEq O] (h : Attached s) (ht : s.wchan t = none)
    (hsome : s.lookup o = some k) (q : SleepQ) : Attached ((s.attach t o).sleep t q o) := by
  obtain ⟨hk, hobj⟩ := lookup_eq_some hsome
  unfold State.attach
  rw [hsome]
  obtain ⟨hself, hother⟩ := sleepers_sleep (s := { s with
    free := update s.free k (s.tts t :: s.free k), tts := update s.tts t k }) t q o
  dsimp only at hself hother ⊢
  rw [update_self] at hself hother
  refine h.falls_asleep ht rfl rfl ?_ hself hother hobj (d := .spare k) (fun _ _ => rfl)
    (fun f p hp => ?_) h.nodup (fun k' hk' => ?_) (fun k' hk' => ?_) (fun k' => ?_) h.object
  · unfold sleep
    dsimp only
    rw [update_self]
    rfl
  · cases p with
    | active => exact .inr (.inr hp)
    | spare k' =>
      -- What is on a freelist was there before, or is the thread's own turnstile.
      change f ∈ update s.free k (s.tts t :: s.free k) k' at hp
      by_cases hne : k' = k
      · rw [hne, update_self] at hp
        rw [hne]
        exact .inr ((mem_cons.mp hp).imp_left fun heq => ⟨heq, rfl⟩)
      · rw [update_of_ne hne] at hp
        exact .inr (.inr hp)
    | thread t' => exact .inl ⟨t', rfl⟩
  · have hne : k' ≠ k := fun heq => hk' (heq ▸ hk)
    rw [hother k' hne]
    refine ⟨(h.idle k' hk').1, ?_⟩
    exact (update_of_ne hne ..).trans (h.idle k' hk').2
  · have hc := h.count k' hk'
    change (update s.free k (s.tts t :: s.free k) k').length + 1 = _
    by_cases hne : k' = k
    · rw [hne, hself.length_eq, update_self]
      rw [hne] at hc
      exact congrArg (· + 1) hc
    · rw [hother k' hne, update_of_ne hne]
      exact hc
  · change (update s.free k (s.tts t :: s.free k) k').Nodup
    rw [update_apply]
    split
    · exact nodup_cons.mpr ⟨fun hf => (h.spare k _ hf).2 t ht rfl, h.spares k⟩
    · exact h.spares k'

/-- A thread goes to sleep. -/
theorem Attached.attach_sleep [DecidableEq O] (h : Attached s) (ht : s.wchan t = none) (q : SleepQ)
    (o : O) : Attached ((s.attach t o).sleep t q o) := by
  cases hlook : s.lookup o with
  | none => exact h.sleep_first ht hlook q
  | some k => exact h.sleep_next ht hlook q

/-! ### Waking up -/

/-- What waking the first thread of a queue changes. -/
structure Woken (s : State T O) (k : T) (q : SleepQ) (s' : State T O) (t : T) : Prop where
  pri : s'.pri = s.pri
  epri : s'.epri = s.epri
  prioinv : s'.prioinv = s.prioinv
  tsEpri : s'.tsEpri = s.tsEpri
  inheritor : s'.inheritor = s.inheritor
  sobj : s'.sobj = s.sobj
  owner : s'.owner = s.owner
  wchan : s'.wchan = update s.wchan t none
  waiters : s'.waiters = update s.waiters k (s.waiters k - 1)
  queue : s.sleepq k q = t :: s'.sleepq k q
  others : ∀ k' q', ¬(k' = k ∧ q' = q) → s'.sleepq k' q' = s.sleepq k' q'
  turnstile : (∃ f fs, s.free k = f :: fs ∧ s'.tts = update s.tts t f ∧
      s'.free = update s.free k fs ∧ s'.first = s.first) ∨
    (s.free k = [] ∧ s.inheritor k = none ∧ s'.tts = s.tts ∧ s'.free = s.free ∧
      s'.first = s.first.erase k)

theorem wakeOne_cases (h : s.wakeOne k q = some (s', t)) : Woken s k q s' t := by
  unfold wakeOne at h
  cases hq : s.sleepq k q with
  | nil =>
    rw [hq] at h
    cases h
  | cons t' rest =>
    rw [hq] at h
    rw [map_eq_some_iff] at h
    obtain ⟨s1, hs1, heq⟩ := h
    cases heq
    have hqueue : s.sleepq k q = t :: (s.setQ k q rest).sleepq k q := by
      simp only [setQ, and_self, if_true]
      exact hq
    have hothers : ∀ k' q', ¬(k' = k ∧ q' = q) →
        (s.setQ k q rest).sleepq k' q' = s.sleepq k' q' := fun k' q' hne => if_neg hne
    cases hf : s.free k with
    | cons f fs =>
      rw [hf] at hs1
      cases hs1
      exact ⟨rfl, rfl, rfl, rfl, rfl, rfl, rfl, rfl, rfl, hqueue, hothers,
        .inl ⟨f, fs, hf, rfl, rfl, rfl⟩⟩
    | nil =>
      rw [hf] at hs1
      dsimp only at hs1
      split at hs1
      · next hnone =>
        cases hs1
        exact ⟨rfl, rfl, rfl, rfl, rfl, rfl, rfl, rfl, rfl, hqueue, hothers,
          .inr ⟨hf, hnone, rfl, rfl, rfl⟩⟩
      · cases hs1

/-- The turnstile that a woken thread gets is a spare one, or the one it slept in, which
    is active no longer. -/
theorem Attached.gets (h : Attached s) (hw : Woken s k q s' t) :
    ∃ g a, s'.tts = update s.tts t g ∧ s.At g a ∧ ¬s'.At g a ∧
      (∀ k' ∈ s'.first, k' ∈ s.first) ∧ (∀ k', ∀ f ∈ s'.free k', f ∈ s.free k') ∧
      s'.first.Nodup ∧ (∀ k', k' ∉ s'.first → s'.sleepers k' = [] ∧ s'.free k' = []) ∧
      (∀ k' ∈ s'.first, (s'.free k').length + 1 = (s'.sleepers k').length) ∧
      ∀ k', (s'.free k').Nodup := by
  obtain ⟨hself, hother⟩ := sleepers_of_queue hw.queue hw.others
  have htk : t ∈ s.sleepers k := hself.symm.subset mem_cons_self
  have hk := h.mem_first htk
  have hc := h.count k hk
  rw [hself.length_eq, length_cons] at hc
  rcases hw.turnstile with ⟨f, fs, hfree, htts, hfree', hfirst⟩ | ⟨hfree, -, htts, hfree', hfirst⟩
  · have hnf := h.spares k
    rw [hfree, nodup_cons] at hnf
    refine ⟨f, .spare k, htts, ?_, fun hf => ?_, fun k' => hfirst ▸ id, fun k' g hg => ?_,
      hfirst ▸ h.nodup, fun k' hk' => ?_, fun k' hk' => ?_, fun k' => ?_⟩
    · change f ∈ s.free k
      rw [hfree]
      exact mem_cons_self
    · change f ∈ s'.free k at hf
      rw [hfree', update_self] at hf
      exact hnf.1 hf
    · rw [hfree'] at hg
      by_cases hne : k' = k
      · rw [hne, update_self] at hg
        rw [hne, hfree]
        exact mem_cons_of_mem _ hg
      · rwa [update_of_ne hne] at hg
    · rw [hfirst] at hk'
      have hne : k' ≠ k := fun heq => hk' (heq ▸ hk)
      rw [hother k' hne, hfree', update_of_ne hne]
      exact h.idle k' hk'
    · rw [hfirst] at hk'
      by_cases hne : k' = k
      · rw [hfree, length_cons] at hc
        rw [hne, hfree', update_self]
        omega
      · rw [hother k' hne, hfree', update_of_ne hne]
        exact h.count k' hk'
    · rw [hfree', update_apply]
      split
      · exact hnf.2
      · exact h.spares k'
  · have hempty : s'.sleepers k = [] := by
      rw [hfree] at hc
      exact length_eq_zero_iff.mp (by simp only [length_nil] at hc; omega)
    have hmem : ∀ k', k' ∈ s'.first ↔ k' ≠ k ∧ k' ∈ s.first := by
      intro k'
      rw [hfirst]
      exact h.nodup.mem_erase_iff
    refine ⟨k, .active, ?_, hk, fun hin => ((hmem k).mp hin).1 rfl,
      fun k' hk' => ((hmem k').mp hk').2, fun k' => hfree' ▸ fun _ => id,
      hfirst ▸ h.nodup.erase k, fun k' hk' => ?_, fun k' hk' => ?_, hfree' ▸ h.spares⟩
    · rw [htts, ← (h.asleep k t htk).2.2, update_eq_self]
    · rw [hfree']
      by_cases hne : k' = k
      · rw [hne]
        exact ⟨hempty, hfree⟩
      · rw [hmem, not_and] at hk'
        rw [hother k' hne]
        exact h.idle k' (hk' hne)
    · rw [hmem] at hk'
      rw [hfree', hother k' hk'.1]
      exact h.count k' hk'.2

/-- A thread wakes up. -/
theorem Attached.woken (h : Attached s) (hw : Woken s k q s' t) : Attached s' := by
  obtain ⟨hself, hother⟩ := sleepers_of_queue hw.queue hw.others
  have htk : t ∈ s.sleepers k := hself.symm.subset mem_cons_self
  have hnd := hself.nodup_iff.mp (h.single k)
  rw [nodup_cons] at hnd
  have hsub : ∀ k', ∀ t' ∈ s'.sleepers k', t' ∈ s.sleepers k' ∧ t' ≠ t := by
    intro k' t' ht'
    by_cases hne : k' = k
    · rw [hne] at ht' ⊢
      exact ⟨hself.symm.subset (mem_cons_of_mem _ ht'), fun heq => hnd.1 (heq ▸ ht')⟩
    rw [hother k' hne] at ht'
    refine ⟨ht', ?_⟩
    intro heq
    rw [heq] at ht'
    exact hne ((h.asleep k' t ht').2.2.symm.trans (h.asleep k t htk).2.2)
  obtain ⟨g, a, htts, hold, hgone, hfirst, hfree, hnodup, hidle, hcount, hspares⟩ := h.gets hw
  have hmove : ∀ f p, s'.At f p → f = g ∧ p = .thread t ∨ s.At f p := by
    intro f p hp
    cases p with
    | active => exact .inr (hfirst f hp)
    | spare k' => exact .inr (hfree k' f hp)
    | thread t' =>
      obtain ⟨hrun, rfl⟩ := hp
      by_cases heq : t' = t
      · exact .inl ⟨by rw [htts, heq, update_self], congrArg _ heq⟩
      · rw [hw.wchan, update_of_ne heq] at hrun
        exact .inr ⟨hrun, by rw [htts, update_of_ne heq]⟩
  obtain ⟨hr, hd, hs, hdisj⟩ := h.moved hold hgone hmove
  refine ⟨hnodup, hidle, hcount, fun k' => ?_, hr, hd, hs, hspares, hdisj,
    fun k1 h1 k2 h2 heq => ?_, fun k' t' ht' => ?_, fun t' ht' => ?_, fun k' => ?_⟩
  · rw [hw.waiters]
    by_cases hne : k' = k
    · rw [hne, update_self, h.waiters, hself.length_eq, length_cons, Nat.add_sub_cancel]
    · rw [update_of_ne hne, hother k' hne]
      exact h.waiters k'
  · rw [hw.sobj] at heq
    exact h.object k1 (hfirst k1 h1) k2 (hfirst k2 h2) heq
  · obtain ⟨hin, hne⟩ := hsub k' t' ht'
    rw [hw.wchan, hw.sobj, htts, update_of_ne hne, update_of_ne hne]
    exact h.asleep k' t' hin
  · rw [hw.wchan] at ht'
    have hne : t' ≠ t := fun heq => ht' (by rw [heq, update_self])
    rw [update_of_ne hne] at ht'
    have hin := h.sleeps t' ht'
    rw [htts, update_of_ne hne]
    by_cases hk' : s.tts t' = k
    · rw [hk'] at hin ⊢
      exact (mem_cons.mp (hself.subset hin)).resolve_left hne
    · rw [hother _ hk']
      exact hin
  · by_cases hne : k' = k
    · rw [hne]
      exact hnd.2
    · rw [hother k' hne]
      exact h.single k'

end Sol7.Turnstile
