import Sol7.Turnstile.Inherit

/-!
# What the Calls Keep

A thread that blocks is pending when it has been put to sleep, and following the
blocking chain settles it. The priority of each owner on the chain may be raised,
and then this owner is pending in turn, so there is never more than one.

A wakeup first waives what was inherited, and from then on all that sleep for the
object are pending. They are settled when the new owner inherits from those that
still sleep, or at once if there is no new owner.

## Main definitions

* `Sound`: What is true between two calls.

## Theorems

* `Inherits.sleep`: A thread is put to sleep, and is pending.
* `will_ok`: The chain is followed to its end, and nothing is pending.
* `block_ok`: A thread that may block does.
* `wakeLoop_ok`: Threads are woken, and the new owner inherits.
* `Sound.wakeup`: `turnstile_wakeup` with a change of owner.
* `wakeup_isSome`: A wakeup as its clients ask for it is met.
-/

namespace Sol7.Turnstile

open List Option Function WaitsFor State

variable {T O : Type*} {s s' : State T O}

/-- What is true between two calls: nothing is pending, and there is no cycle. -/
structure Sound (s : State T O) : Prop where
  attached : Attached s
  inherits : Inherits (fun _ => False) s
  ranked : Ranked s.blockedBy

variable {t u c k : T}

/-- A thread that runs is blocked by nobody. -/
theorem blockedBy_eq_none (h : s.wchan t = none) : s.blockedBy t = none := by
  unfold blockedBy
  rw [h]
  rfl

/-- A thread that runs need not be pending. -/
theorem Inherits.running (h : Inherits (fun x => x = t) s) (ht : s.wchan t = none) :
    Inherits (fun _ => False) s := by
  refine h.settle ?_
  rintro x u rfl _ hb
  rw [blockedBy_eq_none ht] at hb
  cases hb

variable {o : O} {P Q : T → Prop} {l : List T}

/-- A thread sleeps or is woken, and no priority changes. -/
theorem Inherits.transfer (h : Inherits P s) (hpri : s'.pri = s.pri) (hepri : s'.epri = s.epri)
    (hlist : s'.prioinv = s.prioinv) (hts : s'.tsEpri = s.tsEpri)
    (hinh : s'.inheritor = s.inheritor) (hown : s'.owner = s.owner)
    (hfirst : ∀ k u, s.inheritor k = some u → k ∈ s'.first ∧ s'.sobj k = s.sobj k)
    (hlink : ∀ t u, ¬Q t → s'.blockedBy t = some u →
      ¬P t ∧ s.blockedBy t = some u ∧ s'.tts t = s.tts t)
    (hsorted : ∀ k q, (s'.sleepq k q).Pairwise fun a b => s.dispPrio b ≤ s.dispPrio a) :
    Inherits Q s' := by
  cases s'
  dsimp only at *
  subst hpri hepri hlist hts hinh hown
  refine { h with active := ?_, owns := ?_, link := ?_, sorted := hsorted }
  · exact fun k u hk => (hfirst k u hk).1
  · intro k u hk
    dsimp only
    rw [(hfirst k u hk).2]
    exact h.owns k u hk
  · intro t u hq hb
    obtain ⟨hp, hb', htts⟩ := hlink t u hq hb
    dsimp only
    rw [htts]
    exact h.link t u hp hb'

/-- The owner of the object that a thread sleeps for is its heir. -/
theorem Attached.heir (ha : Attached s) (hb : s.blockedBy t = some u) :
    Heir s (fun x => x = t) (s.tts t) u (s.dispPrio t) := by
  have hb' := hb
  obtain ⟨o, hw, how⟩ := bind_eq_some_iff.mp hb'
  obtain ⟨hin, hobj⟩ := ha.active hw
  refine ⟨hin, ⟨o, hobj, how⟩, ?_⟩
  rintro x v rfl hv
  exact ⟨rfl, some.inj (hv.symm.trans hb), le_rfl⟩

/-- The first of a sorted queue has the highest priority. -/
theorem le_head_of_sorted {disp : T → Nat} (h : l.Pairwise fun a b => disp b ≤ disp a)
    (ht : t ∈ l) : disp t ≤ (l.head?.map disp).getD 0 := by
  cases l with
  | nil => cases ht
  | cons a l =>
    rcases mem_cons.mp ht with rfl | hin
    · exact le_rfl
    · exact (pairwise_cons.mp h).1 t hin

theorem Inherits.le_topPrio (h : Inherits P s) (ht : t ∈ s.sleepers k) :
    s.dispPrio t ≤ s.topPrio k := by
  rcases mem_append.mp ht with hin | hin
  · exact le_trans (le_head_of_sorted (h.sorted k .writer) hin) (le_max_left _ _)
  · exact le_trans (le_head_of_sorted (h.sorted k .reader) hin) (le_max_right _ _)

theorem topPrio_of_empty (h : s.sleepers k = []) : s.topPrio k = 0 := by
  unfold sleepers at h
  rw [append_eq_nil_iff] at h
  unfold topPrio
  rw [h.1, h.2]
  rfl

/-! ### Owners -/

/-- The owner of an object is replaced from which nobody inherits. All that sleep
    for it are pending. -/
theorem Inherits.setOwner [DecidableEq O] (h : Inherits P s) (w : Option T)
    (hno : ∀ k t, s.inheritor k = some t → s.sobj k ≠ some o) :
    Inherits (fun t => P t ∨ s.wchan t = some o)
      { s with owner := update s.owner o w } := by
  refine { h with owns := ?_, link := ?_ }
  · intro k t hk
    obtain ⟨o', hobj, how⟩ := h.owns k t hk
    refine ⟨o', hobj, ?_⟩
    have hne : o' ≠ o := by
      rintro rfl
      exact hno k t hk hobj
    simp only [update_of_ne hne]
    exact how
  · intro t u hp hb
    rw [not_or] at hp
    refine h.link t u hp.1 ?_
    unfold blockedBy at hb ⊢
    cases hw : s.wchan t with
    | none => simp only [hw, bind_none, reduceCtorEq] at hb
    | some o' =>
      have hne : o' ≠ o := by
        rintro rfl
        exact hp.2 hw
      simp only [hw, bind_some, update_of_ne hne] at hb
      exact hb

/-- The owner of an object that nobody sleeps for is replaced. -/
theorem Sound.setOwner [DecidableEq O] (h : Sound s) (w : Option T) (hnone : s.lookup o = none) :
    Sound { s with owner := update s.owner o w } := by
  have hobj := lookup_eq_none hnone
  have hsleep : ∀ t, s.wchan t ≠ some o := by
    intro t ht
    obtain ⟨hin, heq⟩ := h.attached.active ht
    exact hobj _ hin heq
  constructor
  · exact h.attached.of_perm rfl rfl rfl rfl rfl rfl fun _ => .rfl
  · refine Inherits.settle (h.inherits.setOwner w ?_) ?_
    · exact fun k t hk => hobj k (h.inherits.active k t hk)
    · rintro t u (hp | hp) _ _
      · exact absurd hp not_false
      · exact absurd hp (hsleep t)
  · have hsame : ({ s with owner := update s.owner o w } : State T O).blockedBy = s.blockedBy := by
      funext t
      unfold blockedBy
      cases hw : s.wchan t with
      | none => rfl
      | some o' =>
        have hne : o' ≠ o := by
          rintro rfl
          exact hsleep t hw
        simp only [bind_some, update_of_ne hne]
    rw [hsame]
    exact h.ranked

variable [DecidableEq T]

/-! ### Blocking -/

/-- What going to sleep leaves alone. -/
structure Slept (s : State T O) (t : T) (o : O) (s' : State T O) : Prop where
  pri : s'.pri = s.pri
  epri : s'.epri = s.epri
  prioinv : s'.prioinv = s.prioinv
  tsEpri : s'.tsEpri = s.tsEpri
  inheritor : s'.inheritor = s.inheritor
  owner : s'.owner = s.owner
  wchan : s'.wchan = update s.wchan t (some o)
  tts : ∀ a, a ≠ t → s'.tts a = s.tts a
  first : ∀ k ∈ s.first, k ∈ s'.first ∧ s'.sobj k = s.sobj k
  queue : ∀ k q, s'.sleepq k q = s.sleepq k q ∨
    s'.sleepq k q = sleepqInsert s.dispPrio t (s.sleepq k q)

theorem attach_sleep [DecidableEq O] (ha : Attached s) (ht : s.wchan t = none) (q : SleepQ) (o : O) :
    Slept s t o ((s.attach t o).sleep t q o) := by
  have hmine := ha.running t ht
  have hqueue : ∀ s1 : State T O, s1.sleepq = s.sleepq → s1.pri = s.pri → s1.epri = s.epri →
      ∀ k q', (s1.sleep t q o).sleepq k q' = s.sleepq k q' ∨
        (s1.sleep t q o).sleepq k q' = sleepqInsert s.dispPrio t (s.sleepq k q') := by
    intro s1 hq hp he k q'
    have hdisp : s1.dispPrio = s.dispPrio := by
      unfold dispPrio
      rw [hp, he]
    by_cases hk : k = s1.tts t ∧ q' = q
    · refine .inr ?_
      unfold sleep setQ
      simp only [if_pos hk]
      rw [hk.1, hk.2, ← hq, ← hdisp]
      rfl
    · refine .inl ?_
      unfold sleep setQ
      simp only [if_neg hk]
      rw [hq]
  unfold State.attach
  cases hlook : s.lookup o with
  | none =>
    refine ⟨rfl, rfl, rfl, rfl, rfl, rfl, rfl, fun _ _ => rfl, ?_, hqueue _ rfl rfl rfl⟩
    intro k hk
    refine ⟨mem_cons_of_mem _ hk, ?_⟩
    have hne : k ≠ s.tts t := fun heq => hmine (heq ▸ hk)
    exact update_of_ne hne ..
  | some k =>
    exact ⟨rfl, rfl, rfl, rfl, rfl, rfl, rfl, fun a hne => update_of_ne hne ..,
      fun _ hk => ⟨hk, rfl⟩, hqueue _ rfl rfl rfl⟩

/-- Who is blocked by whom after a thread has gone to sleep or is woken. -/
theorem blockedBy_update {w : Option O} (hw : s'.wchan = update s.wchan t w)
    (ho : s'.owner = s.owner) : s'.blockedBy = update s.blockedBy t (w.bind s.owner) := by
  funext a
  unfold blockedBy
  rw [hw, ho]
  by_cases hne : a = t
  · rw [hne, update_self, update_self]
  · rw [update_of_ne hne, update_of_ne hne]

theorem Slept.blockedBy (h : Slept s t o s') : s'.blockedBy = update s.blockedBy t (s.owner o) :=
  blockedBy_update h.wchan h.owner

/-- A thread is put to sleep, and is pending. -/
theorem Inherits.sleep (h : Inherits (fun _ => False) s) (hs : Slept s t o s') :
    Inherits (fun x => x = t) s' := by
  refine h.transfer hs.pri hs.epri hs.prioinv hs.tsEpri hs.inheritor hs.owner ?_ ?_ ?_
  · exact fun k u hk => hs.first k (h.active k u hk)
  · intro a u hne hb
    rw [hs.blockedBy, update_of_ne hne] at hb
    exact ⟨not_false, hb, hs.tts a hne⟩
  · intro k q
    rcases hs.queue k q with heq | heq
    · rw [heq]
      exact h.sorted k q
    · rw [heq]
      exact sleepqInsert_sorted _ _ _ (h.sorted k q)

/-- The chain is followed to its end, or until nothing is pending. -/
theorem will_ok (hp : Path s.blockedBy t l) :
    ∀ (fuel : Nat) (s1 : State T O), s1.blockedBy = s.blockedBy → l.length ≤ fuel → c ∉ l.tail →
      Attached s1 → Inherits (fun x => x = t) s1 →
      ∃ s', will c fuel s1 t = some s' ∧ Frame s1 s' ∧ Inherits (fun _ => False) s' := by
  induction hp with
  | stop t hnone =>
    intro fuel s1 hb hlen _ _ hi
    obtain ⟨n, rfl⟩ : ∃ n, fuel = n + 1 := ⟨fuel - 1, by rw [length_singleton] at hlen; omega⟩
    rw [← hb] at hnone
    rw [will, hnone]
    refine ⟨s1, rfl, .refl s1, hi.settle ?_⟩
    rintro x u rfl _ hb'
    rw [hnone] at hb'
    cases hb'
  | step t u l hsome hp ih =>
    intro fuel s1 hb hlen hc ha hi
    rw [length_cons] at hlen
    obtain ⟨n, rfl⟩ : ∃ n, fuel = n + 1 := ⟨fuel - 1, by omega⟩
    rw [← hb] at hsome
    have hu : u ∈ l := by
      cases hp with
      | stop => exact mem_singleton.mpr rfl
      | step => exact mem_cons_self
    have hne : u ≠ c := fun heq => hc (heq ▸ hu)
    obtain ⟨s2, b, heq, hf, hfalse, htrue⟩ := piInherit_ok ha hi (ha.heir hsome)
    rw [will, hsome]
    dsimp only
    rw [if_neg hne, heq, bind_some]
    by_cases hstop : b = false ∨ s2.wchan u = none
    · rw [if_pos hstop]
      refine ⟨s2, rfl, hf, ?_⟩
      cases b with
      | false => exact hfalse rfl
      | true =>
        rcases hstop with h | h
        · cases h
        · exact (htrue rfl).running h
    · -- The owner sleeps too, and is pending now.
      rw [if_neg hstop]
      rw [not_or, Bool.not_eq_false] at hstop
      rcases ih n s2 (hf.blockedBy.trans hb) (by omega) (fun h => hc (mem_of_mem_tail h))
        (hf.attached ha) (htrue hstop.1) with ⟨s', heq', hf', hi'⟩
      exact ⟨s', heq', hf.trans hf', hi'⟩

/-- A thread that may block does. -/
theorem block_ok [DecidableEq O] [Fintype T] (h : Sound s) (hm : s.MayBlock t o) (q : SleepQ) :
    ∃ s', s.block t q o = some s' ∧ Sound s' := by
  have hs := attach_sleep h.attached hm.1 q o
  have ha := h.attached.attach_sleep hm.1 q o
  unfold block
  generalize (s.attach t o).sleep t q o = s1 at hs ha ⊢
  have hr : Ranked s1.blockedBy := by
    rw [hs.blockedBy]
    exact h.ranked.wait hm.2
  obtain ⟨l, hl⟩ := hr.exists_path t
  -- The thread itself is met only at the beginning.
  have hself : t ∉ l.tail := by
    have hnd := hl.nodup hr
    cases hl with
    | stop => exact not_mem_nil
    | step _ u l => exact (nodup_cons.mp hnd).1
  obtain ⟨s', heq, hf, hi⟩ := will_ok hl (Fintype.card T) s1 rfl (hl.length_le_card hr) hself ha
    (h.inherits.sleep hs)
  refine ⟨s', heq, hf.attached ha, hi, ?_⟩
  rw [hf.blockedBy]
  exact hr

/-! ### Waking up -/

variable {q : SleepQ}

/-- A thread that is woken is blocked by nobody, and the others by whom they
    were. -/
theorem Woken.blockedBy (h : Woken s k q s' t) : s'.blockedBy = update s.blockedBy t none :=
  blockedBy_update h.wchan h.owner

theorem Woken.tts_of_ne (h : Woken s k q s' t) (hne : c ≠ t) : s'.tts c = s.tts c := by
  rcases h.turnstile with ⟨f, fs, -, htts, -, -⟩ | ⟨-, -, htts, -, -⟩
  · rw [htts, update_of_ne hne]
  · rw [htts]

/-- Waking a thread changes no priority. -/
theorem Inherits.woken (h : Inherits P s) (ha : Attached s) (hw : Woken s k q s' t) :
    Inherits P s' := by
  refine h.transfer hw.pri hw.epri hw.prioinv hw.tsEpri hw.inheritor hw.owner ?_ ?_ ?_
  · intro x u hx
    refine ⟨?_, by rw [hw.sobj]⟩
    have hin := h.active x u hx
    rcases hw.turnstile with ⟨f, fs, -, -, -, hfirst⟩ | ⟨-, hnone, -, -, hfirst⟩
    · rw [hfirst]
      exact hin
    rw [hfirst, ha.nodup.mem_erase_iff]
    refine ⟨?_, hin⟩
    rintro rfl
    rw [hnone] at hx
    cases hx
  · intro a u hp hb
    rw [hw.blockedBy] at hb
    have hne : a ≠ t := by
      rintro rfl
      rw [update_self] at hb
      cases hb
    rw [update_of_ne hne] at hb
    exact ⟨hp, hb, hw.tts_of_ne hne⟩
  · intro k' q'
    by_cases hkq : k' = k ∧ q' = q
    · have hs := h.sorted k q
      rw [hw.queue, pairwise_cons] at hs
      rw [hkq.1, hkq.2]
      exact hs.2
    · rw [hw.others k' q' hkq]
      exact h.sorted k' q'

/-- What is true of a wakeup that goes on: what sleeps for the object does so in
    the turnstile, and is pending while a new owner is waited for. -/
structure Waking (k : T) (o : O) (owner : Option T) (s : State T O) : Prop where
  attached : Attached s
  inherits : Inherits (fun t => owner ≠ none ∧ s.wchan t = some o) s
  sobj : s.sobj k = some o
  home : ∀ t, s.wchan t = some o → s.tts t = k
  owns : ∀ w, owner = some w → s.owner o = some w

variable {owner : Option T}

/-- Waking one thread. -/
theorem Waking.woken (h : Waking k o owner s) (hw : Woken s k q s' t) : Waking k o owner s' := by
  have hrest : ∀ a, s'.wchan a = some o → a ≠ t ∧ s.wchan a = some o := by
    intro a ha
    rw [hw.wchan] at ha
    by_cases hne : a = t
    · rw [hne, update_self] at ha
      cases ha
    · rw [update_of_ne hne] at ha
      exact ⟨hne, ha⟩
  refine ⟨h.attached.woken hw, ?_, ?_, ?_, ?_⟩
  · refine (h.inherits.woken h.attached hw).settle ?_
    rintro a u ⟨hown, ha⟩ hno hb
    -- Only the thread that was woken is no longer pending.
    rw [hw.blockedBy] at hb
    by_cases hne : a = t
    · rw [hne, update_self] at hb
      cases hb
    · refine absurd ⟨hown, ?_⟩ hno
      rw [hw.wchan, update_of_ne hne]
      exact ha
  · rw [hw.sobj]
    exact h.sobj
  · intro a ha
    obtain ⟨hne, hold⟩ := hrest a ha
    rw [hw.tts_of_ne hne]
    exact h.home a hold
  · rw [hw.owner]
    exact h.owns

/-- The new owner, which has just been woken, inherits from those that still
    sleep. -/
theorem Waking.inherit (h : Waking k o (some t) s) (ht : s.wchan t = none) :
    ∃ s' b, s.piInherit k t (s.topPrio k) = some (s', b) ∧ Frame s s' ∧ Waking k o none s' := by
  have hkeep : ∀ s', Frame s s' → Inherits (fun _ => False) s' → Waking k o none s' := by
    intro s' hf hi
    refine ⟨hf.attached h.attached, hi.settle (fun _ _ h => absurd h not_false), ?_, ?_, ?_⟩
    · rw [hf.sobj]
      exact h.sobj
    · rw [hf.wchan, hf.tts]
      exact h.home
    · intro w hw
      cases hw
  by_cases hk : k ∈ s.first
  · have hh : Heir s (fun a => some t ≠ none ∧ s.wchan a = some o) k t (s.topPrio k) := by
      refine ⟨hk, ⟨o, h.sobj, h.owns t rfl⟩, ?_⟩
      rintro a v ⟨-, ha⟩ hb
      have htk := h.home a ha
      refine ⟨htk, ?_, h.inherits.le_topPrio ?_⟩
      · unfold blockedBy at hb
        rw [ha] at hb
        exact some.inj (hb.symm.trans (h.owns t rfl))
      · rw [← htk]
        exact h.attached.sleeps a (by rw [ha]; exact some_ne_none o)
    obtain ⟨s', b, heq, hf, hfalse, htrue⟩ := piInherit_ok h.attached h.inherits hh
    refine ⟨s', b, heq, hf, hkeep s' hf ?_⟩
    cases b with
    | false => exact hfalse rfl
    | true => exact (htrue rfl).running (by rw [hf.wchan]; exact ht)
  · -- It was the last waiter.
    have hnone : ∀ a, s.wchan a ≠ some o := by
      intro a ha
      have hin := (h.attached.active ha).1
      rw [h.home a ha] at hin
      exact hk hin
    refine ⟨s, false, ?_, .refl s, hkeep s (.refl s) (h.inherits.settle ?_)⟩
    · rw [piInherit_eq, topPrio_of_empty (h.attached.idle k hk).1, if_pos zero_le]
    · rintro a u ⟨-, ha⟩ _ _
      exact absurd ha (hnone a)

/-- Threads are woken, and the new owner inherits. -/
theorem wakeLoop_ok : ∀ (n : Nat) (s s' : State T O)
    (owner : Option T), wakeLoop k q n s owner = some s' → Waking k o owner s →
    Waking k o none s' ∧ s'.owner = s.owner ∧
      (∀ a, s'.wchan a = none ∨ s'.wchan a = s.wchan a) ∧
      ∀ w, owner = some w → s'.wchan w = none := by
  intro n
  induction n with
  | zero =>
    intro s s' owner h hw
    rw [wakeLoop] at h
    split at h
    · next hnone =>
      subst hnone
      cases h
      exact ⟨hw, rfl, fun _ => .inr rfl, fun _ h => nomatch h⟩
    · cases h
  | succ n ih =>
    intro s s' owner h hw
    obtain ⟨⟨s1, t⟩, hone, h⟩ := bind_eq_some_iff.mp h
    have hwoken := wakeOne_cases hone
    have hw1 := hw.woken hwoken
    have ht : s1.wchan t = none := by rw [hwoken.wchan, update_self]
    have hback : ∀ a, s1.wchan a = none ∨ s1.wchan a = s.wchan a := by
      intro a
      rw [hwoken.wchan, update_apply]
      split
      · exact .inl rfl
      · exact .inr rfl
    by_cases hown : owner = some t
    · rw [if_pos hown] at h
      rw [hown] at hw1
      obtain ⟨s2, b, heq, hf, hw2⟩ := hw1.inherit ht
      rw [heq] at h
      obtain ⟨hw', howner, hwchan, -⟩ := ih s2 s' none h hw2
      refine ⟨hw', howner.trans (hf.owner.trans hwoken.owner), ?_, ?_⟩
      · intro a
        rcases hwchan a with h' | h'
        · exact .inl h'
        · rw [h', hf.wchan]
          exact hback a
      · intro w heq
        obtain rfl := some.inj (hown.symm.trans heq)
        rcases hwchan t with h' | h'
        · exact h'
        · rw [h', hf.wchan, ht]
    · rw [if_neg hown] at h
      obtain ⟨hw', howner, hwchan, hrun⟩ := ih s1 s' owner h hw1
      refine ⟨hw', howner.trans hwoken.owner, ?_, hrun⟩
      intro a
      rcases hwchan a with h' | h'
      · exact .inl h'
      · rw [h']
        exact hback a

/-- The first part of `turnstile_wakeup`: whoever inherited has waived. -/
theorem Sound.waive [DecidableEq O] (h : Sound s) (owner : Option T) (ht : s.wchan t = none)
    (howner : s.owner o = some t ∨ s.owner o = none) (hlook : s.lookup o = some k) :
    ∃ s1 : State T O, (∀ q n,
        ({ s with owner := update s.owner o owner } : State T O).wakeup k q n owner =
          wakeLoop k q n s1 owner) ∧
      Waking k o owner s1 ∧ s1.inheritor k = none ∧ s1.sleepq = s.sleepq ∧ s1.wchan = s.wchan ∧
      s1.owner = update s.owner o owner := by
  obtain ⟨hk, hobj⟩ := lookup_eq_some hlook
  have hhome : ∀ a, s.wchan a = some o → s.tts a = k := by
    intro a ha
    obtain ⟨hin, hobj'⟩ := h.attached.active ha
    exact h.attached.object _ hin k hk (hobj'.trans hobj.symm)
  -- Waiving does not look at the owners, so it may as well come first.
  have hs : ∃ s2 : State T O, Frame s s2 ∧ Inherits (fun a => s.tts a = k) s2 ∧
      s2.inheritor k = none ∧ s2.sleepq = s.sleepq ∧ ∀ q n,
        ({ s with owner := update s.owner o owner } : State T O).wakeup k q n owner =
          wakeLoop k q n { s2 with owner := update s.owner o owner } owner := by
    unfold wakeup
    cases hinh : s.inheritor k with
    | none =>
      exact ⟨s, .refl s, h.inherits.settle (fun _ _ hp => absurd hp not_false), hinh, rfl,
        fun _ _ => rfl⟩
    | some u =>
      have hu : s.wchan u = none := by
        obtain ⟨o', hobj', how⟩ := h.inherits.owns k u hinh
        obtain rfl := some.inj (hobj.symm.trans hobj')
        rcases howner with hown | hown
        · obtain rfl := some.inj (how.symm.trans hown)
          exact ht
        · rw [hown] at how
          cases how
      -- The inheritor has inherited something, so its priority is that.
      have hdisp : s.dispPrio u = s.epri u := by
        rcases h.inherits.epri_cases u with ⟨-, hnil⟩ | hlt
        · have hin := (h.inherits.mem k u).mpr hinh
          rw [hnil] at hin
          cases hin
        · unfold dispPrio
          rw [if_pos (by omega)]
      obtain ⟨s1, hs1, hw⟩ :=
          piWaive_ok (s := { s with owner := update s.owner o owner }) (k := k) hdisp hu
      have hw' : Waived s k u { s1 with owner := s.owner } :=
        { hw with frame := { hw.frame with owner := rfl } }
      refine ⟨_, hw'.frame, h.inherits.waive h.attached hinh hu hw', ?_, hw.sleepq, fun q n => ?_⟩
      · rw [hw'.inheritor, update_self]
      · have hown : s1.owner = update s.owner o owner := hw.frame.owner
        dsimp only
        rw [hs1, ← hown]
        rfl
  obtain ⟨s2, hf, hi, hnone, hq, heq⟩ := hs
  have hno : ∀ x u, s2.inheritor x = some u → s2.sobj x ≠ some o := by
    intro x u hx hobj'
    have hin := hi.active x u hx
    rw [hf.sobj] at hobj'
    rw [hf.first] at hin
    obtain rfl := h.attached.object x hin k hk (hobj'.trans hobj.symm)
    rw [hnone] at hx
    cases hx
  have hi' := hi.setOwner owner hno
  rw [hf.owner] at hi'
  refine ⟨_, heq, ⟨?_, hi'.settle ?_, ?_, ?_, ?_⟩, hnone, hq, hf.wchan, rfl⟩
  · exact (hf.attached h.attached).of_perm rfl rfl rfl rfl rfl rfl fun _ => .rfl
  · intro a u hp hno' hb
    have hw : s.wchan a = some o := by
      rcases hp with hp | hp
      · have hne : s2.wchan a ≠ none := by
          intro h'
          exact absurd (hb.symm.trans (blockedBy_eq_none h')) (some_ne_none u)
        rw [hf.wchan] at hne
        have hin := h.attached.sleeps a hne
        rw [hp] at hin
        rw [(h.attached.asleep k a hin).2.1, hobj]
      · rw [← hf.wchan]
        exact hp
    -- It is not pending only if there is no new owner.
    unfold blockedBy at hb
    dsimp only at hb hno'
    rw [hf.wchan] at hb hno'
    rw [hw, bind_some, update_self] at hb
    rw [hb] at hno'
    exact absurd ⟨some_ne_none u, hw⟩ hno'
  · exact hf.sobj ▸ hobj
  · intro a ha
    rw [hf.wchan] at ha
    rw [hf.tts]
    exact hhome a ha
  · intro w hw
    rw [hw]
    exact update_self ..

/-- `turnstile_wakeup` with a change of owner. -/
theorem Sound.wakeup [DecidableEq O] (h : Sound s) {n : Nat} (ht : s.wchan t = none)
    (howner : s.owner o = some t ∨ s.owner o = none) (hlook : s.lookup o = some k)
    (heq : ({ s with owner := update s.owner o owner } : State T O).wakeup k q n owner = some s') :
    Sound s' := by
  obtain ⟨s1, hloop, hw, -, -, hwchan, hown⟩ := h.waive owner ht howner hlook
  rw [hloop] at heq
  obtain ⟨hw', howner', hback, hrun⟩ := wakeLoop_ok n s1 s' owner heq hw
  refine ⟨hw'.attached, hw'.inherits.settle (fun _ _ hp => absurd rfl hp.1), ?_⟩
  -- Whoever is still blocked is blocked as before, or by the new owner.
  refine h.ranked.stop owner (fun w hw => blockedBy_eq_none (hrun w hw)) ?_
  intro a b hb
  unfold blockedBy at hb ⊢
  rw [howner', hown] at hb
  rcases hback a with h' | h'
  · rw [h'] at hb
    cases hb
  rw [h', hwchan] at hb
  obtain ⟨o', ho', hb⟩ := bind_eq_some_iff.mp hb
  by_cases hoo : o' = o
  · rw [hoo, update_self] at hb
    exact .inr hb
  · rw [update_of_ne hoo] at hb
    rw [ho']
    exact .inl hb

/-! ### Wakeups that are met -/

/-- A thread that sleeps in a turnstile from which nobody inherits is woken. -/
theorem wakeOne_isSome (hq : s.sleepq k q = t :: l) (hinh : s.inheritor k = none) :
    ∃ s', s.wakeOne k q = some (s', t) := by
  unfold wakeOne
  rw [hq]
  cases s.free k with
  | nil =>
    rw [if_pos hinh]
    exact ⟨_, rfl⟩
  | cons f fs => exact ⟨_, rfl⟩

/-- Any number of the threads on a queue is woken, if there is no new owner. -/
theorem wakeLoop_isSome : ∀ (n : Nat) (s : State T O),
    n ≤ (s.sleepq k q).length → s.inheritor k = none → ∃ s', wakeLoop k q n s none = some s' := by
  intro n
  induction n with
  | zero => exact fun s _ _ => ⟨s, rfl⟩
  | succ n ih =>
    intro s hn hinh
    cases hq : s.sleepq k q with
    | nil =>
      rw [hq] at hn
      exact absurd hn (Nat.not_succ_le_zero n)
    | cons t l =>
      obtain ⟨s1, heq⟩ := wakeOne_isSome hq hinh
      have hw := wakeOne_cases heq
      have hrest := hw.queue
      rw [hq] at hrest
      rw [wakeLoop, heq]
      refine ih s1 ?_ (by rw [hw.inheritor]; exact hinh)
      rw [hq, (cons.inj hrest).2] at hn
      exact Nat.succ_le_succ_iff.mp hn

/-- A wakeup that does not ask for more threads than sleep, and hands the object
    over to one thread that it wakes, or to nobody, is met. -/
theorem wakeup_isSome [DecidableEq O] (h : Sound s) {n : Nat} (ht : s.wchan t = none)
    (howner : s.owner o = some t ∨ s.owner o = none) (hlook : s.lookup o = some k)
    (hn : n ≤ (s.sleepq k q).length) (hnew : owner = none ∨ n = 1 ∧ owner = (s.sleepq k q).head?) :
    ∃ s', ({ s with owner := update s.owner o owner } : State T O).wakeup k q n owner =
      some s' := by
  obtain ⟨s1, hloop, hw, hinh, hq, -, -⟩ := h.waive owner ht howner hlook
  rw [hloop]
  rw [← hq] at hn hnew
  rcases hnew with rfl | ⟨rfl, hhead⟩
  · exact wakeLoop_isSome n s1 hn hinh
  cases hsq : s1.sleepq k q with
  | nil =>
    rw [hsq] at hn
    exact absurd hn (Nat.not_succ_le_zero 0)
  | cons a l =>
    rw [hsq, head?_cons] at hhead
    obtain ⟨s2, heq⟩ := wakeOne_isSome hsq hinh
    have hwoken := wakeOne_cases heq
    have hw2 := hw.woken hwoken
    rw [hhead] at hw2
    obtain ⟨s3, b, hinherit, -, -⟩ := hw2.inherit (by rw [hwoken.wchan, update_self])
    rw [wakeLoop, heq, bind_some]
    rw [if_pos hhead, hinherit]
    exact ⟨s3, rfl⟩

end Sol7.Turnstile
