import Sol7.Turnstile.Attached

/-!
# Inheriting and Waiving Priority

A thread inherits from the turnstiles on its `t_prioinv` list, and its `t_epri`
is the highest priority of those. Where a thread sleeps, either its priority is
no higher than that of the owner, or the owner inherits from the turnstile at
least as much.

While a call goes on, this last part does not hold for some threads: for one
that has just gone to sleep or whose priority has just been raised, or for all
that sleep in a turnstile whose owner changes. They are pending.

## Main definitions

* `State.inherited`: The highest priority on the list of a thread.
* `Inherits`: What is true of priorities, but for pending threads.

## Theorems

* `Inherits.dispPrio_le`: An owner has at least the priority of those that sleep.
* `threadChangeEpri_ok`: A priority is changed.
* `piInherit_ok`: `turnstile_pi_inherit` settles those that are pending, and may
  leave the inheritor pending.
* `piWaive_ok`: `turnstile_pi_waive`.
-/

namespace Sol7.Turnstile

open List Option Function State

/-! ### The highest of a list -/

section
variable {T : Type*}

/-- The highest value on a list, or 0. -/
def top (f : T → Nat) (l : List T) : Nat := (l.map f).foldr max 0

theorem top_cons (f : T → Nat) (x : T) (l : List T) : top f (x :: l) = max (f x) (top f l) := rfl

theorem le_top {f : T → Nat} {l : List T} : ∀ x ∈ l, f x ≤ top f l := by
  induction l with
  | nil =>
    nofun
  | cons y l ih =>
    exact forall_mem_cons.mpr ⟨le_max_left _ _, fun x hx =>
      (ih x hx).trans (le_max_right _ _)⟩

theorem top_le {f : T → Nat} {l : List T} {n : Nat} (h : ∀ x ∈ l, f x ≤ n) : top f l ≤ n := by
  induction l with
  | nil => exact zero_le
  | cons y l ih =>
    exact Nat.max_le.mpr ⟨h y mem_cons_self, ih (forall_mem_cons.mp h).2⟩

end

variable {T O : Type*}

/-- The highest priority on the list of a thread. -/
def State.inherited (s : State T O) (t : T) : Nat := top s.tsEpri (s.prioinv t)

/-- What is true of priorities, but for pending threads: the lists are those of
    the inheritors, an inheritor owns the object and inherits more than it has,
    an owner has inherited enough, and the queues are sorted. -/
structure Inherits (pending : T → Prop) (s : State T O) : Prop where
  nodup : ∀ t, (s.prioinv t).Nodup
  mem : ∀ k t, k ∈ s.prioinv t ↔ s.inheritor k = some t
  active : ∀ k t, s.inheritor k = some t → k ∈ s.first
  owns : ∀ k t, s.inheritor k = some t → ∃ o, s.sobj k = some o ∧ s.owner o = some t
  more : ∀ k t, s.inheritor k = some t → s.pri t < s.tsEpri k
  epri : ∀ t, s.epri t = s.inherited t
  link : ∀ t u, ¬pending t → s.blockedBy t = some u → s.dispPrio t ≤ s.pri u ∨
    (s.inheritor (s.tts t) = some u ∧ s.dispPrio t ≤ s.tsEpri (s.tts t))
  sorted : ∀ k q, (s.sleepq k q).Pairwise fun a b => s.dispPrio b ≤ s.dispPrio a

section
variable {P Q : T → Prop} {s : State T O}

/-- A thread inherits nothing, or more than it has. -/
theorem Inherits.epri_cases (h : Inherits P s) (t : T) :
    (s.epri t = 0 ∧ s.prioinv t = []) ∨ s.pri t < s.epri t := by
  cases hl : s.prioinv t with
  | nil =>
    refine .inl ⟨?_, rfl⟩
    rw [h.epri, inherited, hl]
    rfl
  | cons k l =>
    have hk : k ∈ s.prioinv t := hl ▸ mem_cons_self
    have h1 := h.more k t ((h.mem k t).mp hk)
    have h2 : s.tsEpri k ≤ s.inherited t := le_top k hk
    rw [← h.epri] at h2
    exact .inr (by omega)

/-- The dispatch priority is the higher one of the two. -/
theorem Inherits.dispPrio_eq (h : Inherits P s) (t : T) :
    s.dispPrio t = max (s.pri t) (s.epri t) := by
  unfold dispPrio
  rcases h.epri_cases t with ⟨h0, -⟩ | hlt
  · rw [if_neg (not_not.mpr h0)]
    omega
  · rw [if_pos (by omega)]
    omega

/-- An owner has at least the priority of a thread that sleeps for it. -/
theorem Inherits.dispPrio_le (h : Inherits P s) {t u : T} (ht : ¬P t)
    (hblocked : s.blockedBy t = some u) : s.dispPrio t ≤ s.dispPrio u := by
  have hu := h.dispPrio_eq u
  rcases h.link t u ht hblocked with hle | ⟨hinh, hle⟩
  · omega
  · have h1 : s.tsEpri (s.tts t) ≤ s.inherited u := le_top _ ((h.mem _ u).mpr hinh)
    rw [← h.epri] at h1
    omega

/-- Fewer threads are pending if the others are settled. -/
theorem Inherits.settle (h : Inherits P s)
    (hlink : ∀ t u, P t → ¬Q t → s.blockedBy t = some u → s.dispPrio t ≤ s.pri u ∨
      (s.inheritor (s.tts t) = some u ∧ s.dispPrio t ≤ s.tsEpri (s.tts t))) : Inherits Q s := by
  refine { h with link := ?_ }
  intro t u hq hb
  by_cases hp : P t
  · exact hlink t u hp hq hb
  · exact h.link t u hp hb

end

variable {s s' : State T O} {t a k u : T}

/-- The sort keys of a queue without the thread do not change. -/
theorem pairwise_of_not_mem {disp disp' : T → Nat} {l : List T} (ht : t ∉ l)
    (hdisp : ∀ a, a ≠ t → disp' a = disp a) (h : l.Pairwise fun a b => disp b ≤ disp a) :
    l.Pairwise fun a b => disp' b ≤ disp' a := by
  refine h.imp_of_mem ?_
  intro a b ha hb hle
  rw [hdisp a (fun heq => ht (heq ▸ ha)), hdisp b (fun heq => ht (heq ▸ hb))]
  exact hle

/-- What inheriting and waiving leave alone. -/
structure Frame (s s' : State T O) : Prop where
  pri : s'.pri = s.pri
  tts : s'.tts = s.tts
  wchan : s'.wchan = s.wchan
  sobj : s'.sobj = s.sobj
  waiters : s'.waiters = s.waiters
  free : s'.free = s.free
  first : s'.first = s.first
  owner : s'.owner = s.owner
  sleepers : ∀ k, (s'.sleepers k).Perm (s.sleepers k)

theorem Frame.refl (s : State T O) : Frame s s :=
  ⟨rfl, rfl, rfl, rfl, rfl, rfl, rfl, rfl, fun _ => .rfl⟩

theorem Frame.trans {s1 s2 s3 : State T O} (h : Frame s1 s2) (h' : Frame s2 s3) : Frame s1 s3 :=
  ⟨h'.pri.trans h.pri, h'.tts.trans h.tts, h'.wchan.trans h.wchan, h'.sobj.trans h.sobj,
    h'.waiters.trans h.waiters, h'.free.trans h.free, h'.first.trans h.first,
    h'.owner.trans h.owner, fun k => (h'.sleepers k).trans (h.sleepers k)⟩

theorem Frame.attached (h : Frame s s') (ha : Attached s) : Attached s' :=
  ha.of_perm h.first h.tts h.wchan h.free h.sobj h.waiters h.sleepers

theorem Frame.blockedBy (h : Frame s s') : s'.blockedBy = s.blockedBy := by
  unfold State.blockedBy
  rw [h.wchan, h.owner]

variable {P : T → Prop} [DecidableEq T]

/-- What changing the priority of a thread changes. -/
structure Changed (s : State T O) (t : T) (e : Nat) (s' : State T O) : Prop where
  pri : s'.pri = s.pri
  epri : s'.epri = update s.epri t e
  tts : s'.tts = s.tts
  wchan : s'.wchan = s.wchan
  prioinv : s'.prioinv = s.prioinv
  sobj : s'.sobj = s.sobj
  waiters : s'.waiters = s.waiters
  tsEpri : s'.tsEpri = s.tsEpri
  inheritor : s'.inheritor = s.inheritor
  free : s'.free = s.free
  first : s'.first = s.first
  owner : s'.owner = s.owner
  perm : ∀ k q, (s'.sleepq k q).Perm (s.sleepq k q)
  sorted : (∀ k q, (s.sleepq k q).Pairwise fun a b => s.dispPrio b ≤ s.dispPrio a) →
    ∀ k q, (s'.sleepq k q).Pairwise fun a b => s'.dispPrio b ≤ s'.dispPrio a

theorem Changed.dispPrio_of_ne {e : Nat} (h : Changed s t e s') (hne : a ≠ t) :
    s'.dispPrio a = s.dispPrio a := by
  unfold dispPrio
  rw [h.epri, h.pri, update_of_ne hne]

theorem Changed.refl (s : State T O) (t : T) : Changed s t (s.epri t) s :=
  ⟨rfl, (update_eq_self ..).symm, rfl, rfl, rfl, rfl, rfl, rfl, rfl, rfl, rfl, rfl,
    fun _ _ => .rfl, id⟩

theorem Changed.frame {e : Nat} (h : Changed s t e s') : Frame s s' :=
  { h with sleepers := fun k => (h.perm k .writer).append (h.perm k .reader) }

/-- The priority of a thread that sleeps is changed: it is put on its queue
    anew. -/
theorem changePri_ok (ha : Attached s) (e : Nat) (ht : s.wchan t ≠ none) :
    ∃ s', s.changePri t e = some s' ∧ Changed s t e s' := by
  -- The thread is on one queue, and on no other.
  have hq : ∃ q, t ∈ s.sleepq (s.tts t) q ∧ s.changePri t e = some
        (({ s.setQ (s.tts t) q ((s.sleepq (s.tts t) q).erase t) with
            epri := update s.epri t e } : State T O).setQ (s.tts t) q
          (sleepqInsert
            ({ s.setQ (s.tts t) q ((s.sleepq (s.tts t) q).erase t) with
              epri := update s.epri t e } : State T O).dispPrio t
            ((s.sleepq (s.tts t) q).erase t))) := by
    by_cases hw : t ∈ s.sleepq (s.tts t) .writer
    · refine ⟨.writer, hw, ?_⟩
      unfold changePri
      simp only [if_pos hw, setQ, and_self, if_true]
    have hr : t ∈ s.sleepq (s.tts t) .reader := (mem_append.mp (ha.sleeps t ht)).resolve_left hw
    refine ⟨.reader, hr, ?_⟩
    unfold changePri
    simp only [if_neg hw, if_pos hr, setQ, and_self, if_true]
  obtain ⟨q, hmem, heq⟩ := hq
  have hdis := nodup_append.mp (ha.single (s.tts t))
  have hnd : (s.sleepq (s.tts t) q).Nodup := by
    cases q with
    | writer => exact hdis.1
    | reader => exact hdis.2.1
  have hnot : ∀ k' q', ¬(k' = s.tts t ∧ q' = q) → t ∉ s.sleepq k' q' := by
    intro k' q' hne hin'
    have hk' : k' = s.tts t := (ha.asleep k' t (mem_sleepers hin')).2.2.symm
    have hq' : q' ≠ q := fun h => hne ⟨hk', h⟩
    rw [hk'] at hin'
    cases q with
    | writer =>
      cases q' with
      | writer => exact hq' rfl
      | reader => exact hdis.2.2 t hmem t hin' rfl
    | reader =>
      cases q' with
      | writer => exact hdis.2.2 t hin' t hmem rfl
      | reader => exact hq' rfl
  refine ⟨_, heq, { Changed.refl s t with epri := rfl, perm := ?_, sorted := ?_ }⟩
  · intro k' q'
    by_cases hkq : k' = s.tts t ∧ q' = q
    · simp only [setQ, if_pos hkq]
      rw [hkq.1, hkq.2]
      exact (sleepqInsert_perm _ _ _).trans (perm_cons_erase hmem).symm
    · simp only [setQ, if_neg hkq]
      exact .rfl
  · intro hsorted k' q'
    have hdisp : ∀ a, a ≠ t → (if update s.epri t e a ≠ 0 then update s.epri t e a else s.pri a) =
          s.dispPrio a := by
      intro a hne
      rw [update_of_ne hne]
      rfl
    by_cases hkq : k' = s.tts t ∧ q' = q
    · simp only [setQ, if_pos hkq]
      refine sleepqInsert_sorted _ _ _ ?_
      refine pairwise_of_not_mem (fun h => ?_) hdisp ((hsorted _ _).sublist erase_sublist)
      exact (hnd.mem_erase_iff.mp h).1 rfl
    · simp only [setQ, if_neg hkq]
      exact pairwise_of_not_mem (hnot k' q' hkq) hdisp (hsorted k' q')

/-- `thread_change_epri`. -/
theorem threadChangeEpri_ok (ha : Attached s) (t : T) (e : Nat) :
    ∃ s', s.threadChangeEpri t e = some s' ∧ Changed s t e s' := by
  unfold threadChangeEpri
  by_cases ht : s.wchan t = none
  · rw [if_pos ht]
    refine ⟨_, rfl, { Changed.refl s t with epri := rfl, sorted := ?_ }⟩
    intro hsorted k q
    have hnot : t ∉ s.sleepq k q := fun hin => (ha.asleep k t (mem_sleepers hin)).1 ht
    refine pairwise_of_not_mem hnot ?_ (hsorted k q)
    · intro a hne
      simp only [dispPrio, update_of_ne hne]
  · rw [if_neg ht]
    exact changePri_ok ha e ht

/-! ### Inheriting -/

/-- The turnstile is on the list of the inheritor, with at least the new
    priority. -/
def State.record (s : State T O) (k u : T) (e : Nat) : State T O :=
  match s.inheritor k with
  | none =>
    { s with
      inheritor := update s.inheritor k (some u)
      tsEpri := update s.tsEpri k e
      prioinv := update s.prioinv u (k :: s.prioinv u) }
  | some _ => if s.tsEpri k < e then { s with tsEpri := update s.tsEpri k e } else s

theorem piInherit_eq (k u : T) (e : Nat) : s.piInherit k u e =
    if e ≤ s.pri u then some (s, false) else
      (if e > (s.record k u e).dispPrio u then (s.record k u e).threadChangeEpri u e
        else some (s.record k u e)).map fun s => (s, true) :=
  rfl

/-- What recording an inheritance changes. -/
structure Recorded (s : State T O) (k u : T) (e : Nat) (s' : State T O) : Prop where
  frame : Frame s s'
  epri : s'.epri = s.epri
  sleepq : s'.sleepq = s.sleepq
  inheritor : s'.inheritor = update s.inheritor k (some u)
  prioinv : ∀ t, (s'.prioinv t).Nodup ∧ ∀ x, x ∈ s'.prioinv t ↔ s'.inheritor x = some t
  self : e ≤ s'.tsEpri k
  other : ∀ x, x ≠ k → s'.tsEpri x = s.tsEpri x
  old : ∀ t, s.inheritor k = some t → s.tsEpri k ≤ s'.tsEpri k
  new : s'.tsEpri k = e ∨ (s.inheritor k = some u ∧ s'.tsEpri k = s.tsEpri k)

theorem record_ok (hi : Inherits P s) (e : Nat) (hk : ∀ t, s.inheritor k = some t → t = u) :
    Recorded s k u e (s.record k u e) := by
  unfold record
  cases hinh : s.inheritor k with
  | none =>
    have hnot : ∀ t, k ∉ s.prioinv t := by
      intro t hin
      rw [hi.mem, hinh] at hin
      cases hin
    refine ⟨{ Frame.refl s with }, rfl, rfl, rfl, ?_, ?_, ?_, ?_, ?_⟩
    · intro t
      by_cases htu : t = u
      · rw [htu]
        simp only [update_self]
        refine ⟨nodup_cons.mpr ⟨hnot u, hi.nodup u⟩, ?_⟩
        intro x
        by_cases hxk : x = k
        · rw [hxk]
          simp
        · rw [update_of_ne hxk, ← hi.mem]
          simp [hxk]
      · simp only [update_of_ne htu]
        refine ⟨hi.nodup t, ?_⟩
        intro x
        by_cases hxk : x = k
        · rw [hxk]
          simp [hnot t, Ne.symm htu]
        · rw [update_of_ne hxk]
          exact hi.mem x t
    · simp only [update_self, Nat.le_refl]
    · intro x hx
      simp only [update_of_ne hx]
    · intro t h
      rw [hinh] at h
      cases h
    · simp only [update_self, true_or]
  | some t =>
    obtain rfl := hk t hinh
    have hupd : s.inheritor = update s.inheritor k (some t) := by rw [← hinh, update_eq_self]
    by_cases hlt : s.tsEpri k < e
    · rw [if_pos hlt]
      refine ⟨{ Frame.refl s with }, rfl, rfl, hupd,
        fun t => ⟨hi.nodup t, fun x => hi.mem x t⟩, ?_, ?_, ?_, ?_⟩
      · simp only [update_self, Nat.le_refl]
      · intro x hx
        simp only [update_of_ne hx]
      · intro _ _
        simp only [update_self]
        exact hlt.le
      · simp only [update_self, true_or]
    · rw [if_neg hlt]
      exact ⟨Frame.refl s, rfl, rfl, hupd, fun t => ⟨hi.nodup t, fun x => hi.mem x t⟩,
        not_lt.mp hlt, fun _ _ => rfl, fun _ _ => le_rfl, .inr ⟨hinh, rfl⟩⟩

theorem Recorded.mem_prioinv {e : Nat} (hr : Recorded s k u e s') (hi : Inherits P s) (t : T)
    {x : T} (hx : x ≠ k) : x ∈ s'.prioinv t ↔ x ∈ s.prioinv t := by
  rw [(hr.prioinv t).2, hi.mem, hr.inheritor, update_of_ne hx]

/-- The other threads inherit what they did. -/
theorem Recorded.inherited_of_ne {e : Nat} (hr : Recorded s k u e s') (hi : Inherits P s)
    (hk : ∀ t, s.inheritor k = some t → t = u) {t : T} (ht : t ≠ u) :
    s'.inherited t = s.inherited t := by
  have hne1 : ∀ x ∈ s'.prioinv t, x ≠ k := by
    rintro x hx rfl
    rw [(hr.prioinv t).2, hr.inheritor, update_self] at hx
    exact ht (some.inj hx).symm
  have hne : ∀ x ∈ s.prioinv t, x ≠ k := by
    rintro x hx rfl
    exact ht (hk t ((hi.mem x t).mp hx))
  apply le_antisymm
  · refine top_le fun x hx => ?_
    rw [hr.other x (hne1 x hx)]
    exact le_top x ((hr.mem_prioinv hi t (hne1 x hx)).mp hx)
  · refine top_le fun x hx => ?_
    rw [← hr.other x (hne x hx)]
    exact le_top x ((hr.mem_prioinv hi t (hne x hx)).mpr hx)

/-- The inheritor has gained the new priority. -/
theorem Recorded.inherited_self {e : Nat} (hr : Recorded s k u e s') (hi : Inherits P s) :
    s'.inherited u = max (s.inherited u) e := by
  have hku : k ∈ s'.prioinv u := by rw [(hr.prioinv u).2, hr.inheritor, update_self]
  apply le_antisymm
  · refine top_le fun x hx => ?_
    by_cases hxk : x = k
    · rw [hxk]
      rcases hr.new with h | ⟨hin, h⟩
      · rw [h]
        exact le_max_right _ _
      · rw [h]
        exact le_trans (le_top k ((hi.mem k u).mpr hin)) (le_max_left _ _)
    · rw [hr.other x hxk]
      exact le_trans (le_top x ((hr.mem_prioinv hi u hxk).mp hx)) (le_max_left _ _)
  · refine Nat.max_le.mpr ⟨top_le fun x hx => ?_, hr.self.trans (le_top k hku)⟩
    by_cases hxk : x = k
    · rw [hxk] at hx ⊢
      exact le_trans (hr.old u ((hi.mem k u).mp hx)) (le_top k hku)
    · rw [← hr.other x hxk]
      exact le_top x ((hr.mem_prioinv hi u hxk).mpr hx)

/-- What `turnstile_pi_inherit` needs: the inheritor owns the object of the
    turnstile, and those that are pending sleep in it with no higher a
    priority. -/
structure Heir (s : State T O) (P : T → Prop) (k u : T) (e : Nat) : Prop where
  active : k ∈ s.first
  owns : ∃ o, s.sobj k = some o ∧ s.owner o = some u
  pending : ∀ t v, P t → s.blockedBy t = some v → s.tts t = k ∧ v = u ∧ s.dispPrio t ≤ e

/-- `turnstile_pi_inherit` settles those that are pending. If it was necessary,
    the inheritor is pending itself. -/
theorem piInherit_ok (ha : Attached s) (hi : Inherits P s) {e : Nat} (hh : Heir s P k u e) :
    ∃ s' b, s.piInherit k u e = some (s', b) ∧ Frame s s' ∧
      (b = false → Inherits (fun _ => False) s') ∧ (b = true → Inherits (fun t => t = u) s') := by
  rw [piInherit_eq]
  by_cases hle : e ≤ s.pri u
  · rw [if_pos hle]
    refine ⟨s, false, rfl, Frame.refl s, fun _ => ?_, nofun⟩
    refine hi.settle ?_
    intro t v hp _ hb
    obtain ⟨-, rfl, hd⟩ := hh.pending t v hp hb
    exact .inl (hd.trans hle)
  rw [if_neg hle]
  have hk : ∀ t, s.inheritor k = some t → t = u := by
    intro t ht
    obtain ⟨o, hobj, how⟩ := hh.owns
    obtain ⟨o', hobj', how'⟩ := hi.owns k t ht
    obtain rfl := some.inj (hobj.symm.trans hobj')
    exact some.inj (how'.symm.trans how)
  have hr := record_ok hi e hk
  generalize s.record k u e = s1 at hr
  have ha1 := hr.frame.attached ha
  have hdisp1 : ∀ a, s1.dispPrio a = s.dispPrio a := by
    intro a
    unfold dispPrio
    rw [hr.epri, hr.frame.pri]
  have hu := hi.dispPrio_eq u
  have hnow : ∀ x t, s1.inheritor x = some t → x ∈ s.first ∧
      (∃ o, s.sobj x = some o ∧ s.owner o = some t) ∧ s.pri t < s1.tsEpri x := by
    intro x t hx
    rw [hr.inheritor] at hx
    by_cases hxk : x = k
    · rw [hxk, update_self] at hx
      cases hx
      rw [hxk]
      exact ⟨hh.active, hh.owns, (not_le.mp hle).trans_le hr.self⟩
    · rw [update_of_ne hxk] at hx
      rw [hr.other x hxk]
      exact ⟨hi.active x t hx, hi.owns x t hx, hi.more x t hx⟩
  have hlink : ∀ t v, s.blockedBy t = some v → s.dispPrio t ≤ s.pri v ∨
      (s1.inheritor (s.tts t) = some v ∧ s.dispPrio t ≤ s1.tsEpri (s.tts t)) := by
    intro t v hb
    by_cases hp : P t
    · obtain ⟨htk, rfl, hd⟩ := hh.pending t v hp hb
      rw [htk, hr.inheritor, update_self]
      exact .inr ⟨rfl, hd.trans hr.self⟩
    rcases hi.link t v hp hb with h | ⟨hin, hd⟩
    · exact .inl h
    refine .inr ?_
    rw [hr.inheritor]
    by_cases htk : s.tts t = k
    · rw [htk] at hin hd ⊢
      rw [update_self, hk v hin]
      exact ⟨rfl, hd.trans (hr.old v hin)⟩
    · rw [update_of_ne htk, hr.other _ htk]
      exact ⟨hin, hd⟩
  -- The inheritor gets what it inherits now, or has it already.
  have hset : ∃ s', (if e > s1.dispPrio u then s1.threadChangeEpri u e else some s1) = some s' ∧
      Changed s1 u (s1.inherited u) s' := by
    rw [hr.inherited_self hi, ← hi.epri, hdisp1]
    by_cases hgt : e > s.dispPrio u
    · rw [if_pos hgt, show max (s.epri u) e = e by omega]
      exact threadChangeEpri_ok ha1 u e
    · rw [if_neg hgt, show max (s.epri u) e = s1.epri u by rw [hr.epri]; omega]
      exact ⟨s1, rfl, Changed.refl s1 u⟩
  obtain ⟨s', heq, hc⟩ := hset
  rw [heq, map_some]
  have hf := hr.frame.trans hc.frame
  refine ⟨s', true, rfl, hf, nofun, fun _ => ⟨fun t => ?_, fun x t => ?_, fun x t hx => ?_,
    fun x t hx => ?_, fun x t hx => ?_, fun t => ?_, fun t v htu hb => ?_, hc.sorted ?_⟩⟩
  · rw [hc.prioinv]
    exact (hr.prioinv t).1
  · rw [hc.prioinv, hc.inheritor]
    exact (hr.prioinv t).2 x
  · rw [hf.first]
    exact (hnow x t (hc.inheritor ▸ hx)).1
  · rw [hf.sobj, hf.owner]
    exact (hnow x t (hc.inheritor ▸ hx)).2.1
  · rw [hf.pri, hc.tsEpri]
    exact (hnow x t (hc.inheritor ▸ hx)).2.2
  · rw [show s'.inherited t = s1.inherited t by unfold inherited; rw [hc.prioinv, hc.tsEpri],
      hc.epri]
    by_cases htu : t = u
    · rw [htu, update_self]
    · rw [update_of_ne htu, hr.epri, hr.inherited_of_ne hi hk htu]
      exact hi.epri t
  · rw [hf.blockedBy] at hb
    rw [hc.dispPrio_of_ne htu, hdisp1, hf.pri, hf.tts, hc.inheritor, hc.tsEpri]
    exact hlink t v hb
  · intro k q
    simp only [hdisp1, hr.sleepq]
    exact hi.sorted k q

/-! ### Waiving -/

/-- The walk over the list of an inheritor. -/
theorem waiveList_eq (k : T) : ∀ (l : List T) (e : Nat),
    (s.waiveList k l e).1 = l.filter (fun x => x ≠ k) ∧
      (s.waiveList k l e).2 = max e (top s.tsEpri (l.filter fun x => x ≠ k)) := by
  intro l
  induction l with
  | nil =>
    intro e
    exact ⟨rfl, (Nat.max_zero e).symm⟩
  | cons x l ih =>
    intro e
    rw [waiveList]
    by_cases hx : x = k
    · rw [if_pos hx, filter_cons_of_neg (by simp [hx])]
      exact ih e
    rw [if_neg hx, filter_cons_of_pos (by simp [hx]), top_cons]
    obtain ⟨h1, h2⟩ := ih (max e (s.tsEpri x))
    dsimp only
    refine ⟨by rw [h1], ?_⟩
    omega

/-- What waiving changes. -/
structure Waived (s : State T O) (k u : T) (s' : State T O) : Prop where
  frame : Frame s s'
  sleepq : s'.sleepq = s.sleepq
  epri : s'.epri = update s.epri u (top s.tsEpri ((s.prioinv u).filter fun x => x ≠ k))
  tsEpri : s'.tsEpri = s.tsEpri
  prioinv : s'.prioinv = update s.prioinv u ((s.prioinv u).filter fun x => x ≠ k)
  inheritor : s'.inheritor = update s.inheritor k none

/-- `turnstile_pi_waive`, by an inheritor that runs with what it has inherited. -/
theorem piWaive_ok (hdisp : s.dispPrio u = s.epri u) (hu : s.wchan u = none) :
    ∃ s', s.piWaive k u = some s' ∧ Waived s k u s' := by
  obtain ⟨hlist, hnew⟩ := waiveList_eq k (s.prioinv u) 0
  rw [Nat.zero_max] at hnew
  unfold piWaive
  dsimp only
  rw [hlist, hnew]
  generalize hl : (s.prioinv u).filter (fun x => x ≠ k) = l
  by_cases hne : top s.tsEpri l ≠ s.dispPrio u
  · have hne' : top s.tsEpri l ≠ dispPrio
        { s with prioinv := update s.prioinv u l } u := hne
    rw [if_pos hne']
    unfold threadChangeEpri
    rw [if_pos hu]
    exact ⟨_, rfl, { Frame.refl s with }, rfl, hl ▸ rfl, rfl, hl ▸ rfl, rfl⟩
  · have hne' : ¬top s.tsEpri l ≠ dispPrio
        { s with prioinv := update s.prioinv u l } u := hne
    rw [if_neg hne']
    refine ⟨_, rfl, { Frame.refl s with }, rfl, ?_, rfl, hl ▸ rfl, rfl⟩
    rw [hl, not_not.mp hne, hdisp, update_eq_self]

/-- After waiving, those that sleep in the turnstile are pending. -/
theorem Inherits.waive (hi : Inherits (fun _ => False) s) (ha : Attached s)
    (hk : s.inheritor k = some u) (hu : s.wchan u = none) (hw : Waived s k u s') :
    Inherits (fun t => s.tts t = k) s' := by
  obtain ⟨hf, hq, hepri, hts, hlist, hinh⟩ := hw
  have hdisp : ∀ a, a ≠ u → s'.dispPrio a = s.dispPrio a := by
    intro a ha
    unfold dispPrio
    rw [hepri, hf.pri, update_of_ne ha]
  have hold : ∀ x t, s'.inheritor x = some t → x ≠ k ∧ s.inheritor x = some t := by
    intro x t hx
    rw [hinh] at hx
    by_cases hxk : x = k
    · rw [hxk, update_self] at hx
      cases hx
    · rw [update_of_ne hxk] at hx
      exact ⟨hxk, hx⟩
  have hmem : ∀ x t, x ∈ s'.prioinv t ↔ x ≠ k ∧ x ∈ s.prioinv t := by
    intro x t
    rw [hlist]
    by_cases htu : t = u
    · rw [htu, update_self]
      simp [and_comm]
    rw [update_of_ne htu]
    constructor
    · intro hx
      refine ⟨?_, hx⟩
      rintro rfl
      exact htu (some.inj (((hi.mem x t).mp hx).symm.trans hk))
    · exact fun hx => hx.2
  constructor
  · intro t
    rw [hlist, update_apply]
    split
    · exact (hi.nodup u).filter _
    · exact hi.nodup t
  · intro x t
    rw [hmem, hi.mem]
    constructor
    · rintro ⟨hxk, hx⟩
      rw [hinh, update_of_ne hxk]
      exact hx
    · exact hold x t
  · intro x t hx
    rw [hf.first]
    exact hi.active x t (hold x t hx).2
  · intro x t hx
    rw [hf.sobj, hf.owner]
    exact hi.owns x t (hold x t hx).2
  · intro x t hx
    rw [hf.pri, hts]
    exact hi.more x t (hold x t hx).2
  · intro t
    unfold inherited
    rw [hepri, hts, hlist]
    by_cases htu : t = u
    · rw [htu, update_self, update_self]
    · rw [update_of_ne htu, update_of_ne htu]
      exact hi.epri t
  · intro t v htk hb
    rw [hf.blockedBy] at hb
    have htu : t ≠ u := by
      rintro rfl
      unfold blockedBy at hb
      rw [hu] at hb
      cases hb
    rw [hdisp t htu, hf.pri, hf.tts, hts, hinh, update_of_ne htk]
    exact hi.link t v not_false hb
  · intro x q
    rw [hq]
    refine pairwise_of_not_mem (fun hin => ?_) hdisp (hi.sorted x q)
    exact (ha.asleep x u (mem_sleepers hin)).1 hu

end Sol7.Turnstile
