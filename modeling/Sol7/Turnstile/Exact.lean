import Sol7.Turnstile.Calls

/-!
# Priority Inheritance Is Exact

What `Sound` says is true at first and is kept by every call, so it holds between
any two calls of any run. That an owner has at least the priority of whatever
waits for it, through however many other owners, then follows along the chain.

## Theorems

* `sound_reachable`: What is true between any two calls.
* `Sound.dispPrio_le`: Priorities along a blocking chain.
* `turnstile_pi_exact`: Priority inheritance is exact and transitive.
-/

namespace Sol7.Turnstile

open List Option

variable {T O : Type*} {s s' : State T O}

theorem State.Fresh.sleepers (h : s.Fresh) (k : T) : s.sleepers k = [] := by
  unfold State.sleepers
  rw [h.sleepq, h.sleepq]
  rfl

theorem State.Fresh.attached (h : s.Fresh) : Attached s := by
  have hfirst : ∀ k, k ∉ s.first := by
    intro k
    rw [h.first]
    exact not_mem_nil
  have hfree : ∀ k f, f ∉ s.free k := by
    intro k f
    rw [h.free]
    exact not_mem_nil
  have hsleepers : ∀ k t, t ∉ s.sleepers k := by
    intro k t
    rw [h.sleepers]
    exact not_mem_nil
  constructor
  · rw [h.first]
    exact nodup_nil
  · exact fun k _ => ⟨h.sleepers k, h.free k⟩
  · exact fun k hk => absurd hk (hfirst k)
  · intro k
    rw [h.waiters, h.sleepers]
    rfl
  · exact fun t _ => hfirst _
  · intro t t' _ _ heq
    rw [h.tts, h.tts] at heq
    exact heq
  · exact fun k f hf => absurd hf (hfree k f)
  · intro k
    rw [h.free]
    exact nodup_nil
  · exact fun k _ f hf => absurd hf (hfree k f)
  · exact fun k hk => absurd hk (hfirst k)
  · exact fun k t ht => absurd ht (hsleepers k t)
  · exact fun t ht => absurd (h.wchan t) ht
  · intro k
    rw [h.sleepers]
    exact nodup_nil

theorem State.Fresh.sound (h : s.Fresh) : Sound s := by
  have hinh : ∀ k t, s.inheritor k ≠ some t := by
    intro k t hk
    rw [h.inheritor] at hk
    cases hk
  have hblocked : ∀ t u, s.blockedBy t ≠ some u := by
    intro t u hb
    rw [blockedBy_eq_none (h.wchan t)] at hb
    cases hb
  refine ⟨h.attached, ⟨?_, ?_, ?_, ?_, ?_, ?_, ?_, ?_⟩, ?_⟩
  · intro t
    rw [h.prioinv]
    exact nodup_nil
  · intro k t
    rw [h.prioinv]
    exact ⟨nofun, fun hk => absurd hk (hinh k t)⟩
  · exact fun k t hk => absurd hk (hinh k t)
  · exact fun k t hk => absurd hk (hinh k t)
  · exact fun k t hk => absurd hk (hinh k t)
  · intro t
    rw [State.inherited, h.prioinv, h.epri]
    rfl
  · exact fun t u _ hb => absurd hb (hblocked t u)
  · intro k q
    rw [h.sleepq]
    exact .nil
  · exact ⟨fun _ => 0, fun t u hb => absurd hb (hblocked t u)⟩

/-- Priorities do not go down along a blocking chain. -/
theorem Sound.dispPrio_le (h : Sound s) {t u : T}
    (hchain : Relation.ReflTransGen (fun a b => s.blockedBy a = some b) t u) :
    s.dispPrio t ≤ s.dispPrio u := by
  induction hchain with
  | refl => exact le_rfl
  | tail _ hb ih => exact le_trans ih (h.inherits.dispPrio_le not_false hb)

variable [DecidableEq T] [DecidableEq O] [Fintype T]

/-- Every call keeps what is true between two calls. -/
theorem Sound.call (h : Sound s) (c : Call T O) (heq : Turnstile.call s c = some s') :
    Sound s' := by
  cases c with
  | acquire t o =>
    rw [Turnstile.call] at heq
    split at heq
    · next hguard =>
      cases heq
      exact h.setOwner (some t) hguard.2.2
    · cases heq
  | release t o =>
    rw [Turnstile.call] at heq
    split at heq
    · next hguard =>
      cases heq
      exact h.setOwner none hguard.2.2
    · cases heq
  | block t q o =>
    rw [Turnstile.call] at heq
    split at heq
    · next hguard =>
      obtain ⟨s1, hs1, hsound⟩ := block_ok h hguard q
      obtain rfl := some.inj (hs1.symm.trans heq)
      exact hsound
    · cases heq
  | wakeup t q o n owner =>
    rw [Turnstile.call] at heq
    split at heq
    · next hguard =>
      obtain ⟨k, hlook, heq⟩ := bind_eq_some_iff.mp heq
      exact h.wakeup hguard.1 hguard.2 hlook heq
    · cases heq

/-- What is true between any two calls. -/
theorem sound_reachable (hr : System.Reachable (turnstiles T O) s) : Sound s :=
  System.Reachable.invariant (turnstiles T O) Sound (fun _ h => h.sound)
    (fun _ _ c h heq => h.call c heq) s hr

/-- Priority inheritance is exact and transitive. In every state between two
    calls, a turnstile that somebody inherits from is once on the list of its
    inheritor, who owns the object, and on no other list; the inherited priority
    of a thread is the highest one on its list, or 0; and an owner has at least
    the priority of each thread that is blocked on the object, directly or
    through other owners. Blocking that closes no cycle, and a wakeup as clients
    ask for it, give a result. -/
theorem turnstile_pi_exact (hr : System.Reachable (turnstiles T O) s) :
    (∀ k t, s.inheritor k = some t →
      (∃ o, s.sobj k = some o ∧ s.owner o = some t) ∧ (s.prioinv t).count k = 1 ∧
        ∀ u, u ≠ t → k ∉ s.prioinv u) ∧
    (∀ k t, k ∈ s.prioinv t → s.inheritor k = some t) ∧
    (∀ t, s.epri t = ((s.prioinv t).map s.tsEpri).foldr max 0) ∧
    (∀ o w t u, s.owner o = some w → s.wchan u = some o →
      Relation.ReflTransGen (fun a b => s.blockedBy a = some b) t u →
      s.dispPrio t ≤ s.dispPrio w) ∧
    (∀ t q o, s.MayBlock t o → (call s (.block t q o)).isSome) ∧
    ∀ t q o k n owner, s.wchan t = none → s.owner o = some t ∨ s.owner o = none →
      s.lookup o = some k → n ≤ (s.sleepq k q).length →
      owner = none ∨ n = 1 ∧ owner = (s.sleepq k q).head? →
      (call s (.wakeup t q o n owner)).isSome := by
  have h := sound_reachable hr
  refine ⟨?_, ?_, h.inherits.epri, ?_, ?_, ?_⟩
  · intro k t hk
    refine ⟨h.inherits.owns k t hk, ?_, ?_⟩
    · exact count_eq_one_of_mem (h.inherits.nodup t) ((h.inherits.mem k t).mpr hk)
    · intro u hne hin
      have hu := (h.inherits.mem k u).mp hin
      exact hne (some.inj (hu.symm.trans hk))
  · exact fun k t => (h.inherits.mem k t).mp
  · intro o w t u how hu hchain
    refine h.dispPrio_le (hchain.tail ?_)
    unfold State.blockedBy
    rw [hu]
    exact how
  · intro t q o hm
    obtain ⟨s', heq, -⟩ := block_ok h hm q
    rw [call, if_pos hm, heq]
    rfl
  · intro t q o k n owner ht howner hlook hn hnew
    obtain ⟨s', heq⟩ := wakeup_isSome h ht howner hlook hn hnew
    rw [call, if_pos ⟨ht, howner⟩, hlook, bind_some, heq]
    rfl

/-- Three threads, nothing owned. -/
def threeThreads : State (Fin 3) (Fin 2) where
  pri := fun t => t.val + 1
  epri := fun _ => 0
  tts := id
  wchan := fun _ => none
  prioinv := fun _ => []
  sobj := fun _ => none
  waiters := fun _ => 0
  tsEpri := fun _ => 0
  inheritor := fun _ => none
  free := fun _ => []
  sleepq := fun _ _ => []
  first := []
  owner := fun _ => none

theorem threeThreads_fresh : threeThreads.Fresh :=
  ⟨fun _ => rfl, fun _ => rfl, fun _ => rfl, fun _ => rfl, fun _ => rfl, fun _ => rfl,
    fun _ => rfl, fun _ _ => rfl, rfl, fun _ => rfl⟩

/-- Thread 1 owns an object and blocks on one that thread 0 owns; thread 2, with
    the highest priority, blocks on the one of thread 1. -/
theorem turnstile_pi_exact_chain :
    ∃ s, System.Reachable (turnstiles (Fin 3) (Fin 2)) s ∧ s.blockedBy 2 = some 1 ∧
      s.blockedBy 1 = some 0 ∧ s.epri 0 = 3 ∧ s.dispPrio 2 ≤ s.dispPrio 0 := by
  have hr := System.reachable_get (turnstiles (Fin 3) (Fin 2))
    [.acquire 0 0, .acquire 1 1, .block 1 .writer 0, .block 2 .writer 1] threeThreads
    threeThreads_fresh rfl
  refine ⟨_, hr, rfl, rfl, rfl, ?_⟩
  exact (turnstile_pi_exact hr).2.2.2.1 0 0 2 1 rfl rfl (.tail .refl rfl)

/-- No turnstile is lost or shared, and the queues stay sorted by the priorities that
    the threads have by now, inherited ones included. -/
theorem turnstiles_conserved (hr : System.Reachable (turnstiles T O) s) : Attached s ∧
    ∀ k q, (s.sleepq k q).Pairwise fun a b => s.dispPrio b ≤ s.dispPrio a := by
  have h := sound_reachable hr
  exact ⟨h.attached, h.inherits.sorted⟩

/-- The waiter with the higher priority comes second and goes to the front. -/
theorem turnstiles_conserved_two : ∃ s : State (Fin 3) (Fin 2), s.sleepq 1 .writer = [2, 1] ∧
    Attached s ∧ (s.sleepq 1 .writer).Pairwise fun a b => s.dispPrio b ≤ s.dispPrio a := by
  have hr := System.reachable_get (turnstiles _ _)
    [.acquire 0 0, .block 1 .writer 0, .block 2 .writer 0] threeThreads
    threeThreads_fresh rfl
  exact ⟨_, rfl, (turnstiles_conserved hr).1, (turnstiles_conserved hr).2 1 .writer⟩

end Sol7.Turnstile
