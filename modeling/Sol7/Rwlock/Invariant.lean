import Sol7.Rwlock.Handoff

/-!
# The Lock Word Tells the Truth

The lock word's number is the count of reading threads or
the address of the one writing thread, and its flags say whether anybody, and
whether a writer, sleeps on the lock. A lock that nobody holds has no
sleepers, so nobody is left behind, and whoever is woken by a hand-off holds
the lock already.

The delicate point is a reader that leaves a lock with waiters: it hands the
lock to a writer without looking for one. `Waits.behind` is why there is
one: readers sleep on a read-locked lock only behind a writer, except while a
thread that has just downgraded is on its way to wake them.

This module has the invariants and one lemma for each kind of change they
survive; `StateMachine` puts the routines together from these.

## Main definitions

* `Word`: What the lock word says.
* `Waits`: Who may be asleep, and what a thread about to hand off relies on.
* `Inv`: All invariants.

## Theorems

* `Inv.goto`: A thread moves without changing its hold.
* `Inv.enterReader`, `Inv.enterWriter`, `Inv.block`: Getting in.
* `Inv.drop`, `Inv.handoffReaders`, `Inv.handoffWriter`: Getting out.
* `Inv.downgrade`, `Inv.downgradeWakeup`, `Inv.tryupgrade`: Changing mode.
-/

namespace Sol7.Rwlock

open List Option Bool Function

variable {T : Type}

theorem Pc.not_reader_of_writer {p : Pc} (h : p.holds .writer = true) :
    p.holds .reader = false := by
  cases p <;> simp_all [Pc.holds]

namespace Kthreads

variable (k : Kthreads T)

theorem addr_div_lt (t : T) : (k.addr t).toNat / 8 < 2 ^ 61 := by
  have := (k.addr t).toNat_lt
  omega

theorem addr_div_pos (t : T) : 0 < (k.addr t).toNat / 8 := by
  have hne : (k.addr t).toNat ≠ 0 := fun h => k.nonnull t ((uint64_eq_zero_iff _).mpr h)
  have := k.aligned t
  omega

theorem addr_mod (t : T) : (k.addr t).toNat % 8 = 0 := by
  have := k.aligned t
  omega

/-- Aligned addresses are few enough for the hold count not to overflow. -/
theorem card_lt [Fintype T] (k : Kthreads T) : Fintype.card T < 2 ^ 61 := by
  let f : T → Fin (2 ^ 59) := fun t =>
    ⟨(k.addr t).toNat / 32, by have := (k.addr t).toNat_lt; omega⟩
  have hf : Function.Injective f := by
    intro t u h
    have hd : (k.addr t).toNat / 32 = (k.addr u).toNat / 32 := congrArg Fin.val h
    have ht := k.aligned t
    have hu := k.aligned u
    exact k.inj (UInt64.toNat_inj.mp (by omega))
  have := Fintype.card_le_of_injective f hf
  rw [Fintype.card_fin] at this
  omega

end Kthreads

/-- `RW_WRITE_WANTED` as it should be. -/
def State.wantedBit (s : State T) : Bool := !s.writerQ.isEmpty

/-- `RW_HAS_WAITERS` as it should be. -/
def State.waitersBit (s : State T) : Bool := !(s.writerQ.isEmpty && s.readerQ.isEmpty)

theorem wantedBit_eq_false {s : State T} : s.wantedBit = false ↔ s.writerQ = [] := by
  simp [State.wantedBit]

theorem waitersBit_eq_false {s : State T} :
    s.waitersBit = false ↔ s.writerQ = [] ∧ s.readerQ = [] := by
  simp [State.waitersBit]

section
variable [DecidableEq T]

/-- Blocking does not touch anybody's hold. -/
theorem holds_block (s : State T) (t : T) (rw : Krw) (hh : ∀ r, (s.pc t).holds r = false)
    (u : T) (r : Krw) :
    ((turnstileBlock (s.goto t (.blocked rw)) t rw).pc u).holds r = (s.pc u).holds r := by
  have hpc : (turnstileBlock (s.goto t (.blocked rw)) t rw).pc = update s.pc t (.blocked rw) := by
    cases rw <;> rfl
  rw [hpc]
  by_cases hut : u = t
  · rw [hut, update_self, hh r]
    rfl
  · rw [update_of_ne hut]

/-- The wait flags that `rw_enter_sleep` sets are the right ones for the
    queues after the thread has gone to sleep. -/
theorem encode_or_lockWait (s : State T) (t : T) (rw : Krw) (p : Pc) {u : Nat} {wl : Bool}
    (hu : u < 2 ^ 61) : encode u wl s.wantedBit s.waitersBit ||| lockWait rw =
      encode u wl (turnstileBlock (s.goto t p) t rw).wantedBit
        (turnstileBlock (s.goto t p) t rw).waitersBit := by
  cases rw with
  | reader =>
    rw [lockWait, encode_or_hasWaiters hu]
    simp [State.wantedBit, State.waitersBit, turnstileBlock, State.goto]
  | writer =>
    rw [lockWait, encode_or_wait hu]
    simp [State.wantedBit, State.waitersBit, turnstileBlock, State.goto]

/-- More waiters than are woken means that a queue is left over. -/
theorem waitersBit_wakeReaders (s : State T) (t : T) (p : Pc) {n : Nat}
    (hle : n ≤ s.readerQ.length) :
    (turnstileWakeup (s.goto t p) n .reader).waitersBit = decide (s.waiters > n) := by
  rw [Bool.eq_iff_iff, decide_eq_true_iff, ← not_eq_false, waitersBit_eq_false]
  simp only [State.waiters, turnstileWakeup, State.goto, ← length_eq_zero_iff, length_drop]
  omega

end

/-- Who may be asleep. `behind`: readers sleep on a read-locked lock behind a
    writer or until a downgrading thread gets to them. `last`: a thread on
    its way to hand off is the only holder, and there is somebody to hand the
    lock to. -/
structure Waits (s : State T) : Prop where
  held : (∀ t rw, (s.pc t).holds rw = false) → s.writerQ = [] ∧ s.readerQ = []
  behind : (∀ t, (s.pc t).holds .writer = false) → s.readerQ ≠ [] →
    s.writerQ ≠ [] ∨ ∃ t, s.pc t = .downgrading
  last : ∀ t rw old, s.pc t = .exitSlow rw old →
    (old &&& rwWriteLocked ≠ 0 ↔ rw = .writer) ∧
      (∀ u, u ≠ t → ∀ r, (s.pc u).holds r = false) ∧
      (s.writerQ ≠ [] ∨ rw = .writer ∧ s.readerQ ≠ [])

section
variable [DecidableEq T] {s : State T} {t : T} {p : Pc}

/-- What the threads hold after one has moved. -/
theorem holds_goto (s : State T) {r : Krw} (b : T → Bool) (ht : p.holds r = b t)
    (h : ∀ u, u ≠ t → (s.pc u).holds r = b u) : ∀ u, ((s.goto t p).pc u).holds r = b u :=
  (Function.forall_update_iff s.pc (p := fun u q => q.holds r = b u)).mpr ⟨ht, h⟩

/-- While the thread that moves holds the lock, nobody else is about to hand it
    off. -/
theorem Waits.not_exitSlow (h : Waits s) {r : Krw} (ht : (s.pc t).holds r = true)
    (hp : ∀ rw old, p ≠ .exitSlow rw old) (u : T) (rw : Krw) (old : UInt64) :
    (s.goto t p).pc u ≠ .exitSlow rw old := by
  simp only [State.goto, update_apply]
  split
  · exact hp rw old
  next hut =>
    intro hu
    have := (h.last u rw old hu).2.1 t (Ne.symm hut) r
    rw [ht] at this
    cases this

/-- The readers are still behind a writer or a downgrading thread. -/
theorem Waits.behind_goto (h : Waits s) (hd : s.pc t ≠ .downgrading)
    (hnone : ∀ u, (s.pc u).holds .writer = false) (hr : s.readerQ ≠ []) :
    s.writerQ ≠ [] ∨ ∃ d, (s.goto t p).pc d = .downgrading := by
  rcases h.behind hnone hr with hw | ⟨d, hpd⟩
  · exact .inl hw
  · have hdt : d ≠ t := fun hc => hd (hc ▸ hpd)
    exact .inr ⟨d, by simp only [State.goto, update_of_ne hdt, hpd]⟩

/-- After the last holder has left, nobody holds the lock. -/
theorem Waits.holds_out (h : Waits s) {rw : Krw} {old : UInt64} (hpc : s.pc t = .exitSlow rw old)
    (u : T) (r : Krw) : ((s.goto t .out).pc u).holds r = false :=
  holds_goto s (fun _ => false) rfl (fun v hv => (h.last t rw old hpc).2.1 v hv r) u

end

variable [Fintype T]

/-- The number of threads that hold the lock as readers. -/
def State.readers (s : State T) : Nat := census (Pc.holds .reader) s.pc

/-- What the lock word says. -/
inductive Word (k : Kthreads T) (s : State T) : Prop
  | shared (hnone : ∀ t, (s.pc t).holds .writer = false)
      (hword : s.wwwh = encode s.readers false s.wantedBit s.waitersBit)
  | owned (t : T) (ht : (s.pc t).holds .writer = true)
      (hone : ∀ u, u ≠ t → ∀ rw, (s.pc u).holds rw = false)
      (hword : s.wwwh = encode ((k.addr t).toNat / 8) true s.wantedBit s.waitersBit)

/-- The invariants of the lock. -/
structure Inv (k : Kthreads T) (s : State T) : Prop where
  queued : Queued s
  word : Word k s
  waits : Waits s

variable {k : Kthreads T} {s : State T}

section

theorem readers_lt (k : Kthreads T) (s : State T) : s.readers < 2 ^ 61 :=
  (census_le_card _ _).trans_lt k.card_lt

section
variable (h : Word k s)
include h

variable {t : T}

/-- A reader's hold means the word is shared. -/
theorem Word.of_reader (ht : (s.pc t).holds .reader = true) :
    (∀ u, (s.pc u).holds .writer = false) ∧
      s.wwwh = encode s.readers false s.wantedBit s.waitersBit := by
  cases h with
  | shared hnone hword => exact ⟨hnone, hword⟩
  | owned u hu hone _ =>
    by_cases htu : t = u
    · rw [htu, Pc.not_reader_of_writer hu] at ht
      cases ht
    · rw [hone t htu] at ht
      cases ht

/-- A writer's hold means the word is its own. -/
theorem Word.of_writer (ht : (s.pc t).holds .writer = true) :
    (∀ u, u ≠ t → ∀ rw, (s.pc u).holds rw = false) ∧
      s.wwwh = encode ((k.addr t).toNat / 8) true s.wantedBit s.waitersBit := by
  cases h with
  | shared hnone _ => rw [hnone t] at ht; cases ht
  | owned u hu hone hword =>
    by_cases htu : t = u
    · rw [htu]
      exact ⟨hone, hword⟩
    · rw [hone t htu] at ht
      cases ht

/-- Nobody's hold changes, and the number in the word does not either. -/
theorem Word.same_holds {s' : State T} (hsame : ∀ u rw, (s'.pc u).holds rw = (s.pc u).holds rw)
    (hword : ∀ u wl, u < 2 ^ 61 → s.wwwh = encode u wl s.wantedBit s.waitersBit →
      s'.wwwh = encode u wl s'.wantedBit s'.waitersBit) : Word k s' := by
  cases h with
  | shared hnone hw =>
    refine .shared (fun u => by rw [hsame, hnone]) ?_
    rw [hword _ _ (readers_lt k s) hw]
    simp only [State.readers, census, hsame]
  | owned u hu hone hw =>
    exact .owned u (by rw [hsame, hu]) (fun v hv rw => by rw [hsame, hone v hv])
      (hword _ _ (k.addr_div_lt u) hw)

/-- What the word shows to a reader that holds the lock. -/
theorem Word.bits_of_reader (ht : (s.pc t).holds .reader = true) :
    s.wwwh &&& rwLocked ≠ 0 ∧ s.wwwh &&& rwWriteLocked = 0 := by
  obtain ⟨-, hword⟩ := h.of_reader ht
  have hpos : s.readers ≠ 0 := Nat.pos_iff_ne_zero.mp (census_pos _ _ t ht)
  rw [hword, ne_eq, and_locked (readers_lt k s), and_writeLocked (readers_lt k s)]
  exact ⟨hpos, rfl⟩

/-- What the word shows to the writer that holds the lock. -/
theorem Word.bits_of_writer (ht : (s.pc t).holds .writer = true) :
    s.wwwh &&& rwOwner = k.addr t ∧ s.wwwh &&& rwWriteLocked ≠ 0 := by
  obtain ⟨-, hword⟩ := h.of_writer ht
  have hmod := k.addr_mod t
  rw [hword, ne_eq, and_writeLocked (k.addr_div_lt t), ← UInt64.toNat_inj,
    toNat_and_owner (k.addr_div_lt t)]
  exact ⟨by omega, by decide⟩

/-- Not claimed by a writer: open to readers. -/
theorem Word.of_unclaimed (hb : s.wwwh &&& rwWriteClaimed = 0) :
    (∀ u, (s.pc u).holds .writer = false) ∧ s.writerQ = [] ∧
      s.wwwh = encode s.readers false s.wantedBit s.waitersBit := by
  cases h with
  | shared hnone hword =>
    rw [hword, and_writeClaimed (readers_lt k s)] at hb
    exact ⟨hnone, wantedBit_eq_false.mp hb.2, hword⟩
  | owned u _ _ hword =>
    rw [hword, and_writeClaimed (k.addr_div_lt u)] at hb
    cases hb.1

/-- Not locked: nobody holds it. -/
theorem Word.of_unlocked (hb : s.wwwh &&& rwLocked = 0) : ∀ u rw, (s.pc u).holds rw = false := by
  cases h with
  | shared hnone hword =>
    rw [hword, and_locked (readers_lt k s)] at hb
    intro u rw
    cases rw with
    | reader => exact census_eq_zero _ _ hb u
    | writer => exact hnone u
  | owned u _ _ hword =>
    rw [hword, and_locked (k.addr_div_lt u)] at hb
    have := k.addr_div_pos u
    omega

end

/-- A lock that nobody holds has the word zero. -/
theorem Inv.wwwh_of_unheld (h : Inv k s) (hu : ∀ t rw, (s.pc t).holds rw = false) : s.wwwh = 0 := by
  obtain ⟨hw, hr⟩ := h.waits.held hu
  cases h.word with
  | shared _ hword =>
    have hz : s.readers = 0 := census_zero _ _ fun t => hu t .reader
    rw [hword, hz, wantedBit_eq_false.mpr hw, waitersBit_eq_false.mpr ⟨hw, hr⟩]
    rfl
  | owned t ht _ _ => rw [hu t] at ht; cases ht

end

variable [DecidableEq T]

theorem readers_goto (s : State T) (t : T) (p : Pc) :
    (s.goto t p).readers + ((s.pc t).holds .reader).toNat = s.readers + (p.holds .reader).toNat :=
  census_update (Pc.holds .reader) s.pc t p

/-- The only reader there is. -/
theorem sole_reader {t : T} (ht : (s.pc t).holds .reader = true) (hone : s.readers = 1) :
    ∀ u, u ≠ t → (s.pc u).holds .reader = false := by
  intro u hu
  have hcount := readers_goto s t .out
  rw [ht, hone] at hcount
  have hz := census_eq_zero (Pc.holds .reader) (s.goto t .out).pc
    (by simpa [Pc.holds, State.readers] using hcount) u
  simpa only [State.goto, update_of_ne hu] using hz

variable (h : Inv k s)
include h

/-- A step within a thread that changes neither its hold nor the queues. -/
theorem Inv.goto (t : T) (p : Pc) (hb : ∀ rw, s.pc t ≠ .blocked rw)
    (hd : s.pc t ≠ .downgrading) (hp : ∀ rw, p ≠ .blocked rw)
    (hh : ∀ rw, p.holds rw = (s.pc t).holds rw) (hlast : ∀ rw old, p = .exitSlow rw old →
      (old &&& rwWriteLocked ≠ 0 ↔ rw = .writer) ∧
        (∀ u, u ≠ t → ∀ r, (s.pc u).holds r = false) ∧
        (s.writerQ ≠ [] ∨ rw = .writer ∧ s.readerQ ≠ [])) : Inv k (s.goto t p) := by
  have hsame : ∀ u rw, ((s.goto t p).pc u).holds rw = (s.pc u).holds rw := fun u rw =>
    holds_goto s (fun u => (s.pc u).holds rw) (hh rw) (fun _ _ => rfl) u
  refine ⟨h.queued.goto t p hb hp, h.word.same_holds hsame fun _ _ _ hw => hw, ?_, ?_, ?_⟩
  · intro hu
    exact h.waits.held fun u rw => by rw [← hsame, hu]
  · exact fun hnone hr => h.waits.behind_goto hd (fun u => by rw [← hsame, hnone]) hr
  · intro u rw old hu
    by_cases hut : u = t
    · simp only [State.goto, hut, update_self] at hu
      obtain ⟨h1, h2, h3⟩ := hlast rw old hu
      exact ⟨h1, fun v hv r => by rw [hsame]; exact h2 v (hut ▸ hv) r, h3⟩
    · simp only [State.goto, update_of_ne hut] at hu
      obtain ⟨h1, h2, h3⟩ := h.waits.last u rw old hu
      exact ⟨h1, fun v hv r => by rw [hsame, h2 v hv], h3⟩

/-- A thread that holds nothing enters an unclaimed lock as reader. -/
theorem Inv.enterReader (t : T) (hb : ∀ rw, s.pc t ≠ .blocked rw)
    (hh : ∀ rw, (s.pc t).holds rw = false) (hclaim : s.wwwh &&& rwWriteClaimed = 0) :
    Inv k { s.goto t (.inside .reader) with wwwh := s.wwwh + rwReadLock } := by
  obtain ⟨hnone, hwq, hword⟩ := h.word.of_unclaimed hclaim
  have hcount := readers_goto s t (.inside .reader)
  rw [hh .reader] at hcount
  refine ⟨(h.queued.goto t _ hb (by simp)).setWord _, .shared ?_ ?_, ?_, ?_, ?_⟩
  · exact holds_goto s _ rfl fun u _ => hnone u
  · change s.wwwh + rwReadLock = encode (s.goto t (.inside .reader)).readers false _ _
    rw [hword, encode_succ]
    congr 1
    simpa [Pc.holds] using hcount.symm
  · intro hu
    have := hu t .reader
    simp [State.goto, Pc.holds] at this
  · have hd : s.pc t ≠ .downgrading := by
      intro hpd
      have := hh .reader
      simp [hpd, Pc.holds] at this
    exact fun _ hr => h.waits.behind_goto hd hnone hr
  · -- Handing off needs a writer, asleep or holding.
    intro u rw old hu
    by_cases hut : u = t
    · simp [State.goto, hut] at hu
    simp only [State.goto, update_of_ne hut] at hu
    rcases (h.waits.last u rw old hu).2.2 with hw | ⟨hrw, -⟩
    · exact absurd hwq hw
    · have := hnone u
      simp [hu, hrw, Pc.holds] at this

/-- A thread takes a lock that nobody holds as writer. -/
theorem Inv.enterWriter (t : T) (hb : ∀ rw, s.pc t ≠ .blocked rw)
    (hlock : s.wwwh &&& rwLocked = 0) :
    Inv k { s.goto t (.inside .writer) with wwwh := s.wwwh + rwWriteLock (k.addr t) } := by
  have hun := h.word.of_unlocked hlock
  obtain ⟨hwq, hrq⟩ := h.waits.held hun
  have hoff : ∀ u, u ≠ t → ∀ rw, ((s.goto t (.inside .writer)).pc u).holds rw = false := by
    intro u hu rw
    simp only [State.goto, update_of_ne hu, hun]
  have ht : ((s.goto t (.inside .writer)).pc t).holds .writer = true := by
    simp [State.goto, Pc.holds]
  refine ⟨(h.queued.goto t _ hb (by simp)).setWord _, .owned t ht hoff ?_, ?_, ?_, ?_⟩
  · have hwb : s.wantedBit = false := wantedBit_eq_false.mpr hwq
    have hab : s.waitersBit = false := waitersBit_eq_false.mpr ⟨hwq, hrq⟩
    change s.wwwh + rwWriteLock (k.addr t) = encode _ true s.wantedBit s.waitersBit
    rw [h.wwwh_of_unheld hun, hwb, hab, ← encode_add_writeLock _ (k.addr_mod t)]
    rfl
  · exact fun hu => absurd ((hu t .writer).symm.trans ht) false_ne_true
  · exact fun _ hr => absurd hrq hr
  · intro u rw old hu
    by_cases hut : u = t
    · simp [State.goto, hut] at hu
    · simp only [State.goto, update_of_ne hut] at hu
      have := hun u rw
      simp [hu, Pc.holds] at this

/-- A thread goes to sleep on a lock that is busy for its mode. -/
theorem Inv.block (t : T) (rw : Krw) (hpc : s.pc t = .enterSlow rw)
    (hbusy : s.wwwh &&& lockBusy rw ≠ 0) : Inv k { turnstileBlock (s.goto t (.blocked rw)) t rw with
      wwwh := s.wwwh ||| lockWait rw } := by
  have hh : ∀ r, (s.pc t).holds r = false := by
    intro r
    rw [hpc]
    rfl
  have hsame := holds_block s t rw hh
  -- Somebody holds the lock, or it would not have been busy.
  have hheld : ¬∀ u r, (s.pc u).holds r = false := by
    intro hu
    rw [h.wwwh_of_unheld hu, UInt64.zero_and] at hbusy
    exact hbusy rfl
  refine ⟨(h.queued.block t rw (by simp [hpc])).setWord _, ?_, ?_, ?_, ?_⟩
  · refine h.word.same_holds hsame fun u wl hu hw => ?_
    rw [hw]
    exact encode_or_lockWait s t rw _ hu
  · exact fun hu => absurd (fun u r => by rw [← hsame, hu]) hheld
  · intro hnone _
    have hnone' : ∀ u, (s.pc u).holds .writer = false := fun u => by rw [← hsame, hnone]
    cases rw with
    | reader =>
      -- A reader sleeps on a shared lock only because a writer wants it.
      refine .inl ?_
      cases h.word with
      | shared _ hword =>
        refine fun hwq : s.writerQ = [] => hbusy ?_
        rw [hword, lockBusy, and_writeClaimed (readers_lt k s)]
        exact ⟨rfl, wantedBit_eq_false.mpr hwq⟩
      | owned u hu _ _ => rw [hnone'] at hu; cases hu
    | writer => exact .inl (sleepqInsert_ne_nil _ _ _)
  · intro u r old hu
    have hpcu : s.pc u = .exitSlow r old := by
      by_cases hut : u = t
      · cases rw <;> simp [turnstileBlock, State.goto, hut] at hu
      · cases rw <;> simpa only [turnstileBlock, State.goto, update_of_ne hut] using hu
    obtain ⟨h1, h2, h3⟩ := h.waits.last u r old hpcu
    refine ⟨h1, fun v hv r => by rw [hsame, h2 v hv], ?_⟩
    cases rw with
    | reader => exact h3.imp id fun h => ⟨h.1, sleepqInsert_ne_nil _ _ _⟩
    | writer => exact .inl (sleepqInsert_ne_nil _ _ _)

/-- A holder finds out its own mode. -/
theorem rwExitWakeup_eq (t : T) (rw : Krw) (ht : (s.pc t).holds rw = true) :
    rwExitWakeup k s t = s.goto t (.exiting rw) := by
  unfold rwExitWakeup
  cases rw with
  | reader =>
    obtain ⟨hl, hwl⟩ := h.word.bits_of_reader ht
    rw [if_neg (not_not.mpr hwl), if_neg hl]
  | writer =>
    obtain ⟨howner, hwl⟩ := h.word.bits_of_writer ht
    rw [if_pos hwl, if_neg (not_not.mpr howner)]

/-- A holder that is not the last one of a lock with waiters leaves. -/
theorem Inv.drop (t : T) {u : Nat} (rw : Krw) (hpc : s.pc t = .exiting rw)
    (hword : s.wwwh - lockValue k t rw = encode u false s.wantedBit s.waitersBit)
    (hnone : ∀ v, v ≠ t → (s.pc v).holds .writer = false)
    (hcount : (s.goto t .out).readers = u) (hfinal : ¬(u = 0 ∧ s.waitersBit = true)) :
    Inv k { s.goto t .out with wwwh := s.wwwh - lockValue k t rw } := by
  have ht : (s.pc t).holds rw = true := by simp [hpc, Pc.holds]
  have hidle : u = 0 → s.writerQ = [] ∧ s.readerQ = [] := by
    intro hz
    rw [← waitersBit_eq_false, ← not_eq_true]
    exact fun hb => hfinal ⟨hz, hb⟩
  refine ⟨(h.queued.goto t _ (by simp [hpc]) (by simp)).setWord _,
    .shared (holds_goto s _ rfl hnone) ?_, ?_, ?_,
    fun v r old hv => absurd hv (h.waits.not_exitSlow ht (by simp) v r old)⟩
  · change s.wwwh - lockValue k t rw = encode (s.goto t .out).readers false _ _
    rw [hword, hcount]
    rfl
  · exact fun hu => hidle (hcount ▸ census_zero _ _ fun v => hu v .reader)
  · intro _ hr
    cases rw with
    | reader => exact h.waits.behind_goto (by simp [hpc]) (h.word.of_reader ht).1 hr
    | writer =>
      -- The writer was the only holder, so this is a final exit without waiters.
      refine absurd (hidle (hcount ▸ census_zero _ _ (holds_goto s _ rfl fun v hv => ?_))).2 hr
      exact (h.word.of_writer ht).1 v hv _

/-- A thread moves and lets in the first readers that sleep. -/
theorem Inv.wakeReaders (t : T) (p : Pc) (hb : ∀ rw, s.pc t ≠ .blocked rw)
    (hp : ∀ rw, p ≠ .blocked rw) (hnone : ∀ u, ((s.goto t p).pc u).holds .writer = false)
    (hslow : ∀ u rw old, (s.goto t p).pc u ≠ .exitSlow rw old) {n : Nat}
    (hle : n ≤ s.readerQ.length) (hback : n < s.readerQ.length → s.writerQ ≠ [])
    (hpos : 0 < (s.goto t p).readers + n) : Inv k { turnstileWakeup (s.goto t p) n .reader with
      wwwh := encode ((s.goto t p).readers + n) false s.wantedBit (decide (s.waiters > n)) } := by
  have hq := h.queued.goto t p hb hp
  -- The woken readers slept, so they did not hold the lock before.
  have hslept : ∀ u, u ∈ s.readerQ.take n → ∀ r, ((s.goto t p).pc u).holds r = false := by
    intro u hu r
    rw [(hq.reader u).mp (mem_of_mem_take hu)]
    rfl
  have hholds : ∀ u r, ((turnstileWakeup (s.goto t p) n .reader).pc u).holds r =
      (((s.goto t p).pc u).holds r || (decide (u ∈ s.readerQ.take n) && Krw.reader == r)) :=
    fun u r => holds_wakeAll (s.goto t p).pc (s.readerQ.take n) .reader r u (hslept u)
  have hreaders : (turnstileWakeup (s.goto t p) n .reader).readers = (s.goto t p).readers + n := by
    have := census_add_list (Pc.holds .reader) (s.goto t p).pc
      (turnstileWakeup (s.goto t p) n .reader).pc (s.readerQ.take n)
      (h.queued.reader_nodup.sublist (take_sublist _ _)) (fun u hu => hslept u hu .reader)
      (fun u => by rw [hholds]; simp)
    rwa [length_take, min_eq_left hle] at this
  refine ⟨(hq.wake n .reader).setWord _, .shared (fun u => by rw [hholds, hnone]; simp) ?_, ?_,
    ?_, ?_⟩
  · rw [← hreaders, ← waitersBit_wakeReaders s t p hle]
    rfl
  · intro hu
    rw [← hreaders, State.readers, census_zero _ _ fun u => hu u .reader] at hpos
    exact absurd hpos (lt_irrefl 0)
  · intro _ hr
    exact .inl (hback (Nat.not_le.mp fun hn => hr (drop_eq_nil_iff.mpr hn)))
  · intro u r old hu
    simp only [turnstileWakeup, wakeAll] at hu
    split at hu
    · cases hu
    · exact absurd hu (hslow u r old)

/-- The final exit of a writer that wakes readers. -/
theorem Inv.handoffReaders (t : T) (rw : Krw) (old : UInt64)
    (hpc : s.pc t = .exitSlow rw old) (n : Nat) (hn : 0 < n) (hle : n ≤ s.readerQ.length)
    (hback : n < s.readerQ.length → s.writerQ ≠ []) (new : UInt64)
    (hnew : new = encode n false s.wantedBit (decide (s.waiters > n))) :
    Inv k { turnstileWakeup (s.goto t .out) n .reader with wwwh := new } := by
  have hout := h.waits.holds_out hpc
  have hzero : (s.goto t .out).readers = 0 := census_zero _ _ fun u => hout u .reader
  have hslow : ∀ u r o, (s.goto t .out).pc u ≠ .exitSlow r o := by
    intro u r o hu
    have := hout u r
    simp [hu, Pc.holds] at this
  have hwake := h.wakeReaders t .out (by simp [hpc]) (by simp) (fun u => hout u _) hslow hle hback
    (Nat.add_pos_right _ hn)
  rwa [hzero, zero_add, ← hnew] at hwake

/-- The final exit that transfers ownership to the next writer. -/
theorem Inv.handoffWriter (t : T) (rw : Krw) (old : UInt64)
    (hpc : s.pc t = .exitSlow rw old) (w : T) (rest : List T) (hwq : s.writerQ = w :: rest)
    (new : UInt64) (hnew : new = encode ((k.addr w).toNat / 8) true (decide (rest ≠ []))
      (decide (s.waiters > 1))) :
    Inv k { turnstileWakeup (s.goto t .out) 1 .writer with wwwh := new } := by
  have hq : Queued (turnstileWakeup (s.goto t .out) 1 .writer) :=
    (h.queued.goto t .out (by simp [hpc]) (by simp)).wake 1 .writer
  have hout := h.waits.holds_out hpc
  have hholds : ∀ u r, ((turnstileWakeup (s.goto t .out) 1 .writer).pc u).holds r =
      (decide (u = w) && Krw.writer == r) := by
    intro u r
    have := holds_wakeAll (s.goto t .out).pc (s.writerQ.take 1) .writer r u
      (fun _ r => hout u r)
    rw [hout u r] at this
    simpa [turnstileWakeup, State.goto, hwq] using this
  have hw : ((turnstileWakeup (s.goto t .out) 1 .writer).pc w).holds .writer = true := by
    rw [hholds]
    simp
  refine ⟨hq.setWord _, .owned w hw (fun u hu r => by rw [hholds]; simp [hu]) ?_, ?_, ?_, ?_⟩
  · change new = encode _ true (turnstileWakeup (s.goto t .out) 1 .writer).wantedBit
      (turnstileWakeup (s.goto t .out) 1 .writer).waitersBit
    rw [hnew]
    congr 1
    · cases rest <;> simp [State.wantedBit, turnstileWakeup, State.goto, hwq]
    · rw [Bool.eq_iff_iff, decide_eq_true_iff, ← not_eq_false, waitersBit_eq_false]
      simp only [State.waiters, turnstileWakeup, State.goto, hwq, drop_succ_cons,
        drop_zero, length_cons, ← length_eq_zero_iff]
      omega
  · exact fun hu => absurd ((hu w .writer).symm.trans hw) false_ne_true
  · exact fun hnone => absurd ((hnone w).symm.trans hw) false_ne_true
  · intro u r o hu
    have := hholds u r
    rw [hu] at this
    have huw : u = w := by
      by_contra hno
      simp [Pc.holds, hno] at this
    simp [turnstileWakeup, wakeAll, State.goto, hwq, huw] at hu

/-- A writer becomes a reader in one addition. If somebody waits it stays on
    its way to the turnstile. -/
theorem Inv.downgrade (t : T) (p : Pc) (hpc : s.pc t = .inside .writer)
    (hp : p.holds .reader = true) (hpw : p.holds .writer = false)
    (hpb : ∀ rw, p ≠ .blocked rw) (hps : ∀ rw old, p ≠ .exitSlow rw old)
    (hwait : p = .downgrading ∨ s.waitersBit = false) :
    Inv k { s.goto t p with wwwh := encode 1 false s.wantedBit s.waitersBit } := by
  have ht : (s.pc t).holds .writer = true := by simp [hpc, Pc.holds]
  obtain ⟨hone, -⟩ := h.word.of_writer ht
  have hreaders : (s.goto t p).readers = 1 := by
    have hcount := readers_goto s t p
    have hz : s.readers = 0 := by
      refine census_zero _ _ fun u => ?_
      by_cases hut : u = t
      · simp [hut, hpc, Pc.holds]
      · exact hone u hut .reader
    rw [hz, hp, hpc, show (Pc.inside .writer).holds .reader = false from rfl] at hcount
    simpa using hcount
  have hpt : ((s.goto t p).pc t).holds .reader = true := by simp only [State.goto, update_self, hp]
  refine ⟨(h.queued.goto t p (by simp [hpc]) hpb).setWord _,
    .shared (holds_goto s _ hpw fun u hut => hone u hut _) ?_, ?_, ?_,
    fun u r old hu => absurd hu (h.waits.not_exitSlow ht hps u r old)⟩
  · change _ = encode (s.goto t p).readers false s.wantedBit s.waitersBit
    rw [hreaders]
  · exact fun hu => absurd ((hu t .reader).symm.trans hpt) false_ne_true
  · intro _ hr
    rcases hwait with hdown | hbit
    · exact .inr ⟨t, by simp only [State.goto, update_self, hdown]⟩
    · exact absurd (waitersBit_eq_false.mp hbit).2 hr

/-- The downgraded thread lets in the readers it finds. -/
theorem Inv.downgradeWakeup (t : T) (hpc : s.pc t = .downgrading) (n : Nat)
    (hle : n ≤ s.readerQ.length) (hback : n < s.readerQ.length → s.writerQ ≠ []) :
    Inv k { turnstileWakeup (s.goto t (.inside .reader)) n .reader with
      wwwh := encode (s.readers + n) false s.wantedBit (decide (s.waiters > n)) } := by
  have ht : (s.pc t).holds .reader = true := by simp [hpc, Pc.holds]
  obtain ⟨hnone, -⟩ := h.word.of_reader ht
  have hsame : (s.goto t (.inside .reader)).readers = s.readers := by
    simpa [hpc, Pc.holds] using readers_goto s t (.inside .reader)
  have hpos : 0 < s.readers := census_pos _ _ t ht
  rw [← hsame] at hpos ⊢
  exact h.wakeReaders t (.inside .reader) (by simp [hpc]) (by simp)
    (holds_goto s _ rfl fun u _ => hnone u) (h.waits.not_exitSlow ht (by simp)) hle hback (by omega)

/-- The only reader becomes the writer. -/
theorem Inv.tryupgrade (t : T) (hpc : s.pc t = .inside .reader) (hone : s.readers = 1) :
    Inv k { s.goto t (.inside .writer) with
      wwwh := encode ((k.addr t).toNat / 8) true s.wantedBit s.waitersBit } := by
  have ht : (s.pc t).holds .reader = true := by simp [hpc, Pc.holds]
  obtain ⟨hnone, -⟩ := h.word.of_reader ht
  have hw : ((s.goto t (.inside .writer)).pc t).holds .writer = true := by
    simp [State.goto, Pc.holds]
  refine ⟨(h.queued.goto t _ (by simp [hpc]) (by simp)).setWord _, .owned t hw ?_ rfl,
    ?_, ?_, fun u r old hu => absurd hu (h.waits.not_exitSlow ht (by simp) u r old)⟩
  · intro u hu rw
    simp only [State.goto, update_of_ne hu]
    cases rw with
    | reader => exact sole_reader ht hone u hu
    | writer => exact hnone u
  · exact fun hu => absurd ((hu t .writer).symm.trans hw) false_ne_true
  · exact fun hnone => absurd ((hnone t).symm.trans hw) false_ne_true

/-- A change of priority moves a sleeper within its queue. -/
theorem Inv.changePri (t : T) (pri : Nat) : Inv k (turnstileChangePri s t pri) := by
  have hqueued := h.queued.changePri t pri
  have hsame : (turnstileChangePri s t pri).pc = s.pc ∧
      (turnstileChangePri s t pri).wwwh = s.wwwh ∧
      ((turnstileChangePri s t pri).writerQ = [] ↔ s.writerQ = []) ∧
      ((turnstileChangePri s t pri).readerQ = [] ↔ s.readerQ = []) := by
    unfold turnstileChangePri
    split
    next hw => simp [sleepqInsert_ne_nil, ne_nil_of_mem hw]
    next =>
      split
      next hr => simp [sleepqInsert_ne_nil, ne_nil_of_mem hr]
      next => simp
  generalize turnstileChangePri s t pri = s' at *
  obtain ⟨hpc, hword, hempty⟩ := hsame
  have hwb : s'.wantedBit = s.wantedBit := by
    rw [Bool.eq_iff_iff, ← not_eq_false, ← not_eq_false, wantedBit_eq_false,
      wantedBit_eq_false, hempty.1]
  have hab : s'.waitersBit = s.waitersBit := by
    rw [Bool.eq_iff_iff, ← not_eq_false, ← not_eq_false, waitersBit_eq_false,
      waitersBit_eq_false, hempty.1, hempty.2]
  refine ⟨hqueued, ?_, ?_, ?_, ?_⟩
  · refine h.word.same_holds (fun u rw => by rw [hpc]) fun u wl _ hw => ?_
    rw [hword, hwb, hab, hw]
  · rw [hpc, hempty.1, hempty.2]
    exact h.waits.held
  · rw [hpc, ne_eq, ne_eq, hempty.1, hempty.2]
    exact h.waits.behind
  · rw [hpc]
    simp only [ne_eq, hempty.1, hempty.2]
    exact h.waits.last

end Sol7.Rwlock
