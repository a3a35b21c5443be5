import Sol7.Rwlock.Invariant

/-!
# The Reader/Writer Lock State Machine

Every routine of `rwlock.c` keeps the invariants of the lock word, so they
hold in every state that any interleaving of the threads can reach. The
theorem at the end says what that means for the users of the lock.

## Theorems

* `Inv.rwEnterSleep`, `Inv.rwEnterBlock`, `Inv.rwTryenter`: Entering.
* `Inv.rwExitWakeup`, `Inv.rwExitDrop_reader`, `Inv.rwExitDrop_writer`,
  `Inv.rwExitHandoff`: Leaving.
* `Inv.rwDowngrade`, `Inv.rwDowngradeWakeup`, `Inv.rwTryupgrade`: Changing
  mode.
* `inv_of_reachable`: The invariants hold in every reachable state.
* `rwlock_state_machine`: What they say, for every interleaving.
-/

namespace Sol7.Rwlock

open List Option Pc State

variable {T : Type}

section
variable [DecidableEq T] {k : Kthreads T} {s : State T}

/-- A sleeper stays asleep or is woken in the mode it asked for. -/
def Wakes (s s' : State T) : Prop :=
  ∀ t rw, s.pc t = .blocked rw → s'.pc t = .blocked rw ∨ s'.pc t = .woken rw

theorem wakes_goto (s : State T) (u : T) (p : Pc) (hu : ∀ rw, s.pc u ≠ .blocked rw) :
    Wakes s (s.goto u p) := by
  intro t rw ht
  have htu : t ≠ u := fun hc => hu rw (hc ▸ ht)
  exact .inl (by simp only [goto, Function.update_of_ne htu, ht])

/-- A wake-up of the head of a queue wakes threads of that queue's mode. -/
theorem wakes_wakeup (hq : Queued s) (u : T) (p : Pc) (hu : ∀ rw, s.pc u ≠ .blocked rw)
    (n : Nat) (r : Krw) : Wakes s (turnstileWakeup (s.goto u p) n r) := by
  intro t rw ht
  have hstay := (wakes_goto s u p hu t rw ht).resolve_right (by
    have htu : t ≠ u := fun hc => hu rw (hc ▸ ht)
    simp [goto, Function.update_of_ne htu, ht])
  cases r with
  | reader =>
    simp only [turnstileWakeup, wakeAll]
    split
    next hmem =>
      have hb := (hq.reader t).mp (mem_of_mem_take hmem)
      rw [ht] at hb
      cases hb
      exact .inr rfl
    next => exact .inl hstay
  | writer =>
    simp only [turnstileWakeup, wakeAll]
    split
    next hmem =>
      have hb := (hq.writer t).mp (mem_of_mem_take hmem)
      rw [ht] at hb
      cases hb
      exact .inr rfl
    next => exact .inl hstay

end

/-- The wait flags that `rw_exit_wakeup` puts into the new word. -/
theorem encode_waitFlags {u : Nat} {wl : Bool} (hu : u < 2 ^ 61) (p q : Prop) [Decidable p]
    [Decidable q] : (if p then
        (if q then encode u wl false false ||| rwHasWaiters else encode u wl false false) |||
          rwWriteWanted
      else if q then encode u wl false false ||| rwHasWaiters else encode u wl false false) =
      encode u wl (decide p) (decide q) := by
  rw [encode_or_hasWaiters hu]
  have hinner : (if q then encode u wl false true else encode u wl false false) =
      encode u wl false (decide q) := by
    by_cases hq : q <;> simp [hq]
  rw [hinner, encode_or_writeWanted hu]
  by_cases hp : p <;> simp [hp]

variable [Fintype T] {k : Kthreads T} {s : State T}

/-- Whoever holds the lock passes the lock's own check. -/
theorem Inv.isLocked_of_holds (h : Inv k s) (t : T) (rw : Krw) (ht : (s.pc t).holds rw = true) :
    rwIsLocked k s t rw = true := by
  cases rw with
  | reader =>
    obtain ⟨hl, hwl⟩ := h.word.bits_of_reader ht
    simp [rwIsLocked, hl, hwl]
  | writer =>
    obtain ⟨howner, -⟩ := h.word.bits_of_writer ht
    simp [rwIsLocked, howner]

theorem inv_of_fresh (k : Kthreads T) (s : State T) (h : Fresh s) : Inv k s := by
  obtain ⟨hword, hwq, hrq, hpc⟩ := h
  have hun : ∀ t rw, (s.pc t).holds rw = false := by
    intro t rw
    rw [hpc t]
    rfl
  refine ⟨⟨fun t => ?_, fun t => ?_, by simp [hrq], by simp [hwq]⟩,
    Word.shared (fun t => hun t .writer) ?_, fun _ => ⟨hwq, hrq⟩, fun _ hr => absurd hrq hr, ?_⟩
  · simp [hrq, hpc t]
  · simp [hwq, hpc t]
  · rw [readers, census_zero _ _ fun t => hun t .reader, wantedBit_eq_false.mpr hwq,
      waitersBit_eq_false.mpr ⟨hwq, hrq⟩, hword]
    rfl
  · intro t rw old ht
    rw [hpc t] at ht
    cases ht

/-- The word after a downgrading thread has let in `n` readers. -/
theorem downgrade_word (h : Inv k s) (t : T) (hpc : s.pc t = .downgrading) :
    (if rwReadersToWake s > 0 then
      s.wwwh + (if s.waiters = rwReadersToWake s then
          UInt64.ofNat (rwReadersToWake s) * rwReadLock - rwHasWaiters
        else UInt64.ofNat (rwReadersToWake s) * rwReadLock)
      else s.wwwh) = encode (s.readers + rwReadersToWake s) false s.wantedBit
        (decide (s.waiters > rwReadersToWake s)) := by
  have ht : (s.pc t).holds .reader = true := by simp [hpc, holds]
  obtain ⟨-, hword⟩ := h.word.of_reader ht
  have hle := readersToWake_le s
  by_cases hn : rwReadersToWake s > 0
  · rw [if_pos hn]
    have hbit : s.waitersBit = true := by
      rw [← Bool.not_eq_false, waitersBit_eq_false]
      rintro ⟨-, hr⟩
      rw [hr, length_nil] at hle
      omega
    rw [hword, hbit]
    by_cases hall : s.waiters = rwReadersToWake s
    · rw [if_pos hall, decide_eq_false (by omega)]
      rw [show ∀ a b c : UInt64, a + (b - c) = a + b - c by intro a b c; grind,
        encode_add_readLock, encode_clear_waiters]
    · have hgt : s.waiters > rwReadersToWake s := by
        unfold waiters at hall ⊢
        omega
      rw [if_neg hall, decide_eq_true hgt, encode_add_readLock]
  · have hz : rwReadersToWake s = 0 := by omega
    rw [if_neg hn, hword, hz, add_zero]
    congr 1
    rw [Bool.eq_iff_iff, decide_eq_true_iff, ← Bool.not_eq_false, waitersBit_eq_false]
    simp only [waiters, ← length_eq_zero_iff]
    omega

/-- What every step does: it keeps the invariants, and nothing but a hand-off
    ends a thread's sleep. -/
def Keeps (k : Kthreads T) (s s' : State T) : Prop := Inv k s' ∧ Wakes s s'

theorem Inv.keeps (h : Inv k s) : Keeps k s s := ⟨h, fun _ _ ht => .inl ht⟩

variable [DecidableEq T]

section
variable (h : Inv k s)
include h

/-- A step within a thread, as in `Inv.goto`. -/
theorem Inv.keeps_goto (t : T) {p : Pc} (hb : ∀ rw, s.pc t ≠ .blocked rw)
    (hd : s.pc t ≠ .downgrading) (hp : ∀ rw, p ≠ .blocked rw)
    (hh : ∀ rw, p.holds rw = (s.pc t).holds rw) (hx : ∀ rw old, p ≠ .exitSlow rw old) :
    Keeps k s (s.goto t p) :=
  ⟨h.goto t p hb hd hp hh fun rw old he => absurd he (hx rw old), wakes_goto s t p hb⟩

theorem Inv.rwEnterSleep (t : T) (rw : Krw)
    (hpc : s.pc t = .out ∨ s.pc t = .entering rw) : Keeps k s (rwEnterSleep k s t rw) := by
  have hb : ∀ r, s.pc t ≠ .blocked r := by rcases hpc with hpc | hpc <;> simp [hpc]
  have hd : s.pc t ≠ .downgrading := by rcases hpc with hpc | hpc <;> simp [hpc]
  have hh : ∀ r, (s.pc t).holds r = false := by rcases hpc with hpc | hpc <;> simp [hpc, holds]
  unfold Rwlock.rwEnterSleep
  split
  next hfree =>
    refine ⟨?_, wakes_goto s t _ hb⟩
    cases rw with
    | reader => exact h.enterReader t hb hh hfree
    | writer => exact h.enterWriter t hb hfree
  next =>
    split
    · exact h.keeps_goto t hb hd (by simp) (fun r => by rw [hh]; rfl) (by simp)
    · split
      · exact h.keeps_goto t hb hd (by simp) (fun r => by rw [hh]; rfl) (by simp)
      · exact h.keeps_goto t hb hd (by simp) (fun r => by rw [hh]; rfl) (by simp)

theorem Inv.rwEnterBlock (t : T) (rw : Krw) (hpc : s.pc t = .enterSlow rw) :
    Keeps k s (rwEnterBlock s t rw) := by
  have hb : ∀ r, s.pc t ≠ .blocked r := by simp [hpc]
  unfold Rwlock.rwEnterBlock
  split
  · exact h.keeps_goto t hb (by simp [hpc]) (by simp) (fun r => by rw [hpc]; rfl) (by simp)
  next hbusy =>
    refine ⟨h.block t rw hpc hbusy, ?_⟩
    cases rw <;> exact wakes_goto s t _ hb

theorem Inv.rwTryenter (t : T) (rw : Krw) (hpc : s.pc t = .out) :
    Keeps k s (rwTryenter k s t rw) := by
  have hb : ∀ r, s.pc t ≠ .blocked r := by simp [hpc]
  cases rw with
  | reader =>
    simp only [Rwlock.rwTryenter]
    split
    · exact h.keeps
    next hfree =>
      exact ⟨h.enterReader t hb (fun r => by rw [hpc]; rfl) (not_not.mp hfree), wakes_goto s t _ hb⟩
  | writer =>
    simp only [Rwlock.rwTryenter]
    split
    · exact h.keeps
    next hzero =>
      have hz : s.wwwh = 0 := not_not.mp hzero
      have hin := h.enterWriter t hb (by rw [hz, UInt64.zero_and])
      rw [hz, UInt64.zero_add] at hin
      exact ⟨hin, wakes_goto s t _ hb⟩

theorem Inv.rwExitWakeup (t : T) (rw : Krw) (hpc : s.pc t = .inside rw) :
    Keeps k s (rwExitWakeup k s t) := by
  rw [rwExitWakeup_eq h t rw (by simp [hpc, holds])]
  exact h.keeps_goto t (by simp [hpc]) (by simp [hpc]) (by simp) (fun r => by rw [hpc]; rfl)
    (by simp)

/-- A reader's turn of the exit loop. -/
theorem Inv.rwExitDrop_reader (t : T) (hpc : s.pc t = .exiting .reader) :
    Keeps k s (rwExitDrop k s t .reader) := by
  have hb : ∀ r, s.pc t ≠ .blocked r := by simp [hpc]
  have ht : (s.pc t).holds .reader = true := by simp [hpc, holds]
  obtain ⟨hnone, hword⟩ := h.word.of_reader ht
  have hcount : (s.goto t .out).readers + 1 = s.readers := by
    have := readers_goto s t .out
    rwa [ht, show out.holds .reader = false from rfl] at this
  have hsub : s.wwwh - lockValue k t .reader =
      encode (s.goto t .out).readers false s.wantedBit s.waitersBit := by
    rw [hword, ← hcount]
    exact encode_sub_readLock
  have hlt : (s.goto t .out).readers < 2 ^ 61 := readers_lt k _
  unfold Rwlock.rwExitDrop
  simp only
  split
  next hne =>
    rw [hsub, ne_eq, and_finalExit hlt] at hne
    exact ⟨h.drop t .reader hpc hsub (fun v _ => hnone v) rfl hne, wakes_goto s t _ hb⟩
  next hfinal =>
    rw [hsub, ne_eq, not_not, and_finalExit hlt] at hfinal
    have hone : s.readers = 1 := by
      rw [hfinal.1] at hcount
      exact hcount.symm
    refine ⟨h.goto t _ hb (by simp [hpc]) (by simp) (fun r => by rw [hpc]; rfl) ?_,
      wakes_goto s t _ hb⟩
    intro rw old hp
    cases hp
    refine ⟨?_, ?_, .inl ?_⟩
    · rw [hword, ne_eq, and_writeLocked (readers_lt k s)]
      simp
    · intro u hu r
      cases r with
      | reader => exact sole_reader ht hone u hu
      | writer => exact hnone u
    · -- Somebody waits, and on a shared lock with nobody downgrading a writer does.
      intro hwq
      have hrq : s.readerQ ≠ [] := by
        intro hrq
        rw [waitersBit_eq_false.mpr ⟨hwq, hrq⟩] at hfinal
        cases hfinal.2
      rcases h.waits.behind hnone hrq with hw | ⟨d, hpd⟩
      · exact hw hwq
      have hdt : d = t := by
        by_contra hne
        have := sole_reader ht hone d hne
        simp [hpd, holds] at this
      rw [hdt, hpc] at hpd
      cases hpd

/-- The writer's turn of the exit loop. -/
theorem Inv.rwExitDrop_writer (t : T) (hpc : s.pc t = .exiting .writer) :
    Keeps k s (rwExitDrop k s t .writer) := by
  have hb : ∀ r, s.pc t ≠ .blocked r := by simp [hpc]
  have ht : (s.pc t).holds .writer = true := by simp [hpc, holds]
  obtain ⟨hone, hword⟩ := h.word.of_writer ht
  have hsub : s.wwwh - lockValue k t .writer = encode 0 false s.wantedBit s.waitersBit := by
    rw [hword, lockValue, encode_sub_writeLock _ (k.addr_mod t)]
  have hzero : (s.goto t .out).readers = 0 := by
    refine census_zero _ _ fun u => ?_
    by_cases hut : u = t
    · simp [State.goto, hut, holds]
    · simp only [State.goto, Function.update_of_ne hut, hone u hut]
  unfold Rwlock.rwExitDrop
  simp only
  split
  next hne =>
    rw [hsub, ne_eq, and_finalExit (by decide)] at hne
    exact ⟨h.drop t .writer hpc hsub (fun v hv => hone v hv .writer) hzero hne, wakes_goto s t _ hb⟩
  next hfinal =>
    rw [hsub, not_not, and_finalExit (by decide)] at hfinal
    refine ⟨h.goto t _ hb (by simp [hpc]) (by simp) (fun r => by rw [hpc]; rfl) ?_,
      wakes_goto s t _ hb⟩
    intro rw old hp
    cases hp
    refine ⟨?_, hone, ?_⟩
    · rw [hword, ne_eq, and_writeLocked (k.addr_div_lt t)]
      simp
    by_cases hwq : s.writerQ = []
    · refine .inr ⟨rfl, fun hrq => ?_⟩
      rw [waitersBit_eq_false.mpr ⟨hwq, hrq⟩] at hfinal
      cases hfinal.2
    · exact .inl hwq

/-- The final exit of a lock with waiters finds somebody to hand it to. -/
theorem Inv.rwExitHandoff (t : T) (rw : Krw) (old : UInt64)
    (hpc : s.pc t = .exitSlow rw old) : Keeps k s (rwExitHandoff k s t old) := by
  have hwake := wakes_wakeup h.queued t .out (by simp [hpc])
  obtain ⟨hold, -, hsome⟩ := h.waits.last t rw old hpc
  have hle := readersToWake_le s
  have hback := writerQ_ne_nil_of_lt s
  have hall := readersToWake_all s
  have hlt : s.readerQ.length < 2 ^ 61 := by
    have := h.queued.reader_nodup.length_le_card
    have := k.card_lt
    omega
  unfold Rwlock.rwExitHandoff
  generalize rwReadersToWake s = m at *
  by_cases hn : (if old &&& rwWriteLocked ≠ 0 then m else 0) > 0
  · have hwl : old &&& rwWriteLocked ≠ 0 := fun hno => by
      rw [if_neg (not_not.mpr hno)] at hn
      exact absurd hn (lt_irrefl 0)
    rw [if_pos hwl] at hn ⊢
    rw [if_pos hn]
    refine ⟨h.handoffReaders t rw old hpc m hn hle hback _ ?_, hwake m .reader⟩
    rw [mul_readLock, encode_waitFlags (by omega), wantedBit]
    cases s.writerQ <;> rfl
  · rw [if_neg hn]
    split
    next hwq =>
      -- No reader to wake: there is none, or a writer is ahead of them.
      rcases hsome with hw | ⟨hrw, hr⟩
      · exact absurd hwq hw
      · rw [if_pos (hold.mpr hrw), hall hwq] at hn
        exact absurd (length_pos_iff.mpr hr) hn
    next w rest hwq =>
      refine ⟨h.handoffWriter t rw old hpc w rest hwq _ ?_, hwake 1 .writer⟩
      rw [writeLock_eq _ (k.addr_mod w), encode_waitFlags (k.addr_div_lt w)]

theorem Inv.rwDowngrade (t : T) (hpc : s.pc t = .inside .writer) :
    Keeps k s (rwDowngrade k s t) := by
  have hb : ∀ r, s.pc t ≠ .blocked r := by simp [hpc]
  have ht : (s.pc t).holds .writer = true := by simp [hpc, holds]
  obtain ⟨-, hword⟩ := h.word.of_writer ht
  have howner := (h.word.bits_of_writer ht).1
  have hnew : s.wwwh + (rwReadLock - rwWriteLock (k.addr t)) =
      encode 1 false s.wantedBit s.waitersBit := by
    rw [hword, encode_downgrade _ (k.addr_mod t)]
  unfold Rwlock.rwDowngrade
  rw [if_neg (not_not.mpr howner)]
  simp only [hnew]
  split
  · exact ⟨h.downgrade t .downgrading hpc rfl rfl (by simp) (by simp) (.inl rfl),
      wakes_goto s t _ hb⟩
  next hnw =>
    rw [not_not, and_hasWaiters (by decide)] at hnw
    exact ⟨h.downgrade t (.inside .reader) hpc rfl rfl (by simp) (by simp) (.inr hnw),
      wakes_goto s t _ hb⟩

theorem Inv.rwDowngradeWakeup (t : T) (hpc : s.pc t = .downgrading) :
    Keeps k s (rwDowngradeWakeup s t) := by
  have hin := h.downgradeWakeup t hpc _ (readersToWake_le s) (writerQ_ne_nil_of_lt s)
  rw [← downgrade_word h t hpc] at hin
  exact ⟨hin, wakes_wakeup h.queued t _ (by simp [hpc]) _ .reader⟩

theorem Inv.rwTryupgrade (t : T) (hpc : s.pc t = .inside .reader) :
    Keeps k s (rwTryupgrade k s t) := by
  have ht : (s.pc t).holds .reader = true := by simp [hpc, holds]
  obtain ⟨-, hword⟩ := h.word.of_reader ht
  unfold Rwlock.rwTryupgrade
  split
  · exact h.keeps
  next hsole =>
    rw [not_not, hword, and_soleReader (readers_lt k s)] at hsole
    have hin := h.tryupgrade t hpc hsole.1
    rw [← encode_upgrade _ (k.addr_mod t), ← hsole.1, ← hword] at hin
    exact ⟨hin, wakes_goto s t _ (by simp [hpc])⟩

theorem Inv.step (a : Act T) (s' : State T) (hs : step k s a = some s') : Keeps k s s' := by
  cases a with
  | enter t rw =>
    simp only [Rwlock.step, ite_none_right_eq_some, some.injEq] at hs
    exact hs.2 ▸ h.rwEnterSleep t rw hs.1
  | block t =>
    simp only [Rwlock.step] at hs
    split at hs
    next rw hpc => cases hs; exact h.rwEnterBlock t rw hpc
    next => cases hs
  | tryenter t rw =>
    simp only [Rwlock.step, ite_none_right_eq_some, some.injEq] at hs
    exact hs.2 ▸ h.rwTryenter t rw hs.1
  | resume t =>
    simp only [Rwlock.step] at hs
    split at hs
    next rw hpc =>
      cases hs
      exact h.keeps_goto t (by simp [hpc]) (by simp [hpc]) (by simp) (fun r => by rw [hpc]; rfl)
        (by simp)
    next => cases hs
  | exit t =>
    simp only [Rwlock.step] at hs
    split at hs
    next rw hpc => cases hs; exact h.rwExitWakeup t rw hpc
    next => cases hs
  | drop t =>
    simp only [Rwlock.step] at hs
    split at hs
    next rw hpc =>
      cases hs
      cases rw with
      | reader => exact h.rwExitDrop_reader t hpc
      | writer => exact h.rwExitDrop_writer t hpc
    next => cases hs
  | handoff t =>
    simp only [Rwlock.step] at hs
    split at hs
    next rw old hpc => cases hs; exact h.rwExitHandoff t rw old hpc
    next => cases hs
  | downgrade t =>
    simp only [Rwlock.step, ite_none_right_eq_some, some.injEq] at hs
    exact hs.2 ▸ h.rwDowngrade t hs.1
  | downgradeWakeup t =>
    simp only [Rwlock.step, ite_none_right_eq_some, some.injEq] at hs
    exact hs.2 ▸ h.rwDowngradeWakeup t hs.1
  | tryupgrade t =>
    simp only [Rwlock.step, ite_none_right_eq_some, some.injEq] at hs
    exact hs.2 ▸ h.rwTryupgrade t hs.1
  | setPri t pri =>
    cases hs
    refine ⟨h.changePri t pri, fun u rw hu => .inl ?_⟩
    unfold turnstileChangePri
    split
    · exact hu
    · split <;> exact hu

end

/-- The invariants hold in every reachable state. -/
theorem inv_of_reachable (k : Kthreads T) (s : State T) (hr : (rwlock k).Reachable s) : Inv k s :=
  System.Reachable.invariant (rwlock k) (Inv k) (inv_of_fresh k)
    (fun _ s' a hi hs => (hi.step a s' hs).1) s hr

/-- The reader/writer lock, for every interleaving. A writer excludes every
    other holder; the word's hold count is the number of reading threads, or
    its owner is the writing thread; the two wait flags say whether anybody,
    and whether a writer, sleeps on the lock; nobody sleeps on a free lock;
    a sleeper is woken only by being given the lock in the mode it asked for,
    and every woken thread passes the lock's own check. -/
theorem rwlock_state_machine (k : Kthreads T) (s : State T) (hr : (rwlock k).Reachable s) :
    (∀ t, (s.pc t).holds .writer = true → ∀ u, u ≠ t → ∀ rw, (s.pc u).holds rw = false) ∧
      (s.wwwh &&& rwWriteLocked = 0 →
        (s.wwwh >>> rwHoldCountShift).toNat = census (holds .reader) s.pc) ∧
      (s.wwwh &&& rwWriteLocked ≠ 0 → census (holds .reader) s.pc = 0 ∧
        ∃ t, (s.pc t).holds .writer = true ∧ s.wwwh &&& rwOwner = k.addr t) ∧
      (s.wwwh &&& rwHasWaiters ≠ 0 ↔ ∃ t rw, s.pc t = .blocked rw) ∧
      (s.wwwh &&& rwWriteWanted ≠ 0 ↔ ∃ t, s.pc t = .blocked .writer) ∧
      ((∀ t rw, (s.pc t).holds rw = false) → ∀ t rw, s.pc t ≠ .blocked rw) ∧
      (∀ a s', (rwlock k).step s a = some s' → ∀ t rw, s.pc t = .blocked rw →
        s'.pc t = .blocked rw ∨ s'.pc t = .woken rw) ∧
      ∀ t rw, s.pc t = .woken rw → rwIsLocked k s t rw = true := by
  have h := inv_of_reachable k s hr
  have hsleep : (∃ t, s.pc t = .blocked .writer) ↔ s.writerQ ≠ [] := by
    simp only [← h.queued.writer]
    exact ⟨fun ⟨_, ht⟩ => ne_nil_of_mem ht, exists_mem_of_ne_nil _⟩
  have hsleep' : (∃ t, s.pc t = .blocked .reader) ↔ s.readerQ ≠ [] := by
    simp only [← h.queued.reader]
    exact ⟨fun ⟨_, ht⟩ => ne_nil_of_mem ht, exists_mem_of_ne_nil _⟩
  have hany : (∃ t rw, s.pc t = .blocked rw) ↔ s.writerQ ≠ [] ∨ s.readerQ ≠ [] := by
    rw [← hsleep, ← hsleep']
    constructor
    · rintro ⟨t, rw, ht⟩
      cases rw with
      | reader => exact .inr ⟨t, ht⟩
      | writer => exact .inl ⟨t, ht⟩
    · rintro (⟨t, ht⟩ | ⟨t, ht⟩)
      · exact ⟨t, _, ht⟩
      · exact ⟨t, _, ht⟩
  -- Whatever the number above them, the two wait flags are the queues'.
  have hflags : (s.wwwh &&& rwHasWaiters ≠ 0 ↔ s.waitersBit = true) ∧
      (s.wwwh &&& rwWriteWanted ≠ 0 ↔ s.wantedBit = true) := by
    cases h.word with
    | shared _ hword =>
      rw [hword, ne_eq, and_hasWaiters (readers_lt k s), ne_eq, and_writeWanted (readers_lt k s)]
      simp
    | owned t _ _ hword =>
      rw [hword, ne_eq, and_hasWaiters (k.addr_div_lt t), ne_eq, and_writeWanted (k.addr_div_lt t)]
      simp
  refine ⟨fun t ht => (h.word.of_writer ht).1, ?_, ?_, ?_, ?_, ?_, ?_, ?_⟩
  · intro hwl
    cases h.word with
    | shared _ hword => rw [hword, encode_shift (readers_lt k s), readers]
    | owned t ht _ _ => exact absurd hwl (h.word.bits_of_writer ht).2
  · intro hwl
    cases h.word with
    | shared _ hword =>
      rw [hword, ne_eq, and_writeLocked (readers_lt k s)] at hwl
      exact absurd rfl hwl
    | owned t ht hone _ =>
      refine ⟨census_zero _ _ fun u => ?_, t, ht, (h.word.bits_of_writer ht).1⟩
      by_cases hut : u = t
      · rw [hut]
        exact not_reader_of_writer ht
      · exact hone u hut .reader
  · rw [hflags.1, hany, ← Bool.not_eq_false, waitersBit_eq_false]
    tauto
  · rw [hflags.2, hsleep, ← Bool.not_eq_false, wantedBit_eq_false]
  · intro hun t rw ht
    obtain ⟨hwq, hrq⟩ := h.waits.held hun
    rcases hany.mp ⟨t, rw, ht⟩ with hw | hq
    · exact hw hwq
    · exact hq hrq
  · exact fun a s' hs => (h.step a s' hs).2
  · exact fun t rw ht => h.isLocked_of_holds t rw (by simp [ht, holds])

/-- Two threads at the lowest addresses there are. -/
def twoThreads : Kthreads (Fin 2) where
  addr t := UInt64.ofNat (32 * (t.val + 1))
  inj := by decide
  aligned := by decide
  nonnull := by decide

/-- A reader that slept behind a writer is woken holding the lock. -/
theorem rwlock_state_machine_handoff :
    ∃ s : State (Fin 2), (rwlock twoThreads).Reachable s ∧ s.pc 1 = .woken .reader ∧
      rwIsLocked twoThreads s 1 .reader = true := by
  have hr := System.reachable_get (rwlock twoThreads)
    [.tryenter 0 .writer, .enter 1 .reader, .block 1, .exit 0, .drop 0, .handoff 0]
    ⟨0, [], [], fun _ => .out, fun _ => 60⟩ ⟨rfl, rfl, rfl, fun _ => rfl⟩ (by decide +kernel)
  exact ⟨_, hr, by decide +kernel,
    (rwlock_state_machine twoThreads _ hr).2.2.2.2.2.2.2 1 .reader (by decide +kernel)⟩

end Sol7.Rwlock
