import Sol7.Lib.Census
import Sol7.Rwlock.Model

/-!
# Sleep Queues and Hand-Offs

What the turnstile operations do to the two sleep queues: who is in them
after an insertion, how many readers `rw_readers_to_wake` picks, and which
threads hold the lock after a hand-off. The one fact about priorities that
the lock relies on is `readersToWake_all`: with no writer waiting, a leaving
writer wakes every reader.

## Main definitions

* `Pc.holds`: Whether a thread holds the lock in a given mode.
* `Queued`: The queues hold exactly the blocked threads.

## Theorems

* `mem_sleepqInsert`: An insertion adds the thread and nothing else.
* `readersToWake_all`: Without writers, all readers are picked.
* `Queued.goto`, `Queued.block`, `Queued.wake`, `Queued.changePri`: Every
  queue operation keeps the queues right.
* `holds_wakeAll`: Who holds the lock after a wake-up.
-/

namespace Sol7.Rwlock

open List Option Function

/-- The thread holds the lock in mode `rw`. A hold ends when the word is
    updated, and a waiter's begins when the word is, not when it runs. -/
def Pc.holds (rw : Krw) : Pc → Bool
  | .woken r => r == rw
  | .inside r => r == rw
  | .exiting r => r == rw
  | .exitSlow r _ => r == rw
  | .downgrading => rw == .reader
  | _ => false

variable {T : Type} (prio : T → Nat)

theorem mem_sleepqInsert (c : T) (q : List T) (t : T) :
    t ∈ sleepqInsert prio c q ↔ t = c ∨ t ∈ q := by
  induction q with
  | nil => simp [sleepqInsert]
  | cons x q ih =>
    unfold sleepqInsert
    split
    · simp
    · rw [mem_cons, mem_cons]
      tauto

theorem nodup_sleepqInsert (c : T) (q : List T) (hc : c ∉ q) (hq : q.Nodup) :
    (sleepqInsert prio c q).Nodup := by
  induction q with
  | nil => simp [sleepqInsert]
  | cons x q ih =>
    unfold sleepqInsert
    rw [nodup_cons] at hq
    split
    · exact nodup_cons.mpr ⟨hc, nodup_cons.mpr hq⟩
    refine nodup_cons.mpr ⟨?_, ih (fun h => hc (mem_cons_of_mem x h)) hq.2⟩
    rw [mem_sleepqInsert]
    rintro (rfl | hx)
    · exact hc mem_cons_self
    · exact hq.1 hx

theorem sleepqInsert_ne_nil (c : T) (q : List T) : sleepqInsert prio c q ≠ [] := by
  cases q with
  | nil => simp [sleepqInsert]
  | cons x q =>
    unfold sleepqInsert
    split <;> simp

@[simp] theorem isEmpty_sleepqInsert (prio : T → Nat) (c : T) (q : List T) :
    (sleepqInsert prio c q).isEmpty = false :=
  isEmpty_eq_false_iff.mpr (sleepqInsert_ne_nil prio c q)

theorem readersFrom_le (wpri : Int) (q : List T) : readersFrom prio wpri q ≤ q.length := by
  induction q with
  | nil => exact le_rfl
  | cons r q ih =>
    unfold readersFrom
    split
    · exact zero_le
    · simpa using ih

theorem readersToWake_le (s : State T) : rwReadersToWake s ≤ s.readerQ.length :=
  readersFrom_le _ _ _

/-- Priorities are not negative, so with no writer waiting no reader is held
    back. -/
theorem readersToWake_all (s : State T) (h : s.writerQ = []) :
    rwReadersToWake s = s.readerQ.length := by
  have hall : ∀ q : List T, readersFrom s.prio (-1) q = q.length := by
    intro q
    induction q with
    | nil => rfl
    | cons r q ih =>
      have hr : ¬((s.prio r : Int) < -1) := by omega
      rw [readersFrom, if_neg hr, ih, length_cons]
  simp only [rwReadersToWake, h, head?_nil, hall]

/-- Readers are held back only behind a writer. -/
theorem writerQ_ne_nil_of_lt (s : State T) (h : rwReadersToWake s < s.readerQ.length) :
    s.writerQ ≠ [] := by
  intro hnil
  rw [readersToWake_all s hnil] at h
  exact lt_irrefl _ h

/-- The queues hold exactly the blocked threads, each in its own queue. -/
structure Queued (s : State T) : Prop where
  reader : ∀ t, t ∈ s.readerQ ↔ s.pc t = .blocked .reader
  writer : ∀ t, t ∈ s.writerQ ↔ s.pc t = .blocked .writer
  reader_nodup : s.readerQ.Nodup
  writer_nodup : s.writerQ.Nodup

variable {s : State T}

/-- A change of the word does not touch the queues. -/
theorem Queued.setWord (h : Queued s) (w : UInt64) : Queued { s with wwwh := w } :=
  { h with }

/-- What a nodup queue keeps is what was not woken. -/
theorem mem_drop_iff_of_nodup {q : List T} (hq : q.Nodup) (n : Nat) (u : T) :
    u ∈ q.drop n ↔ u ∈ q ∧ u ∉ q.take n := by
  rw [← take_append_drop n q] at hq
  constructor
  · intro hu
    exact ⟨mem_of_mem_drop hu, fun ht => (disjoint_of_nodup_append hq) ht hu⟩
  · rintro ⟨hu, hnt⟩
    rw [← take_append_drop n q, mem_append] at hu
    exact hu.resolve_left hnt

variable [DecidableEq T]

/-- A thread that is not blocked moves to a place where it is not blocked. -/
theorem Queued.goto (h : Queued s) (t : T) (p : Pc)
    (ht : ∀ rw, s.pc t ≠ .blocked rw) (hp : ∀ rw, p ≠ .blocked rw) : Queued (s.goto t p) := by
  refine ⟨fun u => ?_, fun u => ?_, h.reader_nodup, h.writer_nodup⟩
  · by_cases hut : u = t
    · simp only [State.goto, hut, update_self, hp, iff_false]
      exact fun hm => ht _ ((h.reader t).mp hm)
    · simp only [State.goto, update_of_ne hut]
      exact h.reader u
  · by_cases hut : u = t
    · simp only [State.goto, hut, update_self, hp, iff_false]
      exact fun hm => ht _ ((h.writer t).mp hm)
    · simp only [State.goto, update_of_ne hut]
      exact h.writer u

/-- A thread that was not blocked goes to sleep in its mode's queue. -/
theorem Queued.block (h : Queued s) (t : T) (rw : Krw)
    (ht : ∀ rw, s.pc t ≠ .blocked rw) : Queued (turnstileBlock (s.goto t (.blocked rw)) t rw) := by
  have hnr : t ∉ s.readerQ := fun hm => ht _ ((h.reader t).mp hm)
  have hnw : t ∉ s.writerQ := fun hm => ht _ ((h.writer t).mp hm)
  cases rw with
  | reader =>
    refine ⟨fun u => ?_, fun u => ?_, nodup_sleepqInsert _ _ _ hnr h.reader_nodup, h.writer_nodup⟩
    · simp only [turnstileBlock, State.goto, mem_sleepqInsert]
      by_cases hut : u = t
      · simp [hut]
      · simp only [hut, false_or, update_of_ne hut]
        exact h.reader u
    · simp only [turnstileBlock, State.goto]
      by_cases hut : u = t
      · simp [hut, hnw]
      · simp only [update_of_ne hut]
        exact h.writer u
  | writer =>
    refine ⟨fun u => ?_, fun u => ?_, h.reader_nodup, nodup_sleepqInsert _ _ _ hnw h.writer_nodup⟩
    · simp only [turnstileBlock, State.goto]
      by_cases hut : u = t
      · simp [hut, hnr]
      · simp only [update_of_ne hut]
        exact h.reader u
    · simp only [turnstileBlock, State.goto, mem_sleepqInsert]
      by_cases hut : u = t
      · simp [hut]
      · simp only [hut, false_or, update_of_ne hut]
        exact h.writer u

/-- Waking the head of a queue takes exactly those threads out of it. -/
theorem Queued.wake (h : Queued s) (n : Nat) (rw : Krw) : Queued (turnstileWakeup s n rw) := by
  cases rw with
  | reader =>
    refine ⟨fun u => ?_, fun u => ?_, h.reader_nodup.sublist (drop_sublist _ _), h.writer_nodup⟩
    · simp only [turnstileWakeup, wakeAll, mem_drop_iff_of_nodup h.reader_nodup]
      by_cases hu : u ∈ s.readerQ.take n
      · simp [hu]
      · simp [hu, h.reader u]
    · simp only [turnstileWakeup, wakeAll]
      by_cases hu : u ∈ s.readerQ.take n
      · have hb := (h.reader u).mp (mem_of_mem_take hu)
        simp [hu, h.writer u, hb]
      · simp [hu, h.writer u]
  | writer =>
    refine ⟨fun u => ?_, fun u => ?_, h.reader_nodup, h.writer_nodup.sublist (drop_sublist _ _)⟩
    · simp only [turnstileWakeup, wakeAll]
      by_cases hu : u ∈ s.writerQ.take n
      · have hb := (h.writer u).mp (mem_of_mem_take hu)
        simp [hu, h.reader u, hb]
      · simp [hu, h.reader u]
    · simp only [turnstileWakeup, wakeAll, mem_drop_iff_of_nodup h.writer_nodup]
      by_cases hu : u ∈ s.writerQ.take n
      · simp [hu]
      · simp [hu, h.writer u]

/-- Taking a member out and putting it back in its place by priority. -/
theorem mem_reinsert (t : T) (q : List T) (ht : t ∈ q) (u : T) :
    u ∈ sleepqInsert prio t (q.erase t) ↔ u ∈ q := by
  rw [mem_sleepqInsert]
  by_cases hut : u = t
  · simp [hut, ht]
  · simp [hut, mem_erase_of_ne hut]

theorem Queued.changePri (h : Queued s) (t : T) (pri : Nat) :
    Queued (turnstileChangePri s t pri) := by
  unfold turnstileChangePri
  by_cases hw : t ∈ s.writerQ
  · rw [if_pos hw]
    refine ⟨h.reader, fun u => ?_, h.reader_nodup, ?_⟩
    · rw [mem_reinsert _ _ _ hw]
      exact h.writer u
    · exact nodup_sleepqInsert _ _ _ h.writer_nodup.not_mem_erase (h.writer_nodup.erase t)
  · rw [if_neg hw]
    by_cases hr : t ∈ s.readerQ
    · rw [if_pos hr]
      refine ⟨fun u => ?_, h.writer, ?_, h.writer_nodup⟩
      · rw [mem_reinsert _ _ _ hr]
        exact h.reader u
      · exact nodup_sleepqInsert _ _ _ h.reader_nodup.not_mem_erase (h.reader_nodup.erase t)
    · rw [if_neg hr]
      exact { h with }

/-- A wake-up turns blocked threads into holders and changes nobody else. -/
theorem holds_wakeAll (pc : T → Pc) (l : List T) (rw r : Krw) (u : T)
    (hl : u ∈ l → ∀ r, (pc u).holds r = false) :
    (wakeAll pc l rw u).holds r = ((pc u).holds r || (decide (u ∈ l) && rw == r)) := by
  by_cases hu : u ∈ l
  · rw [hl hu r]
    simp [wakeAll, hu, Pc.holds]
  · simp [wakeAll, hu]

end Sol7.Rwlock
