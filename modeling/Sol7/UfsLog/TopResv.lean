import Sol7.UfsLog.TopAtomic

/-!
# Log Space Reservations

Every begin books its size: in `un_resv` if the operation enters the current
transaction, in `un_resv_wantin` if it is admitted to the next one. The
checks are meant to keep a transaction's bookings within `un_maxresv` unless
it holds a single operation.

`top_begin_sync` checks the sum of both counters. `top_begin_async` checks
`un_resv` alone. After the incore commit has opened the next transaction to
async operations, the sync operations admitted to that same transaction are
still booked in `un_resv_wantin`, so an async operation can be let in on top
of them. What is proved is the bound for the runs in which this does not
happen: an async operation that enters while `un_resv_wantin` is not zero
fits next to it. The sums are machine sums, so the runs must not wrap them
either.

## Main definitions

* `total`, `reserving`: The sum of a list of sizes and the sizes that book
  space.
* `Fits`: More than one booking stays within the bound.
* `Unbooked`: The condition on a step.
* `Booking`: What the two counters hold, phase by phase.

## Theorems

* `booking_move`: Every step that meets the condition keeps the books.
* `resv_fits`: The bound in every run whose steps meet the condition.
* `resv_overbooked`: The run that breaks it.
-/

namespace Sol7.UfsLog

open List Function

namespace Top

/-- The sum of a list of sizes, as a number that cannot wrap. -/
def total (sizes : List UInt32) : Nat := (sizes.map UInt32.toNat).sum

/-- The operations that book any space at all. -/
def reserving (sizes : List UInt32) : List UInt32 := sizes.filter (· ≠ 0)

/-- More than one booking stays within the bound. -/
def Fits (max : UInt32) (sizes : List UInt32) : Prop :=
  1 < (reserving sizes).length → total sizes ≤ max.toNat

instance (max : UInt32) (sizes : List UInt32) : Decidable (Fits max sizes) :=
  inferInstanceAs (Decidable (_ → _))

section

@[simp] theorem total_nil : total [] = 0 := rfl

@[simp] theorem total_cons (size : UInt32) (sizes : List UInt32) :
    total (size :: sizes) = size.toNat + total sizes := by
  simp [total]

@[simp] theorem total_append (l r : List UInt32) : total (l ++ r) = total l + total r := by
  simp [total]

theorem reserving_cons (size : UInt32) (sizes : List UInt32) :
    reserving (size :: sizes) = if size = 0 then reserving sizes else size :: reserving sizes := by
  by_cases hz : size = 0 <;> simp [reserving, hz]

theorem total_eq_zero_iff (sizes : List UInt32) : total sizes = 0 ↔ reserving sizes = [] := by
  induction sizes with
  | nil => simp [reserving]
  | cons size sizes ih =>
    rw [total_cons, reserving_cons, Nat.add_eq_zero_iff, ih]
    by_cases hz : size = 0
    · simp [hz]
    · have hne : size.toNat ≠ 0 := fun hc => hz (UInt32.toNat_inj.mp hc)
      simp [hz, hne]

variable {sizes l r : List UInt32} {max size : UInt32}

theorem fits_of_le (h : total sizes ≤ max.toNat) : Fits max sizes := fun _ => h

/-- The first operation to book space may be as large as it likes. -/
theorem fits_cons (h : total sizes = 0) : Fits max (size :: sizes) := by
  intro hlen
  rw [reserving_cons, (total_eq_zero_iff sizes).mp h] at hlen
  split at hlen <;> simp at hlen

/-- An operation that books nothing does not count. -/
theorem fits_zero_cons (h : Fits max sizes) : Fits max (0 :: sizes) := by
  intro hlen
  simpa using h hlen

theorem Fits.of_append (h : Fits max (l ++ r)) : Fits max l ∧ Fits max r := by
  constructor
  all_goals
    intro hlen
    have := h (by simp only [reserving, filter_append, length_append] at hlen ⊢; omega)
    rw [total_append] at this
    omega

/-- Bookings beyond the bound are one single operation's. -/
theorem Fits.single (h : Fits max sizes) :
    total sizes ≤ max.toNat ∨ ∃ size ∈ sizes, total sizes = size.toNat := by
  by_cases hlen : 1 < (reserving sizes).length
  · exact .inl (h hlen)
  clear h
  induction sizes with
  | nil => exact .inl zero_le
  | cons size sizes ih =>
    rw [reserving_cons] at hlen
    by_cases hz : size = 0
    · rw [if_pos hz] at hlen
      rcases ih hlen with hle | ⟨x, hx, he⟩
      · exact .inl (by simpa [hz] using hle)
      · exact .inr ⟨x, mem_cons_of_mem _ hx, by simpa [hz] using he⟩
    · -- The head books space, so nothing after it does.
      rw [if_neg hz] at hlen
      have hnil : reserving sizes = [] := by simpa using hlen
      have hrest := (total_eq_zero_iff sizes).mpr hnil
      exact .inr ⟨size, mem_cons_self, by rw [total_cons, hrest, add_zero]⟩

end

section
variable {T : Type}

/-- The condition on a step. No admission wraps the sum of the bookings, and
    an async operation that is let in while sync operations wait in the next
    transaction fits next to what they booked, or books nothing. -/
def Unbooked (s : State T) : Act T → Prop
  | .beginSync _ size => size.toNat + s.m.resvWantin.toNat + s.m.resv.toNat < 2 ^ 32
  | .beginAsync _ size =>
    size.toNat + s.m.resvWantin.toNat + s.m.resv.toNat < 2 ^ 32 ∧
      (s.m.closedAsync = false → s.m.resv = 0 ∨ size + s.m.resv ≤ s.m.maxresv →
        s.m.resvWantin ≠ 0 → size ≠ 0 →
        size.toNat + s.m.resvWantin.toNat + s.m.resv.toNat ≤ s.m.maxresv.toNat)
  | _ => True

instance (s : State T) : DecidablePred (Unbooked s)
  | .beginSync _ _ => inferInstanceAs (Decidable (_ < _))
  | .beginAsync _ _ => inferInstanceAs (Decidable (_ ∧ (_ → _ → _ → _ → _)))
  | .resume _ => isTrue trivial
  | .endSync _ => isTrue trivial
  | .endAsync _ => isTrue trivial
  | .endResume _ => isTrue trivial
  | .commit _ => isTrue trivial
  | .reopen _ => isTrue trivial
  | .log => isTrue trivial
  | .fail => isTrue trivial

/-- What the two counters hold. While the transaction runs, `un_resv` is the
    current one's bookings and `un_resv_wantin` the next one's; while it
    drains, `un_resv` has been cleared; while it flushes, both belong to the
    transaction that has just been opened to async operations. -/
inductive Booking (s : State T) : Prop
  | running (hasync : s.m.closedAsync = false) (hn : s.commits = s.opens)
      (hresv : s.m.resv.toNat = total (s.admitted s.commits))
      (hwant : s.m.resvWantin.toNat = total (s.admitted (s.opens + 1)))
      (hfits : Fits s.m.maxresv (s.admitted s.commits ++ s.admitted (s.opens + 1)))
  | draining (hasync : s.m.closedAsync = true) (hn : s.commits = s.opens)
      (hresv : s.m.resv = 0)
      (hwant : s.m.resvWantin.toNat = total (s.admitted (s.opens + 1)))
      (hfits : Fits s.m.maxresv (s.admitted (s.opens + 1)))
  | flushing (hasync : s.m.closedAsync = false) (hn : s.commits = s.opens + 1)
      (hsum : s.m.resv.toNat + s.m.resvWantin.toNat = total (s.admitted (s.opens + 1)))
      (hfits : Fits s.m.maxresv (s.admitted (s.opens + 1)))

/-- The books of a whole log: the phase's bookings, and that transactions
    nobody could enter yet are empty. -/
structure Books (s : State T) : Prop where
  booking : Booking s
  small : s.m.resv.toNat + s.m.resvWantin.toNat < 2 ^ 32
  later : ∀ n, s.opens + 1 < n → s.admitted n = []
  next : s.m.closedSync = false → s.admitted (s.opens + 1) = []
  past : ∀ n, Fits s.m.maxresv (s.admitted n)

theorem toNat_add_of_small {a b : UInt32} (h : a.toNat + b.toNat < 2 ^ 32) :
    (a + b).toNat = a.toNat + b.toNat := by
  exact Nat.mod_eq_of_lt h

variable {s s' : State T}

/-- One more booking next to `sizes`, which fill both counters: the room check
    only reads `un_resv`, so what waits in `un_resv_wantin` needs its own
    reason to fit. -/
theorem fits_enter {m : Moby} {sizes : List UInt32} (size : UInt32)
    (hsum : total sizes = m.resv.toNat + m.resvWantin.toNat) (hfits : Fits m.maxresv sizes)
    (hsmall : size.toNat + m.resvWantin.toNat + m.resv.toNat < 2 ^ 32)
    (hroom : m.resv = 0 ∨ size + m.resv ≤ m.maxresv) (hwant : m.resvWantin ≠ 0 → size ≠ 0 →
      size.toNat + m.resvWantin.toNat + m.resv.toNat ≤ m.maxresv.toNat) :
    Fits m.maxresv (size :: sizes) := by
  by_cases hz : size = 0
  · rw [hz]
    exact fits_zero_cons hfits
  by_cases hw : m.resvWantin = 0
  · have hw0 : m.resvWantin.toNat = 0 := by rw [hw]; rfl
    rcases hroom with h0 | hle
    · have hr0 : m.resv.toNat = 0 := by rw [h0]; rfl
      exact fits_cons (by omega)
    apply fits_of_le
    have := UInt32.le_iff_toNat_le.mp hle
    rw [toNat_add_of_small (by omega)] at this
    rw [total_cons]
    omega
  · apply fits_of_le
    have := hwant hw hz
    rw [total_cons]
    omega

/-- The bookings only read one flag, the counters and the history. -/
theorem Booking.congr {sync error : Bool} {active activesync dirty : Nat} {pc : T → Pc}
    (h : Booking s) : Booking { s with
      m := { s.m with
        closedSync := sync
        active := active
        activesync := activesync
        dirty := dirty
        error := error }
      pc := pc } := by
  cases h with
  | running h1 h2 h3 h4 h5 => exact .running h1 h2 h3 h4 h5
  | draining h1 h2 h3 h4 h5 => exact .draining h1 h2 h3 h4 h5
  | flushing h1 h2 h3 h4 => exact .flushing h1 h2 h3 h4

section
variable {txn : T → Nat} {pc : T → Pc} (h : Books s) (size : UInt32)
  (hsmall : size.toNat + s.m.resvWantin.toNat + s.m.resv.toNat < 2 ^ 32)
include h hsmall

/-- A sync operation admitted to the next transaction: its check counts both
    counters, so everything booked stays within the bound. -/
theorem Books.want {wantin : Nat} (hroom : size + s.m.resvWantin + s.m.resv ≤ s.m.maxresv)
    (hcs : s.m.closedSync = true) : Books { s with
      m := { s.m with wantin := wantin, resvWantin := s.m.resvWantin + size }
      pc := pc
      txn := txn
      admitted := update s.admitted (s.opens + 1) (size :: s.admitted (s.opens + 1)) } := by
  have hsum : (size + s.m.resvWantin + s.m.resv).toNat =
      size.toNat + s.m.resvWantin.toNat + s.m.resv.toNat := by
    rw [toNat_add_of_small, toNat_add_of_small (by omega)]
    rw [toNat_add_of_small (by omega)]
    exact hsmall
  have hle : size.toNat + s.m.resvWantin.toNat + s.m.resv.toNat ≤ s.m.maxresv.toNat := by
    rw [← hsum]
    exact UInt32.le_iff_toNat_le.mp hroom
  have hw : (s.m.resvWantin + size).toNat = s.m.resvWantin.toNat + size.toNat :=
    toNat_add_of_small (by omega)
  have hnext : total (s.admitted (s.opens + 1)) ≤ s.m.resvWantin.toNat + s.m.resv.toNat := by
    cases h.booking with
    | running _ _ _ h4 _ => omega
    | draining _ _ _ h4 _ => omega
    | flushing _ _ h3 _ => omega
  refine ⟨?_, by dsimp only; omega, fun n hn => ?_, fun hf => absurd hf (by simp [hcs]),
    fun n => ?_⟩ <;> dsimp only at *
  · cases h.booking with
    | running h1 h2 h3 h4 h5 =>
      have hcne : s.commits ≠ s.opens + 1 := by omega
      refine .running h1 h2 ?_ ?_ ?_ <;> dsimp only
      · rw [update_of_ne hcne, h3]
      · rw [hw, update_self, total_cons, h4, add_comm]
      · apply fits_of_le
        rw [update_self, update_of_ne hcne, total_append, total_cons]
        omega
    | draining h1 h2 h3 h4 h5 =>
      refine .draining h1 h2 h3 ?_ ?_ <;> dsimp only
      · rw [hw, update_self, total_cons, h4, add_comm]
      · apply fits_of_le
        rw [update_self, total_cons]
        omega
    | flushing h1 h2 h3 h4 =>
      refine .flushing h1 h2 ?_ ?_ <;> dsimp only
      · rw [hw, update_self, total_cons]
        omega
      · apply fits_of_le
        rw [update_self, total_cons]
        omega
  · rw [update_of_ne (by omega)]
    exact h.later n hn
  · by_cases hn : n = s.opens + 1
    · apply fits_of_le
      rw [hn, update_self, total_cons]
      omega
    · rw [update_of_ne hn]
      exact h.past n

/-- An operation let into the current transaction. -/
theorem Books.enter {active activesync : Nat} (hasync : s.m.closedAsync = false)
    (hroom : s.m.resv = 0 ∨ size + s.m.resv ≤ s.m.maxresv) (hwant : s.m.resvWantin ≠ 0 → size ≠ 0 →
      size.toNat + s.m.resvWantin.toNat + s.m.resv.toNat ≤ s.m.maxresv.toNat)
    (hopen : s.commits = s.opens + 1 → s.m.closedSync = true) (hs : s' = { s with
      m := { s.m with active := active, activesync := activesync, resv := s.m.resv + size }
      pc := pc
      txn := txn
      admitted := update s.admitted s.commits (size :: s.admitted s.commits) }) : Books s' := by
  have hr : (s.m.resv + size).toNat = s.m.resv.toNat + size.toNat :=
    toNat_add_of_small (by omega)
  have hcle : s.commits ≤ s.opens + 1 := by
    cases h.booking with
    | running _ hn _ _ _ => omega
    | draining _ hn _ _ _ => omega
    | flushing _ hn _ _ => omega
  have hnew : Booking s' ∧ Fits s.m.maxresv (size :: s.admitted s.commits) := by
    subst hs
    cases h.booking with
    | running h1 h2 h3 h4 h5 =>
      have hne : s.opens + 1 ≠ s.commits := by omega
      have hf := fits_enter size (by rw [total_append, h3, h4]) h5 hsmall hroom hwant
      refine ⟨.running h1 h2 ?_ ?_ ?_,
        (Fits.of_append (l := size :: s.admitted s.commits) hf).1⟩ <;> dsimp only
      · rw [hr, update_self, total_cons, h3, add_comm]
      · rw [update_of_ne hne, h4]
      · rw [update_self, update_of_ne hne]
        exact hf
    | draining h1 _ _ _ _ =>
      rw [hasync] at h1
      cases h1
    | flushing h1 h2 h3 h4 =>
      have hf := fits_enter size h3.symm h4 hsmall hroom hwant
      rw [← h2] at h3 hf
      refine ⟨.flushing h1 h2 ?_ ?_, hf⟩ <;> dsimp only
      · rw [hr, ← h2, update_self, total_cons]
        omega
      · rw [← h2, update_self]
        exact hf
  subst hs
  refine ⟨hnew.1, by dsimp only; omega, fun n hn => ?_, fun hf => ?_, fun n => ?_⟩ <;> dsimp only at *
  · rw [update_of_ne (by omega)]
    exact h.later n hn
  · have hne : s.opens + 1 ≠ s.commits := by
      intro hcn
      rw [hopen hcn.symm] at hf
      cases hf
    rw [update_of_ne hne]
    exact h.next hf
  · by_cases hn : n = s.commits
    · rw [hn, update_self]
      exact hnew.2
    · rw [update_of_ne hn]
      exact h.past n

end

theorem books_of_fresh (s : State T) (h : Fresh s) : Books s := by
  obtain ⟨-, hca, -, -, -, hr, hw, -, hc, ho, had⟩ := h
  have hr0 : s.m.resv.toNat = 0 := by rw [hr]; rfl
  have hw0 : s.m.resvWantin.toNat = 0 := by rw [hw]; rfl
  have hfits : ∀ l : List UInt32, l = [] → Fits s.m.maxresv l := by
    rintro l rfl
    exact fits_of_le zero_le
  refine ⟨.running hca (by rw [hc, ho]) ?_ ?_ ?_, by omega, fun n _ => had n,
    fun _ => had _, fun n => hfits _ (had n)⟩
  · rw [hr0, had, total_nil]
  · rw [hw0, had, total_nil]
  · exact hfits _ (by rw [had, had, append_nil])

/-- The bookings of whichever phase the log is in fill the two counters, and
    they fit. -/
theorem Books.counters (h : Books s) : s.m.resv.toNat + s.m.resvWantin.toNat ≤ s.m.maxresv.toNat ∨
      ∃ size ∈ s.admitted s.commits ++ s.admitted (s.opens + 1),
        s.m.resv.toNat + s.m.resvWantin.toNat = size.toNat := by
  cases h.booking with
  | running _ _ h3 h4 h5 =>
    rcases h5.single with hle | ⟨size, hmem, he⟩
    · rw [total_append] at hle
      exact .inl (by omega)
    · rw [total_append] at he
      exact .inr ⟨size, hmem, by omega⟩
  | draining _ _ h3 h4 h5 =>
    have hr0 : s.m.resv.toNat = 0 := by rw [h3]; rfl
    rcases h5.single with hle | ⟨size, hmem, he⟩
    · exact .inl (by omega)
    · exact .inr ⟨size, mem_append_right _ hmem, by omega⟩
  | flushing _ _ h3 h4 =>
    rcases h4.single with hle | ⟨size, hmem, he⟩
    · exact .inl (by omega)
    · exact .inr ⟨size, mem_append_right _ hmem, by omega⟩

variable [DecidableEq T] [Fintype T]

/-- Every step that meets the condition keeps the books. -/
theorem Books.move {a : Act T} (h : Books s) (hi : Inv s) (hu : Unbooked s a) (hm : Move s a s') :
    Books s' := by
  cases hm with
  | idle | resume | endAsync | endResume => exact { h with booking := h.booking.congr }
  | want t size _ hcs hroom => exact h.want size hu hroom hcs
  | enterSync t size _ hcs hroom =>
    -- Open to sync operations: nobody has been admitted to the next transaction.
    obtain ⟨hasync, hn⟩ := hi.phase.of_open hcs
    have hnone : s.m.resvWantin = 0 := by
      cases h.booking with
      | running _ _ _ h4 _ =>
        rw [h.next hcs] at h4
        exact UInt32.toNat_inj.mp h4
      | draining h1 _ _ _ _ => rw [hasync] at h1; cases h1
      | flushing _ h2 _ _ => omega
    exact h.enter size hu hasync hroom (absurd hnone) (by omega) rfl
  | enterAsync t size _ hasync hroom =>
    refine h.enter size hu.1 hasync hroom (hu.2 hasync hroom) ?_ rfl
    intro hn
    by_contra hcs
    have := (hi.phase.of_open (Bool.not_eq_true _ ▸ hcs)).2
    omega
  | endSyncWait t size hpc _ =>
    exact { h with booking := h.booking.congr, next := nofun }
  | endSyncLast t size hpc _ =>
    obtain ⟨-, hasync, hn⟩ := hi.phase.running_of_sync hi.counts hpc
    have hsmall := h.small
    refine ⟨?_, by simp only [UInt32.toNat_zero]; omega, h.later, nofun, h.past⟩
    cases h.booking with
    | running h1 h2 h3 h4 h5 => exact .draining rfl h2 rfl h4 h5.of_append.2
    | draining h1 _ _ _ _ => rw [hasync] at h1; cases h1
    | flushing _ h2 _ _ => omega
  | commit t hpc _ =>
    obtain ⟨dirty, tid, he⟩ := logmapCommit_frame s.m
    obtain ⟨-, -, hasync, hn⟩ := hi.phase.of_drain hpc
    refine ⟨?_, ?_, h.later, nofun, ?_⟩
    · cases h.booking with
      | running h1 _ _ _ _ => rw [hasync] at h1; cases h1
      | draining _ h2 h3 h4 h5 =>
        refine .flushing rfl ?_ ?_ ?_ <;> simp only [topEndSyncCommit, he]
        · omega
        · rw [h3, h4, UInt32.toNat_zero, zero_add]
        · exact h5
      | flushing _ h2 _ _ => omega
    · simp only [topEndSyncCommit, he]
      exact h.small
    · simp only [topEndSyncCommit, he]
      exact h.past
  | reopen t tid hpc =>
    obtain ⟨-, -, hn⟩ := hi.phase.of_flush hpc
    have hnil : s.admitted (s.opens + 1 + 1) = [] := h.later _ (by omega)
    have hsum : (s.m.resv + s.m.resvWantin).toNat =
        s.m.resv.toNat + s.m.resvWantin.toNat := toNat_add_of_small h.small
    refine ⟨?_, ?_, ?_, fun _ => hnil, h.past⟩
    · cases h.booking with
      | running _ h2 _ _ _ => omega
      | draining _ h2 _ _ _ => omega
      | flushing _ _ h3 h4 =>
        refine .running rfl hn ?_ ?_ ?_ <;> simp only [topEndSyncOpen]
        · rw [hsum, h3, hn]
        · rw [hnil, total_nil, UInt32.toNat_zero]
        · rw [hnil, append_nil, hn]
          exact h4
    · simp only [topEndSyncOpen]
      rw [hsum, UInt32.toNat_zero]
      exact h.small
    · intro n hlt
      exact h.later n (by simp only [topEndSyncOpen] at hlt; omega)

/-- In every run whose async operations fit next to what waits for the next
    transaction: a transaction with more than one booking stays within
    `un_maxresv`, and the two counters together do too unless they hold one
    single operation of the current transaction or of the next. -/
theorem resv_fits (s : State T) (hr : (top T).ReachableVia Unbooked s) :
    (∀ n, 1 < (reserving (s.admitted n)).length →
        total (s.admitted n) ≤ s.m.maxresv.toNat) ∧
      (s.m.resv.toNat + s.m.resvWantin.toNat ≤ s.m.maxresv.toNat ∨
        ∃ size ∈ s.admitted s.commits ++ s.admitted (s.opens + 1),
          s.m.resv.toNat + s.m.resvWantin.toNat = size.toNat) := by
  have hb : Inv s ∧ Books s := by
    refine System.ReachableVia.invariant (top T) Unbooked (fun s => Inv s ∧ Books s) ?_ ?_ s hr
    · exact fun s hs => ⟨inv_of_fresh s hs, books_of_fresh s hs⟩
    · intro s s' a h hu hs
      refine ⟨h.1.step hs, ?_⟩
      rcases move_of_step s s' a hs with hm | ⟨t, r, -, hm, hpc, h0, rfl⟩
      · exact h.2.move h.1 hu hm
      · exact (h.2.move h.1 hu hm).move (a := .commit t) (h.1.move hm) trivial (.commit t hpc h0)
  exact ⟨hb.2.past, hb.2.counters⟩

end

/-- An async operation of 40 bytes next to a waiting sync one of 60. -/
theorem resv_fits_exactly :
    ∃ s : State (Fin 3), (top (Fin 3)).ReachableVia Unbooked s ∧ s.admitted 1 = [40, 60] ∧
      total (s.admitted 1) ≤ s.m.maxresv.toNat := by
  have h0 : (top (Fin 3)).ReachableVia Unbooked (State.fresh (Fin 3) 100 7) :=
    .init _ (State.fresh_fresh 100 7)
  have h1 := h0.step _ _ (.beginSync 0 10) (by decide) rfl
  have h2 := h1.step _ _ (.endSync 0) (by decide) rfl
  have h3 := h2.step _ _ (.beginSync 1 60) (by decide) rfl
  have h4 := h3.step _ _ (.beginAsync 2 40) (by decide) rfl
  exact ⟨_, h4, rfl, (resv_fits _ h4).1 1 (by decide)⟩

/-- The check of `top_begin_async` reads `un_resv` only. After the commit, a sync
    operation of 60 bytes waits for the transaction to be opened, in a log with room
    for 100, and an async one of 60 bytes is let in on top. -/
theorem resv_overbooked : ∃ s : State (Fin 3), (top (Fin 3)).Reachable s ∧
      ¬(∀ n, 1 < (reserving (s.admitted n)).length →
        total (s.admitted n) ≤ s.m.maxresv.toNat) ∧
      ¬(s.m.resv.toNat + s.m.resvWantin.toNat ≤ s.m.maxresv.toNat ∨
        ∃ size ∈ s.admitted s.commits ++ s.admitted (s.opens + 1),
          s.m.resv.toNat + s.m.resvWantin.toNat = size.toNat) := by
  refine ⟨_, System.reachable_get (top (Fin 3))
    [.beginSync 0 10, .endSync 0, .beginSync 1 60, .beginAsync 2 60]
    (State.fresh (Fin 3) 100 7) (State.fresh_fresh 100 7) rfl, ?_, by decide⟩
  exact fun h => absurd (h 1) (by decide)

end Top

end Sol7.UfsLog
