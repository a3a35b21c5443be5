import Mathlib

/-!
# Time Without Division

Model of the arithmetic of `timers.c`. Seconds and nanoseconds are `long`,
which has 32 or 64 bits, and their sums wrap around.

The quotients by a thousand and by a thousand million are built from shifts.
Every shift loses less than one, so each line of the code is a pair of linear
inequalities, and the error of the whole is a linear combination of these.

## Main definitions

* `hrt2ts`, `ts2hrt`: From a count of nanoseconds to a time and back.
* `uniqtime`: The clock that does not show a time twice.
* `itimerdecr`: Time taken off an interval timer.
* `timespectohz`: The ticks until a time.

## Theorems

* `estimate_bounds`, `usecOf_eq`: What the shifts compute.
* `hrt2ts_exact`: The conversion is exact, and is undone by `ts2hrt`.
* `uniqtime_unique`: No time is shown twice.
* `itimerdecr_exact`: An interval timer does not drift.
* `timespectohz_iff`: When the number of ticks is right.
-/

namespace Sol7.Timers

open Int

def nanosec : Int := 1000000000

/-- Half the range of a `long`. -/
def half : Bool → Int
  | true => 2 ^ 63
  | false => 2 ^ 31

/-- A `long`. -/
def wrap (lp64 : Bool) (x : Int) : Int := (x + half lp64) % (2 * half lp64) - half lp64

/-- A `timestruc_t`. -/
structure Timespec where
  sec : Int
  nsec : Int
deriving DecidableEq

/-- A time in nanoseconds. -/
def Timespec.ns (t : Timespec) : Int := t.sec * nanosec + t.nsec

variable {lp64 : Bool}

/-- What a `long` can hold. -/
def Fits (lp64 : Bool) (x : Int) : Prop := -half lp64 ≤ x ∧ x < half lp64

instance (lp64 : Bool) (x : Int) : Decidable (Fits lp64 x) := inferInstanceAs (Decidable (_ ∧ _))

/-- A normalised time. -/
structure Timespec.Ok (lp64 : Bool) (t : Timespec) : Prop where
  sec : Fits lp64 t.sec
  nsec : 0 ≤ t.nsec ∧ t.nsec < nanosec

theorem wrap_of_fits {x : Int} (h : Fits lp64 x) : wrap lp64 x = x := by
  cases lp64 <;> simp only [Fits, half, wrap] at * <;> omega

theorem fits_wrap (x : Int) : Fits lp64 (wrap lp64 x) := by
  cases lp64 <;> simp only [Fits, half, wrap] <;> omega

/-! ### Nanoseconds -/

/-- A difference of `uint32_t`. -/
def sub32 (x y : Nat) : Nat := (x + 2 ^ 32 - y) % 2 ^ 32

/-- The quotient of `hrt2ts`, from the high bits. -/
def estimate (tmp : Nat) : Nat :=
  let sec := sub32 tmp (tmp / 4)
  let sec := sub32 tmp (sec / 32)
  let sec := (tmp + sec / 2) % 2 ^ 32
  let sec := (sub32 tmp (sec / 64) + 7) % 2 ^ 32
  let sec := sub32 tmp (sec / 8)
  let sec := (tmp + sec / 2) % 2 ^ 32
  let sec := (tmp + sec / 8) % 2 ^ 32
  (tmp + sec / 16) % 2 ^ 32

def times125 (tmp : Nat) : Nat := sub32 (sub32 (sub32 (tmp * 2 ^ 7 % 2 ^ 32) tmp) tmp) tmp

/-- The seconds that are missing are added one by one. -/
def hrt2tsLoop (sec nsec : Nat) : Nat × Nat :=
  if nanosec ≤ nsec then hrt2tsLoop ((sec + 1) % 2 ^ 32) (nsec - nanosec.toNat) else (sec, nsec)
termination_by nsec
decreasing_by
  unfold nanosec at *
  omega

/-- From a count of nanoseconds to a time, by shifts and additions. -/
def hrt2ts (lp64 : Bool) (hrt : Int) : Timespec :=
  let sec := estimate (hrt / 2 ^ 30 % 2 ^ 32).toNat
  let tmp := times125 (times125 (times125 sec))
  let r := hrt2tsLoop sec (sub32 (hrt % 2 ^ 32).toNat (tmp * 2 ^ 9 % 2 ^ 32))
  ⟨wrap lp64 r.1, wrap lp64 r.2⟩

/-- A `hrtime_t` times 125. -/
def hrtime125 (hrt : Int) : Int := wrap true (wrap true (hrt * 2 ^ 7) - hrt - hrt - hrt)

def ts2hrt (tsp : Timespec) : Int :=
  wrap true (wrap true (hrtime125 (hrtime125 (hrtime125 tsp.sec)) * 2 ^ 9) + tsp.nsec)

theorem estimate_small : ∀ a < 104, ∀ b < 64,
    estimate (64 * a + b) * 1000000000 ≤ (64 * a + b) * 2 ^ 30 := by
  decide +kernel

/-- The estimate is never too large, and what is missing fits. -/
theorem estimate_bounds {t : Nat} (h : t < 2000000000) : estimate t * 1000000000 ≤ t * 2 ^ 30 ∧
      t * 2 ^ 30 + 2 ^ 30 ≤ estimate t * 1000000000 + 2 ^ 32 := by
  have hsmall : t < 6656 → estimate t * 1000000000 ≤ t * 2 ^ 30 := by
    intro ht
    have := estimate_small (t / 64) (by omega) (t % 64) (by omega)
    rwa [Nat.div_add_mod] at this
  revert hsmall
  simp only [estimate, sub32]
  -- Every line loses less than one in its shift.
  generalize ha : (t + 2 ^ 32 - t / 4) % 2 ^ 32 = a
  replace ha : 3 * t ≤ 4 * a ∧ 4 * a ≤ 3 * t + 3 := by omega
  generalize hb : (t + 2 ^ 32 - a / 32) % 2 ^ 32 = b
  replace hb : 32 * t ≤ 32 * b + a ∧ 32 * b + a ≤ 32 * t + 31 := by omega
  generalize hc : (t + b / 2) % 2 ^ 32 = c
  replace hc : 2 * c ≤ 2 * t + b ∧ 2 * t + b ≤ 2 * c + 1 := by
    rw [Nat.mod_eq_of_lt (by omega)] at hc
    omega
  generalize hd : ((t + 2 ^ 32 - c / 64) % 2 ^ 32 + 7) % 2 ^ 32 = d
  replace hd : 64 * t + 448 ≤ 64 * d + c ∧ 64 * d + c ≤ 64 * t + 511 := by omega
  generalize hf : (t + 2 ^ 32 - d / 8) % 2 ^ 32 = f
  replace hf : 8 * t ≤ 8 * f + d ∧ 8 * f + d ≤ 8 * t + 7 := by omega
  generalize hg : (t + f / 2) % 2 ^ 32 = g
  replace hg : 2 * g ≤ 2 * t + f ∧ 2 * t + f ≤ 2 * g + 1 := by
    rw [Nat.mod_eq_of_lt (by omega)] at hg
    omega
  generalize hi : (t + g / 8) % 2 ^ 32 = i
  replace hi : 8 * i ≤ 8 * t + g ∧ 8 * t + g ≤ 8 * i + 7 := by omega
  generalize he : (t + i / 16) % 2 ^ 32 = e
  replace he : 16 * e ≤ 16 * t + i ∧ 16 * t + i ≤ 16 * e + 15 := by omega
  intro hsmall
  rcases lt_or_ge t 6656 with ht | ht
  · refine ⟨hsmall ht, ?_⟩
    linarith
  · constructor <;> linarith

theorem hrt2tsLoop_eq {sec nsec : Nat} (h : sec + nsec / 1000000000 < 2 ^ 32) :
    hrt2tsLoop sec nsec = (sec + nsec / 1000000000, nsec % 1000000000) := by
  induction sec, nsec using hrt2tsLoop.induct with
  | case1 sec nsec hle ih =>
    rw [hrt2tsLoop, if_pos hle]
    unfold nanosec at *
    rw [ih (by omega), Prod.mk.injEq]
    omega
  | case2 sec nsec hlt =>
    rw [hrt2tsLoop, if_neg hlt, Prod.mk.injEq]
    unfold nanosec at *
    omega

/-- The conversion is exact, and is undone by `ts2hrt`. -/
theorem hrt2ts_exact (lp64 : Bool) (hrt : Int) (hpos : 0 ≤ hrt) (hlt : hrt < 2 ^ 31 * nanosec) :
    hrt2ts lp64 hrt = ⟨hrt / nanosec, hrt % nanosec⟩ ∧ ts2hrt (hrt2ts lp64 hrt) = hrt := by
  unfold nanosec at *
  have heq : hrt2ts lp64 hrt = ⟨hrt / 1000000000, hrt % 1000000000⟩ := by
    lift hrt to Nat using hpos
    simp only [hrt2ts]
    have htmp : ((hrt : Int) / 2 ^ 30 % 2 ^ 32).toNat = hrt / 2 ^ 30 := by omega
    rw [htmp]
    have hest := estimate_bounds (t := hrt / 2 ^ 30) (by omega)
    generalize estimate (hrt / 2 ^ 30) = sec at *
    -- The product is right in its low bits, and the difference has no others.
    have hnsec : sub32 ((hrt : Int) % 2 ^ 32).toNat
        (times125 (times125 (times125 sec)) * 2 ^ 9 % 2 ^ 32) = hrt - sec * 1000000000 := by
      have hmul : ∀ x < 2 ^ 32, times125 x = 125 * x % 2 ^ 32 := by
        intro x hx
        simp only [times125, sub32]
        omega
      rw [hmul sec (by omega), hmul _ (Nat.mod_lt _ (by decide)),
        hmul _ (Nat.mod_lt _ (by decide)), sub32]
      omega
    rw [hnsec, hrt2tsLoop_eq (by omega), wrap_of_fits, wrap_of_fits]
    · congr 1 <;> omega
    all_goals cases lp64 <;> simp only [Fits, half] <;> omega
  refine ⟨heq, ?_⟩
  rw [heq]
  simp only [ts2hrt, hrtime125, wrap, half]
  omega

theorem hrt2ts_exact_second : hrt2ts false 1000000001 = ⟨1, 1⟩ := by
  have h := (hrt2ts_exact false 1000000001 (by decide) (by decide)).1
  exact h

/-! ### Unique times -/

structure Timeval where
  sec : Int
  usec : Int
deriving DecidableEq

def microsec : Int := 1000000

/-- A time in microseconds. -/
def Timeval.us (t : Timeval) : Int := t.sec * microsec + t.usec

structure Timeval.Ok (lp64 : Bool) (t : Timeval) : Prop where
  sec : Fits lp64 t.sec
  usec : 0 ≤ t.usec ∧ t.usec < microsec

/-- The microseconds of `uniqtime`, in an `int`. -/
def usecOf (nsec : Int) : Int :=
  let usec := wrap false (nsec + nsec / 4)
  let usec := wrap false (nsec + usec / 2)
  let usec := wrap false (nsec + usec / 4)
  let usec := wrap false (nsec + usec / 16)
  let usec := wrap false (nsec - usec / 8)
  let usec := wrap false (nsec + usec / 4)
  let usec := wrap false (nsec + usec / 8)
  let usec := wrap false (nsec + usec / 16)
  let usec := wrap false (nsec + usec / 2)
  let usec := wrap false (nsec + usec / 64)
  usec / 1024

/-- The time after `last`, which is also the next `last`. -/
def uniqtime (lp64 : Bool) (last : Timeval) (ts : Timespec) : Timeval :=
  let usec := usecOf ts.nsec
  if ts.sec ≤ last.sec ∧ (ts.sec ≠ last.sec ∨ usec ≤ last.usec) ∧
      wrap lp64 (last.sec - ts.sec) ≤ 5 then
    if microsec ≤ last.usec + 1 then ⟨wrap lp64 (last.sec + 1), last.usec + 1 - microsec⟩
    else ⟨last.sec, last.usec + 1⟩
  else ⟨ts.sec, usec⟩

theorem usecOf_eq {nsec : Int} (hpos : 0 ≤ nsec) (hlt : nsec < nanosec) :
    usecOf nsec = nsec / 1000 := by
  unfold nanosec at hlt
  generalize he : usecOf nsec = e
  simp only [usecOf, wrap, half] at he
  generalize ha : (nsec + nsec / 4 + 2 ^ 31) % (2 * 2 ^ 31) - 2 ^ 31 = a at he
  replace ha : 4 * a ≤ 5 * nsec ∧ 5 * nsec ≤ 4 * a + 3 := by omega
  generalize hb : (nsec + a / 2 + 2 ^ 31) % (2 * 2 ^ 31) - 2 ^ 31 = b at he
  replace hb : 2 * b ≤ 2 * nsec + a ∧ 2 * nsec + a ≤ 2 * b + 1 := by omega
  generalize hc : (nsec + b / 4 + 2 ^ 31) % (2 * 2 ^ 31) - 2 ^ 31 = c at he
  replace hc : 4 * c ≤ 4 * nsec + b ∧ 4 * nsec + b ≤ 4 * c + 3 := by omega
  generalize hd : (nsec + c / 16 + 2 ^ 31) % (2 * 2 ^ 31) - 2 ^ 31 = d at he
  replace hd : 16 * d ≤ 16 * nsec + c ∧ 16 * nsec + c ≤ 16 * d + 15 := by omega
  generalize hf : (nsec - d / 8 + 2 ^ 31) % (2 * 2 ^ 31) - 2 ^ 31 = f at he
  replace hf : 8 * nsec ≤ 8 * f + d ∧ 8 * f + d ≤ 8 * nsec + 7 := by omega
  generalize hg : (nsec + f / 4 + 2 ^ 31) % (2 * 2 ^ 31) - 2 ^ 31 = g at he
  replace hg : 4 * g ≤ 4 * nsec + f ∧ 4 * nsec + f ≤ 4 * g + 3 := by omega
  generalize hi : (nsec + g / 8 + 2 ^ 31) % (2 * 2 ^ 31) - 2 ^ 31 = i at he
  replace hi : 8 * i ≤ 8 * nsec + g ∧ 8 * nsec + g ≤ 8 * i + 7 := by omega
  generalize hj : (nsec + i / 16 + 2 ^ 31) % (2 * 2 ^ 31) - 2 ^ 31 = j at he
  replace hj : 16 * j ≤ 16 * nsec + i ∧ 16 * nsec + i ≤ 16 * j + 15 := by omega
  generalize hk : (nsec + j / 2 + 2 ^ 31) % (2 * 2 ^ 31) - 2 ^ 31 = k at he
  replace hk : 2 * k ≤ 2 * nsec + j ∧ 2 * nsec + j ≤ 2 * k + 1 := by omega
  generalize hl : (nsec + k / 64 + 2 ^ 31) % (2 * 2 ^ 31) - 2 ^ 31 = l at he
  replace hl : 64 * l ≤ 64 * nsec + k ∧ 64 * nsec + k ≤ 64 * l + 63 := by omega
  omega

theorem uniqtime_ok {last : Timeval} {ts : Timespec} (hlast : last.Ok lp64) (hts : ts.Ok lp64) :
    (uniqtime lp64 last ts).Ok lp64 := by
  have husec := usecOf_eq hts.nsec.1 hts.nsec.2
  have hnsec := hts.nsec
  have hu := hlast.usec
  unfold uniqtime microsec nanosec at *
  dsimp only
  split
  · split
    · exact ⟨fits_wrap _, by dsimp only [microsec]; omega⟩
    · exact ⟨hlast.sec, by dsimp only [microsec]; omega⟩
  · exact ⟨hts.sec, by dsimp only [microsec]; omega⟩

/-- The last result of a sequence of calls. -/
def lastTime (lp64 : Bool) (readings : List Timespec) : Timeval :=
  readings.foldl (uniqtime lp64) ⟨0, 0⟩

theorem lastTime_ok {readings : List Timespec} (h : ∀ t ∈ readings, t.Ok lp64) :
    (lastTime lp64 readings).Ok lp64 := by
  have h0 : Timeval.Ok lp64 ⟨0, 0⟩ := by constructor <;> cases lp64 <;> decide
  exact List.foldlRecOn readings _ h0 fun last hlast t ht => uniqtime_ok hlast (h t ht)

/-- Every result is normalised, and later than the one before it, unless the
    clock went back by more than five seconds or the one before it was the last
    time there is. A reading whose microsecond is later than that is shown as
    it is. -/
theorem uniqtime_unique (lp64 : Bool) (readings : List Timespec)
    (hreadings : ∀ t ∈ readings, t.Ok lp64) (ts : Timespec) (hts : ts.Ok lp64) :
    (lastTime lp64 (readings ++ [ts])).Ok lp64 ∧
      ((lastTime lp64 readings).us < (lastTime lp64 (readings ++ [ts])).us ∨
        ts.ns + 5 * nanosec < 1000 * (lastTime lp64 readings).us ∨
        lastTime lp64 readings = ⟨half lp64 - 1, microsec - 1⟩) ∧
      ((lastTime lp64 readings).us < ts.ns / 1000 →
        lastTime lp64 (readings ++ [ts]) = ⟨ts.sec, ts.nsec / 1000⟩) := by
  have hlast := lastTime_ok hreadings
  have hnext : lastTime lp64 (readings ++ [ts]) = uniqtime lp64 (lastTime lp64 readings) ts := by
    rw [lastTime, List.foldl_append]
    rfl
  rw [hnext]
  generalize lastTime lp64 readings = last at *
  have husec := usecOf_eq hts.nsec.1 hts.nsec.2
  have hnsec := hts.nsec
  have hu := hlast.usec
  have hwrap : 0 ≤ last.sec - ts.sec → last.sec - ts.sec ≤ 5 →
      wrap lp64 (last.sec - ts.sec) = last.sec - ts.sec := fun _ _ =>
    wrap_of_fits (by cases lp64 <;> simp only [Fits, half] <;> omega)
  refine ⟨uniqtime_ok hlast hts, ?_, fun hlater => ?_⟩
  all_goals
    unfold uniqtime
    rw [husec]
    unfold Timespec.ns Timeval.us nanosec microsec at *
    dsimp only
  · split
    · split
      · by_cases hmax : last.sec = half lp64 - 1
        · exact .inr (.inr (by cases last; congr; dsimp only at *; omega))
        · have hfits := hlast.sec
          unfold Fits at hfits
          rw [wrap_of_fits ⟨by omega, by omega⟩]
          dsimp only
          omega
      · dsimp only
        omega
    · dsimp only
      omega
  · rw [if_neg]
    omega

/-- Two readings within one microsecond. -/
theorem uniqtime_unique_second : lastTime false [⟨1, 500⟩] = ⟨1, 0⟩ ∧
    (lastTime false [⟨1, 500⟩]).us < (lastTime false ([⟨1, 500⟩] ++ [⟨1, 700⟩])).us :=
  ⟨by decide +kernel, (uniqtime_unique false [⟨1, 500⟩] (List.forall_mem_singleton.mpr ⟨by decide, by decide⟩)
    ⟨1, 700⟩ ⟨by decide, by decide⟩).2.1.resolve_right (by decide +kernel)⟩

/-- A reading within the microsecond of the result before it, and one at the greatest
    time, after which the seconds wrap. -/
theorem uniqtime_moved : lastTime false [⟨1, 0⟩] = ⟨1, 0⟩ ∧
    1000 * (lastTime false [⟨1, 0⟩]).us < Timespec.ns ⟨1, 500⟩ ∧
    lastTime false [⟨1, 0⟩, ⟨1, 500⟩] ≠ ⟨1, 500 / 1000⟩ ∧
    (lastTime false [⟨2 ^ 31 - 1, 999999000⟩, ⟨2 ^ 31 - 1, 999999000⟩]).us <
      (lastTime false [⟨2 ^ 31 - 1, 999999000⟩]).us := by
  decide +kernel

/-! ### Interval timers -/

/-- Check a time for an interval timer, and round it up to a tick. -/
def itimerfix (usecPerTick : Int) (tv : Timeval) : Option Timeval :=
  if tv.sec < 0 ∨ tv.sec > 100000000 ∨ tv.usec < 0 ∨ tv.usec ≥ microsec then none
  else if tv.sec = 0 ∧ tv.usec ≠ 0 ∧ tv.usec < usecPerTick then some ⟨tv.sec, usecPerTick⟩
  else some tv

structure Itimerval where
  interval : Timeval
  value : Timeval

abbrev timerisset (tv : Timeval) : Prop := tv.sec ≠ 0 ∨ tv.usec ≠ 0

/-- Microseconds are taken off, with a borrow. -/
def Timeval.decr (tv : Timeval) (usec : Int) : Timeval :=
  if tv.usec < usec then ⟨tv.sec - 1, tv.usec + microsec - usec⟩ else ⟨tv.sec, tv.usec - usec⟩

/-- The label `expire`, where `usec` of the next interval have passed. -/
def expire (itp : Itimerval) (usec : Int) : Itimerval :=
  if timerisset itp.interval then { itp with value := itp.interval.decr usec }
  else { itp with value := ⟨itp.value.sec, 0⟩ }

/-- Take time off a timer. The result says whether it is still running. -/
def itimerdecr (itp : Itimerval) (usec : Int) : Itimerval × Int :=
  if itp.value.usec < usec ∧ itp.value.sec = 0 then (expire itp (usec - itp.value.usec), 0)
  else
    let itp := { itp with value := itp.value.decr usec }
    if timerisset itp.value then (itp, 1) else (expire itp 0, 0)

/-- The timer after some calls of `itimerdecr`, and how many of these returned 0. -/
def itimerdecrs (itp : Itimerval) : List Int → Itimerval × Int
  | [] => (itp, 0)
  | usec :: usecs =>
    let r := itimerdecr itp usec
    let rest := itimerdecrs r.1 usecs
    (rest.1, rest.2 + if r.2 = 0 then 1 else 0)

/-- A normalised time that is neither zero nor negative. -/
abbrev Timeval.Runs (tv : Timeval) : Prop :=
  0 ≤ tv.sec ∧ 0 ≤ tv.usec ∧ tv.usec < microsec ∧ timerisset tv

/-- What `itimerfix` accepts is at least a tick, unless it is zero. -/
theorem itimerfix_runs {tick : Int} (htick : tick < microsec) {tv tv' : Timeval}
    (h : itimerfix tick tv = some tv') (hset : timerisset tv') : tv'.Runs ∧ tick ≤ tv'.us := by
  unfold itimerfix at h
  split at h
  · cases h
  split at h <;> cases h <;> simp only [Timeval.Runs, Timeval.us, microsec] at *
  all_goals omega

/-- What is carried into the next interval is less than a tick. -/
theorem itimerdecr_spec {itp : Itimerval} {tick usec : Int} (hvalue : itp.value.Runs)
    (hinterval : itp.interval.Runs) (htick : tick ≤ itp.interval.us) (husec : 0 < usec)
    (hle : usec ≤ tick) (hlt : tick < microsec) : (itimerdecr itp usec).1.value.Runs ∧
      (itimerdecr itp usec).1.interval = itp.interval ∧
      ((itimerdecr itp usec).2 = 0 ∧
          (itimerdecr itp usec).1.value.us = itp.value.us - usec + itp.interval.us ∨
        (itimerdecr itp usec).2 = 1 ∧ (itimerdecr itp usec).1.value.us = itp.value.us - usec) := by
  unfold itimerdecr expire Timeval.decr
  simp only [Timeval.Runs, Timeval.us, microsec] at *
  split_ifs
  all_goals
    refine ⟨?_, rfl, ?_⟩
    all_goals
      dsimp only [timerisset] at *
      omega

/-- A timer does not drift: what the calls took off is what it lost, and an interval for
    each time it expired. -/
theorem itimerdecr_exact {tick : Int} (htick : tick < microsec) (value interval : Timeval)
    {itp : Itimerval} (hvalue : itimerfix tick value = some itp.value)
    (hinterval : itimerfix tick interval = some itp.interval) (hset : timerisset itp.value)
    (hset' : timerisset itp.interval) {usecs : List Int} (husecs : ∀ u ∈ usecs, 0 < u ∧ u ≤ tick) :
    (itimerdecrs itp usecs).1.value.Runs ∧
      usecs.sum = itp.value.us - (itimerdecrs itp usecs).1.value.us +
        (itimerdecrs itp usecs).2 * itp.interval.us := by
  have hruns := (itimerfix_runs htick hvalue hset).1
  obtain ⟨hiruns, hle⟩ := itimerfix_runs htick hinterval hset'
  clear hvalue hinterval hset hset'
  induction usecs generalizing itp with
  | nil => exact ⟨hruns, by simp [itimerdecrs]⟩
  | cons usec usecs ih =>
    obtain ⟨husec, hrest⟩ := List.forall_mem_cons.mp husecs
    obtain ⟨hnext, hsame, heq⟩ := itimerdecr_spec hruns hiruns hle husec.1 husec.2 htick
    rw [← hsame] at hiruns hle
    obtain ⟨hlast, hsum⟩ := ih hrest hnext hiruns hle
    refine ⟨hlast, ?_⟩
    rw [itimerdecrs, List.sum_cons, hsum, hsame, add_mul]
    rcases heq with ⟨hret, heq⟩ | ⟨hret, heq⟩
    all_goals
      simp only [hret, heq, if_true, one_ne_zero, if_false]
      omega

theorem itimerdecr_exact_tick : (itimerdecrs ⟨⟨0, 15000⟩, ⟨0, 10000⟩⟩ [4000, 10000]).1.value.Runs :=
  (itimerdecr_exact (by decide : 10000 < microsec) ⟨0, 1⟩ ⟨0, 15000⟩ (by decide) (by decide)
    (by decide) (by decide) (by decide)).1

/-! ### Ticks -/

/-- The delay of `timespectohz`, with a tick less one added to round it up. -/
def delay (lp64 : Bool) (nsecPerTick : Int) (tv now : Timespec) : Timespec :=
  let sec := wrap lp64 (tv.sec - now.sec)
  let nsec := wrap false (tv.nsec - now.nsec + nsecPerTick - 1)
  if nsec < 0 then ⟨wrap lp64 (sec - 1), nsec + nanosec⟩
  else if nanosec ≤ nsec then ⟨wrap lp64 (sec + 1), nsec - nanosec⟩
  else ⟨sec, nsec⟩

/-- The ticks until a time. -/
def timespectohz (lp64 : Bool) (hz nsecPerTick : Int) (tv now : Timespec) : Int :=
  let t := delay lp64 nsecPerTick tv now
  let ticks := t.nsec / nsecPerTick
  if t.sec < 0 ∨ t.sec = 0 ∧ ticks < 1 then 1
  else if t.sec > (half lp64 - 1 - ticks) / hz then half lp64 - 1
  else wrap lp64 (ticks + wrap lp64 (t.sec * hz))

/-- The carry and the borrow leave the seconds and the nanoseconds of the sum. -/
theorem delay_eq {tick : Int} (hpos : 0 < tick) (hle : tick ≤ nanosec) {tv now : Timespec}
    (htv : tv.Ok lp64) (hnow : now.Ok lp64) {n : Int} (hn : tv.ns - now.ns + tick - 1 = n) :
    delay lp64 tick tv now = ⟨wrap lp64 (n / nanosec), n % nanosec⟩ := by
  have h1 := htv.nsec
  have h2 := hnow.nsec
  have hwrap : ∀ x y, wrap lp64 (wrap lp64 x + y) = wrap lp64 (x + y) := by
    intro x y
    cases lp64 <;> simp only [wrap, half] <;> omega
  unfold delay Timespec.ns nanosec at *
  have hnsec : wrap false (tv.nsec - now.nsec + tick - 1) = tv.nsec - now.nsec + tick - 1 :=
    wrap_of_fits (by simp only [Fits, half]; omega)
  dsimp only
  split_ifs
  · rw [sub_eq_add_neg, hwrap]
    congr 2 <;> omega
  · rw [hwrap]
    congr 2 <;> omega
  · congr 2 <;> omega

/-- The number of ticks is right, unless the seconds are more than a `long` holds. -/
theorem timespectohz_iff (lp64 : Bool) {hz tick : Int} (hhz : 0 < hz) (htick : hz * tick = nanosec)
    {tv now : Timespec} (htv : tv.Ok lp64) (hnow : now.Ok lp64) (hpos : 0 ≤ tv.sec) :
    timespectohz lp64 hz tick tv now =
        (if tv.ns ≤ now.ns then 1 else min (half lp64 - 1) (-((now.ns - tv.ns) / tick))) ↔
      (tv.ns - now.ns + tick - 1) / nanosec < half lp64 := by
  have htpos : 0 < tick := pos_of_mul_pos_right (by rw [htick]; decide) hhz.le
  have htle : tick ≤ nanosec := htick ▸ le_mul_of_one_le_left htpos.le hhz
  have hhzle : hz ≤ nanosec := htick ▸ le_mul_of_one_le_right hhz.le htpos
  unfold timespectohz
  generalize hn : tv.ns - now.ns + tick - 1 = n
  rw [delay_eq htpos htle htv hnow hn]
  -- The ticks are those of the seconds and the rest.
  have hticks : n / tick = n % nanosec / tick + n / nanosec * hz := by
    rw [← add_mul_ediv_right _ _ htpos.ne', mul_assoc, htick, mul_comm, emod_add_mul_ediv]
  have hrest : 0 ≤ n % nanosec / tick ∧ n % nanosec / tick < hz := by
    rw [Int.ediv_lt_iff_lt_mul htpos, htick]
    exact ⟨ediv_nonneg (emod_nonneg _ (by decide)) htpos.le, emod_lt_of_pos _ (by decide)⟩
  have hceil : -((now.ns - tv.ns) / tick) = n / tick := by
    have h := emod_add_mul_ediv (now.ns - tv.ns) tick
    have h₀ := emod_nonneg (now.ns - tv.ns) htpos.ne'
    have h1 := emod_lt_of_pos (now.ns - tv.ns) htpos
    refine ((ediv_eq_iff_of_pos htpos).mpr ?_).symm
    rw [neg_mul, mul_comm]
    omega
  have hlate : tv.ns ≤ now.ns ↔ n / tick < 1 := by
    rw [Int.ediv_lt_iff_lt_mul htpos]
    omega
  have hsec : -half lp64 ≤ n / nanosec ∧ n / nanosec ≤ 2 * half lp64 := by
    have h1 := htv.nsec
    have h2 := hnow.nsec
    have h3 := htv.sec
    have h4 := hnow.sec
    unfold Fits Timespec.ns nanosec at *
    omega
  have hhalf : 2 ^ 31 ≤ half lp64 := by cases lp64 <;> decide
  simp only [hceil, hlate, hticks]
  unfold nanosec at hhzle
  generalize n / nanosec = sec at *
  generalize n % nanosec / tick = ticks at *
  clear hticks hn
  constructor
  · intro heq
    by_contra hbig
    have hmul : sec ≤ sec * hz := le_mul_of_one_le_right (by omega) hhz
    have hover : wrap lp64 sec = sec - 2 * half lp64 := by
      cases lp64 <;> simp only [wrap, half] at * <;> omega
    rw [hover, if_neg (by omega : ¬ticks + sec * hz < 1), min_eq_left (by omega)] at heq
    split_ifs at heq with h1 h2
    · omega
    · have := ediv_nonneg (a := half lp64 - 1 - ticks) (by omega) hhz.le
      omega
    · obtain h₀ : sec - 2 * half lp64 = 0 := by omega
      rw [h₀, zero_mul, wrap_of_fits (x := 0) ⟨by omega, by omega⟩, add_zero,
        wrap_of_fits ⟨by omega, by omega⟩] at heq
      omega
  · intro hlt
    rw [wrap_of_fits ⟨hsec.1, hlt⟩]
    have hsmall : (sec < 0 ∨ sec = 0 ∧ ticks < 1) ↔ ticks + sec * hz < 1 := by
      rcases lt_trichotomy sec 0 with hneg | rfl | hmore
      · have := mul_le_mul_of_nonneg_right (by omega : sec ≤ -1) hhz.le
        omega
      · omega
      · have := mul_le_mul_of_nonneg_right (by omega : 1 ≤ sec) hhz.le
        omega
    simp only [hsmall, gt_iff_lt, Int.ediv_lt_iff_lt_mul hhz]
    split_ifs with h1 h2
    · rfl
    · rw [min_eq_left (by omega)]
    · have hfits : Fits lp64 (sec * hz) := ⟨by omega, by omega⟩
      rw [wrap_of_fits hfits, wrap_of_fits ⟨by omega, by omega⟩, min_eq_right (by omega)]

theorem timespectohz_iff_tick : timespectohz false 100 10000000 ⟨1, 0⟩ ⟨0, 999999999⟩ = 1 :=
  (timespectohz_iff false (by decide) (by decide) ⟨by decide, by decide⟩ ⟨by decide, by decide⟩
    (by decide)).mpr (by decide)

/-- The seconds are rounded up to one more than a `long` holds. -/
theorem timespectohz_overflow : timespectohz false 100 10000000 ⟨2147483647, 999999999⟩ ⟨0, 0⟩ = 1 ∧
      1 < min (half false - 1) (-((0 - Timespec.ns ⟨2147483647, 999999999⟩) / 10000000)) := by
  decide

end Sol7.Timers
