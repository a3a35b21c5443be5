import Sol7.Lib.System

/-!
# Swap Reservations

Swap space is reserved on disk as long as there is room, and then in memory. What is
given back goes to memory first, except for the pages that are locked there. The
counters are integers, so that one that goes below zero would be seen.

## Main definitions

* `Swap.Params`, `Swap.Counters`: The tunables and the four counters.
* `Swap.anonResvmem`, `Swap.anonUnresv`: Reserving and giving back.
* `Swap.anonSwapAdjust`, `Swap.anonSwapRestore`: Locking reserved pages and unlocking them.
* `Swap.system`: All of them in any order, with the outstanding reservations.

## Theorems

* `Swap.step_inv`: Every call keeps the books.
* `Swap.swap_accounting`: The counters of every run.
-/

namespace Sol7.Vm

open List Option

open Prod (fst snd)

namespace Swap

/-- The word size, the page size, `ani_max`, `swapfs_minfree` and `segspt_minfree`. The sum
    of a tunable and a number of pages is taken to be a number of pages. -/
structure Params where
  bits : Nat
  pageshift : Nat
  aniMax : Nat
  swapfsMinfree : Nat
  segsptMinfree : Nat

def Params.btopr (p : Params) (size : Nat) : Nat :=
  (size + (2 ^ p.pageshift - 1)) % 2 ^ p.bits / 2 ^ p.pageshift

/-- `ani_phys_resv`, `ani_mem_resv`, `ani_locked_swap` and `availrmem`. -/
structure Counters where
  physResv : Int
  memResv : Int
  lockedSwap : Int
  availrmem : Int

/-- `anon_resvmem` for a number of pages. -/
def anonResvmem (p : Params) (k : Counters) (npages : Nat) (takemem : Bool) : Counters × Bool :=
  let pswap := p.aniMax - k.physResv
  if npages ≤ pswap then
    (if takemem then { k with physResv := k.physResv + npages } else k, true)
  else
    let k := if pswap ≠ 0 ∧ takemem then { k with physResv := k.physResv + pswap } else k
    let mswap := npages - pswap
    if k.availrmem < p.swapfsMinfree + mswap then
      (if takemem then { k with physResv := k.physResv - pswap } else k, false)
    else if takemem then
      ({ k with availrmem := k.availrmem - mswap, memResv := k.memResv + mswap }, true)
    else (k, true)

variable (k : Counters)

/-- `anon_unresv` for a number of pages. -/
def anonUnresv (npages : Nat) : Counters :=
  let memFree := if k.memResv > k.lockedSwap then min (k.memResv - k.lockedSwap) npages else 0
  let k := { k with availrmem := k.availrmem + memFree, memResv := k.memResv - memFree }
  let physFree := npages - memFree
  if physFree ≠ 0 then { k with physResv := k.physResv - physFree } else k

/-- `anon_swap_adjust`, where the result says whether there was memory. -/
def anonSwapAdjust (p : Params) (k : Counters) (npages : Nat) : Counters × Bool :=
  let unlocked := k.memResv - k.lockedSwap
  if npages > unlocked then
    let adjusted := npages - unlocked
    if k.availrmem < adjusted + p.segsptMinfree then (k, false)
    else
      ({ physResv := k.physResv - adjusted
         memResv := k.memResv + adjusted
         lockedSwap := k.lockedSwap + npages
         availrmem := k.availrmem - adjusted }, true)
  else ({ k with lockedSwap := k.lockedSwap + npages }, true)

def anonSwapRestore (npages : Nat) : Counters :=
  { k with lockedSwap := k.lockedSwap - npages }

/-- The counters and the outstanding reservations, each with its pages and how many of
    them are locked. -/
structure World where
  k : Counters
  resv : List (Nat × Nat)

inductive Label where
  | resvmem (size : Nat) (takemem : Bool)
  | unresv (i size : Nat)
  | adjust (i npages : Nat)
  | restore (i npages : Nat)
  | merge (i j : Nat)

/-- The calls. What is given back and what is locked is a part of a reservation, and
    locked pages are not given back. The holder of two reservations may treat them as one. -/
def step (p : Params) (w : World) : Label → Option World
  | .resvmem size takemem =>
    let r := anonResvmem p w.k (p.btopr size) takemem
    some { k := r.1, resv := if r.2 && takemem then (p.btopr size, 0) :: w.resv else w.resv }
  | .unresv i size =>
    (w.resv[i]?).bind fun r =>
      if p.btopr size + r.2 ≤ r.1 then
        some { k := anonUnresv w.k (p.btopr size), resv := w.resv.set i (r.1 - p.btopr size, r.2) }
      else none
  | .adjust i npages =>
    (w.resv[i]?).bind fun r =>
      if r.2 + npages ≤ r.1 then
        let a := anonSwapAdjust p w.k npages
        some { k := a.1, resv := if a.2 then w.resv.set i (r.1, r.2 + npages) else w.resv }
      else none
  | .restore i npages =>
    (w.resv[i]?).bind fun r =>
      if npages ≤ r.2 then
        some { k := anonSwapRestore w.k npages, resv := w.resv.set i (r.1, r.2 - npages) }
      else none
  | .merge i j =>
    (w.resv[i]?).bind fun r => (w.resv[j]?).bind fun r' =>
      if i ≠ j then
        some { w with resv := (w.resv.set i (r.1 + r'.1, r.2 + r'.2)).set j (0, 0) }
      else none

/-- Nothing is reserved, and so much memory is available. -/
def system (p : Params) (mem : Nat) : System World Label where
  init := fun w => w = ⟨⟨0, 0, 0, mem⟩, []⟩
  step := step p

/-- The books: both sums over the outstanding reservations, and the bounds. -/
structure Inv (p : Params) (mem : Nat) (w : World) : Prop where
  resv : w.k.physResv + w.k.memResv = (w.resv.map fst).sum
  locked : w.k.lockedSwap = (w.resv.map snd).sum
  parts : ∀ r ∈ w.resv, r.2 ≤ r.1
  mem : w.k.availrmem + w.k.memResv = mem
  le : w.k.lockedSwap ≤ w.k.memResv
  max : w.k.physResv ≤ p.aniMax
  phys : 0 ≤ w.k.physResv
  avail : 0 ≤ w.k.availrmem

variable {l : List (Nat × Nat)} {r s r' : Nat × Nat} {i n : Nat}

/-- One reservation changes. -/
theorem sum_set (f : Nat × Nat → Nat) (h : l[i]? = some r) :
    ((l.set i s).map f).sum + f r = (l.map f).sum + f s := by
  induction l generalizing i with
  | nil => simp at h
  | cons x l ih =>
    cases i with
    | zero =>
      obtain rfl : x = r := by simpa using h
      simp only [set_cons_zero, map_cons, sum_cons]
      omega
    | succ i =>
      have hrest := ih (by simpa using h)
      simp only [set_cons_succ, map_cons, sum_cons]
      omega

theorem parts_set (h : ∀ r ∈ l, r.2 ≤ r.1) (hr : s.2 ≤ s.1) : ∀ r ∈ l.set i s, r.2 ≤ r.1 := by
  intro r hmem
  rcases mem_or_eq_of_mem_set hmem with hmem | rfl
  · exact h r hmem
  · exact hr

variable {p : Params} {mem : Nat} {w w' : World}

/-- A reservation takes some pages on disk and some in memory. -/
theorem Inv.take (h : Inv p mem w) {d m : Int} (hd : 0 ≤ d) (hm : 0 ≤ m) (hn : d + m = n)
    (hmax : w.k.physResv + d ≤ p.aniMax) (hav : m ≤ w.k.availrmem) :
    Inv p mem ⟨⟨w.k.physResv + d, w.k.memResv + m, w.k.lockedSwap, w.k.availrmem - m⟩,
      (n, 0) :: w.resv⟩ := by
  have hresv := h.resv
  have hmem := h.mem
  have hle := h.le
  have hphys := h.phys
  refine ⟨?_, ?_, ?_, by dsimp only; omega, by dsimp only; omega, hmax, by dsimp only; omega,
    by dsimp only; omega⟩
  · simp only [map_cons, sum_cons]
    omega
  · simpa using h.locked
  · exact forall_mem_cons.mpr ⟨zero_le, h.parts⟩

/-- The pages or the locked pages of one reservation change. -/
theorem Inv.change (h : Inv p mem w) {k : Counters} (hr : w.resv[i]? = some r)
    (hparts : r'.2 ≤ r'.1) (hsum : k.physResv + k.memResv + r.1 = w.k.physResv + w.k.memResv + r'.1)
    (hlocked : k.lockedSwap + r.2 = w.k.lockedSwap + r'.2)
    (hmem : k.availrmem + k.memResv = w.k.availrmem + w.k.memResv) (hle : k.lockedSwap ≤ k.memResv)
    (hmax : k.physResv ≤ p.aniMax) (hphys : 0 ≤ k.physResv) (hav : 0 ≤ k.availrmem) :
    Inv p mem ⟨k, w.resv.set i r'⟩ := by
  have hfst := sum_set (s := r') fst hr
  have hsnd := sum_set (s := r') snd hr
  have hresv := h.resv
  have hlock := h.locked
  have htotal := h.mem
  exact ⟨by dsimp only; omega, by dsimp only; omega, parts_set h.parts hparts, by dsimp only; omega,
    hle, hmax, hphys, hav⟩

/-- Pages of one reservation that are not locked, or are to be locked, are not among the
    locked ones of any other. -/
theorem Inv.room (h : Inv p mem w) (hr : w.resv[i]? = some r) (hn : n + r.2 ≤ r.1) :
    n + w.k.lockedSwap ≤ w.k.physResv + w.k.memResv := by
  have hle := sum_le_sum (parts_set (i := i) (s := (r.1, r.2 + n)) h.parts (by dsimp only; omega))
  have hfst := sum_set (s := (r.1, r.2 + n)) fst hr
  have hsnd := sum_set (s := (r.1, r.2 + n)) snd hr
  have hresv := h.resv
  have hlocked := h.locked
  omega

/-- A reservation that is meant: on disk, not at all, or the rest in memory. -/
theorem anonResvmem_true (n : Nat) : anonResvmem p k n true =
    if n ≤ p.aniMax - k.physResv then ({ k with physResv := k.physResv + n }, true)
    else if k.availrmem < p.swapfsMinfree + (n - (p.aniMax - k.physResv)) then (k, false)
    else (⟨k.physResv + (p.aniMax - k.physResv), k.memResv + (n - (p.aniMax - k.physResv)),
      k.lockedSwap, k.availrmem - (n - (p.aniMax - k.physResv))⟩, true) := by
  -- The counter on disk is raised in any case, if only by nothing.
  have hraise : (if p.aniMax - k.physResv ≠ 0 ∧ true = true then
      { k with physResv := k.physResv + (p.aniMax - k.physResv) } else k) =
      { k with physResv := k.physResv + (p.aniMax - k.physResv) } := by
    by_cases hzero : p.aniMax - k.physResv = 0
    · simp [hzero]
    · simp [hzero]
  have hback : k.physResv + (p.aniMax - k.physResv) - (p.aniMax - k.physResv) = k.physResv := by
    omega
  unfold anonResvmem
  dsimp only
  rw [hraise, hback]
  rfl

/-- A reservation that fails or only tests changes nothing. -/
theorem anonResvmem_same (n : Nat) (takemem : Bool)
    (h : (anonResvmem p k n takemem).2 = false ∨ takemem = false) :
    (anonResvmem p k n takemem).1 = k := by
  cases takemem with
  | false =>
    unfold anonResvmem
    dsimp only
    split
    · rfl
    · simp only [Bool.false_eq_true, and_false, if_false]
      split <;> rfl
  | true =>
    rw [anonResvmem_true] at h ⊢
    split at h
    · simp at h
    next hfit =>
    rw [if_neg hfit]
    split at h
    · next hav => rw [if_pos hav]
    · simp at h

/-- A reservation that succeeds takes what it needs. -/
theorem Inv.resvmem (h : Inv p mem w) (n : Nat) (hok : (anonResvmem p w.k n true).2 = true) :
    Inv p mem ⟨(anonResvmem p w.k n true).1, (n, 0) :: w.resv⟩ := by
  have hmax := h.max
  rw [anonResvmem_true] at hok ⊢
  split
  · next hfit =>
    have htake := h.take (d := n) (n := n) (by omega) (by omega) (by omega) (by omega)
      h.avail
    simpa using htake
  · next hfit =>
    rw [if_neg hfit] at hok
    split
    · next hav => simp [hav] at hok
    · next hav => exact h.take (by omega) (by omega) (by omega) (by omega) (by omega)

/-- Every call keeps the books. -/
theorem step_inv {a : Label} (h : Inv p mem w) (hstep : step p w a = some w') : Inv p mem w' := by
  have hmax := h.max
  have hle := h.le
  have hphys := h.phys
  have havail := h.avail
  cases a with
  | resvmem size takemem =>
    cases hstep
    split
    · next hok =>
      simp only [Bool.and_eq_true] at hok
      obtain rfl := hok.2
      exact h.resvmem _ hok.1
    · next hno =>
      rw [anonResvmem_same]
      · exact h
      · rcases Bool.eq_false_or_eq_true takemem with htake | htake
        · exact .inl (by simpa [htake] using hno)
        · exact .inr htake
  | unresv i size =>
    obtain ⟨r, hr, heq⟩ := bind_eq_some_iff.mp hstep
    obtain ⟨hguard, heq⟩ := ite_none_right_eq_some.mp heq
    cases heq
    have hroom := h.room hr hguard
    -- Memory that is not locked goes first, and the rest is on disk.
    unfold anonUnresv
    dsimp only
    split
    · split
      all_goals apply h.change hr
      all_goals dsimp only
      all_goals omega
    · split
      all_goals apply h.change hr
      all_goals dsimp only
      all_goals omega
  | adjust i npages =>
    obtain ⟨r, hr, heq⟩ := bind_eq_some_iff.mp hstep
    obtain ⟨hguard, heq⟩ := ite_none_right_eq_some.mp heq
    cases heq
    have hroom := h.room hr (n := npages) (by omega)
    unfold anonSwapAdjust
    dsimp only
    split
    · split
      · exact h
      · apply h.change hr
        all_goals dsimp only
        all_goals omega
    · apply h.change hr
      all_goals dsimp only
      all_goals omega
  | restore i npages =>
    obtain ⟨r, hr, heq⟩ := bind_eq_some_iff.mp hstep
    obtain ⟨hguard, heq⟩ := ite_none_right_eq_some.mp heq
    cases heq
    have hparts := h.parts r (mem_of_getElem? hr)
    unfold anonSwapRestore
    apply h.change hr
    all_goals dsimp only
    all_goals omega
  | merge i j =>
    obtain ⟨r, hr, heq⟩ := bind_eq_some_iff.mp hstep
    obtain ⟨r', hr', heq⟩ := bind_eq_some_iff.mp heq
    obtain ⟨hne, heq⟩ := ite_none_right_eq_some.mp heq
    cases heq
    have hparts := h.parts r (mem_of_getElem? hr)
    have hparts' := h.parts r' (mem_of_getElem? hr')
    -- What the one gains in the first step, the other loses in the second.
    have hset : (w.resv.set i (r.1 + r'.1, r.2 + r'.2))[j]? = some r' := by
      rw [getElem?_set_ne hne, hr']
    have hsum := fun f => sum_set (s := (r.1 + r'.1, r.2 + r'.2)) f hr
    have hsum' := fun f => sum_set (s := (0, 0)) f hset
    have hfst := hsum fst
    have hfst' := hsum' fst
    have hsnd := hsum snd
    have hsnd' := hsum' snd
    have hresv := h.resv
    have hlocked := h.locked
    exact ⟨by dsimp only; omega, by dsimp only; omega,
      parts_set (parts_set h.parts (by dsimp only; omega)) le_rfl, h.mem, hle, hmax, hphys, havail⟩

/-- Swap reservations are accounted for in every run, and a call that fails or only tests
    leaves the counters alone. -/
theorem swap_accounting (p : Params) (mem : Nat) (w : World) (hr : (system p mem).Reachable w) :
    w.k.physResv + w.k.memResv = (w.resv.map fst).sum ∧ w.k.availrmem + w.k.memResv = mem ∧
    w.k.lockedSwap ≤ w.k.memResv ∧ w.k.physResv ≤ p.aniMax ∧
    0 ≤ w.k.physResv ∧ 0 ≤ w.k.memResv ∧ 0 ≤ w.k.lockedSwap ∧ 0 ≤ w.k.availrmem ∧
    (∀ n takemem, (anonResvmem p w.k n takemem).2 = false ∨ takemem = false →
      (anonResvmem p w.k n takemem).1 = w.k) ∧
    ∀ n, (anonSwapAdjust p w.k n).2 = false → (anonSwapAdjust p w.k n).1 = w.k := by
  have h : Inv p mem w := by
    refine System.Reachable.invariant (system p mem) (Inv p mem) ?_
      (fun _ _ _ hi hs => step_inv hi hs) w hr
    rintro _ rfl
    constructor
    all_goals simp
  have hlocked := h.locked
  have hle := h.le
  refine ⟨h.resv, h.mem, hle, h.max, h.phys, by omega, by omega, h.avail, fun n takemem hcase => ?_,
    fun n => ?_⟩
  · exact anonResvmem_same w.k n takemem hcase
  unfold anonSwapAdjust
  dsimp only
  split
  · split
    · simp
    · simp
  · simp

/-- A reservation that is split between disk and memory, with two pages of it locked. -/
theorem swap_accounting_split : ∃ w : World, (system ⟨32, 2, 3, 1, 1⟩ 9).Reachable w ∧
    w.resv = [(5, 2)] ∧ w.k.physResv + w.k.memResv = 5 ∧ w.k.availrmem + w.k.memResv = 9 := by
  have hsome : ((system ⟨32, 2, 3, 1, 1⟩ 9).exec ⟨⟨0, 0, 0, 9⟩, []⟩
      [.resvmem 20 true, .adjust 0 2]).isSome = true := by
    decide
  have hr := System.reachable_get (system ⟨32, 2, 3, 1, 1⟩ 9) _ _ rfl hsome
  have h := swap_accounting _ _ _ hr
  exact ⟨_, hr, rfl, h.1, h.2.1⟩

end Swap

end Sol7.Vm
