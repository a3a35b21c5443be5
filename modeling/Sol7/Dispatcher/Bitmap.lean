import Sol7.Lib.Packed

/-!
# Bitmaps and Their Highest Bit

The bitmap of the active priorities is an array of words of 32 or 64 bits. The
highest bit of a word is found by halving, and the highest bit of a map by going
down from a given word.

## Main definitions

* `btBiw`, `btSet`, `btClear`: The bit of an index, and setting and clearing it.
* `active`: The bit of an index is set.
* `highbit`, `btGethighbit`: The highest bit of a word and of a map.
* `Highest`: The largest number with a property, or minus one.

## Theorems

* `active_btSet`, `active_btClear`: What setting and clearing do to other bits.
* `highbit_spec`: The halving finds the highest bit.
* `btGethighbit_spec`, `nextLower_spec`: The searches in the map.
-/

namespace Sol7.Dispatcher

open Function Nat

/-- The largest number with a property, or minus one if there is none. -/
def Highest (m : Int) (P : Nat → Prop) : Prop :=
  (m = -1 ∧ ∀ p, ¬P p) ∨ ∃ p : Nat, m = p ∧ P p ∧ ∀ p', P p' → p' ≤ p

variable {P Q : Nat → Prop}

theorem Highest.congr {m : Int} (h : Highest m P) (hpq : ∀ p, Q p ↔ P p) : Highest m Q := by
  rcases h with ⟨hm, hno⟩ | ⟨p, hm, hp, hmax⟩
  · exact .inl ⟨hm, fun p hq => hno p ((hpq p).mp hq)⟩
  · exact .inr ⟨p, hm, (hpq p).mpr hp, fun p' hq => hmax p' ((hpq p').mp hq)⟩

variable {p i j k wx b : Nat}

theorem Highest.le {m : Int} (h : Highest m P) (hp : P p) : (p : Int) ≤ m := by
  rcases h with ⟨-, hno⟩ | ⟨q, rfl, -, hmax⟩
  · exact absurd hp (hno p)
  · exact Int.ofNat_le.mpr (hmax p hp)

theorem Highest.ge {m : Int} (h : Highest m P) : -1 ≤ m := by
  rcases h with ⟨rfl, -⟩ | ⟨q, rfl, -⟩
  · exact le_rfl
  · omega

def btUlshift (lp64 : Bool) : Nat := if lp64 then 6 else 5

def btNbipul (lp64 : Bool) : Nat := 1 <<< btUlshift lp64

def btUlmask (lp64 : Bool) : Nat := btNbipul lp64 - 1

/-- A word of a bitmap. -/
abbrev Word (lp64 : Bool) : Type := BitVec (btNbipul lp64)

variable {lp64 : Bool}

def btBiw (i : Nat) : Word lp64 := 1#(btNbipul lp64) <<< (i &&& btUlmask lp64)

variable (m : Nat → Word lp64)

def btSet (i : Nat) : Nat → Word lp64 :=
  update m (i >>> btUlshift lp64) (m (i >>> btUlshift lp64) ||| btBiw i)

def btClear (i : Nat) : Nat → Word lp64 :=
  update m (i >>> btUlshift lp64) (m (i >>> btUlshift lp64) &&& ~~~btBiw i)

/-- The bit of an index is set. -/
def active (i : Nat) : Bool :=
  (m (i >>> btUlshift lp64)).getLsbD (i % btNbipul lp64)

/-- One round of `highbit`. -/
def halve (mask k : Nat) (s : Nat × Nat) : Nat × Nat :=
  if s.2 &&& mask ≠ 0 then (s.1 + k, s.2 >>> k) else s

def highbit (lp64 : Bool) (i : Nat) : Nat :=
  if i = 0 then 0
  else
    let s := if lp64 then halve 0xffffffff00000000 32 (1, i) else (1, i)
    let s := halve 0xff00 8 (halve 0xffff0000 16 s)
    let s := halve 0xc 2 (halve 0xf0 4 s)
    if s.2 &&& 0x2 ≠ 0 then s.1 + 1 else s.1

def btGethighbit (m : Nat → Word lp64) : Nat → Int
  | 0 => if m 0 = 0 then -1 else (0 <<< btUlshift lp64 ||| (highbit lp64 (m 0).toNat - 1) : Nat)
  | wx + 1 =>
    if m (wx + 1) = 0 then btGethighbit m wx
    else ((wx + 1) <<< btUlshift lp64 ||| (highbit lp64 (m (wx + 1)).toNat - 1) : Nat)

/-- The search of `disp_fix_unbound_pri` for the next lower active priority. -/
def nextLower (pri : Nat) : Int :=
  let wx := pri >>> btUlshift lp64
  let mapword := m wx &&& (btBiw pri - 1#(btNbipul lp64))
  if mapword ≠ 0 then (wx <<< btUlshift lp64 + highbit lp64 mapword.toNat : Nat) - 1
  else if 0 < wx then btGethighbit m (wx - 1)
  else -1

/-! ### Setting and clearing -/

theorem btNbipul_eq (lp64 : Bool) : btNbipul lp64 = 2 ^ btUlshift lp64 := by cases lp64 <;> rfl

theorem btNbipul_pos (lp64 : Bool) : 0 < btNbipul lp64 := by cases lp64 <;> decide

theorem and_btUlmask (i : Nat) : i &&& btUlmask lp64 = i % btNbipul lp64 := by
  rw [btUlmask, btNbipul_eq, and_two_pow_sub_one_eq_mod]

theorem shiftRight_btUlshift (i : Nat) : i >>> btUlshift lp64 = i / btNbipul lp64 := by
  rw [btNbipul_eq, shiftRight_eq_div_pow]

theorem getLsbD_btBiw (i j : Nat) :
    (btBiw i : Word lp64).getLsbD j = decide (j = i % btNbipul lp64) := by
  have hlt : i % btNbipul lp64 < btNbipul lp64 := mod_lt _ (btNbipul_pos lp64)
  rw [btBiw, and_btUlmask, ← BitVec.twoPow_eq]
  by_cases hj : i % btNbipul lp64 = j
  · simp [← hj, hlt]
  · simp [hj, Ne.symm hj]

/-- Two indices are told apart by their words or by their bits. -/
theorem index_ne (h : i ≠ j) (hw : j >>> btUlshift lp64 = i >>> btUlshift lp64) :
    j % btNbipul lp64 ≠ i % btNbipul lp64 := by
  intro hb
  rw [shiftRight_btUlshift, shiftRight_btUlshift] at hw
  have hi := div_add_mod i (btNbipul lp64)
  have hj := div_add_mod j (btNbipul lp64)
  rw [hw, hb, hi] at hj
  exact h hj

theorem active_btSet (i j : Nat) : active (btSet m i) j = (decide (j = i) || active m j) := by
  unfold active btSet
  by_cases hij : j = i
  · subst hij
    rw [update_self, BitVec.getLsbD_or, getLsbD_btBiw]
    simp
  · by_cases hw : j >>> btUlshift lp64 = i >>> btUlshift lp64
    · rw [hw, update_self, BitVec.getLsbD_or, getLsbD_btBiw]
      simp [hij, index_ne (Ne.symm hij) hw]
    · rw [update_of_ne hw]
      simp [hij]

theorem active_btClear (i j : Nat) : active (btClear m i) j = (!decide (j = i) && active m j) := by
  have hlt : j % btNbipul lp64 < btNbipul lp64 := mod_lt _ (btNbipul_pos lp64)
  unfold active btClear
  by_cases hij : j = i
  · subst hij
    rw [update_self, BitVec.getLsbD_and, BitVec.getLsbD_not, getLsbD_btBiw]
    simp
  · by_cases hw : j >>> btUlshift lp64 = i >>> btUlshift lp64
    · rw [hw, update_self, BitVec.getLsbD_and, BitVec.getLsbD_not, getLsbD_btBiw]
      simp [hij, index_ne (Ne.symm hij) hw, hlt]
    · rw [update_of_ne hw]
      simp [hij]

/-! ### The highest bit of a word -/

/-- The upper half of a number is tested by a mask. -/
theorem and_upper (h : i < 2 ^ k * 2 ^ k) : i &&& (2 ^ k * (2 ^ k - 1)) = 2 ^ k * (i / 2 ^ k) := by
  have hpos : 0 < 2 ^ k := Nat.two_pow_pos k
  have hdiv : i / 2 ^ k < 2 ^ k := Nat.div_lt_of_lt_mul h
  have hp := land_packed (u := i / 2 ^ k) (v := 2 ^ k - 1) (mod_lt i hpos) hpos
  rw [div_add_mod, and_zero, and_two_pow_sub_one_eq_mod, mod_eq_of_lt hdiv] at hp
  exact hp

/-- What is left of a number after some rounds. -/
structure Halved (i bound : Nat) (s : Nat × Nat) : Prop where
  pos : 0 < s.1
  rest : s.2 = i >>> (s.1 - 1)
  ne : s.2 ≠ 0
  lt : s.2 < bound

theorem Halved.halve {s : Nat × Nat} (h : Halved i (2 ^ k * 2 ^ k) s) :
    Halved i (2 ^ k) (halve (2 ^ k * (2 ^ k - 1)) k s) := by
  have hpos : 0 < 2 ^ k := Nat.two_pow_pos k
  unfold Dispatcher.halve
  rw [and_upper h.lt]
  by_cases hdiv : s.2 / 2 ^ k = 0
  · rw [if_neg (by simp [hdiv])]
    exact ⟨h.pos, h.rest, h.ne, (div_eq_zero_iff_lt hpos).mp hdiv⟩
  have hne : 2 ^ k * (s.2 / 2 ^ k) ≠ 0 := mul_ne_zero (by omega) hdiv
  rw [if_pos hne]
  refine ⟨h.pos.trans_le (le_add_right _ _), ?_, ?_, ?_⟩
  · have hsub : s.1 + k - 1 = s.1 - 1 + k := by
      have := h.pos
      omega
    rw [hsub, shiftRight_add, h.rest]
  · rw [shiftRight_eq_div_pow]
    exact hdiv
  · rw [shiftRight_eq_div_pow]
    exact Nat.div_lt_of_lt_mul h.lt

/-- The halving ends at the highest bit. -/
theorem highbit_spec (hi : i ≠ 0) (hlt : i < 2 ^ btNbipul lp64) :
    0 < highbit lp64 i ∧ i >>> (highbit lp64 i - 1) = 1 := by
  have h32 : Halved i (2 ^ 16 * 2 ^ 16)
      (if lp64 then Dispatcher.halve 0xffffffff00000000 32 (1, i) else (1, i)) := by
    have h0 : Halved i (2 ^ btNbipul lp64) (1, i) := ⟨one_pos, rfl, hi, hlt⟩
    cases lp64 with
    | false => exact h0
    | true => exact Halved.halve (k := 32) h0
  have h2 := ((h32.halve (k := 16)).halve (k := 8)).halve (k := 4) |>.halve (k := 2)
  unfold highbit
  rw [if_neg hi]
  dsimp only
  generalize hs : Dispatcher.halve 0xc 2 _ = s
  have h2' : Halved i 4 s := hs ▸ h2
  have hpos := h2'.pos
  have hcases : s.2 = 1 ∨ s.2 = 2 ∨ s.2 = 3 := by
    have := h2'.ne
    have := h2'.lt
    omega
  by_cases h1 : s.2 = 1
  · rw [if_neg (by rw [h1]; decide)]
    exact ⟨hpos, h2'.rest.symm.trans h1⟩
  have hmask : s.2 &&& 0x2 ≠ 0 := by
    rcases hcases with h | h | h
    · exact absurd h h1
    · rw [h]; decide
    · rw [h]; decide
  rw [if_pos hmask]
  refine ⟨succ_pos _, ?_⟩
  have hsub : s.1 + 1 - 1 = s.1 - 1 + 1 := by omega
  rw [hsub, shiftRight_add, ← h2'.rest]
  omega

/-- The highest bit of a word is set, and no higher one is. -/
theorem highbit_highest {v : Word lp64} (hv : v ≠ 0) :
    0 < highbit lp64 v.toNat ∧ highbit lp64 v.toNat - 1 < btNbipul lp64 ∧
      v.getLsbD (highbit lp64 v.toNat - 1) = true ∧
      ∀ j, v.getLsbD j = true → j ≤ highbit lp64 v.toNat - 1 := by
  have hne : v.toNat ≠ 0 := fun h => hv (BitVec.eq_of_toNat_eq h)
  obtain ⟨hpos, hone⟩ := highbit_spec hne v.isLt
  generalize highbit lp64 v.toNat = h at hpos hone ⊢
  have hset : v.getLsbD (h - 1) = true := by
    have htest : (v.toNat >>> (h - 1)).testBit 0 = true := by rw [hone]; rfl
    exact htest
  refine ⟨hpos, BitVec.lt_of_getLsbD hset, hset, fun j hj => ?_⟩
  by_contra hlt
  obtain ⟨d, rfl⟩ : ∃ d, j = h - 1 + (d + 1) := ⟨j - h, by omega⟩
  have htest : (v.toNat >>> (h - 1)).testBit (d + 1) = true := by
    rw [testBit_shiftRight]
    exact hj
  rw [hone, testBit_succ] at htest
  simp at htest

/-! ### The searches in the map -/

/-- An index is put together from a word and a bit. -/
theorem index_or (hb : b < btNbipul lp64) :
    (wx <<< btUlshift lp64 ||| b) = btNbipul lp64 * wx + b := by
  rw [shiftLeft_eq, mul_comm, ← btNbipul_eq]
  have hp := two_pow_add_eq_or_of_lt (btNbipul_eq lp64 ▸ hb) wx
  rw [← btNbipul_eq] at hp
  exact hp.symm

theorem active_index (hb : b < btNbipul lp64) :
    active m (btNbipul lp64 * wx + b) = (m wx).getLsbD b := by
  unfold active
  rw [shiftRight_btUlshift, mul_add_div (btNbipul_pos lp64), div_eq_of_lt hb, add_zero,
    mul_add_mod, mod_eq_of_lt hb]

/-- The highest bit of a word that is not zero is the highest one up to that word. -/
theorem highest_word (hv : m wx ≠ 0) :
    Highest (wx <<< btUlshift lp64 ||| (highbit lp64 (m wx).toNat - 1) : Nat)
      fun j => j / btNbipul lp64 ≤ wx ∧ active m j = true := by
  obtain ⟨-, hlt, hset, hmax⟩ := highbit_highest hv
  rw [index_or hlt]
  refine .inr ⟨_, rfl, ⟨?_, ?_⟩, fun j hj => ?_⟩
  · rw [mul_add_div (btNbipul_pos lp64), div_eq_of_lt hlt, add_zero]
  · rw [active_index m hlt, hset]
  have hj' := div_add_mod j (btNbipul lp64)
  rcases lt_or_eq_of_le hj.1 with hw | hw
  · have hmod := mod_lt j (btNbipul_pos lp64)
    have hmul : btNbipul lp64 * (j / btNbipul lp64 + 1) ≤ btNbipul lp64 * wx :=
      mul_le_mul_left _ hw
    rw [mul_add] at hmul
    omega
  · have hbit := hj.2
    unfold active at hbit
    rw [shiftRight_btUlshift, hw] at hbit
    have := hmax _ hbit
    rw [hw] at hj'
    omega

/-- `bt_gethighbit` finds the highest bit up to a word. -/
theorem btGethighbit_spec (wx : Nat) :
    Highest (btGethighbit m wx) fun j => j / btNbipul lp64 ≤ wx ∧ active m j = true := by
  have hzero : ∀ {wx j}, m wx = 0 → j / btNbipul lp64 = wx → active m j = false := by
    intro wx j hm hj
    unfold active
    rw [shiftRight_btUlshift, hj, hm]
    exact BitVec.getLsbD_zero
  induction wx with
  | zero =>
    unfold btGethighbit
    split
    · next hm =>
      refine .inl ⟨rfl, fun j hj => ?_⟩
      have hoff := hzero hm (le_zero.mp hj.1)
      exact absurd hj.2 (by simp [hoff])
    · next hm => exact highest_word m hm
  | succ wx ih =>
    unfold btGethighbit
    split
    · next hm =>
      refine ih.congr fun j => ⟨fun hj => ⟨?_, hj.2⟩, fun hj => ⟨le_succ_of_le hj.1, hj.2⟩⟩
      rcases lt_or_eq_of_le hj.1 with hlt | heq
      · exact le_of_lt_succ hlt
      · have hoff := hzero hm heq
        exact absurd hj.2 (by simp [hoff])
    · next hm => exact highest_word m hm

theorem getLsbD_below (v : Word lp64) (i j : Nat) :
    (v &&& (btBiw i - 1#(btNbipul lp64))).getLsbD j = (decide (j < i % btNbipul lp64) && v.getLsbD j) := by
  have hlt : i % btNbipul lp64 < btNbipul lp64 := mod_lt _ (btNbipul_pos lp64)
  have hone : (btBiw i - 1#(btNbipul lp64)).toNat = 2 ^ (i % btNbipul lp64) - 1 := by
    have hbiw : (btBiw i : Word lp64).toNat = 2 ^ (i % btNbipul lp64) := by
      rw [btBiw, and_btUlmask, ← BitVec.twoPow_eq, BitVec.toNat_twoPow_of_lt hlt]
    have hle : 1#(btNbipul lp64) ≤ btBiw i := by
      rw [BitVec.le_def, hbiw, BitVec.toNat_one (btNbipul_pos lp64)]
      exact Nat.two_pow_pos _
    rw [BitVec.toNat_sub_of_le hle, hbiw, BitVec.toNat_one (btNbipul_pos lp64)]
  rw [BitVec.getLsbD_and, Bool.and_comm]
  congr 1
  rw [← BitVec.testBit_toNat, hone, testBit_two_pow_sub_one]

theorem nextLower_spec (pri : Nat) :
    Highest (nextLower m pri) fun j => j < pri ∧ active m j = true := by
  have hpos := btNbipul_pos lp64
  have hpri := div_add_mod pri (btNbipul lp64)
  unfold nextLower
  dsimp only
  rw [shiftRight_btUlshift]
  generalize hword : m (pri / btNbipul lp64) &&& (btBiw pri - 1#(btNbipul lp64)) = mapword
  -- The bits of the masked word are those of lower priorities in the same word.
  have hbits : ∀ j, j / btNbipul lp64 = pri / btNbipul lp64 →
      (mapword.getLsbD (j % btNbipul lp64) = true ↔ j < pri ∧ active m j = true) := by
    intro j hj
    have hj' := div_add_mod j (btNbipul lp64)
    rw [hj] at hj'
    rw [← hword, getLsbD_below, Bool.and_eq_true, decide_eq_true_eq]
    unfold active
    rw [shiftRight_btUlshift, hj]
    refine and_congr_left' ?_
    omega
  by_cases hzero : mapword = 0
  · rw [if_neg (by simpa using hzero)]
    have hnone : ∀ j, j < pri → active m j = true → j / btNbipul lp64 < pri / btNbipul lp64 := by
      intro j hj hact
      refine lt_of_le_of_ne (Nat.div_le_div_right hj.le) fun heq => ?_
      have hbit := (hbits j heq).mpr ⟨hj, hact⟩
      rw [hzero] at hbit
      exact absurd hbit (by simp)
    split
    · refine (btGethighbit_spec m (pri / btNbipul lp64 - 1)).congr fun j => ?_
      refine and_congr_left fun hact => ⟨fun hj => ?_, fun hj => ?_⟩
      · have := hnone j hj hact
        omega
      · have hlt : j / btNbipul lp64 < pri / btNbipul lp64 := by omega
        exact lt_of_not_ge fun hle => not_le.mpr hlt (Nat.div_le_div_right hle)
    · next hwx =>
      refine .inl ⟨rfl, fun j hj => ?_⟩
      exact hwx (zero_lt_of_lt (hnone j hj.1 hj.2))
  · rw [if_pos hzero]
    obtain ⟨hone, hlt, hset, hmax⟩ := highbit_highest hzero
    generalize highbit lp64 mapword.toNat = h at hone hlt hset hmax
    have hdiv : (btNbipul lp64 * (pri / btNbipul lp64) + (h - 1)) / btNbipul lp64 =
        pri / btNbipul lp64 := by
      rw [mul_add_div hpos, div_eq_of_lt hlt, add_zero]
    have hmod : (btNbipul lp64 * (pri / btNbipul lp64) + (h - 1)) % btNbipul lp64 = h - 1 := by
      rw [mul_add_mod, mod_eq_of_lt hlt]
    have hfound := hbits _ hdiv
    rw [hmod] at hfound
    refine .inr ⟨btNbipul lp64 * (pri / btNbipul lp64) + (h - 1), ?_, hfound.mp hset,
      fun j hj => ?_⟩
    · rw [shiftLeft_eq, ← btNbipul_eq, mul_comm]
      omega
    have hj' := div_add_mod j (btNbipul lp64)
    have hle : j / btNbipul lp64 ≤ pri / btNbipul lp64 := Nat.div_le_div_right hj.1.le
    rcases lt_or_eq_of_le hle with hw | hw
    · have hmodj := mod_lt j hpos
      have hmul : btNbipul lp64 * (j / btNbipul lp64 + 1) ≤
          btNbipul lp64 * (pri / btNbipul lp64) := mul_le_mul_left _ hw
      rw [mul_add, mul_one] at hmul
      omega
    · have := hmax _ ((hbits j hw).mpr hj)
      rw [hw] at hj'
      omega

end Sol7.Dispatcher
