import Sol7.UfsLog.RollMap

/-!
# The Blocks Being Rolled

What the roll thread has in its blocks. A block that has been read holds the
master's data with the deltas of that block that are being rolled over it, and
its sector map has a bit for every sector that such a delta lies in. A bit is
cleared when its sector is written, so in the end all deltas that are being
rolled are on the master, and only they.

## Main definitions

* `Loaded`: A block that has been read.
* `Building`, `Writing`, `Removing`: The phases of a cycle.
* `Blocks`: The invariant of the roll thread.

## Theorems

* `testBit_secmapRoll`: The sector map covers the deltas.
* `startWrite_spec`: What is written next.
* `Loaded.write`: A write brings the block further.
* `inv_choose`, `inv_getRoll`, `inv_readRoll`, `inv_putRoll`: The invariant
  is kept while blocks are read.
-/

namespace Sol7.UfsLog

open List Option Function Me RollState Bool

/-! ### Sector maps -/

variable {secmap i mof k n w : Nat}

theorem secmapBits_lt (h : secmap < 2 ^ nbits) (l : List Nat) :
    secmapBits secmap l < 2 ^ nbits := by
  induction l generalizing secmap with
  | nil => exact h
  | cons i l ih => exact ih (Nat.mod_lt _ (by decide))

theorem testBit_secmapBits (hi : i < nbits) (l : List Nat) (h : secmap.testBit i = true ∨ i ∈ l) :
    (secmapBits secmap l).testBit i = true := by
  induction l generalizing secmap with
  | nil =>
    rcases h with h | h
    · exact h
    · cases h
  | cons j l ih =>
    refine ih ?_
    rw [mem_cons] at h
    rw [Nat.testBit_mod_two_pow, Nat.testBit_or, Nat.testBit_shiftLeft, decide_eq_true hi]
    rcases h with h | rfl | h
    · rw [h]
      exact .inl rfl
    · refine .inl ?_
      rw [Nat.sub_self, decide_eq_true le_rfl]
      exact or_true _
    · exact .inr h

section
variable {α : Type} {f : α → List Nat}

/-- The sectors of one delta after the other. -/
theorem testBit_foldl_secmapBits (hi : i < nbits) (l : List α)
    (h : secmap.testBit i = true ∨ ∃ a ∈ l, i ∈ f a) :
    (l.foldl (fun secmap a => secmapBits secmap (f a)) secmap).testBit i = true := by
  induction l generalizing secmap with
  | nil =>
    rcases h with h | ⟨a, ha, _⟩
    · exact h
    · cases ha
  | cons b l ih =>
    refine ih ?_
    rw [exists_mem_cons_iff] at h
    rcases h with h | h | h
    · exact .inl (testBit_secmapBits hi _ (.inl h))
    · exact .inl (testBit_secmapBits hi _ (.inr h))
    · exact .inr h

theorem foldl_secmapBits_lt (l : List α) (h : secmap < 2 ^ nbits) :
    l.foldl (fun secmap a => secmapBits secmap (f a)) secmap < 2 ^ nbits := by
  induction l generalizing secmap with
  | nil => exact h
  | cons b l ih => exact ih (secmapBits_lt h _)

end

variable {β : Type}

/-- The sectors of a delta of the block. -/
theorem testBit_secmapRoll {age : List (Me (Nat → β))} (hk : k < mapBlockSize) {e : Me (Nat → β)}
    (he : e ∈ age) (hlo : mof ≤ e.mof) (hin : e.mof ≤ mof + k ∧ mof + k < e.mof + e.nb) :
    (secmapRoll age mof).testBit (k / devBsize) = true := by
  have hi : k / devBsize < nbits := by
    unfold mapBlockSize at hk
    unfold devBsize nbits
    omega
  refine testBit_foldl_secmapBits hi age (.inr ⟨e, he, ?_⟩)
  rw [mem_range'_1]
  unfold devBsize
  omega

theorem secmapRoll_lt (age : List (Me (Nat → β))) (mof : Nat) : secmapRoll age mof < 2 ^ nbits :=
  foldl_secmapBits_lt age (by decide)

/-- The clear bits at the beginning of a sector map. -/
theorem skipClear_spec (k : Nat) (hne : secmap ≠ 0) (hlt : secmap < 2 ^ n) :
    ∃ z, z < n ∧ skipClear n secmap k = (n - z, secmap / 2 ^ z, k + z) ∧
      (∀ i, i < z → secmap.testBit i = false) ∧ secmap.testBit z = true := by
  induction n generalizing secmap k with
  | zero => exact absurd (Nat.lt_one_iff.mp hlt) hne
  | succ n ih =>
    unfold skipClear
    split
    · next hodd =>
        refine ⟨0, Nat.succ_pos n, ?_, fun i hi => absurd hi not_lt_zero, ?_⟩
        · rw [pow_zero, Nat.div_one]
          rfl
        · rw [Nat.testBit_zero, decide_eq_true hodd]
    next heven =>
      have hne' : secmap / 2 ≠ 0 := by omega
      obtain ⟨z, hz, heq, hclear, hset⟩ := ih (k + 1) hne' (by rw [pow_succ] at hlt; omega)
      refine ⟨z + 1, Nat.succ_lt_succ hz, ?_, fun i hi => ?_, ?_⟩
      · rw [heq, Nat.div_div_eq_div_mul, pow_succ', Nat.add_sub_add_right, add_assoc, add_comm 1 z]
      · cases i with
        | zero => rw [Nat.testBit_zero, decide_eq_false heven]
        | succ i =>
          rw [Nat.testBit_succ]
          exact hclear i (Nat.lt_of_succ_lt_succ hi)
      · rw [Nat.testBit_succ]
        exact hset

/-- The set bits that follow. -/
theorem takeSet_spec (n secmap k : Nat) : ∃ t, takeSet n secmap k = (secmap / 2 ^ t, k + t) ∧
      (∀ i, i < t → secmap.testBit i = true) ∧ (0 < n → secmap.testBit 0 = true → 0 < t) := by
  induction n generalizing secmap k with
  | zero =>
    refine ⟨0, ?_, fun i hi => absurd hi not_lt_zero, fun hn => absurd hn (lt_irrefl 0)⟩
    rw [pow_zero, Nat.div_one]
    rfl
  | succ n ih =>
    unfold takeSet
    split
    · next heven =>
        refine ⟨0, ?_, fun i hi => absurd hi not_lt_zero, fun _ hset => ?_⟩
        · rw [pow_zero, Nat.div_one]
          rfl
        · rw [Nat.testBit_zero, decide_eq_true_eq] at hset
          omega
    · next hodd =>
        obtain ⟨t, heq, hset, _⟩ := ih (secmap / 2) (k + 1)
        refine ⟨t + 1, ?_, fun i hi => ?_, fun _ _ => Nat.succ_pos t⟩
        · rw [heq, Nat.div_div_eq_div_mul, pow_succ', add_assoc, add_comm 1 t]
        cases i with
        | zero => rw [Nat.testBit_zero, decide_eq_true (by omega)]
        | succ i =>
          rw [Nat.testBit_succ]
          exact hset i (Nat.lt_of_succ_lt_succ hi)

/-- The next write: some sectors are skipped, and the ones that follow are
    written. -/
theorem startWrite_spec (pw : Prewrite β) (hne : pw.secmap ≠ 0) (hw : w ≤ 16)
    (hlt : pw.secmap < 2 ^ w) : ∃ z t, z + t ≤ w ∧ pw.startWrite = { pw with
        secmap := pw.secmap / 2 ^ (z + t)
        bp := { pw.bp with
          blkno := pw.bp.blkno + pw.bp.bcount / devBsize + z
          addr := pw.bp.addr + pw.bp.bcount + devBsize * z
          bcount := devBsize * t } } ∧ ∀ i, i < z → pw.secmap.testBit i = false := by
  have hlt16 : pw.secmap < 2 ^ nbits := hlt.trans_le (Nat.pow_le_pow_right (by decide) hw)
  obtain ⟨z, hz, hskip, hclear, hset⟩ := skipClear_spec 0 hne hlt16
  obtain ⟨t, htake, htset, hpos⟩ := takeSet_spec (nbits - z) (pw.secmap / 2 ^ z) 0
  have ht : 0 < t := by
    refine hpos (by omega) ?_
    rw [Nat.testBit_div_two_pow, zero_add]
    exact hset
  refine ⟨z, t, ?_, ?_, hclear⟩
  · -- The last bit that is taken is set, so it is one of those there are.
    have hlast := htset (t - 1) (by omega)
    rw [Nat.testBit_div_two_pow] at hlast
    have hle := Nat.ge_two_pow_of_testBit hlast
    have hexp := (Nat.pow_lt_pow_iff_right (by decide)).mp (hle.trans_lt hlt)
    omega
  · unfold Prewrite.startWrite
    simp only [hskip, htake, zero_add, Nat.div_div_eq_div_mul, ← pow_add]

/-! ### A block that has been read -/

/-- A block with deltas `rs` that are being rolled, whose first `pos` sectors
    have been dealt with: it holds the master's data with the deltas over it,
    and what is not on the master yet has its bit in the sector map. -/
structure Loaded {β : Type} [Zero β] (rs : List (Me (Nat → β))) (master : Nat → β)
    (mblkno pos secmap : Nat) (data : Nat → β) : Prop where
  aligned : mblkno % 16 = 0
  fits : pos ≤ 16 ∧ secmap < 2 ^ (16 - pos)
  holds : ∀ k, k < mapBlockSize → data k =
    overlay (fun me => me.at (devBsize * mblkno + k)) rs (master (devBsize * mblkno + k))
  pending : ∀ k, k < mapBlockSize → (∃ e ∈ rs, e.at (devBsize * mblkno + k) ≠ none) →
    pos ≤ k / devBsize ∧ secmap.testBit (k / devBsize - pos) = true ∨
      master (devBsize * mblkno + k) = data k

namespace Loaded

variable [Zero β] {rs : List (Me (Nat → β))} {master : Nat → β}
  {mblkno pos secmap : Nat} {data : Nat → β}

section
variable (h : Loaded rs master mblkno pos secmap data)
include h

variable {master' : Nat → β}

/-- Only the block's own part of the master matters. -/
theorem congr (heq : ∀ k, k < mapBlockSize →
      master' (devBsize * mblkno + k) = master (devBsize * mblkno + k)) :
    Loaded rs master' mblkno pos secmap data := by
  refine ⟨h.aligned, h.fits, fun k hk => ?_, fun k hk hex => ?_⟩
  · rw [heq k hk]
    exact h.holds k hk
  · rw [heq k hk]
    exact h.pending k hk hex

/-- Deltas lie over what they have been written to as they did before. -/
theorem overlay_data {k : Nat} (hk : k < mapBlockSize) :
    overlay (fun me => me.at (devBsize * mblkno + k)) rs (data k) = data k := by
  rw [h.holds k hk]
  by_cases hex : ∃ e ∈ rs, e.at (devBsize * mblkno + k) ≠ none
  · obtain ⟨e, he, hsome⟩ := hex
    exact overlay_of_some he hsome _ _
  have hnone : ∀ e ∈ rs, e.at (devBsize * mblkno + k) = none := by
    intro e he
    by_contra hsome
    exact hex ⟨e, he, hsome⟩
  rw [overlay_of_none hnone]

/-- Writing sectors `a` to `b` of the block, after those before `a` that have
    no bit. -/
theorem write {a b : Nat} (ha : pos ≤ a)
    (hab : a ≤ b) (hb : b ≤ 16) (hclear : ∀ i, pos ≤ i → i < a → secmap.testBit (i - pos) = false)
    (hin : ∀ k, k < mapBlockSize → a ≤ k / devBsize → k / devBsize < b →
      master' (devBsize * mblkno + k) = data k)
    (hout : ∀ k, k < mapBlockSize → ¬(a ≤ k / devBsize ∧ k / devBsize < b) →
      master' (devBsize * mblkno + k) = master (devBsize * mblkno + k)) :
    Loaded rs master' mblkno b (secmap / 2 ^ (b - pos)) data := by
  have hfits := h.fits
  refine ⟨h.aligned, ⟨hb, ?_⟩, fun k hk => ?_, fun k hk hex => ?_⟩
  · rw [Nat.div_lt_iff_lt_mul (Nat.two_pow_pos _), ← pow_add]
    have hexp : 16 - b + (b - pos) = 16 - pos := by omega
    rw [hexp]
    exact hfits.2
  · by_cases hc : a ≤ k / devBsize ∧ k / devBsize < b
    · rw [hin k hk hc.1 hc.2]
      exact (h.overlay_data hk).symm
    · rw [hout k hk hc]
      exact h.holds k hk
  · by_cases hc : a ≤ k / devBsize ∧ k / devBsize < b
    · exact .inr (hin k hk hc.1 hc.2)
    · rw [hout k hk hc]
      rcases h.pending k hk hex with ⟨hle, hbit⟩ | hdone
      · -- A sector with its bit is not among those that were passed over.
        have hge : a ≤ k / devBsize := by
          by_contra hlt
          rw [hclear _ hle (lt_of_not_ge hlt)] at hbit
          cases hbit
        refine .inl ⟨by omega, ?_⟩
        rw [Nat.testBit_div_two_pow]
        have hidx : k / devBsize - b + (b - pos) = k / devBsize - pos := by omega
        rw [hidx]
        exact hbit
      · exact .inr hdone

end

/-- Without bits, everything is on the master. -/
theorem written (h : Loaded rs master mblkno pos 0 data) {k : Nat} (hk : k < mapBlockSize) :
    overlay (fun me => me.at (devBsize * mblkno + k)) rs (master (devBsize * mblkno + k)) =
      master (devBsize * mblkno + k) := by
  by_cases hex : ∃ e ∈ rs, e.at (devBsize * mblkno + k) ≠ none
  · rcases h.pending k hk hex with ⟨_, hbit⟩ | hdone
    · rw [Nat.zero_testBit] at hbit
      cases hbit
    · rw [← h.holds k hk, hdone]
  · refine overlay_of_none (fun e he => ?_) _
    by_contra hsome
    exact hex ⟨e, he, hsome⟩

end Loaded

/-! ### The phases of a cycle -/

section
variable [Zero β] (rs : List (Me (Nat → β))) (master : Nat → β) (nmblk nbuf : Nat)
  (pws : Nat → Prewrite β)

/-- Blocks are being read. The one being read is `busy`. -/
structure Building (busy : Option Nat) : Prop where
  used : ∀ j, (pws j).inuse = true → j < nmblk ∧ (pws j).rem = true ∧
    (pws j).bp.blkno = (pws j).blkno ∧ (pws j).bp.addr = 0 ∧ (pws j).blkno % 16 = 0 ∧
      ∃ e ∈ rs, e.inBlk (pws j).blkno = true
  loaded : ∀ j, (pws j).inuse = true → busy ≠ some j →
    Loaded (rs.filter (inBlk (pws j).blkno)) master (pws j).blkno 0 (pws j).secmap
      (pws j).bp.data
  free : ∀ j, (pws j).inuse = false → (pws j).rem = false ∧ (busy ≠ some j → (pws j).secmap = 0)
  first : ∀ j, (pws j).inuse = true → ∀ i, i < j → (pws i).inuse = true
  distinct : ∀ i j, (pws i).inuse = true → (pws j).inuse = true →
    (pws i).blkno = (pws j).blkno → i = j
  owned : ∀ e ∈ rs, (∃ j, (pws j).inuse = true ∧ e.inBlk (pws j).blkno = true) ∨
    ∃ i, busy = some i ∧ e.inBlk (pws i).bp.blkno = true

/-- A block has been chosen. -/
structure Chosen (i : Nat) : Prop where
  lt : i < nmblk
  aligned : (pws i).bp.blkno % 16 = 0
  addr : (pws i).bp.addr = 0
  before : ∀ j, j < i → (pws j).inuse = true ∧ (pws j).blkno ≠ (pws i).bp.blkno
  same : (pws i).inuse = true → (pws i).blkno = (pws i).bp.blkno

/-- Blocks are being written. -/
structure Writing : Prop where
  used : ∀ j, (pws j).inuse = true → j < nbuf ∧ (pws j).rem = true ∧
    (pws j).bp.blkno = (pws j).blkno + (pws j).bp.addr / devBsize ∧
      (pws j).bp.addr % devBsize = 0 ∧ (pws j).bp.bcount % devBsize = 0
  loaded : ∀ j, (pws j).inuse = true → Loaded (rs.filter (inBlk (pws j).blkno)) master (pws j).blkno
      (((pws j).bp.addr + (pws j).bp.bcount) / devBsize) (pws j).secmap (pws j).bp.data
  free : ∀ j, (pws j).inuse = false → (pws j).rem = false ∧ (pws j).secmap = 0
  distinct : ∀ i j, (pws i).inuse = true → (pws j).inuse = true →
    (pws i).blkno = (pws j).blkno → i = j
  owned : ∀ e ∈ rs, ∃ j, (pws j).inuse = true ∧ e.inBlk (pws j).blkno = true

/-- Deltas are being freed, from block `i` on, and of the block `cur`. -/
structure Removing (i : Nat) (cur : Option Nat) : Prop where
  clear : ∀ j, (pws j).inuse = false ∧ (pws j).secmap = 0
  rem : ∀ j, (pws j).rem = true → i ≤ j ∧ j < nbuf ∧ (pws j).blkno % 16 = 0
  curAligned : ∀ c, cur = some c → (pws c).blkno % 16 = 0
  owned : ∀ e ∈ rs, (∃ j, (pws j).rem = true ∧ e.inBlk (pws j).blkno = true) ∨
    ∃ c, cur = some c ∧ e.inBlk (pws c).blkno = true

/-- The invariant of the roll thread. -/
def Blocks : RollPc β → Prop
  | .build => Building rs master nmblk pws none
  | .chosen i => Building rs master nmblk pws none ∧ Chosen nmblk pws i
  | .listed i age => Building rs master nmblk pws (some i) ∧ Chosen nmblk pws i ∧
      age.map bare = rs.filter (inBlk (pws i).bp.blkno) ∧ age ≠ []
  | .fetched i age => Building rs master nmblk pws (some i) ∧ Chosen nmblk pws i ∧
      Loaded (rs.filter (inBlk (pws i).bp.blkno)) master (pws i).bp.blkno 0 (pws i).secmap
        (pws i).bp.data ∧ age ≠ [] ∧ age.map bare = rs.filter (inBlk (pws i).bp.blkno)
  | .write _ => Writing rs master nbuf pws
  | .remove i => Removing rs nbuf pws i none
  | .removing i _ => Removing rs nbuf pws (i + 1) (some i)

end

/-- The invariant of the whole. -/
structure RollInv {β : Type} [Zero β] (s : RollState β) : Prop where
  map : MapOk s
  blocks : Blocks s.rolled s.master s.nmblk s.nbuf s.pws s.pc

/-! ### Building -/

variable [Zero β] {rs : List (Me (Nat → β))} {master : Nat → β} {nmblk nbuf : Nat}
  {pws : Nat → Prewrite β} {pw : Prewrite β} {s s' : RollState β} {j i mblkno bcount : Nat}

/-- The block after the last one in use. -/
theorem lt_lastUsed (p : Nat → Bool) (n m : Nat) (hj : j < m) (hp : p j = true) :
    j < (range m).foldl (fun n i => if p i then i + 1 else n) n := by
  induction m with
  | zero => exact absurd hj not_lt_zero
  | succ m ih =>
    rw [range_succ, foldl_append]
    change j < if p m then m + 1 else _
    by_cases hm : p m = true
    · rw [if_pos hm]
      exact hj
    · rw [if_neg hm]
      refine ih (lt_of_le_of_ne (Nat.le_of_lt_succ hj) ?_)
      rintro rfl
      exact hm hp

/-- No other block in use is the same one as the chosen one. -/
theorem Chosen.ne (hc : Chosen nmblk pws i) {busy : Option Nat}
    (hb : Building rs master nmblk pws busy) (hj : (pws j).inuse = true) (hne : j ≠ i) :
    (pws j).blkno ≠ (pws i).bp.blkno := by
  rcases Nat.lt_or_gt_of_ne hne with hlt | hgt
  · exact (hc.before j hlt).2
  · have hi := hb.first j hj i hgt
    rw [← hc.same hi]
    exact fun heq => hne (hb.distinct j i hj hi heq)

/-- The `buf` of a block is set up for the chosen one, or its data is read. -/
theorem Building.setBuf {busy : Option Nat} (h : Building rs master nmblk pws busy)
    (hinuse : pw.inuse = (pws i).inuse) (hrem : pw.rem = (pws i).rem)
    (hblkno : pw.blkno = (pws i).blkno)
    (hbp : (pws i).inuse = true → pw.bp.blkno = (pws i).blkno ∧ pw.bp.addr = 0)
    (hloaded : busy = some i ∧ pw.bp.blkno = (pws i).bp.blkno ∨
      busy = none ∧ pw.secmap = (pws i).secmap ∧ pw.bp.data = (pws i).bp.data) :
    Building rs master nmblk (update pws i pw) busy := by
  generalize hpws : update pws i pw = pws'
  have hself : pws' i = pw := by rw [← hpws, update_self]
  have hother : ∀ j, j ≠ i → pws' j = pws j := fun j hj => by rw [← hpws, update_of_ne hj]
  have hsame : ∀ j, (pws' j).inuse = (pws j).inuse ∧ (pws' j).rem = (pws j).rem ∧
      (pws' j).blkno = (pws j).blkno := by
    intro j
    by_cases hj : j = i
    · rw [hj, hself]
      exact ⟨hinuse, hrem, hblkno⟩
    · rw [hother j hj]
      exact ⟨rfl, rfl, rfl⟩
  -- Blocks that are not being read keep their data.
  have hdata : ∀ j, busy ≠ some j →
      (pws' j).secmap = (pws j).secmap ∧ (pws' j).bp.data = (pws j).bp.data := by
    intro j hj
    by_cases hji : j = i
    · rw [hji, hself]
      rcases hloaded with ⟨hb, _⟩ | ⟨_, hl⟩
      · exact absurd (hji ▸ hb) hj
      · exact hl
    · rw [hother j hji]
      exact ⟨rfl, rfl⟩
  constructor <;> simp only [hsame]
  case used =>
    intro j hj
    obtain ⟨h1, h2, h3, h4, h5⟩ := h.used j hj
    by_cases hji : j = i
    · rw [hji] at hj h1 h2 h5 ⊢
      rw [hself]
      exact ⟨h1, h2, (hbp hj).1, (hbp hj).2, h5⟩
    · rw [hother j hji]
      exact ⟨h1, h2, h3, h4, h5⟩
  case loaded =>
    intro j hj hb
    rw [(hdata j hb).1, (hdata j hb).2]
    exact h.loaded j hj hb
  case free =>
    intro j hj
    refine ⟨(h.free j hj).1, fun hb => ?_⟩
    rw [(hdata j hb).1]
    exact (h.free j hj).2 hb
  case first => exact h.first
  case distinct => exact h.distinct
  case owned =>
    intro e he
    rcases h.owned e he with hj | ⟨c, hc, hin⟩
    · exact .inl hj
    refine .inr ⟨c, hc, ?_⟩
    rcases hloaded with ⟨hb, hbn⟩ | ⟨hb, _⟩
    · cases hb.symm.trans hc
      rw [hself, hbn]
      exact hin
    · exact nomatch hb.symm.trans hc

/-- Nothing more is read: the writes are prepared. -/
theorem blocks_prepare (h : Building s.rolled s.master s.nmblk s.pws none) :
    Blocks s.rolled s.master s.nmblk s.prepare.nbuf s.prepare.pws s.prepare.pc := by
  have hlast : ∀ j, (s.pws j).inuse = true → j < s.prepare.nbuf := fun j hj =>
    lt_lastUsed (fun i => (s.pws i).inuse) s.nbuf s.nmblk (h.used j hj).1 hj
  have hpc : s.prepare.pc = if s.prepare.nbuf = 0 then .build else .write 0 := rfl
  rw [hpc]
  split
  · exact { h with }
  refine ⟨fun j hj => ?_, fun j hj => ?_, fun j hj => ?_, h.distinct, fun e he => ?_⟩
  · obtain ⟨_, h2, h3, h4, _⟩ := h.used j hj
    refine ⟨hlast j hj, h2, ?_, ?_, rfl⟩
    · change (s.pws j).bp.blkno = (s.pws j).blkno + (s.pws j).bp.addr / devBsize
      rw [h3, h4]
      rfl
    · change (s.pws j).bp.addr % devBsize = 0
      rw [h4]
      rfl
  · have haddr := (h.used j hj).2.2.2.1
    change Loaded _ _ _ (((s.pws j).bp.addr + 0) / devBsize) _ _
    rw [haddr]
    exact h.loaded j hj nofun
  · exact ⟨(h.free j hj).1, (h.free j hj).2 nofun⟩
  · rcases h.owned e he with hj | ⟨c, hc, _⟩
    · exact hj
    · cases hc

/-- The `buf` of a block is set up for the chosen one. -/
theorem Building.choose (h : Building rs master nmblk pws none) (hlt : i < nmblk)
    (ha : mblkno % 16 = 0) (hsame : (pws i).inuse = true → (pws i).blkno = mblkno)
    (hbefore : ∀ j, j < i → (pws j).inuse = true ∧ (pws j).blkno ≠ mblkno) (hpw : pw = { pws i with
      bp := { (pws i).bp with blkno := mblkno, addr := 0, bcount := bcount } }) :
    Building rs master nmblk (update pws i pw) none ∧ Chosen nmblk (update pws i pw) i := by
  subst hpw
  constructor
  · exact h.setBuf rfl rfl rfl (fun hin => ⟨(hsame hin).symm, rfl⟩) (.inr ⟨rfl, rfl, rfl⟩)
  refine ⟨hlt, ?_, ?_, fun j hj => ?_, ?_⟩
  · rw [update_self]
    exact ha
  · rw [update_self]
  · rw [update_of_ne (ne_of_lt hj), update_self]
    exact hbefore j hj
  · rw [update_self]
    exact hsame

/-- A block is chosen. -/
theorem inv_choose (h : RollInv s) (hpc : s.pc = .build) : RollInv s.choose := by
  have hb := h.blocks
  rw [hpc] at hb
  have hprepare : RollInv s.prepare := ⟨h.map.congr rfl ⟨rfl, rfl, rfl⟩, blocks_prepare hb⟩
  unfold RollState.choose
  split
  · exact hprepare
  next mof _ =>
    simp only []
    split
    · exact hprepare
    next i hi =>
      refine ⟨h.map.congr rfl ⟨rfl, rfl, rfl⟩, ?_⟩
      unfold findSlot at hi
      rw [find?_range_eq_some] at hi
      obtain ⟨hfound, hmem, hbefore⟩ := hi
      refine Building.choose hb (mem_range.mp hmem) ?_ (fun hin => ?_) (fun j hj => ?_) rfl
      · unfold mapBlockSize devBsize
        omega
      · rw [hin, Bool.not_true, Bool.false_or, beq_iff_eq] at hfound
        exact hfound
      · have hno := hbefore j hj
        simp only [Bool.not_or, Bool.not_not, Bool.and_eq_true, Bool.not_eq_true',
          beq_eq_false_iff_ne] at hno
        exact hno

variable {e : Me (Nat → β)}

/-- What is being rolled of the block can be found anew. -/
theorem mem_rollList (h : MapOk s) (ha : mblkno % 16 = 0) (he : e ∈ s.rolled)
    (hin : e.inBlk mblkno = true) :
    ∃ d ∈ s.map.rollList (devBsize * mblkno) mapBlockSize, d.bare = e := by
  obtain ⟨d, hd, rfl⟩ := mem_map.mp he
  rw [mem_filter] at hd
  refine ⟨d, ?_, rfl⟩
  rw [rollList_eq h.ordered, mem_filter]
  have hroll := h.rolls d hd.1 hd.2
  exact ⟨hd.1, (h.rollable_iff ha hd.1).mpr ⟨hroll.1, hroll.2, hin⟩⟩

/-- Whose deltas have been listed is being rolled. -/
theorem mem_rolled_setRoll (h : MapOk s) (ha : mblkno % 16 = 0)
    (hmap : s'.map = s.map.setRoll (devBsize * mblkno) mapBlockSize) :
    e ∈ s'.rolled → e ∈ s.rolled ∨ e.inBlk mblkno = true := by
  intro he
  unfold rolled at he
  rw [hmap] at he
  obtain ⟨d', hd', rfl⟩ := mem_map.mp he
  rw [mem_filter] at hd'
  obtain ⟨d, hd, rfl⟩ := mem_map.mp hd'.1
  obtain ⟨hbare, _, hroll⟩ := MapOk.rollMark_flags s.map (devBsize * mblkno) mapBlockSize d
  have hr := hroll.symm.trans hd'.2
  rw [or_eq_true] at hr
  change (MapOk.rollMark s.map (devBsize * mblkno) mapBlockSize d).bare ∈ s.rolled ∨
    (MapOk.rollMark s.map (devBsize * mblkno) mapBlockSize d).bare.inBlk mblkno = true
  rw [hbare]
  rcases hr with hr | hr
  · exact .inl (mem_map_of_mem (mem_filter.mpr ⟨hd, hr⟩))
  · exact .inr ((h.rollable_iff ha hd).mp hr).2.2

theorem rolled_subset_setRoll (h : MapOk s) (ha : mblkno % 16 = 0)
    (hmap : s'.map = s.map.setRoll (devBsize * mblkno) mapBlockSize) (he : e ∈ s.rolled) :
    e ∈ s'.rolled := by
  -- In its own block nothing is lost, whether it is the listed one or not.
  have hown : ∀ k, k % 16 = 0 → e.inBlk k = true → e ∈ s'.rolled := by
    intro k hk hin
    refine mem_of_mem_filter (p := inBlk k) ?_
    rw [h.setRoll_rolled ha hmap hk]
    split
    · next heq =>
        rw [heq] at hin
        obtain ⟨d, hd, rfl⟩ := mem_rollList h ha he hin
        exact mem_map_of_mem hd
    · exact mem_filter.mpr ⟨he, hin⟩
  refine hown (16 * (e.mof / mapBlockSize)) (Nat.mul_mod_right _ _) ?_
  rw [inBlk_iff]
  unfold devBsize mapBlockSize
  omega

variable {rs' age : List (Me (Nat → β))}

/-- The deltas of the chosen block are listed. -/
theorem Building.list (h : Building rs master nmblk pws none) (hc : Chosen nmblk pws i)
    (hsub : ∀ e ∈ rs, e ∈ rs') (hnew : ∀ e ∈ rs', e ∈ rs ∨ e.inBlk (pws i).bp.blkno = true)
    (hsame : ∀ k, k % 16 = 0 → k ≠ (pws i).bp.blkno → rs'.filter (inBlk k) = rs.filter (inBlk k)) :
    Building rs' master nmblk pws (some i) := by
  refine ⟨fun j hj => ?_, fun j hj hb => ?_, fun j hj => ?_, h.first, h.distinct, fun e he => ?_⟩
  · obtain ⟨h1, h2, h3, h4, h5, e, he, hin⟩ := h.used j hj
    exact ⟨h1, h2, h3, h4, h5, e, hsub e he, hin⟩
  · have hji : j ≠ i := by
      rintro rfl
      exact hb rfl
    rw [hsame _ (h.used j hj).2.2.2.2.1 (hc.ne h hj hji)]
    exact h.loaded j hj nofun
  · exact ⟨(h.free j hj).1, fun _ => (h.free j hj).2 nofun⟩
  · rcases hnew e he with he | hin
    · rcases h.owned e he with hj | ⟨c, hc, _⟩
      · exact .inl hj
      · cases hc
    · exact .inr ⟨i, rfl, hin⟩

/-- A block without deltas is given up. It was not in use. -/
theorem Building.giveUp (h : Building rs master nmblk pws none) (hfree : (pws i).inuse = false) :
    Building rs master nmblk
      (update pws i { pws i with inuse := false, rem := false, secmap := 0 }) none := by
  have hold := h.free i hfree
  refine h.setBuf hfree.symm hold.1.symm rfl ?_ (.inr ⟨rfl, (hold.2 nofun).symm, rfl⟩)
  exact fun hin => nomatch hfree.symm.trans hin

/-- `logmap_list_get_roll`. -/
theorem inv_getRoll (h : RollInv s) (hpc : s.pc = .chosen i) (hs : s.getRoll i = some s') :
    RollInv s' := by
  have hblocks := h.blocks
  rw [hpc] at hblocks
  obtain ⟨hb, hc⟩ := hblocks
  unfold getRoll at hs
  simp only [] at hs
  split at hs
  · cases hs
  split at hs
  · next hempty =>
      cases hs
      rw [List.isEmpty_iff] at hempty
      -- A block in use has deltas, and they would have been found.
      have hfree : (s.pws i).inuse = false := by
        rw [eq_false_iff]
        intro hin
        obtain ⟨e, he, hine⟩ := (hb.used i hin).2.2.2.2.2
        rw [hc.same hin] at hine
        obtain ⟨d, hd, _⟩ := mem_rollList h.map hc.aligned he hine
        rw [hempty] at hd
        cases hd
      exact ⟨h.map.congr rfl ⟨rfl, rfl, rfl⟩, hb.giveUp hfree⟩
  · next hsome =>
      cases hs
      rw [List.isEmpty_iff] at hsome
      refine ⟨h.map.setRoll hc.aligned rfl ⟨rfl, rfl, rfl⟩, ?_, hc, ?_, hsome⟩
      · refine hb.list hc (fun e he => rolled_subset_setRoll h.map hc.aligned rfl he)
          (fun e he => mem_rolled_setRoll h.map hc.aligned rfl he) fun k hk hne => ?_
        rw [h.map.setRoll_rolled hc.aligned rfl hk, if_neg hne]
      · rw [h.map.setRoll_rolled hc.aligned rfl hc.aligned, if_pos rfl]

/-- The chosen block as read from the master, with its deltas. -/
theorem loaded_read (ha : mblkno % 16 = 0) (hage : age.map bare = rs.filter (inBlk mblkno)) :
    Loaded (rs.filter (inBlk mblkno)) master mblkno 0 (secmapRoll age (devBsize * mblkno))
      fun k => overlay (fun me => me.at (devBsize * mblkno + k)) age
        (master (devBsize * mblkno + k)) := by
  refine ⟨ha, ⟨zero_le, secmapRoll_lt _ _⟩, fun k hk => ?_, fun k hk hex => .inl ?_⟩
  · rw [← hage]
    exact (overlay_map bare age (fun e _ => e.at_bare _) _).symm
  rw [← hage] at hex
  obtain ⟨d, hd, hsome⟩ := hex
  obtain ⟨e, he, rfl⟩ := mem_map.mp hd
  have hin : e.bare ∈ rs.filter (inBlk mblkno) := hage ▸ hd
  have hlo := (inBlk_iff.mp (mem_filter.mp hin).2).1
  exact ⟨zero_le, testBit_secmapRoll hk he hlo (at_ne_none.mp hsome).2⟩

theorem inv_readRoll (h : RollInv s) (hpc : s.pc = .listed i age) : RollInv (s.readRoll i age) := by
  have hblocks := h.blocks
  rw [hpc] at hblocks
  obtain ⟨hb, hc, hage, hne⟩ := hblocks
  have hself : (s.readRoll i age).pws i = _ := update_self ..
  have hother : ∀ j, j ≠ i → (s.readRoll i age).pws j = s.pws j := fun j hj => update_of_ne hj ..
  refine ⟨h.map.congr rfl ⟨rfl, rfl, rfl⟩, ?_, ?_, ?_, hne, ?_⟩
  · refine hb.setBuf rfl rfl rfl (fun hin => ?_) (.inl ⟨rfl, rfl⟩)
    obtain ⟨_, _, h3, h4, _⟩ := hb.used i hin
    exact ⟨h3, h4⟩
  · refine ⟨hc.lt, ?_, ?_, fun j hj => ?_, ?_⟩
    · rw [hself]
      exact hc.aligned
    · rw [hself]
      exact hc.addr
    · rw [hother j (ne_of_lt hj), hself]
      exact hc.before j hj
    · rw [hself]
      exact hc.same
  · rw [hself]
    exact loaded_read hc.aligned hage
  · rw [hself]
    exact hage

/-- The block that has been read is in use. -/
theorem Building.keep (h : Building rs master nmblk pws (some i)) (hc : Chosen nmblk pws i)
    (hl : Loaded (rs.filter (inBlk (pws i).bp.blkno)) master (pws i).bp.blkno 0 (pws i).secmap
      (pws i).bp.data) (hex : ∃ e ∈ rs, e.inBlk (pws i).bp.blkno = true) :
    Building rs master nmblk (update pws i
      { pws i with inuse := true, rem := true, blkno := (pws i).bp.blkno }) none := by
  generalize hpws : update pws i _ = pws'
  have hself := hpws ▸ update_self i _ pws
  have hother : ∀ j, j ≠ i → pws' j = pws j := fun j hj => hpws ▸ update_of_ne hj _ pws
  have hused : ∀ j, (pws' j).inuse = true → j = i ∨ j ≠ i ∧ (pws j).inuse = true := by
    intro j hj
    by_cases hji : j = i
    · exact .inl hji
    · rw [hother j hji] at hj
      exact .inr ⟨hji, hj⟩
  have hbusy : ∀ j, j ≠ i → some i ≠ some j := fun j hj heq => hj (some.inj heq).symm
  refine ⟨fun j hj => ?_, fun j hj _ => ?_, fun j hj => ?_, fun j hj k hk => ?_,
    fun a b ha hb hab => ?_, fun e he => .inl ?_⟩
  · rcases hused j hj with rfl | ⟨hji, hj⟩
    · rw [hself]
      exact ⟨hc.lt, rfl, rfl, hc.addr, hc.aligned, hex⟩
    · rw [hother j hji]
      exact h.used j hj
  · rcases hused j hj with rfl | ⟨hji, hj⟩
    · rw [hself]
      exact hl
    · rw [hother j hji]
      exact h.loaded j hj (hbusy j hji)
  · by_cases hji : j = i
    · rw [hji, hself] at hj
      cases hj
    · rw [hother j hji] at hj ⊢
      exact ⟨(h.free j hj).1, fun _ => (h.free j hj).2 (hbusy j hji)⟩
  · by_cases hki : k = i
    · rw [hki, hself]
    · rw [hother k hki]
      rcases hused j hj with rfl | ⟨_, hj⟩
      · exact (hc.before k hk).1
      · exact h.first j hj k hk
  · rcases hused a ha with rfl | ⟨hai, ha⟩
    · rcases hused b hb with rfl | ⟨hbi, hb⟩
      · rfl
      · rw [hself, hother b hbi] at hab
        exact absurd hab.symm (hc.ne h hb hbi)
    · rcases hused b hb with rfl | ⟨hbi, hb⟩
      · rw [hself, hother a hai] at hab
        exact absurd hab (hc.ne h ha hai)
      · rw [hother a hai, hother b hbi] at hab
        exact h.distinct a b ha hb hab
  · have hi : e.inBlk (pws i).bp.blkno = true → ∃ j, (pws' j).inuse = true ∧
        e.inBlk (pws' j).blkno = true := by
      intro hin
      refine ⟨i, ?_, ?_⟩ <;> rw [hself]
      exact hin
    rcases h.owned e he with ⟨j, hj, hin⟩ | ⟨c, hceq, hin⟩
    · by_cases hji : j = i
      · rw [hji] at hj hin
        rw [hc.same hj] at hin
        exact hi hin
      · refine ⟨j, ?_, ?_⟩ <;> rw [hother j hji]
        · exact hj
        · exact hin
    · cases hceq
      exact hi hin

theorem inv_putRoll (h : RollInv s) (hpc : s.pc = .fetched i age) : RollInv (s.putRoll i age) := by
  have hblocks := h.blocks
  rw [hpc] at hblocks
  obtain ⟨hb, hc, hl, hne, hage⟩ := hblocks
  have hput : MapOk (s.putRoll i age) ∧ (s.putRoll i age).rolled = s.rolled :=
    h.map.listPut rfl ⟨rfl, rfl, rfl⟩
  obtain ⟨hmap, hrolled⟩ := hput
  have hex : ∃ e ∈ s.rolled, e.inBlk (s.pws i).bp.blkno = true := by
    obtain ⟨e, he⟩ := exists_mem_of_ne_nil _ hne
    have hmem : e.bare ∈ s.rolled.filter (inBlk (s.pws i).bp.blkno) := hage ▸ mem_map_of_mem he
    exact ⟨e.bare, mem_filter.mp hmem⟩
  refine ⟨hmap, ?_⟩
  rw [hrolled]
  exact hb.keep hc hl hex

end Sol7.UfsLog
