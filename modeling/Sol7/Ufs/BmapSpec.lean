import Sol7.Ufs.Bmap

/-!
# What `bmap_read` Returns

For an offset in a file, `bmap_read` returns the disk address that the tree of
blocks gives for it, and a length over which the disk addresses go on without a
gap. For a hole it returns no length: the caller's length is left as it was.

## Main definitions

* `UfsFs.Run`: Entries of a table that follow each other on the disk.

## Theorems

* `findextent_run`: The length of a run is one that the table has.
* `fetch_eq_walk`: The loop through the indirect blocks finds the last table.
* `fileBlock_run`: A run of a table is a run of the file.
* `diskAddr_run`: A run of the file is contiguous on the disk.
* `bmapRead_maps`: The address, the length, and that the length ends with what
  is allocated.
-/

namespace Sol7

open List Option

namespace UfsFs

open Nat (two_pow_pos shiftRight_eq_div_pow shiftLeft_eq mod_lt mod_add_div)

variable (fs : UfsFs)

/-! ### Sizes -/

theorem nindir_pos : 0 < fs.nindir := two_pow_pos _

/-- A file is so small that the trees hold it. -/
theorem le_nindir : 1024 ≤ fs.nindir := by
  have h : 10 ≤ fs.nindirshift := by
    have := fs.bshift_ge
    unfold nindirshift
    omega
  calc 1024 = 2 ^ 10 := rfl
    _ ≤ 2 ^ fs.nindirshift := Nat.pow_le_pow_right (by omega) h

variable {loc k dp n boff t t' j : Nat}

/-- A block number in a file is far below its limit. -/
theorem lblkno_eq (hloc : loc < 2 ^ 40) : fs.lblkno loc = loc / 2 ^ fs.bshift := by
  have hB : 2 ^ 12 ≤ 2 ^ fs.bshift := Nat.pow_le_pow_right (by omega) fs.bshift_ge
  have hlt : loc / 2 ^ fs.bshift < 2 ^ 28 := by
    rw [Nat.div_lt_iff_lt_mul (two_pow_pos _)]
    omega
  unfold lblkno
  rw [shiftRight_eq_div_pow, Nat.mod_eq_of_lt (by omega)]

/-- A block has this many sectors. -/
theorem frag_mul : fs.frag * 2 ^ fs.fsbtodb * 512 = 2 ^ fs.bshift := by
  have h1 := fs.fshift_le
  have h2 := fs.fshift_eq
  have h512 : 512 = 2 ^ 9 := rfl
  unfold frag
  rw [h512, ← pow_add, ← pow_add]
  congr 1
  omega

theorem dvd_of_frag (hk : 2 ^ fs.fshift ∣ k) : 512 ∣ k := by
  have h : 2 ^ 9 ∣ 2 ^ fs.fshift := pow_dvd_pow 2 (by have := fs.fshift_eq; omega)
  exact Dvd.dvd.trans h hk

/-- Rounding up is to the next multiple. -/
theorem roundup_bounds (size s : Nat) :
    size ≤ (size + 2 ^ s - 1) >>> s <<< s ∧ (size + 2 ^ s - 1) >>> s <<< s < size + 2 ^ s := by
  rw [shiftRight_eq_div_pow, shiftLeft_eq]
  have h1 := Nat.div_add_mod (size + 2 ^ s - 1) (2 ^ s)
  rw [mul_comm] at h1
  omega

/-! ### Extents -/

/-- Entries of a table from one on follow each other on the disk. -/
def Run (tbl : Nat → Nat) (dp r : Nat) : Prop := ∀ j < r, tbl (dp + j) = tbl dp + j * fs.frag

/-- The loop stops at the end of a run. -/
theorem extentLoop_run (tbl : Nat → Nat) : ∀ n bp,
    ∃ e ≤ n, fs.extentLoop tbl n bp = bp + e ∧ fs.Run tbl bp (e + 1) := by
  intro n
  induction n with
  | zero =>
    intro bp
    refine ⟨0, le_rfl, rfl, ?_⟩
    intro j hj
    obtain rfl : j = 0 := by omega
    simp
  | succ n ih =>
    intro bp
    rw [extentLoop]
    by_cases hstop : tbl (bp + 1) = 0 ∨ tbl bp + fs.frag ≠ tbl (bp + 1)
    · rw [if_pos hstop]
      refine ⟨0, by omega, rfl, ?_⟩
      intro j hj
      obtain rfl : j = 0 := by omega
      simp
    rw [if_neg hstop]
    push Not at hstop
    obtain ⟨e, he, heq, hrun⟩ := ih (bp + 1)
    refine ⟨e + 1, by omega, by omega, ?_⟩
    intro j hj
    -- The first entry is the run's own, the others are those of the rest.
    cases j with
    | zero => simp
    | succ j =>
      have h := hrun j (by omega)
      rw [show bp + (j + 1) = bp + 1 + j by omega, h, ← hstop.2]
      ring

/-- `findextent` returns the length of a run of the table, not 0 and not more
    than there are entries. -/
theorem findextent_run {tbl : Nat → Nat} (len : Nat) (hn : 0 < n) (hdp : tbl dp ≠ 0) :
    0 < fs.findextent tbl dp n len ∧ fs.findextent tbl dp n len ≤ n ∧
      fs.Run tbl dp (fs.findextent tbl dp n len) := by
  unfold findextent
  rw [if_neg (by omega), if_neg hdp]
  generalize hm : (if len ≠ 0 then min n (fs.lblkno len) else min n fs.maxcontig) = m
  have hle : m ≤ n := by
    rw [← hm]
    split <;> exact min_le_left _ _
  obtain ⟨e, he, heq, hrun⟩ := fs.extentLoop_run tbl (m - 1) dp
  simp only [heq, Nat.add_sub_cancel_left]
  exact ⟨by omega, by omega, hrun⟩

/-- What the macro does with an entry that is not a hole. -/
theorem doExtent_run (lbn size len : Nat) (chkfrag : Bool) {tbl : Nat → Nat} (hdp : tbl dp ≠ 0)
    (hn : 0 < n) (hboff : boff < 2 ^ fs.bshift) (hsize : chkfrag = true →
      lbn * 2 ^ fs.bshift + boff < fs.fragroundup size ∧ fs.fragroundup size < 2 ^ 64) :
    ∃ run r, fs.doExtent lbn boff len size tbl dp n chkfrag =
        (some (tbl dp * 2 ^ fs.fsbtodb + boff / 512), run) ∧
      0 < run ∧ boff + run ≤ r * 2 ^ fs.bshift ∧ r ≤ n ∧ fs.Run tbl dp r ∧
      (chkfrag = true → lbn * 2 ^ fs.bshift + boff + run ≤ fs.fragroundup size) := by
  obtain ⟨hpos, hle, hrun⟩ := fs.findextent_run len hn hdp
  unfold doExtent
  rw [if_neg hdp]
  generalize fs.findextent tbl dp n len = r at hpos hle hrun
  have hr : 2 ^ fs.bshift ≤ r * 2 ^ fs.bshift := Nat.le_mul_of_pos_left _ hpos
  simp only [shiftLeft_eq, toDb, btodb, shiftRight_eq_div_pow]
  cases chkfrag with
  | false =>
    simp only [Bool.false_eq_true, if_false]
    rw [if_neg (by omega)]
    refine ⟨_, r, rfl, by omega, by omega, hle, hrun, ?_⟩
    intro h
    cases h
  | true =>
    obtain ⟨hlt, h64⟩ := hsize rfl
    -- The difference does not wrap, since the offset is in the file.
    have htmp : (fs.fragroundup size + 2 ^ 64 - lbn * 2 ^ fs.bshift) % 2 ^ 64 =
        fs.fragroundup size - lbn * 2 ^ fs.bshift := by
      omega
    simp only [if_true, htmp]
    rw [if_neg (by omega)]
    exact ⟨_, r, rfl, by omega, by omega, hle, hrun, fun _ => by omega⟩

/-! ### Levels -/

/-- The loop over the levels finds the tree of a block. -/
theorem indirLevel_eq (ht : t < 2 ^ 30) : fs.indirLevel niaddr 0 t = some (niaddr - (fs.treeOf t).1,
      ((fs.treeOf t).1 + 1) * fs.nindirshift, (fs.treeOf t).2) := by
  have hN := fs.le_nindir
  have h1 : 1 <<< (0 + fs.nindirshift) = fs.nindir := by
    rw [shiftLeft_eq, one_mul, zero_add, nindir]
  have h2 : 1 <<< (0 + fs.nindirshift + fs.nindirshift) = fs.nindir ^ 2 := by
    rw [shiftLeft_eq, one_mul, zero_add, nindir, ← pow_mul]
    ring_nf
  have h3 : 1 <<< (0 + fs.nindirshift + fs.nindirshift + fs.nindirshift) = fs.nindir ^ 3 := by
    rw [shiftLeft_eq, one_mul, zero_add, nindir, ← pow_mul]
    ring_nf
  have hcube : 2 ^ 30 ≤ fs.nindir ^ 3 := Nat.pow_le_pow_left hN 3
  unfold treeOf
  simp only [niaddr, indirLevel, h1, h2, h3]
  by_cases hone : t < fs.nindir
  · rw [if_pos hone, if_pos hone]
    simp
  rw [if_neg hone, if_neg hone]
  by_cases htwo : t - fs.nindir < fs.nindir ^ 2
  · rw [if_pos htwo, if_pos htwo]
    simp only [some.injEq, Prod.mk.injEq, and_true]
    exact ⟨trivial, by ring⟩
  · rw [if_neg htwo, if_neg htwo, if_pos (by omega)]
    simp only [some.injEq, Prod.mk.injEq, and_true]
    exact ⟨trivial, by ring⟩

/-- The index in a table, by shifting and masking. -/
theorem index_eq (more t : Nat) :
    t >>> ((more + 1) * fs.nindirshift - fs.nindirshift) &&& (fs.nindir - 1) =
      t / fs.nindir ^ more % fs.nindir := by
  have h : (more + 1) * fs.nindirshift - fs.nindirshift = fs.nindirshift * more := by
    rw [add_mul, one_mul, Nat.add_sub_cancel, mul_comm]
  rw [h, shiftRight_eq_div_pow, nindir, Nat.and_two_pow_sub_one_eq_mod, pow_mul]

/-- The loop through the indirect blocks finds the last table, or a hole. -/
theorem fetch_eq_walk {bread : Nat → Option (Nat → Nat)}
    (hread : ∀ nb, nb ≠ 0 → (bread nb).isSome) (t : Nat) : ∀ more nb, nb ≠ 0 →
    fs.fetch bread more nb ((more + 1) * fs.nindirshift) t = match fs.walk bread more nb t with
      | none => .hole
      | some bap => if bap (t % fs.nindir) = 0 then .hole else .found bap (t % fs.nindir) := by
  intro more
  induction more with
  | zero =>
    intro nb hnb
    obtain ⟨bap, hbap⟩ := isSome_iff_exists.mp (hread nb hnb)
    have hi := fs.index_eq 0 t
    rw [pow_zero, Nat.div_one] at hi
    simp only [fetch, walk, hbap, hi, if_neg hnb]
  | succ more ih =>
    intro nb hnb
    obtain ⟨bap, hbap⟩ := isSome_iff_exists.mp (hread nb hnb)
    have hshft : (more + 1 + 1) * fs.nindirshift - fs.nindirshift =
        (more + 1) * fs.nindirshift := by
      rw [add_mul (more + 1), one_mul, Nat.add_sub_cancel]
    simp only [fetch, walk, hbap, fs.index_eq (more + 1) t, if_neg hnb, bind_some]
    generalize bap (t / fs.nindir ^ (more + 1) % fs.nindir) = nb'
    by_cases hz : nb' = 0
    · -- A hole on the way: no table is reached.
      have hnone : fs.walk bread more nb' t = none := by cases more <;> simp [walk, hz]
      rw [if_pos hz, hnone]
    · rw [if_neg hz, hshft, ih nb' hz]

/-- The tables on the way to a block depend on its number only as far as the
    last table covers the same blocks. -/
theorem walk_congr (bread : Nat → Option (Nat → Nat)) (h : t / fs.nindir = t' / fs.nindir) :
    ∀ more nb, fs.walk bread more nb t = fs.walk bread more nb t' := by
  intro more
  induction more with
  | zero =>
    intro nb
    rfl
  | succ more ih =>
    intro nb
    have hi : t / fs.nindir ^ (more + 1) = t' / fs.nindir ^ (more + 1) := by
      rw [pow_succ', ← Nat.div_div_eq_div_mul, ← Nat.div_div_eq_div_mul, h]
    simp only [walk, hi, ih]

/-- Blocks of one last table have the same quotient. -/
theorem div_add (hj : t % fs.nindir + j < fs.nindir) :
    (t + j) / fs.nindir = t / fs.nindir ∧ (t + j) % fs.nindir = t % fs.nindir + j := by
  have hpos := fs.nindir_pos
  have hsplit : t + j = t % fs.nindir + j + fs.nindir * (t / fs.nindir) := by
    have := mod_add_div t fs.nindir
    omega
  constructor
  · rw [hsplit, Nat.add_mul_div_left _ _ hpos, Nat.div_eq_of_lt hj, zero_add]
  · rw [hsplit, Nat.add_mul_mod_self_left, Nat.mod_eq_of_lt hj]

/-- Blocks of one last table are in one tree. -/
theorem treeOf_add (hj : (fs.treeOf t).2 % fs.nindir + j < fs.nindir) :
    fs.treeOf (t + j) = ((fs.treeOf t).1, (fs.treeOf t).2 + j) := by
  have hdiv := (fs.div_add hj).1
  unfold treeOf at hj hdiv ⊢
  by_cases hone : t < fs.nindir
  · simp only [if_pos hone] at hj ⊢
    rw [Nat.mod_eq_of_lt hone] at hj
    rw [if_pos hj]
  by_cases htwo : t - fs.nindir < fs.nindir ^ 2
  · simp only [if_neg hone, if_pos htwo] at hdiv ⊢
    have hlt : t - fs.nindir + j < fs.nindir ^ 2 := by
      rw [Nat.pow_two, ← Nat.div_lt_iff_lt_mul fs.nindir_pos, hdiv,
        Nat.div_lt_iff_lt_mul fs.nindir_pos, ← Nat.pow_two]
      exact htwo
    rw [if_neg (by omega), if_pos (by omega)]
    congr 1
    omega
  · simp only [if_neg hone, if_neg htwo]
    rw [if_neg (by omega), if_neg (by omega)]
    congr 1
    omega

/-! ### Runs of a file -/

section
variable (bread : Nat → Option (Nat → Nat)) (ip : UfsInode) {lbn r j i off b k : Nat}

/-- A run among the direct blocks is a run of the file. -/
theorem fileBlock_direct (hdb : ip.db lbn ≠ 0) (hr : r ≤ ndaddr - lbn) (hrun : fs.Run ip.db lbn r) :
    ∀ j < r, fs.fileBlock bread ip (lbn + j) = some (ip.db lbn + j * fs.frag) := by
  intro j hj
  have h := hrun j hj
  unfold fileBlock
  rw [if_pos (by omega), if_neg (by omega), h]

/-- The block of a file, where the last table is known. -/
theorem fileBlock_indirect (hlbn : ndaddr ≤ lbn) {bap : Nat → Nat}
    (hbap : fs.walk bread (fs.treeOf (lbn - ndaddr)).1 (ip.ib (fs.treeOf (lbn - ndaddr)).1)
      (fs.treeOf (lbn - ndaddr)).2 = some bap)
    (hj : (fs.treeOf (lbn - ndaddr)).2 % fs.nindir + j < fs.nindir) :
    fs.fileBlock bread ip (lbn + j) =
      if bap ((fs.treeOf (lbn - ndaddr)).2 % fs.nindir + j) = 0 then none
      else some (bap ((fs.treeOf (lbn - ndaddr)).2 % fs.nindir + j)) := by
  obtain ⟨hdiv, hmod⟩ := fs.div_add hj
  have hsub : lbn + j - ndaddr = lbn - ndaddr + j := by omega
  unfold fileBlock
  rw [if_neg (by omega), hsub, fs.treeOf_add hj]
  simp only [fs.walk_congr bread hdiv, hbap, hmod, bind_some]

/-- A run of the last table is a run of the file. -/
theorem fileBlock_run (hlbn : ndaddr ≤ lbn) {bap : Nat → Nat}
    (hbap : fs.walk bread (fs.treeOf (lbn - ndaddr)).1 (ip.ib (fs.treeOf (lbn - ndaddr)).1)
      (fs.treeOf (lbn - ndaddr)).2 = some bap) (hi : (fs.treeOf (lbn - ndaddr)).2 % fs.nindir = i)
    (hb : bap i ≠ 0) (hr : r ≤ fs.nindir - i) (hrun : fs.Run bap i r) :
    ∀ j < r, fs.fileBlock bread ip (lbn + j) = some (bap i + j * fs.frag) := by
  intro j hj
  have h := hrun j hj
  rw [fs.fileBlock_indirect bread ip hlbn hbap (by omega), hi, if_neg (by omega), h]

/-- A run of the file is contiguous on the disk. -/
theorem diskAddr_run
    (hrun : ∀ j < r, fs.fileBlock bread ip (off / 2 ^ fs.bshift + j) = some (b + j * fs.frag))
    (hk : off % 2 ^ fs.bshift + k < r * 2 ^ fs.bshift) (hdvd : 512 ∣ k) :
    fs.diskAddr bread ip (off + k) =
      some (b * 2 ^ fs.fsbtodb + off % 2 ^ fs.bshift / 512 + k / 512) := by
  have hB := two_pow_pos fs.bshift
  have hfrag := fs.frag_mul
  have hsplit : off + k = off % 2 ^ fs.bshift + k + 2 ^ fs.bshift * (off / 2 ^ fs.bshift) := by
    have := mod_add_div off (2 ^ fs.bshift)
    omega
  unfold diskAddr
  rw [hsplit, Nat.add_mul_div_left _ _ hB, Nat.add_mul_mod_self_left]
  generalize hx : off % 2 ^ fs.bshift + k = x at hk
  have hj : x / 2 ^ fs.bshift < r := by
    rw [Nat.div_lt_iff_lt_mul hB]
    exact hk
  rw [add_comm (x / 2 ^ fs.bshift), hrun _ hj, map_some, some.injEq]
  -- The sectors of the blocks before, and those within the last one, are all
  -- the sectors before the place.
  have hsect : x / 2 ^ fs.bshift * fs.frag * 2 ^ fs.fsbtodb + x % 2 ^ fs.bshift / 512 =
      x / 512 := by
    have h512 : x = x % 2 ^ fs.bshift + 512 * (x / 2 ^ fs.bshift * fs.frag * 2 ^ fs.fsbtodb) := by
      have h := mod_add_div x (2 ^ fs.bshift)
      have hblocks : 512 * (x / 2 ^ fs.bshift * fs.frag * 2 ^ fs.fsbtodb) =
          2 ^ fs.bshift * (x / 2 ^ fs.bshift) := by
        rw [← hfrag]
        ring
      omega
    conv_rhs => rw [h512, Nat.add_mul_div_left _ _ (by omega)]
    omega
  rw [add_mul]
  omega

end

/-! ### `bmap_read` -/

/-- What there is to say about an answer for an offset in a file: its address is
    that of the tree; a hole has the caller's length; otherwise the disk is
    contiguous over the length, which ends with what is allocated. -/
def Answers (bread : Nat → Option (Nat → Nat)) (ip : UfsInode) (off len : Nat)
    (r : BmapResult) : Prop :=
  ∃ bn n, r = .ok bn n ∧ bn = fs.diskAddr bread ip off ∧ (bn = none → n = len) ∧
    ∀ a, bn = some a → 0 < n ∧
      (∀ k < n, 2 ^ fs.fshift ∣ k → fs.diskAddr bread ip (off + k) = some (a + k / 512)) ∧
      off + n ≤ fs.allocEnd ip

variable {bread : Nat → Option (Nat → Nat)} {ip : UfsInode} {off : Nat}

/-- An answer for a hole. -/
theorem Answers.hole (len : Nat) (hhole : fs.fileBlock bread ip (off / 2 ^ fs.bshift) = none) :
    fs.Answers bread ip off len (.ok none len) := by
  refine ⟨none, len, rfl, ?_, fun _ => rfl, nofun⟩
  unfold diskAddr
  rw [hhole, map_none]

/-- An answer from a run of the file. -/
theorem Answers.run (len : Nat) {run r b : Nat}
    (hrun : ∀ j < r, fs.fileBlock bread ip (off / 2 ^ fs.bshift + j) = some (b + j * fs.frag))
    (hpos : 0 < run) (hle : off % 2 ^ fs.bshift + run ≤ r * 2 ^ fs.bshift)
    (hend : off + run ≤ fs.allocEnd ip) : fs.Answers bread ip off len
      (.ok (some (b * 2 ^ fs.fsbtodb + off % 2 ^ fs.bshift / 512)) run) := by
  have haddr := fs.diskAddr_run bread ip hrun (k := 0) (by omega) (by omega)
  refine ⟨_, run, rfl, haddr.symm, (fun h => nomatch h), ?_⟩
  intro a ha
  cases ha
  refine ⟨hpos, ?_, hend⟩
  intro k hk hdvd
  exact fs.diskAddr_run bread ip hrun (by omega) (fs.dvd_of_frag hdvd)

/-- The last block of a file, and where a block ends that is not after it. -/
theorem end_le_allocEnd {lbn : Nat} (hsize : 0 < ip.size) (hlbn : ndaddr ≤ lbn)
    (hle : lbn ≤ fs.lblkno (ip.size - 1)) {r : Nat} (hr : r ≤ fs.lblkno (ip.size - 1) + 1 - lbn) :
    (lbn + r) * 2 ^ fs.bshift ≤ fs.allocEnd ip := by
  have hB := two_pow_pos fs.bshift
  have hlast : fs.lblkno (ip.size - 1) = (ip.size - 1) / 2 ^ fs.bshift :=
    fs.lblkno_eq (by have := ip.size_lt; omega)
  unfold allocEnd blkroundup
  rw [if_neg (by omega), shiftRight_eq_div_pow, shiftLeft_eq]
  have hup : (ip.size + 2 ^ fs.bshift - 1) / 2 ^ fs.bshift = fs.lblkno (ip.size - 1) + 1 := by
    rw [hlast, show ip.size + 2 ^ fs.bshift - 1 = ip.size - 1 + 2 ^ fs.bshift by omega,
      Nat.add_div_right _ hB]
  exact Nat.mul_le_mul_right _ (by omega)

/-- Rounding to blocks goes as far as rounding to fragments. -/
theorem fragroundup_le_allocEnd : fs.fragroundup ip.size ≤ fs.allocEnd ip := by
  unfold allocEnd
  split
  · exact le_rfl
  have hle := roundup_bounds ip.size fs.bshift
  have hdvd : 2 ^ fs.fshift ∣ fs.blkroundup ip.size := by
    unfold blkroundup
    rw [shiftLeft_eq]
    exact Dvd.dvd.mul_left (pow_dvd_pow 2 fs.fshift_le) _
  -- The end of the blocks is a multiple of the fragment that is not below
  -- the size, and rounding gives the first such.
  obtain ⟨c, hc⟩ := hdvd
  unfold fragroundup
  change ip.size ≤ fs.blkroundup ip.size ∧ _ at hle
  rw [hc] at hle ⊢
  rw [shiftRight_eq_div_pow, shiftLeft_eq, mul_comm]
  refine Nat.mul_le_mul_left _ ?_
  rw [← Nat.lt_succ_iff, Nat.div_lt_iff_lt_mul (two_pow_pos _), Nat.succ_mul, mul_comm c]
  have := two_pow_pos fs.fshift
  omega

/-- The direct blocks. -/
theorem bmapRead_direct (len : Nat) (hoff : off < ip.size) (hlbn : fs.lblkno off < ndaddr) :
    fs.Answers bread ip off len (fs.bmapRead bread ip off len) := by
  have hsize := ip.size_lt
  have hblk := fs.lblkno_eq (hoff.trans hsize)
  have hsplit := mod_add_div off (2 ^ fs.bshift)
  have hfs := roundup_bounds ip.size fs.fshift
  change ip.size ≤ fs.fragroundup ip.size ∧ fs.fragroundup ip.size < ip.size + _ at hfs
  have h13 : 2 ^ fs.fshift ≤ 2 ^ 13 :=
    Nat.pow_le_pow_right (by omega) (le_trans fs.fshift_le fs.bshift_le)
  have hend : fs.fragroundup ip.size ≤ fs.allocEnd ip := fs.fragroundup_le_allocEnd
  have h31 : ¬2 ^ 31 ≤ fs.lblkno off := by
    unfold ndaddr at hlbn
    omega
  unfold bmapRead
  simp only [if_neg h31, if_pos hlbn, blkoff]
  by_cases hdb : ip.db (fs.lblkno off) = 0
  · simp only [doExtent, if_pos hdb]
    refine .hole fs len ?_
    unfold fileBlock
    rw [← hblk, if_pos hlbn, if_pos hdb]
  rw [hblk] at hdb hlbn ⊢
  rcases fs.doExtent_run (off / 2 ^ fs.bshift) ip.size len true hdb (Nat.sub_pos_of_lt hlbn)
    (mod_lt off (two_pow_pos fs.bshift)) (fun _ => ⟨by rw [mul_comm]; omega, by omega⟩)
    with ⟨run, r, heq, hpos, hle, hr, hrun, hfrag⟩
  simp only [heq]
  refine .run fs len (fs.fileBlock_direct bread ip hdb hr hrun) hpos hle ?_
  have h := hfrag rfl
  rw [mul_comm] at h
  omega

/-- The indirect blocks. -/
theorem bmapRead_indirect (len : Nat) (hread : ∀ nb, nb ≠ 0 → (bread nb).isSome)
    (hoff : off < ip.size) (hlbn : ndaddr ≤ fs.lblkno off) :
    fs.Answers bread ip off len (fs.bmapRead bread ip off len) := by
  have hsize := ip.size_lt
  have hblk := fs.lblkno_eq (hoff.trans hsize)
  have hsplit := mod_add_div off (2 ^ fs.bshift)
  have h12 : 2 ^ 12 ≤ 2 ^ fs.bshift := Nat.pow_le_pow_right (by omega) fs.bshift_ge
  have h28 : fs.lblkno off < 2 ^ 28 := by
    rw [hblk, Nat.div_lt_iff_lt_mul (two_pow_pos _)]
    omega
  have hlast : fs.lblkno off ≤ fs.lblkno (ip.size - 1) := by
    rw [hblk, fs.lblkno_eq (by omega)]
    exact Nat.div_le_div_right (by omega)
  unfold bmapRead
  simp only [if_neg (show ¬2 ^ 31 ≤ fs.lblkno off by omega),
    if_neg (show ¬fs.lblkno off < ndaddr by omega),
    fs.indirLevel_eq (show fs.lblkno off - ndaddr < 2 ^ 30 by omega), blkoff]
  have htree : niaddr - (niaddr - (fs.treeOf (fs.lblkno off - ndaddr)).1) =
      (fs.treeOf (fs.lblkno off - ndaddr)).1 := by
    unfold treeOf niaddr
    split
    · rfl
    · split <;> rfl
  simp only [htree]
  by_cases hib : ip.ib (fs.treeOf (fs.lblkno off - ndaddr)).1 = 0
  · -- No first indirect block.
    rw [if_pos hib]
    refine .hole fs len ?_
    unfold fileBlock
    rw [← hblk, if_neg (by omega)]
    simp only [hib]
    generalize (fs.treeOf (fs.lblkno off - ndaddr)).1 = m
    cases m <;> simp [walk]
  · rw [if_neg hib, fs.fetch_eq_walk hread _ _ _ hib]
    cases hwalk : fs.walk bread (fs.treeOf (fs.lblkno off - ndaddr)).1
      (ip.ib (fs.treeOf (fs.lblkno off - ndaddr)).1) (fs.treeOf (fs.lblkno off - ndaddr)).2 with
    | none =>
      refine .hole fs len ?_
      unfold fileBlock
      rw [← hblk, if_neg (by omega)]
      simp only [hwalk, bind_none]
    | some bap =>
      have hi := mod_lt (fs.treeOf (fs.lblkno off - ndaddr)).2 fs.nindir_pos
      generalize hieq : (fs.treeOf (fs.lblkno off - ndaddr)).2 % fs.nindir = i at hi
      by_cases hz : bap i = 0
      · simp only [if_pos hz]
        refine .hole fs len ?_
        have h := fs.fileBlock_indirect bread ip hlbn hwalk (j := 0) (by omega)
        rw [add_zero, add_zero, hieq, if_pos hz] at h
        rw [← hblk]
        exact h
      · simp only [if_neg hz]
        rcases fs.doExtent_run (fs.lblkno off) ip.size len false hz
          (n := min (fs.nindir - i) (fs.lblkno (ip.size - 1) + 1 - fs.lblkno off)) (by omega)
          (mod_lt off (two_pow_pos fs.bshift)) (fun h => nomatch h)
          with ⟨run, r, heq, hpos, hle, hr, hrun, -⟩
        simp only [heq]
        have hfile := fs.fileBlock_run bread ip hlbn hwalk hieq hz (by omega) hrun
        have hend := fs.end_le_allocEnd (by omega) hlbn hlast (r := r) (by omega)
        rw [hblk] at hfile hend
        refine .run fs len hfile hpos hle ?_
        rw [add_mul, mul_comm (off / _)] at hend
        omega

end UfsFs

/-! ### Main results -/

/-- For every tree of blocks whose indirect blocks can be read, and every offset
    in the file, `bmap_read` returns the disk address of the offset, or a hole
    if it has none. The length with an address is positive, the disk addresses
    over it follow each other, and it ends with what is allocated for the file.
    The length with a hole is the caller's. -/
theorem bmapRead_maps (fs : UfsFs) (bread : Nat → Option (Nat → Nat)) (ip : UfsInode)
    (off len : Nat) (hread : ∀ nb, nb ≠ 0 → (bread nb).isSome) (hoff : off < ip.size) :
    fs.Answers bread ip off len (fs.bmapRead bread ip off len) := by
  by_cases hlbn : fs.lblkno off < ndaddr
  · exact fs.bmapRead_direct len hoff hlbn
  · exact fs.bmapRead_indirect len hread hoff (by omega)

/-- A file system with blocks of 8 kilobytes and fragments of one. -/
def smallFs : UfsFs where
  bshift := 13
  fshift := 10
  fsbtodb := 1
  maxcontig := 8
  bshift_ge := by decide
  bshift_le := by decide
  fshift_le := by decide
  fshift_eq := by decide

/-- A file of twenty blocks, all of them holes up to the first indirect one. -/
def sparseInode : UfsInode where
  db := fun _ => 0
  ib := fun i => if i = 0 then 8 else 0
  size := 20 * 8192
  size_lt := by decide

/-- An indirect block whose blocks follow each other from the second one on. -/
def sparseRead (_ : Nat) : Option (Nat → Nat) := some fun i => if i = 0 then 0 else 8 * (i + 1)

/-- In the middle of a block, the run goes on to the end of the file. -/
theorem bmapRead_maps_sparse : smallFs.bmapRead sparseRead sparseInode (13 * 8192 + 1024) 0 =
        .ok (some 34) (7 * 8192 - 1024) ∧
      smallFs.Answers sparseRead sparseInode (13 * 8192 + 1024) 0
        (smallFs.bmapRead sparseRead sparseInode (13 * 8192 + 1024) 0) :=
  ⟨by decide, bmapRead_maps smallFs sparseRead sparseInode (13 * 8192 + 1024) 0
    (fun _ _ => rfl) (by decide)⟩

/-- The length that comes with a hole is not that of the hole: where a hole of
    one block is followed by a block, a caller that asked for two blocks gets two
    blocks back, and the second one is mapped. A caller that passed 0 gets 0. -/
theorem bmapRead_hole_length : 12 * 8192 < sparseInode.size ∧
      smallFs.bmapRead sparseRead sparseInode (12 * 8192) (2 * 8192) = .ok none (2 * 8192) ∧
      smallFs.diskAddr sparseRead sparseInode (12 * 8192 + 8192) = some 32 ∧
      smallFs.bmapRead sparseRead sparseInode (12 * 8192) 0 = .ok none 0 := by
  decide

end Sol7
