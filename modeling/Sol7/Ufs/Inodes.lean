import Mathlib

/-!
# Inodes and the Blocks They Name

`ufs_ialloc` charges an inode to the user's quota before it looks for one. If the
inode it gets turns out to be in use it starts over, and charges again. Whether
`chkiq` charges anything depends on the quotas: nothing is charged while they are off,
and to users who have no limits or whose record cannot be read.

`ufs_badblock` says whether an address may be the one of a data block, and
`ufs_indir_badblock` asks it about an indirect block. An address that equals the
size of the file system passes, so do those of the boot block, and the last entry
of an indirect block is not looked at.

## Main definitions

* `ufsIalloc`: The loop, over what it meets on each trip.
* `Once`: The condition on the trips: one charge for an inode, none for an error.
* `Super.ufsBadblock`, `Super.ufsIndirBadblock`: The two checks.
* `Super.InData`: The data areas of the cylinder groups.

## Theorems

* `ufsIalloc_net`: What is charged in the end.
* `ufsIalloc_charges_iff`: When that is right.
* `ufsBadblock_valid_iff`: When the two checks are right.
-/

namespace Sol7.Inodes

open List Int

/-! ### Allocation and the quota -/

/-- What `chkiq` does about a charge: it refuses it, makes it, or returns without
    looking at the limits. -/
inductive Quota
  | refused
  | charged
  | free
deriving DecidableEq

/-- What one trip round the loop meets: the free inodes, the answer of the quota, the
    inode that `hashalloc` finds, the error of `ufs_iget`, and the mode of the inode. -/
structure Trip where
  nifree : Nat
  quota : Quota
  ino : Nat
  iget : Option Nat
  imode : Nat

/-- The errors of `ufs_ialloc`. -/
inductive Errno
  | enospc
  | edquot
  | iget (err : Nat)

/-- The mode of a shadow inode. -/
def ifshad : Nat := 0o130000

/-- `chkiq` without an inode, with what it comes to. Only a charge can be refused. -/
def chkiq (quota : Quota) (change curfiles : Int) : Option Int :=
  match quota with
  | .refused => if change = 1 then none else some (curfiles + change)
  | .charged => some (curfiles + change)
  | .free => some curfiles

/-- What is charged is given back. The error of `chkiq` is ignored, and the quotas are
    what they were when the charge was made. -/
def undo (mode : Nat) (quota : Quota) (curfiles : Int) : Int :=
  if mode ≠ ifshad then (chkiq quota (-1) curfiles).getD curfiles else curfiles

/-- How a trip ends. -/
inductive Turn
  | fails (err : Errno)
  | again
  | gets (ino : Nat)

/-- One trip, with the files that are charged to the user. -/
def Trip.turn (mode : Nat) (t : Trip) (curfiles : Int) : Turn × Int :=
  if t.nifree = 0 then (.fails .enospc, curfiles)
  else
    match if mode ≠ ifshad then chkiq t.quota 1 curfiles else some curfiles with
    | none => (.fails .edquot, curfiles)
    | some curfiles =>
      if t.ino = 0 then (.fails .enospc, undo mode t.quota curfiles)
      else
        match t.iget with
        | some err => (.fails (.iget err), undo mode t.quota curfiles)
        | none => (if t.imode ≠ 0 then .again else .gets t.ino, curfiles)

/-- `ufs_ialloc`. There is no result if the last trip starts over. -/
def ufsIalloc (mode : Nat) : List Trip → Int → Option (Except Errno Nat × Int)
  | [], _ => none
  | t :: trips, curfiles =>
    match t.turn mode curfiles with
    | (.fails err, curfiles) => some (.error err, curfiles)
    | (.again, curfiles) => ufsIalloc mode trips curfiles
    | (.gets ino, curfiles) => some (.ok ino, curfiles)

/-- The trip gets an inode, be it in use or not. -/
abbrev Trip.Gets (mode : Nat) (t : Trip) : Prop :=
  t.nifree ≠ 0 ∧ (mode = ifshad ∨ t.quota ≠ .refused) ∧ t.ino ≠ 0 ∧ t.iget = none

/-- The trip starts over. -/
abbrev Trip.Again (mode : Nat) (t : Trip) : Prop := t.Gets mode ∧ t.imode ≠ 0

/-- The trip leaves a charge behind. -/
abbrev Trip.Charges (mode : Nat) (t : Trip) : Prop :=
  t.Gets mode ∧ mode ≠ ifshad ∧ t.quota = .charged

/-- Of the trips up to the first one that does not start over, one leaves a charge
    behind if that one gets an inode, and none otherwise. -/
def Once (mode : Nat) (trips : List Trip) : Prop :=
  ∀ t ∈ (trips.dropWhile (·.Again mode)).head?,
    (trips.takeWhile (·.Again mode) ++ [t]).countP (·.Charges mode) = if t.Gets mode then 1 else 0

/-- What a trip comes to, by what it meets. -/
theorem turn_eq (mode : Nat) (t : Trip) (curfiles : Int) :
    (t.turn mode curfiles).2 = curfiles + (if t.Charges mode then 1 else 0) ∧
      match (t.turn mode curfiles).1 with
      | .fails _ => ¬t.Gets mode
      | .again => t.Again mode
      | .gets _ => t.Gets mode ∧ ¬t.Again mode := by
  obtain ⟨nifree, quota, ino, iget, imode⟩ := t
  by_cases hfree : nifree = 0
  · simp [Trip.turn, hfree]
  by_cases hmode : mode = ifshad <;> cases quota <;> by_cases hino : ino = 0 <;> cases iget <;>
    by_cases huse : imode = 0 <;> simp [Trip.turn, undo, chkiq, Trip.Gets, Trip.Again, *]

/-- The net charge, and whether there is an inode, by the trip that ends the call. -/
theorem ufsIalloc_net {mode : Nat} {trips : List Trip} {curfiles : Int}
    {r : Except Errno Nat × Int} (h : ufsIalloc mode trips curfiles = some r) :
    ∃ t ∈ (trips.dropWhile (·.Again mode)).head?, (r.1.toBool = true ↔ t.Gets mode) ∧
      r.2 = curfiles + (trips.takeWhile (·.Again mode) ++ [t]).countP (·.Charges mode) := by
  induction trips generalizing curfiles with
  | nil => cases h
  | cons t trips ih =>
    obtain ⟨hcharge, hend⟩ := turn_eq mode t curfiles
    rw [ufsIalloc] at h
    rcases hturn : t.turn mode curfiles with ⟨turn, charged⟩
    rw [hturn] at h hcharge hend
    cases turn with
    | again =>
      have hdrop : (t :: trips).dropWhile (·.Again mode) = trips.dropWhile (·.Again mode) :=
        dropWhile_cons_of_pos (decide_eq_true hend)
      have htake : (t :: trips).takeWhile (·.Again mode) = t :: trips.takeWhile (·.Again mode) :=
        takeWhile_cons_of_pos (decide_eq_true hend)
      obtain ⟨u, hu, hok, hnet⟩ := ih h
      refine ⟨u, hdrop ▸ hu, hok, ?_⟩
      rw [htake, cons_append, countP_cons, hnet, show charged = _ from hcharge]
      simp only [decide_eq_true_eq]
      split <;> omega
    | fails | gets =>
      cases h
      have hstop : ¬t.Again mode := by grind
      have hdrop : (t :: trips).dropWhile (·.Again mode) = t :: trips :=
        dropWhile_cons_of_neg fun h => hstop (of_decide_eq_true h)
      have htake : (t :: trips).takeWhile (·.Again mode) = [] :=
        takeWhile_cons_of_neg fun h => hstop (of_decide_eq_true h)
      rw [hdrop, htake]
      refine ⟨t, rfl, ?_, ?_⟩
      · grind [Except.toBool]
      · rw [hcharge, nil_append, countP_singleton]
        simp only [decide_eq_true_eq]
        split <;> rfl

/-- One inode is charged if one is returned, and none otherwise, just if the trips do
    as much: what is charged on a trip that starts over stays. -/
theorem ufsIalloc_charges_iff (mode : Nat) (trips : List Trip) (curfiles : Int)
    (r : Except Errno Nat × Int) (h : ufsIalloc mode trips curfiles = some r) :
    r.2 - curfiles = (if r.1.toBool then 1 else 0) ↔ Once mode trips := by
  obtain ⟨t, ht, hok, hnet⟩ := ufsIalloc_net h
  rw [Once, Option.mem_def.mp ht]
  simp only [hok, hnet, Option.mem_def, Option.some.injEq, forall_eq']
  split <;> omega

/-- A user whose record could not be read on the first trip, and was on the second. -/
theorem ufsIalloc_charges_five :
    ufsIalloc 0 [⟨2, .free, 4, none, 1⟩, ⟨1, .charged, 5, none, 0⟩] 7 = some (.ok 5, 8) ∧
      Once 0 [⟨2, .free, 4, none, 1⟩, ⟨1, .charged, 5, none, 0⟩] :=
  ⟨rfl, (ufsIalloc_charges_iff 0 _ 7 (.ok 5, 8) rfl).mp rfl⟩

/-- The first inode is in use. -/
theorem ufsIalloc_charges_twice : ∃ trips curfiles r,
    ufsIalloc 0 trips curfiles = some r ∧ r.1.toBool = true ∧ r.2 - curfiles = 2 :=
  ⟨[⟨2, .charged, 4, none, 1⟩, ⟨1, .charged, 5, none, 0⟩], 7, (.ok 5, 9), rfl, rfl, rfl⟩

/-! ### Addresses of blocks -/

/-- What the checks read of a superblock. All numbers are of 32 bits. -/
structure Super where
  size : Int
  fpg : Int
  cgoffset : Int
  cgmask : BitVec 32
  sblkno : Int
  dblkno : Int
  cssize : Int
  fsize : Int
  nindir : Nat
  size_lt : size < 2 ^ 31
  fpg_pos : 0 < fpg
  fpg_lt : fpg < 2 ^ 31
  nindir_pos : 0 < nindir

namespace Super

variable (fs : Super)

/-- `cgbase`, which is cut to 32 bits. -/
def cgbase (c : Int) : Int := (fs.fpg * c).bmod (2 ^ 32)

def cgstart (c : Int) : Int :=
  fs.cgbase c + fs.cgoffset * (BitVec.ofInt 32 c &&& ~~~fs.cgmask).toInt

def cgsblock (c : Int) : Int := fs.cgstart c + fs.sblkno

def cgdmin (c : Int) : Int := fs.cgstart c + fs.dblkno

def dtog (bn : Int) : Int := bn.tdiv fs.fpg

/-- The summary data, which the first group has. -/
def summary (c : Int) : Int := if c = 0 then (fs.cssize + (fs.fsize - 1)).tdiv fs.fsize else 0

/-- `ufs_badblock` -/
def ufsBadblock (bn : Int) : Bool :=
  if bn ≤ 0 ∨ bn > fs.size then true
  else
    let c := fs.dtog bn
    bn < fs.cgbase c ∨ (bn ≥ fs.cgsblock c ∧ bn < fs.cgdmin c + fs.summary c) ∨
      bn ≥ fs.cgbase (c + 1)

/-- The loop of `ufs_indir_badblock`, over some entries that are left. -/
def indirLoop (bap : Nat → Int) : Nat → Nat → Bool
  | 0, _ => false
  | n + 1, i => if bap i ≠ 0 ∧ fs.ufsBadblock (bap i) then true else indirLoop bap n (i + 1)

/-- `ufs_indir_badblock` -/
def ufsIndirBadblock (bap : Nat → Int) : Bool := fs.indirLoop bap (fs.nindir - 1) 0

/-- What its group reserves does not hold the address. -/
def Unreserved (bn : Int) : Prop :=
  ¬(bn ≥ fs.cgsblock (fs.dtog bn) ∧ bn < fs.cgdmin (fs.dtog bn) + fs.summary (fs.dtog bn))

/-- The address is in the data area of its group. In the first one the boot block
    is in front of the superblock. -/
def InData (bn : Int) : Prop := fs.Unreserved bn ∧ (fs.dtog bn = 0 → fs.sblkno ≤ bn)

/-- For an address that nothing reserves: the end of its group is a number of 32 bits,
    unless the address is the one behind the file system or in the boot block. -/
def Telling (bn : Int) : Prop := 0 < bn → bn ≤ fs.size → fs.Unreserved bn →
  if bn = fs.size ∨ fs.dtog bn = 0 ∧ bn < fs.sblkno then 2 ^ 31 ≤ fs.fpg * (fs.dtog bn + 1)
  else fs.fpg * (fs.dtog bn + 1) < 2 ^ 31

theorem indirLoop_iff (bap : Nat → Int) (n i : Nat) : fs.indirLoop bap n i = true ↔
    ∃ j, i ≤ j ∧ j < i + n ∧ bap j ≠ 0 ∧ fs.ufsBadblock (bap j) = true := by
  induction n generalizing i with
  | zero =>
    rw [indirLoop]
    grind
  | succ n ih =>
    rw [indirLoop]
    grind

/-- What passes the check. -/
theorem ufsBadblock_eq_false (bn : Int) : fs.ufsBadblock bn = false ↔
    0 < bn ∧ bn ≤ fs.size ∧ fs.Unreserved bn ∧ fs.fpg * (fs.dtog bn + 1) < 2 ^ 31 := by
  unfold ufsBadblock
  split
  · grind
  next hin =>
  have hsize := fs.size_lt
  have hlt := fs.fpg_lt
  have hpos := fs.fpg_pos
  -- Where the group begins and ends, and that only its end may be cut.
  have hdiv : fs.dtog bn = bn / fs.fpg := tdiv_eq_ediv_of_nonneg (by omega)
  have hge : fs.fpg * fs.dtog bn ≤ bn := hdiv ▸ mul_ediv_self_le (by omega)
  have hend : bn < fs.fpg * fs.dtog bn + fs.fpg := hdiv ▸ lt_mul_ediv_self_add hpos
  have hbase : fs.cgbase (fs.dtog bn) = fs.fpg * fs.dtog bn := by
    rw [cgbase, bmod]
    split <;> omega
  have hnext : bn ≥ fs.cgbase (fs.dtog bn + 1) ↔ ¬fs.fpg * (fs.dtog bn + 1) < 2 ^ 31 := by
    rw [cgbase, mul_add, mul_one, bmod]
    split <;> omega
  unfold Unreserved
  grind

/-- An address is accepted just if it is one of a data block, and an indirect block
    is rejected just if one of its entries is, under these conditions and no
    others. -/
theorem ufsBadblock_valid_iff :
    (∀ bn ≠ 0, ((fs.ufsBadblock bn = false ↔ 0 ≤ bn ∧ bn < fs.size ∧ fs.InData bn) ↔
      fs.Telling bn)) ∧
    ∀ bap, ((fs.ufsIndirBadblock bap = true ↔
        ∃ i < fs.nindir, bap i ≠ 0 ∧ fs.ufsBadblock (bap i) = true) ↔
      (bap (fs.nindir - 1) ≠ 0 → fs.ufsBadblock (bap (fs.nindir - 1)) = true →
        ∃ i < fs.nindir - 1, bap i ≠ 0 ∧ fs.ufsBadblock (bap i) = true)) := by
  constructor
  · intro bn hbn
    rw [ufsBadblock_eq_false]
    unfold InData Telling
    grind
  · intro bap
    have := fs.nindir_pos
    rw [ufsIndirBadblock, indirLoop_iff]
    grind

/-- A file system of 64 fragments in groups of 32. -/
def sample : Super :=
  ⟨64, 32, 0, 0, 8, 16, 512, 1024, 4, by decide, by decide, by decide, Nat.succ_pos 3⟩

/-- The address behind the last fragment passes, and so does one in the boot block;
    the last entry of an indirect block is not checked. -/
theorem ufsBadblock_invalid : sample.ufsBadblock 64 = false ∧ ¬(64 : Int) < sample.size ∧
    sample.ufsBadblock 1 = false ∧ ¬sample.InData 1 ∧
    sample.ufsIndirBadblock (fun i => if i = 3 then 65 else 0) = false ∧
    sample.ufsBadblock 65 = true := by
  refine ⟨by decide, by decide, by decide, ?_, by decide, by decide⟩
  rintro ⟨-, h⟩
  exact absurd (h rfl) (by decide)

end Super

end Sol7.Inodes
