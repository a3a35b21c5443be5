import Mathlib

/-!
# The Block Map of UFS

Model of `bmap_read`, with `findextent` and the macro `DOEXTENT`, and of the
tree of blocks that it reads.

A file has direct blocks, and three trees of indirect blocks of depth one, two
and three. An address of 0 is a hole, at any place of a tree. `bmap_read` takes
an offset in the file to a disk address and a length. The length is also an
argument: how much the caller wants, or 0 if that is not known.

Addresses in a file system count fragments. Disk addresses count sectors of 512
bytes. Offsets are numbers below the largest offset of a file, and the values of
type `int` stay far below their limits.

## Main definitions

* `UfsFs`: The sizes of a file system.
* `UfsInode`: An inode, as far as its blocks are concerned.
* `UfsFs.findextent`, `UfsFs.doExtent`: How far a run of blocks goes.
* `UfsFs.bmapRead`: `bmap_read`.
* `UfsFs.fileBlock`, `UfsFs.diskAddr`: The tree itself.
-/

namespace Sol7

/-- The sizes of a file system, as powers of two: blocks of `2 ^ bshift` bytes,
    between `MINBSIZE` and `MAXBSIZE`, fragments of `2 ^ fshift` bytes, and
    fragments of `2 ^ fsbtodb` sectors. -/
structure UfsFs where
  bshift : Nat
  fshift : Nat
  fsbtodb : Nat
  maxcontig : Nat
  bshift_ge : 12 ≤ bshift
  bshift_le : bshift ≤ 13
  fshift_le : fshift ≤ bshift
  fshift_eq : fshift = fsbtodb + 9

def ndaddr : Nat := 12

def niaddr : Nat := 3

/-- An inode: its direct and indirect addresses, and its size, which is at most
    `UFS_MAXOFFSET_T`. -/
structure UfsInode where
  db : Nat → Nat
  ib : Nat → Nat
  size : Nat
  size_lt : size < 2 ^ 40

namespace UfsFs

variable (fs : UfsFs)

/-- `lblkno`, which is cut to 32 bits. -/
def lblkno (loc : Nat) : Nat := loc >>> fs.bshift % 2 ^ 32

def blkoff (loc : Nat) : Nat := loc % 2 ^ fs.bshift

def fragroundup (size : Nat) : Nat := (size + 2 ^ fs.fshift - 1) >>> fs.fshift <<< fs.fshift

def blkroundup (size : Nat) : Nat := (size + 2 ^ fs.bshift - 1) >>> fs.bshift <<< fs.bshift

/-- `fs_frag` -/
def frag : Nat := 2 ^ (fs.bshift - fs.fshift)

/-- `vfs_nindirshift`: an indirect block has addresses of four bytes. -/
def nindirshift : Nat := fs.bshift - 2

def nindir : Nat := 2 ^ fs.nindirshift

/-- `fsbtodb` -/
def toDb (b : Nat) : Nat := b <<< fs.fsbtodb

def btodb (bytes : Nat) : Nat := bytes >>> 9

/-! ### Extents -/

/-- The loop of `findextent` over a table of addresses: the last entry that
    continues the run. -/
def extentLoop (tbl : Nat → Nat) : Nat → Nat → Nat
  | 0, bp => bp
  | n + 1, bp =>
    if tbl (bp + 1) = 0 ∨ tbl bp + fs.frag ≠ tbl (bp + 1) then bp else extentLoop tbl n (bp + 1)

/-- `findextent`, from an entry of a table on. -/
def findextent (tbl : Nat → Nat) (sbp n len : Nat) : Nat :=
  if n = 0 then 0
  else if tbl sbp = 0 then 0
  else
    let n := if len ≠ 0 then min n (fs.lblkno len) else min n fs.maxcontig
    fs.extentLoop tbl (n - 1) sbp - sbp + 1

/-- `DOEXTENT`: the disk address, or none for a hole, and the length. The
    difference is one of 64 bits. -/
def doExtent (lbn boff len size : Nat) (tbl : Nat → Nat) (dp n : Nat) (chkfrag : Bool) :
    Option Nat × Nat :=
  if tbl dp = 0 then (none, len)
  else
    let run := fs.findextent tbl dp n len <<< fs.bshift
    let tmp := (fs.fragroundup size + 2 ^ 64 - lbn <<< fs.bshift) % 2 ^ 64
    let run := if chkfrag then min tmp run else run
    if run ≤ boff then (none, len)
    else (some (fs.toDb (tbl dp) + btodb boff), run - boff)

/-! ### `bmap_read` -/

/-- What `bmap_read` returns: an error, or an address and a length. -/
inductive BmapResult where
  | efbig
  | eio
  | ok (bn : Option Nat) (len : Nat)
deriving DecidableEq

/-- The loop that determines how many levels of indirection there are: the
    counter, the shift, and what is left of the block number. -/
def indirLevel : Nat → Nat → Nat → Option (Nat × Nat × Nat)
  | 0, _, _ => none
  | j + 1, shft, tbn =>
    if tbn < 1 <<< (shft + fs.nindirshift) then some (j + 1, shft + fs.nindirshift, tbn)
    else indirLevel j (shft + fs.nindirshift) (tbn - 1 <<< (shft + fs.nindirshift))

/-- What the walk through the indirect blocks comes to: an error, a hole, or an
    entry of the last table. -/
inductive Fetched where
  | error
  | hole
  | found (bap : Nat → Nat) (i : Nat)

/-- The loop through the indirect blocks, where some more follow the next one.
    A block is read as a table of addresses, if it can be read. -/
def fetch (bread : Nat → Option (Nat → Nat)) : Nat → Nat → Nat → Nat → Fetched
  | 0, nb, shft, tbn =>
    match bread nb with
    | none => .error
    | some bap =>
      let i := tbn >>> (shft - fs.nindirshift) &&& (fs.nindir - 1)
      if bap i = 0 then .hole else .found bap i
  | more + 1, nb, shft, tbn =>
    match bread nb with
    | none => .error
    | some bap =>
      let i := tbn >>> (shft - fs.nindirshift) &&& (fs.nindir - 1)
      if bap i = 0 then .hole else fetch bread more (bap i) (shft - fs.nindirshift) tbn

/-- `bmap_read`. A block number is a signed number of 32 bits. On a hole the
    length stays what the caller passed. -/
def bmapRead (bread : Nat → Option (Nat → Nat)) (ip : UfsInode) (off len : Nat) : BmapResult :=
  let lbn := fs.lblkno off
  let boff := fs.blkoff off
  if 2 ^ 31 ≤ lbn then .efbig
  else if lbn < ndaddr then
    let r := fs.doExtent lbn boff len ip.size ip.db lbn (ndaddr - lbn) true
    .ok r.1 r.2
  else
    match fs.indirLevel niaddr 0 (lbn - ndaddr) with
    | none => .efbig
    | some (j, shft, tbn) =>
      if ip.ib (niaddr - j) = 0 then .ok none len
      else
        match fs.fetch bread (niaddr - j) (ip.ib (niaddr - j)) shft tbn with
        | .error => .eio
        | .hole => .ok none len
        | .found bap i =>
          let n := min (fs.nindir - i) (fs.lblkno (ip.size - 1) + 1 - lbn)
          let r := fs.doExtent lbn boff len ip.size bap i n false
          .ok r.1 r.2

/-! ### The tree -/

/-- The last table on the way to a block, through indirect blocks at the given
    address, of which some more follow the first one. -/
def walk (bread : Nat → Option (Nat → Nat)) : Nat → Nat → Nat → Option (Nat → Nat)
  | 0, nb, _ => if nb = 0 then none else bread nb
  | more + 1, nb, t =>
    if nb = 0 then none
    else (bread nb).bind fun bap => walk bread more (bap (t / fs.nindir ^ (more + 1) % fs.nindir)) t

/-- The tree that a block is in, and its number there. -/
def treeOf (t : Nat) : Nat × Nat :=
  if t < fs.nindir then (0, t)
  else if t - fs.nindir < fs.nindir ^ 2 then (1, t - fs.nindir)
  else (2, t - fs.nindir - fs.nindir ^ 2)

/-- The address of a block of a file, unless it is a hole. -/
def fileBlock (bread : Nat → Option (Nat → Nat)) (ip : UfsInode) (lbn : Nat) : Option Nat :=
  if lbn < ndaddr then (if ip.db lbn = 0 then none else some (ip.db lbn))
  else
    let tree := fs.treeOf (lbn - ndaddr)
    (fs.walk bread tree.1 (ip.ib tree.1) tree.2).bind fun bap =>
      if bap (tree.2 % fs.nindir) = 0 then none else some (bap (tree.2 % fs.nindir))

/-- The disk address of an offset, unless it is in a hole. -/
def diskAddr (bread : Nat → Option (Nat → Nat)) (ip : UfsInode) (off : Nat) : Option Nat :=
  (fs.fileBlock bread ip (off / 2 ^ fs.bshift)).map fun b =>
    b * 2 ^ fs.fsbtodb + off % 2 ^ fs.bshift / 512

/-- Where the fragments end that are allocated for the end of a file: only a
    direct block can be less than a block. -/
def allocEnd (ip : UfsInode) : Nat :=
  if fs.lblkno (ip.size - 1) < ndaddr then fs.fragroundup ip.size else fs.blkroundup ip.size

end UfsFs

end Sol7
