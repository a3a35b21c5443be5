import Sol7.Lib.System

/-!
# Cylinder Groups

Model of the allocation of blocks and fragments in a cylinder group: `alloccg`,
`alloccgblk`, `fragextend`, `mapsearch` and `free` of `ufs_allo.c`, `fragacct` and
the block operations of `ufs_subr.c`, and the tables of `ufs_tabl.c`.

A call holds the buffer of the group and `vfs_lock`, so a call is a step. Whether
a block is being converted, `TRANS_ISCANCEL`, is a parameter of a call. A group
that cannot be read, or whose magic number is wrong, is left alone, so there is no
step for it. The counters are integers: none of them is ever more than the number
of blocks or fragments of the file system. Times, inodes, directories and the log
are left out.

## Main definitions

* `Fs`, `Cg`, `State`: The superblock, a cylinder group, and what a call changes.
* `fragacct`: Count the free fragments of a block.
* `mapsearch`: Find free fragments in the map.
* `alloccgblk`, `alloccg`: Allocate a block, or fragments.
* `fragextend`: Extend a fragment.
* `free`: Free a block or fragments.
* `Call`, `call`: The calls.
-/

namespace Sol7.Alloc

open Function

/-! ### Tables -/

/-- Bit patterns for identifying fragments in the block map. -/
def around (siz : Nat) : Nat := [0x3, 0x7, 0xf, 0x1f, 0x3f, 0x7f, 0xff, 0x1ff, 0x3ff].getD siz 0

@[inherit_doc around]
def inside (siz : Nat) : Nat := [0x0, 0x2, 0x6, 0xe, 0x1e, 0x3e, 0x7e, 0xfe, 0x1fe].getD siz 0

/-- Which sizes of fragments are available in a byte of the map, for blocks of 1,
    2 and 4 fragments. -/
def fragtbl124 : List Nat :=
  [0x00,0x16,0x16,0x2a,0x16,0x16,0x26,0x4e,0x16,0x16,0x16,0x3e,0x2a,0x3e,0x4e,0x8a,
    0x16,0x16,0x16,0x3e,0x16,0x16,0x36,0x5e,0x16,0x16,0x16,0x3e,0x3e,0x3e,0x5e,0x9e,
    0x16,0x16,0x16,0x3e,0x16,0x16,0x36,0x5e,0x16,0x16,0x16,0x3e,0x3e,0x3e,0x5e,0x9e,
    0x2a,0x3e,0x3e,0x2a,0x3e,0x3e,0x2e,0x6e,0x3e,0x3e,0x3e,0x3e,0x2a,0x3e,0x6e,0xaa,
    0x16,0x16,0x16,0x3e,0x16,0x16,0x36,0x5e,0x16,0x16,0x16,0x3e,0x3e,0x3e,0x5e,0x9e,
    0x16,0x16,0x16,0x3e,0x16,0x16,0x36,0x5e,0x16,0x16,0x16,0x3e,0x3e,0x3e,0x5e,0x9e,
    0x26,0x36,0x36,0x2e,0x36,0x36,0x26,0x6e,0x36,0x36,0x36,0x3e,0x2e,0x3e,0x6e,0xae,
    0x4e,0x5e,0x5e,0x6e,0x5e,0x5e,0x6e,0x4e,0x5e,0x5e,0x5e,0x7e,0x6e,0x7e,0x4e,0xce,
    0x16,0x16,0x16,0x3e,0x16,0x16,0x36,0x5e,0x16,0x16,0x16,0x3e,0x3e,0x3e,0x5e,0x9e,
    0x16,0x16,0x16,0x3e,0x16,0x16,0x36,0x5e,0x16,0x16,0x16,0x3e,0x3e,0x3e,0x5e,0x9e,
    0x16,0x16,0x16,0x3e,0x16,0x16,0x36,0x5e,0x16,0x16,0x16,0x3e,0x3e,0x3e,0x5e,0x9e,
    0x3e,0x3e,0x3e,0x3e,0x3e,0x3e,0x3e,0x7e,0x3e,0x3e,0x3e,0x3e,0x3e,0x3e,0x7e,0xbe,
    0x2a,0x3e,0x3e,0x2a,0x3e,0x3e,0x2e,0x6e,0x3e,0x3e,0x3e,0x3e,0x2a,0x3e,0x6e,0xaa,
    0x3e,0x3e,0x3e,0x3e,0x3e,0x3e,0x3e,0x7e,0x3e,0x3e,0x3e,0x3e,0x3e,0x3e,0x7e,0xbe,
    0x4e,0x5e,0x5e,0x6e,0x5e,0x5e,0x6e,0x4e,0x5e,0x5e,0x5e,0x7e,0x6e,0x7e,0x4e,0xce,
    0x8a,0x9e,0x9e,0xaa,0x9e,0x9e,0xae,0xce,0x9e,0x9e,0x9e,0xbe,0xaa,0xbe,0xce,0x8a]

/-- Which sizes of fragments are available in a byte of the map, for blocks of 8
    fragments. -/
def fragtbl8 : List Nat :=
  [0x00,0x01,0x01,0x02,0x01,0x01,0x02,0x04,0x01,0x01,0x01,0x03,0x02,0x03,0x04,0x08,
    0x01,0x01,0x01,0x03,0x01,0x01,0x03,0x05,0x02,0x03,0x03,0x02,0x04,0x05,0x08,0x10,
    0x01,0x01,0x01,0x03,0x01,0x01,0x03,0x05,0x01,0x01,0x01,0x03,0x03,0x03,0x05,0x09,
    0x02,0x03,0x03,0x02,0x03,0x03,0x02,0x06,0x04,0x05,0x05,0x06,0x08,0x09,0x10,0x20,
    0x01,0x01,0x01,0x03,0x01,0x01,0x03,0x05,0x01,0x01,0x01,0x03,0x03,0x03,0x05,0x09,
    0x01,0x01,0x01,0x03,0x01,0x01,0x03,0x05,0x03,0x03,0x03,0x03,0x05,0x05,0x09,0x11,
    0x02,0x03,0x03,0x02,0x03,0x03,0x02,0x06,0x03,0x03,0x03,0x03,0x02,0x03,0x06,0x0a,
    0x04,0x05,0x05,0x06,0x05,0x05,0x06,0x04,0x08,0x09,0x09,0x0a,0x10,0x11,0x20,0x40,
    0x01,0x01,0x01,0x03,0x01,0x01,0x03,0x05,0x01,0x01,0x01,0x03,0x03,0x03,0x05,0x09,
    0x01,0x01,0x01,0x03,0x01,0x01,0x03,0x05,0x03,0x03,0x03,0x03,0x05,0x05,0x09,0x11,
    0x01,0x01,0x01,0x03,0x01,0x01,0x03,0x05,0x01,0x01,0x01,0x03,0x03,0x03,0x05,0x09,
    0x03,0x03,0x03,0x03,0x03,0x03,0x03,0x07,0x05,0x05,0x05,0x07,0x09,0x09,0x11,0x21,
    0x02,0x03,0x03,0x02,0x03,0x03,0x02,0x06,0x03,0x03,0x03,0x03,0x02,0x03,0x06,0x0a,
    0x03,0x03,0x03,0x03,0x03,0x03,0x03,0x07,0x02,0x03,0x03,0x02,0x06,0x07,0x0a,0x12,
    0x04,0x05,0x05,0x06,0x05,0x05,0x06,0x04,0x05,0x05,0x05,0x07,0x06,0x07,0x04,0x0c,
    0x08,0x09,0x09,0x0a,0x09,0x09,0x0a,0x0c,0x10,0x11,0x11,0x12,0x20,0x21,0x40,0x80]

/-- The table for a number of fragments in a block. -/
def fragtbl (frag : Nat) : List Nat :=
  match frag with
  | 1 => fragtbl124
  | 2 => fragtbl124
  | 4 => fragtbl124
  | 8 => fragtbl8
  | _ => []

/-! ### The file system -/

/-- The constants of the superblock. In the rotation table, `none` stands for
    -1. -/
structure Fs where
  frag : Nat
  fragshift : Nat
  fshift : Nat
  fpg : Nat
  ncg : Nat
  nspf : Nat
  spc : Nat
  nsect : Nat
  cpc : Nat
  nrpos : Nat
  postbl : Nat → Nat → Option Nat
  rotbl : Nat → Nat
  frag_eq : frag = 1 ∨ frag = 2 ∨ frag = 4 ∨ frag = 8
  frag_shift : frag = 2 ^ fragshift
  frag_dvd : frag ∣ fpg
  fpg_pos : 0 < fpg

/-- The free blocks and fragments of a `csum`. -/
structure Csum where
  nbfree : Int
  nffree : Int
deriving DecidableEq

/-- A cylinder group. -/
structure Cg where
  cgx : Nat
  cs : Csum
  rotor : Nat
  frotor : Nat
  frsum : Nat → Int
  blktot : Nat → Int
  blks : Nat → Nat → Int
  blksfree : Nat → BitVec 8

/-- The groups, with `fs_cs` and `fs_cstotal`. -/
structure State where
  cgs : Nat → Cg
  cs : Nat → Csum
  cstotal : Csum

section
variable (fs : Fs)

/-- `fs_bsize`. -/
def bsize : Nat := fs.frag <<< fs.fshift

def fragoff (loc : Nat) : Nat := loc % (1 <<< fs.fshift)

def numfrags (loc : Nat) : Nat := loc >>> fs.fshift

def fragstoblks (frags : Nat) : Nat := frags >>> fs.fragshift

def blkstofrags (blks : Nat) : Nat := blks <<< fs.fragshift

def fragnum (fsb : Nat) : Nat := fsb % fs.frag

def blknum (fsb : Nat) : Nat := fsb - fsb % fs.frag

def dtog (d : Nat) : Nat := d / fs.fpg

def dtogd (d : Nat) : Nat := d % fs.fpg

def cbtocylno (bno : Nat) : Nat := bno * fs.nspf / fs.spc

def cbtorpos (bno : Nat) : Nat := bno * fs.nspf % fs.spc % fs.nsect % fs.nsect * fs.nrpos / fs.nsect

end

/-! ### The map of free fragments -/

section
variable (fs : Fs) (map : Nat → BitVec 8)

def isset (i : Nat) : Bool := map (i / 8) &&& (1#8 <<< (i % 8)) ≠ 0#8

def isclr (i : Nat) : Bool := map (i / 8) &&& (1#8 <<< (i % 8)) = 0#8

def setbit (i : Nat) : Nat → BitVec 8 := update map (i / 8) (map (i / 8) ||| (1#8 <<< (i % 8)))

def clrbit (i : Nat) : Nat → BitVec 8 := update map (i / 8) (map (i / 8) &&& ~~~(1#8 <<< (i % 8)))

/-- `setbit`, for `n` bits from `i` on. -/
def setbits (i : Nat) : Nat → Nat → BitVec 8
  | 0 => map
  | n + 1 => setbit (setbits i n) (i + n)

/-- `clrbit`, for `n` bits from `i` on. -/
def clrbits (i : Nat) : Nat → Nat → BitVec 8
  | 0 => map
  | n + 1 => clrbit (clrbits i n) (i + n)

/-- `blkmap`: the bits for a block. -/
def blkmap (loc : Nat) : Nat := ((map (loc / 8)).toNat >>> (loc % 8)) &&& (0xff >>> (8 - fs.frag))

/-- `isblock`: is a block available? -/
def isblock (h : Nat) : Bool :=
  match fs.frag with
  | 8 => map h = 0xff#8
  | 4 => map (h >>> 1) &&& (0x0f#8 <<< ((h &&& 0x1) <<< 2)) = 0x0f#8 <<< ((h &&& 0x1) <<< 2)
  | 2 => map (h >>> 2) &&& (0x03#8 <<< ((h &&& 0x3) <<< 1)) = 0x03#8 <<< ((h &&& 0x3) <<< 1)
  | 1 => map (h >>> 3) &&& (0x01#8 <<< (h &&& 0x7)) = 0x01#8 <<< (h &&& 0x7)
  | _ => false

/-- `clrblock`: take a block out of the map. -/
def clrblock (h : Nat) : Nat → BitVec 8 :=
  match fs.frag with
  | 8 => update map h 0#8
  | 4 => update map (h >>> 1) (map (h >>> 1) &&& ~~~(0x0f#8 <<< ((h &&& 0x1) <<< 2)))
  | 2 => update map (h >>> 2) (map (h >>> 2) &&& ~~~(0x03#8 <<< ((h &&& 0x3) <<< 1)))
  | 1 => update map (h >>> 3) (map (h >>> 3) &&& ~~~(0x01#8 <<< (h &&& 0x7)))
  | _ => map

/-- `isclrblock`: is a block allocated? -/
def isclrblock (h : Nat) : Bool :=
  match fs.frag with
  | 8 => map h = 0#8
  | 4 => map (h >>> 1) = map (h >>> 1) &&& ~~~(0x0f#8 <<< ((h &&& 0x1) <<< 2))
  | 2 => map (h >>> 2) = map (h >>> 2) &&& ~~~(0x03#8 <<< ((h &&& 0x3) <<< 1))
  | 1 => map (h >>> 3) = map (h >>> 3) &&& ~~~(0x01#8 <<< (h &&& 0x7))
  | _ => false

/-- `setblock`: put a block into the map. -/
def setblock (h : Nat) : Nat → BitVec 8 :=
  match fs.frag with
  | 8 => update map h 0xff#8
  | 4 => update map (h >>> 1) (map (h >>> 1) ||| (0x0f#8 <<< ((h &&& 0x1) <<< 2)))
  | 2 => update map (h >>> 2) (map (h >>> 2) ||| (0x03#8 <<< ((h &&& 0x3) <<< 1)))
  | 1 => update map (h >>> 3) (map (h >>> 3) ||| (0x01#8 <<< (h &&& 0x7)))
  | _ => map

end

/-! ### Counting fragments -/

/-- The loop of `fragacct` over the positions in a block, for one size. The
    position goes up each time, so `frag` times are enough. -/
def fragacctPos (frag fragmap siz : Nat) (cnt : Int) :
    Nat → Nat → Nat → Nat → (Nat → Int) → Nat → Int
  | 0, _, _, _, fraglist => fraglist
  | fuel + 1, pos, field, subfield, fraglist =>
    if pos ≤ frag then
      if fragmap &&& field = subfield then
        fragacctPos frag fragmap siz cnt fuel (pos + siz + 1) (field <<< siz <<< 1)
          (subfield <<< siz <<< 1) (update fraglist siz (fraglist siz + cnt))
      else
        fragacctPos frag fragmap siz cnt fuel (pos + 1) (field <<< 1) (subfield <<< 1) fraglist
    else fraglist

/-- The loop of `fragacct` over the sizes. -/
def fragacctSiz (frag inblk fragmap : Nat) (cnt : Int) (fraglist : Nat → Int) (siz : Nat) :
    Nat → Int :=
  if inblk &&& (1 <<< (siz + frag % 8)) = 0 then fraglist
  else fragacctPos frag fragmap siz cnt frag siz (around siz) (inside siz) fraglist

def fragacct (fs : Fs) (fragmap : Nat) (fraglist : Nat → Int) (cnt : Int) : Nat → Int :=
  (List.range' 1 (fs.frag - 1)).foldl
    (fragacctSiz fs.frag ((fragtbl fs.frag).getD fragmap 0 <<< 1) (fragmap <<< 1) cnt) fraglist

/-! ### Searching the map -/

/-- `scanc`: how many bytes are left at the first one whose table entry has the
    bit. -/
def scanc (map : Nat → BitVec 8) (table : List Nat) (mask : Nat) : Nat → Nat → Nat
  | 0, _ => 0
  | len + 1, first =>
    if table.getD (map first).toNat 0 &&& mask ≠ 0 then len + 1
    else scanc map table mask len (first + 1)

/-- Sift through the bits of a block. -/
def siftPos (blk : Nat) : Nat → Nat → Nat → Nat → Option Nat
  | 0, _, _, _ => none
  | n + 1, pos, field, subfield =>
    if blk &&& field = subfield then some pos
    else siftPos blk n (pos + 1) (field <<< 1) (subfield <<< 1)

/-- Sift through the blocks of a byte, to find the selected fragment. -/
def siftByte (fs : Fs) (map : Nat → BitVec 8) (allocsiz : Nat) : Nat → Nat → Nat
  | 0, bno => bno + (fs.frag - allocsiz + 1)
  | n + 1, bno =>
    match siftPos (blkmap fs map bno <<< 1) (fs.frag - allocsiz + 1) 0 (around allocsiz)
      (inside allocsiz) with
    | some pos => bno + pos
    | none => siftByte fs map allocsiz n (bno + fs.frag)

/-- The loop of `mapsearch`. -/
def mapsearchLoop (fs : Fs) (cancel : Nat → Bool) (allocsiz start : Nat) :
    Nat → Nat → Nat → Bool → Cg → Cg × Option Nat
  | 0, _, _, _, cgp => (cgp, none)
  | fuel + 1, first, last, secondtime, cgp =>
    if first < last then
      let loc := scanc cgp.blksfree (fragtbl fs.frag) (1 <<< (allocsiz - 1 + fs.frag % 8))
        (last - first) first
      if loc ≠ 0 then
        let cgp := { cgp with frotor := (last - loc) * 8 }
        let bno := siftByte fs cgp.blksfree allocsiz (8 / fs.frag) ((last - loc) * 8)
        if cancel (cgp.cgx * fs.fpg + bno) = false then (cgp, some bno)
        -- keep looking: this block is being converted
        else if last - loc + 1 < last then
          mapsearchLoop fs cancel allocsiz start fuel (last - loc + 1) last secondtime cgp
        else if secondtime then (cgp, none)
        else mapsearchLoop fs cancel allocsiz start fuel 0 (start + 1) true cgp
      else if secondtime then (cgp, none)
      else mapsearchLoop fs cancel allocsiz start fuel 0 (start + 1) true cgp
    else (cgp, none)

/-- `mapsearch`. Each time, the place to search from goes up, or the search of
    the top half begins. -/
def mapsearch (fs : Fs) (cancel : Nat → Bool) (cgp : Cg) (bpref allocsiz : Nat) : Cg × Option Nat :=
  let start := if bpref ≠ 0 then dtogd fs bpref / 8 else cgp.frotor / 8
  let last := (fs.fpg + 7) / 8
  mapsearchLoop fs cancel allocsiz start (last + start + 2) start last false cgp

/-! ### Allocating -/

section
variable (fs : Fs)

/-- Replace a cylinder group. -/
def State.setCg (s : State) (cg : Nat) (cgp : Cg) : State := { s with cgs := update s.cgs cg cgp }

/-- Add to the free blocks of `fs_cstotal` and `fs_cs`. -/
def State.addNbfree (s : State) (cg : Nat) (i : Int) : State :=
  { s with
    cstotal := { s.cstotal with nbfree := s.cstotal.nbfree + i }
    cs := update s.cs cg { s.cs cg with nbfree := (s.cs cg).nbfree + i } }

/-- Add to the free fragments of `fs_cstotal` and `fs_cs`. -/
def State.addNffree (s : State) (cg : Nat) (i : Int) : State :=
  { s with
    cstotal := { s.cstotal with nffree := s.cstotal.nffree + i }
    cs := update s.cs cg { s.cs cg with nffree := (s.cs cg).nffree + i } }

/-- Add to the free blocks of a group, of a cylinder, and of a rotational
    position. -/
def Cg.addNbfree (cgp : Cg) (bno : Nat) (i : Int) : Cg :=
  let cylno := cbtocylno fs bno
  let rpos := cbtorpos fs bno
  { cgp with
    cs := { cgp.cs with nbfree := cgp.cs.nbfree + i }
    blktot := update cgp.blktot cylno (cgp.blktot cylno + i)
    blks := update cgp.blks cylno
      (update (cgp.blks cylno) rpos (cgp.blks cylno rpos + i)) }

/-- Add to the free fragments of a group. -/
def Cg.addNffree (cgp : Cg) (i : Int) : Cg :=
  { cgp with cs := { cgp.cs with nffree := cgp.cs.nffree + i } }

/-- Add to the runs of a size. -/
def Cg.addFrsum (cgp : Cg) (k : Nat) (i : Int) : Cg :=
  { cgp with frsum := update cgp.frsum k (cgp.frsum k + i) }

/-- The end of `alloccgblk`: take a block. -/
def takeBlk (s : State) (cg bno : Nat) : State × Nat :=
  let cgp := s.cgs cg
  let cgp := { cgp with blksfree := clrblock fs cgp.blksfree (fragstoblks fs bno) }
  ((s.setCg cg (cgp.addNbfree fs bno (-1))).addNbfree cgp.cgx (-1), cgp.cgx * fs.fpg + bno)

variable (cancel : Nat → Bool)

/-- `norot`: take the next available block of the group. If it is being
    converted, this would go on forever. -/
def norot (s : State) (cg bpref : Nat) : Option (State × Nat) :=
  let r := mapsearch fs cancel (s.cgs cg) bpref fs.frag
  match r.2 with
  | none => some (s.setCg cg r.1, 0)
  | some bno =>
    if cancel (r.1.cgx * fs.fpg + bno) then none
    else some (takeBlk fs (s.setCg cg { r.1 with rotor := bno }) cg bno)

def gotit (s : State) (cg bno bpref : Nat) : Option (State × Nat) :=
  if cancel ((s.cgs cg).cgx * fs.fpg + bno) then norot fs cancel s cg bpref
  else some (takeBlk fs s cg bno)

/-- The first position, from `i` on, with a free block. -/
def firstRpos (cylbp : Nat → Int) : Nat → Nat → Nat
  | 0, i => i
  | n + 1, i => if cylbp i > 0 then i else firstRpos cylbp n (i + 1)

/-- The first rotational position with a free block, starting at the requested one
    and proceeding around. -/
def findRpos (cylbp : Nat → Int) (nrpos pos : Nat) : Nat :=
  let i := firstRpos cylbp (nrpos - pos) pos
  if i = nrpos then firstRpos cylbp pos 0 else i

/-- Find the actual block of a rotational position. The index goes up each time
    and stays within the group. -/
def rotblk (map : Nat → BitVec 8) (bno : Nat) : Nat → Nat → Option Nat
  | 0, _ => none
  | fuel + 1, i =>
    if isblock fs map (bno + i) then some (blkstofrags fs (bno + i))
    else if fs.rotbl i = 0 ∨ fs.rotbl i + i > fragstoblks fs fs.fpg then none
    else rotblk map bno fuel (i + fs.rotbl i)

/-- `alloccgblk`: the new state, and the block or 0. There is no result if it does
    not return. -/
def alloccgblk (s : State) (cg bpref : Nat) : Option (State × Nat) :=
  let cgp := s.cgs cg
  if bpref = 0 then norot fs cancel s cg cgp.rotor
  else
    let bpref := dtogd fs (blknum fs bpref)
    -- If the requested block is available, use it.
    if isblock fs cgp.blksfree (fragstoblks fs bpref) then gotit fs cancel s cg bpref bpref
    else
      -- Check for a block available on the same cylinder.
      let cylno := cbtocylno fs bpref
      if cgp.blktot cylno = 0 then norot fs cancel s cg bpref
      else if fs.cpc = 0 then
        norot fs cancel s cg ((fs.spc * cylno + (fs.nspf - 1)) / fs.nspf)
      else
        let cylbp := cgp.blks cylno
        let i := findRpos cylbp fs.nrpos (cbtorpos fs bpref)
        if cylbp i > 0 then
          let pos := cylno % fs.cpc
          let bno := (cylno - pos) * fs.spc / (fs.nspf <<< fs.fragshift)
          match fs.postbl pos i with
          | none => some (s, 0)
          | some i =>
            match rotblk fs cgp.blksfree bno (fragstoblks fs fs.fpg + 2) i with
            | some bno => gotit fs cancel s cg bno bpref
            | none => some (s, 0)
        else norot fs cancel s cg bpref

/-- The smallest size, from `allocsiz` on, of which there are fragments. -/
def findsiz (frsum : Nat → Int) : Nat → Nat → Nat
  | 0, allocsiz => allocsiz
  | n + 1, allocsiz => if frsum allocsiz ≠ 0 then allocsiz else findsiz frsum n (allocsiz + 1)

/-- A block is allocated and hacked up. -/
def hackup (s : State) (cg bpref frags : Nat) : Option (State × Nat) :=
  if (s.cgs cg).cs.nbfree = 0 then some (s, 0)
  else
    (alloccgblk fs cancel s cg bpref).map fun r =>
      if r.2 = 0 then (r.1, 0)
      else
        let cgp := r.1.cgs cg
        let cgp := { cgp with
          blksfree := setbits cgp.blksfree (dtogd fs r.2 + frags) (fs.frag - frags) }
        let i := fs.frag - frags
        ((r.1.setCg cg ((cgp.addNffree i).addFrsum i 1)).addNffree cg i, r.2)

/-- `alloccg`: the new state, and the block, the fragments, or 0. -/
def alloccg (s : State) (cg bpref size : Nat) : Option (State × Nat) :=
  if (s.cs cg).nbfree = 0 ∧ size = bsize fs then some (s, 0)
  else if (s.cgs cg).cs.nbfree = 0 ∧ size = bsize fs then some (s, 0)
  else if size = bsize fs then alloccgblk fs cancel s cg bpref
  else
    -- Check to see if any fragments are already available.
    let frags := numfrags fs size
    let allocsiz := findsiz (s.cgs cg).frsum (fs.frag - frags) frags
    if allocsiz = fs.frag then hackup fs cancel s cg bpref frags
    else
      let r := mapsearch fs cancel (s.cgs cg) bpref allocsiz
      match r.2 with
      | none => hackup fs cancel (s.setCg cg r.1) cg bpref frags
      | some bno =>
        let cgp := { r.1 with blksfree := clrbits r.1.blksfree bno frags }
        let cgp := (cgp.addNffree (-frags)).addFrsum allocsiz (-1)
        let cgp := if frags ≠ allocsiz then cgp.addFrsum (allocsiz - frags) 1 else cgp
        some ((s.setCg cg cgp).addNffree cg (-frags), cg * fs.fpg + bno)

/-- The number of free fragments from `bno + i` on, up to `n` of them. -/
def extent (map : Nat → BitVec 8) (bno : Nat) : Nat → Nat → Nat
  | 0, i => i
  | n + 1, i => if isclr map (bno + i) then i else extent map bno n (i + 1)

/-- `fragextend`: the new state, and the fragment or 0. -/
def fragextend (s : State) (cg bprev osize nsize : Nat) : State × Nat :=
  let frags := numfrags fs nsize
  let bbase := fragnum fs bprev
  let cgp := s.cgs cg
  let bno := dtogd fs bprev
  if (s.cs cg).nffree < numfrags fs (nsize - osize) then (s, 0)
  -- cannot extend across a block boundary
  else if bbase > fragnum fs (bprev + frags - 1) then (s, 0)
  else if cancel (blknum fs bprev) then (s, 0)
  else if extent cgp.blksfree bno (frags - numfrags fs osize) (numfrags fs osize) < frags then
    (s, 0)
  else
    let i := extent cgp.blksfree bno (fs.frag - bbase - frags) frags
    let n := frags - numfrags fs osize
    let cgp := cgp.addFrsum (i - numfrags fs osize) (-1)
    let cgp := if i ≠ frags then cgp.addFrsum (i - frags) 1 else cgp
    let cgp := { cgp with blksfree := clrbits cgp.blksfree (bno + numfrags fs osize) n }
    ((s.setCg cg (cgp.addNffree (-n))).addNffree cg (-n), bprev)

/-- `free`. There is no result for a size or for fragments that cannot be
    freed. -/
def free (s : State) (bno size : Nat) : Option State :=
  if size > bsize fs ∨ fragoff fs size ≠ 0 then none
  else
    let cg := dtog fs bno
    let cgp := s.cgs cg
    let bno := dtogd fs bno
    if size = bsize fs then
      if isclrblock fs cgp.blksfree (fragstoblks fs bno) then
        let cgp := { cgp with blksfree := setblock fs cgp.blksfree (fragstoblks fs bno) }
        some ((s.setCg cg (cgp.addNbfree fs bno 1)).addNbfree cg 1)
      else none
    else
      let bbase := bno - fragnum fs bno
      let n := numfrags fs size
      -- Decrement the counts associated with the old frags.
      let cgp := { cgp with
        frsum := fragacct fs (blkmap fs cgp.blksfree bbase) cgp.frsum (-1) }
      if (List.range n).any fun i => isset cgp.blksfree (bno + i) then none
      else
        let cgp := { cgp with blksfree := setbits cgp.blksfree bno n }
        let s := s.addNffree cg n
        let cgp := cgp.addNffree n
        -- Add back in counts associated with the new frags.
        let cgp := { cgp with
          frsum := fragacct fs (blkmap fs cgp.blksfree bbase) cgp.frsum 1 }
        -- If a complete block has been reassembled, account for it.
        if isblock fs cgp.blksfree (fragstoblks fs bbase) then
          let cgp := (cgp.addNffree (-fs.frag)).addNbfree fs bbase 1
          some (((s.setCg cg cgp).addNffree cg (-fs.frag)).addNbfree cg 1)
        else some (s.setCg cg cgp)

end

/-! ### Calls -/

/-- The calls. -/
inductive Call where
  | alloccg (cancel : Nat → Bool) (cg bpref size : Nat)
  | fragextend (cancel : Nat → Bool) (cg bprev osize nsize : Nat)
  | free (bno size : Nat)

/-- What is asked for is a block or a fragment: some fragments, and all in one
    block. A fragment that is extended is allocated and gets larger. -/
def Call.Ok (fs : Fs) (s : State) : Call → Prop
  | .alloccg _ cg _ size => cg < fs.ncg ∧ 0 < size ∧ size ≤ bsize fs ∧ fragoff fs size = 0
  | .fragextend _ cg bprev osize nsize =>
    cg < fs.ncg ∧ dtog fs bprev = cg ∧ 0 < osize ∧ osize < nsize ∧ nsize ≤ bsize fs ∧
      fragoff fs osize = 0 ∧ fragoff fs nsize = 0 ∧
      ∀ i < numfrags fs osize, isclr (s.cgs cg).blksfree (dtogd fs bprev + i) = true
  | .free bno size => dtog fs bno < fs.ncg ∧ 0 < size ∧ fragnum fs bno + numfrags fs size ≤ fs.frag

instance (fs : Fs) (s : State) (c : Call) : Decidable (c.Ok fs s) :=
  match c with
  | .alloccg _ _ _ _ => inferInstanceAs (Decidable (_ ∧ _ ∧ _ ∧ _))
  | .fragextend _ _ _ _ _ => inferInstanceAs (Decidable (_ ∧ _ ∧ _ ∧ _ ∧ _ ∧ _ ∧ _ ∧ ∀ i < _, _))
  | .free _ _ => inferInstanceAs (Decidable (_ ∧ _ ∧ _))

/-- One call: the new state, and what it returns. -/
def call (fs : Fs) (s : State) : Call → Option (State × Nat)
  | .alloccg cancel cg bpref size => alloccg fs cancel s cg bpref size
  | .fragextend cancel cg bprev osize nsize => some (fragextend fs cancel s cg bprev osize nsize)
  | .free bno size => (free fs s bno size).map fun s => (s, 0)

end Sol7.Alloc
