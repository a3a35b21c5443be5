import Sol7.Ufs.AllocFrags

/-!
# What the Counters of a Cylinder Group Say

The counters are sums over the blocks of a group, and each operation changes one
block. So a counter changes by the difference between what the new block and the
old block have in it.

## Main definitions

* `CgOk`: The counters of a group are right.
* `Consistent`: So are those of all groups, and the totals.
* `Moved`: What an operation does to the counters.

## Theorems

* `CgOk.change`: One block of a group changes.
* `Consistent.set`: One group changes.
-/

namespace Sol7.Alloc

open Function Runs Finset

/-- The number of blocks of a group. -/
def nblk (fs : Fs) : Nat := fs.fpg / fs.frag

/-- The counters of a group are right: `cs_nbfree` is the number of blocks that
    are completely free, `cs_nffree` the number of free fragments in the other
    blocks, `cg_frsum` counts the maximal runs of free fragments in these by
    their length, and the totals count free blocks by cylinder and by rotational
    position. Beyond the end of the group there is nothing free. -/
structure CgOk (fs : Fs) (cgp : Cg) : Prop where
  nbfree : cgp.cs.nbfree = wholes (nblk fs) fs.frag (block fs cgp.blksfree) fun _ => True
  nffree : cgp.cs.nffree = pieces (nblk fs) fs.frag (block fs cgp.blksfree) fun w => count w fs.frag
  frsum : ∀ k, 0 < k → k < fs.frag → cgp.frsum k =
    pieces (nblk fs) fs.frag (block fs cgp.blksfree) fun w => runs w fs.frag k
  blktot : ∀ c, cgp.blktot c = wholes (nblk fs) fs.frag (block fs cgp.blksfree)
    fun h => cbtocylno fs (h * fs.frag) = c
  blks : ∀ c r, cgp.blks c r = wholes (nblk fs) fs.frag (block fs cgp.blksfree)
    fun h => cbtocylno fs (h * fs.frag) = c ∧ cbtorpos fs (h * fs.frag) = r
  beyond : ∀ h, nblk fs ≤ h → ∀ i, block fs cgp.blksfree h i = false

/-- The counters of all groups are right, and so are `fs_cs` and `fs_cstotal`. -/
structure Consistent (fs : Fs) (s : State) : Prop where
  ok : ∀ g < fs.ncg, CgOk fs (s.cgs g)
  cgx : ∀ g < fs.ncg, (s.cgs g).cgx = g
  cs : ∀ g < fs.ncg, s.cs g = (s.cgs g).cs
  nbfree : s.cstotal.nbfree = ∑ g ∈ range fs.ncg, (s.cs g).nbfree
  nffree : s.cstotal.nffree = ∑ g ∈ range fs.ncg, (s.cs g).nffree

/-- The counters of a group are moved, those of free blocks at the place of a
    block. -/
structure Moved (fs : Fs) (h : Nat) (nb nf : Int) (fr : Nat → Int) (cgp cgp' : Cg) : Prop where
  cgx : cgp'.cgx = cgp.cgx
  cs : cgp'.cs = ⟨cgp.cs.nbfree + nb, cgp.cs.nffree + nf⟩
  frsum : ∀ l, 0 < l → l < fs.frag → cgp'.frsum l = cgp.frsum l + fr l
  blktot : ∀ c, cgp'.blktot c = cgp.blktot c + if cbtocylno fs (h * fs.frag) = c then nb else 0
  blks : ∀ c r, cgp'.blks c r = cgp.blks c r +
    if cbtocylno fs (h * fs.frag) = c ∧ cbtorpos fs (h * fs.frag) = r then nb else 0

section
variable {fs : Fs} {cgp cgp' : Cg} {h i k : Nat} {w' : Nat → Bool} {nb nf : Int} {fr : Nat → Int}

/-- One block of a group changes. -/
theorem CgOk.change (hok : CgOk fs cgp) (hh : h < nblk fs)
    (hd : Delta fs.frag (block fs cgp.blksfree h) w' nb nf fr)
    (hbits : block fs cgp'.blksfree = update (block fs cgp.blksfree) h w')
    (hm : Moved fs h nb nf fr cgp cgp') : CgOk fs cgp' := by
  have hwhole : whole fs.frag w' - whole fs.frag (block fs cgp.blksfree h) = nb := by
    rw [hd.full, add_sub_cancel_left]
  constructor
  · rw [hm.cs, hbits, wholes_update _ hh, if_pos trivial, hwhole, hok.nbfree]
  · rw [hm.cs, hbits, pieces_update (fun w hw => count_eq_zero hw) hh, hd.bits, hok.nffree]
    dsimp only
    omega
  · intro k hk hlt
    rw [hm.frsum k hk hlt, hbits, pieces_update (fun w hw => runs_eq_zero hw) hh,
      hd.runs k hk hlt, hok.frsum k hk hlt]
    omega
  · intro c
    rw [hm.blktot, hbits, wholes_update _ hh, hwhole, hok.blktot]
  · intro c r
    rw [hm.blks, hbits, wholes_update _ hh, hwhole, hok.blks]
  · intro b hb i
    rw [hbits, update_of_ne (by omega)]
    exact hok.beyond b hb i

/-- A run of free fragments is within the group. -/
theorem CgOk.lt_nblk (hok : CgOk fs cgp) (hr : IsRun (block fs cgp.blksfree h) fs.frag i k) :
    h < nblk fs := by
  by_contra hno
  have hm := hr.mem 0 hr.pos
  rw [hok.beyond h (not_lt.mp hno)] at hm
  cases hm

end

variable {fs : Fs} {s s' : State} {g : Nat}

/-- One group changes. -/
theorem Consistent.set (h : Consistent fs s) (hg : g < fs.ncg) (cgp : Cg) (hok : CgOk fs cgp)
    (hcgx : cgp.cgx = g) (hcgs : s'.cgs = update s.cgs g cgp) (hcs : s'.cs = update s.cs g cgp.cs)
    (hnb : s'.cstotal.nbfree = s.cstotal.nbfree + (cgp.cs.nbfree - (s.cgs g).cs.nbfree))
    (hnf : s'.cstotal.nffree = s.cstotal.nffree + (cgp.cs.nffree - (s.cgs g).cs.nffree)) :
    Consistent fs s' := by
  have hrest : ∀ F : Csum → Int, ∑ x ∈ range fs.ncg, F (s'.cs x) =
      ∑ x ∈ range fs.ncg, F (s.cs x) + (F cgp.cs - F (s.cgs g).cs) := by
    intro F
    have hmem := mem_range.mpr hg
    have hsame : ∑ x ∈ (range fs.ncg).erase g, F (s'.cs x) =
        ∑ x ∈ (range fs.ncg).erase g, F (s.cs x) := by
      refine sum_congr rfl fun x hx => ?_
      rw [hcs, update_of_ne (mem_erase.mp hx).1]
    rw [← add_sum_erase _ _ hmem, ← add_sum_erase _ (fun x => F (s.cs x)) hmem, hsame,
      hcs, update_self, h.cs g hg]
    omega
  have hgroup : ∀ x < fs.ncg,
      CgOk fs (s'.cgs x) ∧ (s'.cgs x).cgx = x ∧ s'.cs x = (s'.cgs x).cs := by
    intro x hx
    rw [hcgs, hcs]
    by_cases hxg : x = g
    · rw [hxg, update_self, update_self]
      exact ⟨hok, hcgx, rfl⟩
    · rw [update_of_ne hxg, update_of_ne hxg]
      exact ⟨h.ok x hx, h.cgx x hx, h.cs x hx⟩
  refine ⟨fun x hx => (hgroup x hx).1, fun x hx => (hgroup x hx).2.1,
    fun x hx => (hgroup x hx).2.2, ?_, ?_⟩
  · rw [hnb, hrest Csum.nbfree, h.nbfree]
  · rw [hnf, hrest Csum.nffree, h.nffree]

end Sol7.Alloc
