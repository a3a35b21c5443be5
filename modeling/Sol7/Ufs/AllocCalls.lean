import Sol7.Ufs.AllocCount

/-!
# What the Calls Do

Each call takes fragments that are free, or puts back fragments that are not, and
keeps the counters right. That a call takes only what is free is said of
fragments, numbered as in the file system.

## Main definitions

* `State.Free`: A fragment is free.
* `Took`, `Gave`: Some fragments are taken, or put back.

## Theorems

* `alloccgblk_spec`: `alloccgblk` takes a free block, if it takes any.
* `alloccg_spec`, `fragextend_spec`, `free_spec`: The calls.
-/

namespace Sol7.Alloc

open Option List Function Nat

open State (addNffree setCg addNbfree)
open Runs

/-! ### Sizes and addresses -/

section
variable (fs : Fs)

theorem numfrags_eq (size : Nat) : numfrags fs size = size / 2 ^ fs.fshift :=
  shiftRight_eq_div_pow _ _

theorem bsize_eq : bsize fs = fs.frag * 2 ^ fs.fshift := shiftLeft_eq _ _

/-- The size of a number of fragments. -/
theorem size_eq {size : Nat} (h : fragoff fs size = 0) :
    size = numfrags fs size * 2 ^ fs.fshift := by
  unfold fragoff at h
  rw [one_shiftLeft] at h
  rw [numfrags_eq, Nat.div_mul_cancel (Nat.dvd_of_mod_eq_zero h)]

theorem numfrags_bounds {size : Nat} (hoff : fragoff fs size = 0) (hpos : 0 < size)
    (hle : size ≤ bsize fs) : 0 < numfrags fs size ∧ numfrags fs size ≤ fs.frag ∧
      (size = bsize fs ↔ numfrags fs size = fs.frag) := by
  have hp : 0 < 2 ^ fs.fshift := Nat.two_pow_pos _
  have hs := size_eq fs hoff
  have hb := bsize_eq fs
  refine ⟨?_, ?_, ?_⟩
  · by_contra hno
    rw [Nat.eq_zero_of_not_pos hno] at hs
    omega
  · rw [hs, hb] at hle
    exact le_of_mul_le_mul_right hle hp
  · constructor
    · intro heq
      rw [hb, hs] at heq
      exact eq_of_mul_eq_mul_right hp heq
    · intro heq
      rw [hs, heq, hb]

theorem fragstoblks_eq (n : Nat) : fragstoblks fs n = n / fs.frag := by
  rw [fs.frag_shift]
  exact shiftRight_eq_div_pow _ _

theorem blkstofrags_eq (n : Nat) : blkstofrags fs n = n * fs.frag := by
  rw [fs.frag_shift]
  exact Nat.shiftLeft_eq _ _

theorem nblk_mul : nblk fs * fs.frag = fs.fpg := Nat.div_mul_cancel fs.frag_dvd

/-- The place of an address in its block does not depend on the group. -/
theorem fragnum_dtogd (bno : Nat) : fragnum fs bno = dtogd fs bno % fs.frag :=
  (mod_mod_of_dvd bno fs.frag_dvd).symm

/-- The block before an address of the group is one of the group. -/
theorem blknum_dtogd (bpref : Nat) :
    dtogd fs (blknum fs bpref) = dtogd fs (blknum fs bpref) / fs.frag * fs.frag := by
  have hdvd : fs.frag ∣ dtogd fs (blknum fs bpref) := by
    exact (Nat.dvd_mod_iff fs.frag_dvd).mpr (Nat.dvd_sub_mod bpref)
  exact (Nat.div_mul_cancel hdvd).symm

variable {fs}

/-- A part of a block of the group is a part of the group. -/
theorem end_le_fpg {h i f : Nat} (hh : h < nblk fs) (hle : i + f ≤ fs.frag) :
    h * fs.frag + i + f ≤ fs.fpg := by
  have hmul : (h + 1) * fs.frag ≤ nblk fs * fs.frag := mul_le_mul_right _ hh
  rw [add_mul, nblk_mul] at hmul
  omega

end

/-! ### Fragments -/

/-- A fragment of the file system is free. -/
def State.Free (fs : Fs) (s : State) (f : Nat) : Prop :=
  isset (s.cgs (dtog fs f)).blksfree (dtogd fs f) = true

/-- Fragments that were free are taken, and nothing else changes. -/
structure Took (fs : Fs) (s s' : State) (lo n : Nat) : Prop where
  was : ∀ f, lo ≤ f → f < lo + n → s.Free fs f
  now : ∀ f, s'.Free fs f ↔ s.Free fs f ∧ ¬(lo ≤ f ∧ f < lo + n)

/-- Fragments are put back, and nothing else changes. -/
def Gave (fs : Fs) (s s' : State) (lo n : Nat) : Prop :=
  ∀ f, s'.Free fs f ↔ s.Free fs f ∨ (lo ≤ f ∧ f < lo + n)

variable {fs : Fs} {s s' : State} {g : Nat} {cgp : Cg}

section
variable {a n f h i k j : Nat}

/-- A fragment of a range within a group. -/
theorem mem_group (hle : a + n ≤ fs.fpg) : (g * fs.fpg + a ≤ f ∧ f < g * fs.fpg + a + n) ↔
      dtog fs f = g ∧ a ≤ dtogd fs f ∧ dtogd fs f < a + n := by
  unfold dtog dtogd
  have hf := div_add_mod' f fs.fpg
  constructor
  · rintro ⟨h1, h2⟩
    have hpos : 0 < fs.fpg := by omega
    have hg : f / fs.fpg = g := by
      rw [Nat.div_eq_iff hpos]
      omega
    rw [hg] at hf
    exact ⟨hg, by omega, by omega⟩
  · rintro ⟨hg, h1, h2⟩
    rw [hg] at hf
    omega

section
variable (hcgs : s'.cgs = update s.cgs g cgp)
include hcgs

/-- Some bits of a group change. -/
theorem free_put {v : Bool} (hle : a + n ≤ fs.fpg)
    (hbits : ∀ j, isset cgp.blksfree j = put (isset (s.cgs g).blksfree) v a n j) (f : Nat) :
    s'.Free fs f ↔ if g * fs.fpg + a ≤ f ∧ f < g * fs.fpg + a + n then v = true else s.Free fs f := by
  simp only [mem_group hle]
  unfold State.Free
  rw [hcgs]
  by_cases hg : dtog fs f = g
  · rw [hg, update_self, hbits]
    by_cases hin : a ≤ dtogd fs f ∧ dtogd fs f < a + n
    · rw [put_inside hin, if_pos ⟨rfl, hin⟩]
    · rw [put_outside hin, if_neg fun h => hin h.2]
  · rw [update_of_ne hg, if_neg fun h => hg h.1]

theorem took_of_cut (hle : a + n ≤ fs.fpg)
    (hwas : ∀ j, a ≤ j → j < a + n → isset (s.cgs g).blksfree j = true)
    (hbits : ∀ j, isset cgp.blksfree j = cut (isset (s.cgs g).blksfree) a n j) :
    Took fs s s' (g * fs.fpg + a) n := by
  constructor
  · intro f h1 h2
    obtain ⟨hg, h3, h4⟩ := (mem_group hle).mp ⟨h1, h2⟩
    unfold State.Free
    rw [hg]
    exact hwas _ h3 h4
  · intro f
    rw [free_put hcgs hle hbits]
    split <;> simp [*]

theorem gave_of_fill (hle : a + n ≤ fs.fpg)
    (hbits : ∀ j, isset cgp.blksfree j = fill (isset (s.cgs g).blksfree) a n j) :
    Gave fs s s' (g * fs.fpg + a) n := by
  intro f
  rw [free_put hcgs hle hbits]
  split <;> simp [*]

end

/-- A run of a block, as bits of the map. -/
theorem isset_of_run {map : Nat → BitVec 8} (hr : IsRun (block fs map h) fs.frag i k) (hf : f ≤ k)
    (h1 : h * fs.frag + i ≤ j) (h2 : j < h * fs.frag + i + f) : isset map j = true := by
  have hle := hr.le
  have hm := hr.mem (j - (h * fs.frag + i)) (by omega)
  rw [block_of_lt (by omega)] at hm
  rwa [show h * fs.frag + (i + (j - (h * fs.frag + i))) = j by omega] at hm

end

/-! ### Counters -/

theorem addNbfree_blktot (bno : Nat) (i : Int) (c : Nat) : (cgp.addNbfree fs bno i).blktot c =
    cgp.blktot c + if cbtocylno fs bno = c then i else 0 := by
  by_cases hc : cbtocylno fs bno = c
  · rw [if_pos hc, ← hc]
    exact update_self ..
  · rw [if_neg hc, add_zero]
    exact update_of_ne (fun h => hc h.symm) ..

theorem addNbfree_blks (bno : Nat) (i : Int) (c r : Nat) : (cgp.addNbfree fs bno i).blks c r =
    cgp.blks c r + if cbtocylno fs bno = c ∧ cbtorpos fs bno = r then i else 0 := by
  unfold Cg.addNbfree
  dsimp only
  by_cases hc : cbtocylno fs bno = c
  · rw [hc, update_self]
    by_cases hr : cbtorpos fs bno = r
    · rw [hr, update_self, if_pos ⟨rfl, rfl⟩]
    · rw [update_of_ne (fun h => hr h.symm), if_neg (fun h => hr h.2), add_zero]
  · rw [update_of_ne (fun h => hc h.symm), if_neg (fun h => hc h.1), add_zero]

theorem addFrsum_frsum (k : Nat) (i : Int) (l : Nat) :
    (cgp.addFrsum k i).frsum l = cgp.frsum l + if l = k then i else 0 := by
  unfold Cg.addFrsum
  dsimp only
  by_cases hl : l = k
  · rw [hl, update_self, if_pos rfl]
  · rw [update_of_ne hl, if_neg hl, add_zero]

/-- A fragment of one size is replaced by one of a smaller size, or by none. -/
theorem frsum_cut (cgp : Cg) {k f l : Nat} (hl : 0 < l) :
    (if f ≠ k then (cgp.addFrsum k (-1)).addFrsum (k - f) 1 else cgp.addFrsum k (-1)).frsum l =
      cgp.frsum l + ((if l = k - f then 1 else 0) - if l = k then 1 else 0) := by
  by_cases hne : f ≠ k
  · rw [if_pos hne, addFrsum_frsum, addFrsum_frsum]
    split_ifs <;> omega
  · rw [if_neg hne, addFrsum_frsum]
    split_ifs <;> omega

/-! ### Changes of a state -/

section
variable {h i k f lo n : Nat} {nb nf : Int} {fr : Nat → Int}

section
variable (hc : Consistent fs s) (hg : g < fs.ncg)
include hc hg

/-- Some bits of one block change, and the counters with them. -/
theorem Consistent.put {v : Bool} (hh : h < nblk fs)
    (hle : i + f ≤ fs.frag) (hd : Delta fs.frag (block fs (s.cgs g).blksfree h)
      (Runs.put (block fs (s.cgs g).blksfree h) v i f) nb nf fr)
    (hbits : ∀ j, isset cgp.blksfree j =
      Runs.put (isset (s.cgs g).blksfree) v (h * fs.frag + i) f j)
    (hm : Moved fs h nb nf fr (s.cgs g) cgp) (hcgs : s'.cgs = update s.cgs g cgp)
    (hcs : s'.cs = update s.cs g cgp.cs)
    (htotal : s'.cstotal = ⟨s.cstotal.nbfree + nb, s.cstotal.nffree + nf⟩) : Consistent fs s' := by
  have hok := (hc.ok g hg).change hh hd (block_of_put hle hbits) hm
  refine hc.set hg cgp hok (hm.cgx.trans (hc.cgx g hg)) hcgs hcs ?_ ?_
  all_goals rw [htotal, hm.cs, add_sub_cancel_left]

/-- The start of a free fragment is taken. -/
theorem Consistent.cut (hr : IsRun (block fs (s.cgs g).blksfree h) fs.frag i k) (hk : k < fs.frag)
    (hf : 0 < f) (hfk : f ≤ k) (cgp : Cg)
    (hbits : ∀ j, isset cgp.blksfree j = Runs.cut (isset (s.cgs g).blksfree) (h * fs.frag + i) f j)
    (hm : Moved fs h 0 (-f) (fun l => (if l = k - f then 1 else 0) - if l = k then 1 else 0)
      (s.cgs g) cgp) (hs' : s' = (s.setCg g cgp).addNffree g (-f)) :
    Consistent fs s' ∧ Took fs s s' (g * fs.fpg + (h * fs.frag + i)) f := by
  have hle := hr.le
  have hh := (hc.ok g hg).lt_nblk hr
  have hcgs : s'.cgs = update s.cgs g cgp := by rw [hs']; rfl
  refine ⟨hc.put hg hh (by omega) (delta_cut hr hk hf hfk) hbits hm hcgs ?_ ?_,
    took_of_cut hcgs (end_le_fpg hh (by omega)) (fun j h1 h2 => isset_of_run hr hfk h1 h2) hbits⟩
  · rw [hs', hm.cs, add_zero, ← hc.cs g hg]
    rfl
  · rw [hs', add_zero]
    rfl

/-- A free block is taken, all of it or its start. -/
theorem Consistent.hack (hfull : Full (block fs (s.cgs g).blksfree h) fs.frag) (hf : 0 < f)
    (hfn : f ≤ fs.frag) (hcgs : s'.cgs = update s.cgs g cgp)
    (hbits : ∀ j, isset cgp.blksfree j = Runs.cut (isset (s.cgs g).blksfree) (h * fs.frag + 0) f j)
    (hm : Moved fs h (-1) (fs.frag - f : Nat) (fun l => if l = fs.frag - f then 1 else 0)
      (s.cgs g) cgp) (hcs : s'.cs = update s.cs g cgp.cs)
    (htotal : s'.cstotal = ⟨s.cstotal.nbfree + -1, s.cstotal.nffree + (fs.frag - f : Nat)⟩) :
    Consistent fs s' ∧ Took fs s s' (g * fs.fpg + h * fs.frag) f := by
  have hr := hfull.isRun fs.frag_pos
  have hh := (hc.ok g hg).lt_nblk hr
  exact ⟨hc.put hg hh (by omega) (delta_hack hfull hf hfn) hbits hm hcgs hcs htotal,
    took_of_cut hcgs (end_le_fpg (i := 0) hh (by omega))
      (fun j h1 h2 => isset_of_run hr hfn h1 h2) hbits⟩

/-- Fragments are put back. -/
theorem Consistent.fill (hh : h < nblk fs) (hf : 0 < f) (hle : i + f ≤ fs.frag)
    (hclear : ∀ j, i ≤ j → j < i + f → block fs (s.cgs g).blksfree h j = false)
    (hcgs : s'.cgs = update s.cgs g cgp) (hbits : ∀ j, isset cgp.blksfree j =
      Runs.fill (isset (s.cgs g).blksfree) (h * fs.frag + i) f j)
    (hnb : nb = whole fs.frag (Runs.fill (block fs (s.cgs g).blksfree h) i f))
    (hnf : nf = f - nb * fs.frag) (hm : Moved fs h nb nf (fun l =>
      runs (Runs.fill (block fs (s.cgs g).blksfree h) i f) fs.frag l -
        runs (block fs (s.cgs g).blksfree h) fs.frag l) (s.cgs g) cgp)
    (hcs : s'.cs = update s.cs g cgp.cs)
    (htotal : s'.cstotal = ⟨s.cstotal.nbfree + nb, s.cstotal.nffree + nf⟩) :
    Consistent fs s' ∧ Gave fs s s' (g * fs.fpg + (h * fs.frag + i)) f := by
  have hd := delta_fill hf hle hclear
  rw [← hnb, ← hnf] at hd
  exact ⟨hc.put hg hh hle hd hbits hm hcgs hcs htotal, gave_of_fill hcgs (end_le_fpg hh hle) hbits⟩

end

/-- Only the rotors of a group have changed. -/
def Turned (s : State) (g : Nat) (s' : State) : Prop :=
  ∃ rotor frotor, s' = s.setCg g { s.cgs g with rotor := rotor, frotor := frotor }

theorem Turned.refl (s : State) (g : Nat) : Turned s g s := by
  refine ⟨(s.cgs g).rotor, (s.cgs g).frotor, ?_⟩
  unfold setCg
  rw [update_eq_self]

theorem Turned.consistent (ht : Turned s g s') (hc : Consistent fs s) (hg : g < fs.ncg) :
    Consistent fs s' := by
  obtain ⟨rotor, frotor, rfl⟩ := ht
  have hok := hc.ok g hg
  refine hc.set hg { s.cgs g with rotor := rotor, frotor := frotor }
    { hok with } (hc.cgx g hg) rfl ?_ ?_ ?_
  · rw [← hc.cs g hg, update_eq_self]
    rfl
  · dsimp only [setCg]
    omega
  · dsimp only [setCg]
    omega

theorem Turned.free_iff (ht : Turned s g s') (f : Nat) : s'.Free fs f ↔ s.Free fs f := by
  obtain ⟨rotor, frotor, rfl⟩ := ht
  unfold State.Free setCg
  dsimp only
  by_cases hg : dtog fs f = g
  · rw [hg, update_self]
  · rw [update_of_ne hg]

theorem Took.turned {s1 s2 s3 : State} (ht : Turned s1 g s2) (h : Took fs s2 s3 lo n) :
    Took fs s1 s3 lo n :=
  ⟨fun f h1 h2 => ht.free_iff f |>.mp (h.was f h1 h2), fun f => by rw [h.now, ht.free_iff]⟩

theorem Turned.took (ht : Turned s g s') (lo : Nat) : Took fs s s' lo 0 :=
  ⟨fun f h1 h2 => by omega, fun f => by
    rw [ht.free_iff]
    exact ⟨fun h => ⟨h, by omega⟩, fun h => h.1⟩⟩

end

/-! ### Allocating a block -/

section
variable {s0 : State} {h : Nat}

/-- A block is taken, or none. -/
def TakesBlk (fs : Fs) (s : State) (g : Nat) (r : Option (State × Nat)) : Prop :=
  ∃ s0, Turned s g s0 ∧ (r = some (s0, 0) ∨
    ∃ h, Full (block fs (s.cgs g).blksfree h) fs.frag ∧ r = some (takeBlk fs s0 g (h * fs.frag)))

theorem norot_spec (cancel : Nat → Bool) (bpref : Nat) :
    TakesBlk fs s g (norot fs cancel s g bpref) := by
  obtain ⟨⟨frotor, hcg⟩, hfound⟩ := mapsearch_spec fs.frag_pos le_rfl cancel (s.cgs g) bpref
  unfold norot
  dsimp only
  cases hr : (mapsearch fs cancel (s.cgs g) bpref fs.frag).2 with
  | none =>
    refine ⟨_, ⟨(s.cgs g).rotor, frotor, ?_⟩, .inl rfl⟩
    rw [hcg]
  | some bno =>
    obtain ⟨hcancel, h, i, hbno, hrun⟩ := hfound bno hr
    have hi : i = 0 := by
      have := hrun.le
      omega
    rw [hi, add_zero] at hbno
    -- `mapsearch` has looked already, so this goes round only once.
    have hcancel' : ¬cancel ((mapsearch fs cancel (s.cgs g) bpref fs.frag).1.cgx * fs.fpg + bno) =
        true := by
      rw [hcg]
      rw [hcancel]
      exact Bool.false_ne_true
    dsimp only
    rw [if_neg hcancel', hcg]
    exact ⟨_, ⟨bno, frotor, rfl⟩, .inr ⟨h, hrun.full_iff.mpr rfl, by rw [← hbno]⟩⟩

theorem gotit_spec (cancel : Nat → Bool) (bpref : Nat)
    (hfull : Full (block fs (s.cgs g).blksfree h) fs.frag) :
    TakesBlk fs s g (gotit fs cancel s g (h * fs.frag) bpref) := by
  unfold gotit
  split
  · exact norot_spec cancel bpref
  · exact ⟨s, .refl s g, .inr ⟨h, hfull, rfl⟩⟩

variable {map : Nat → BitVec 8}

theorem rotblk_spec {bno : Nat} : ∀ (fuel i b : Nat),
    rotblk fs map bno fuel i = some b → ∃ h, Full (block fs map h) fs.frag ∧ b = h * fs.frag := by
  intro fuel
  induction fuel with
  | zero =>
    intro i b hb
    cases hb
  | succ fuel ih =>
    intro i b hb
    rw [rotblk] at hb
    split at hb
    · next hblock =>
      cases hb
      exact ⟨bno + i, (isblock_iff _).mp hblock, blkstofrags_eq fs _⟩
    · split at hb
      · cases hb
      · exact ih _ _ hb

/-- `alloccgblk` takes a free block, if it takes any. -/
theorem alloccgblk_spec (cancel : Nat → Bool) (bpref : Nat) :
    TakesBlk fs s g (alloccgblk fs cancel s g bpref) := by
  have hnone : TakesBlk fs s g (some (s, 0)) := ⟨s, .refl s g, .inl rfl⟩
  unfold alloccgblk
  dsimp only
  split
  · exact norot_spec cancel _
  split
  · next hblock =>
    -- The requested block is available.
    have hfull := (isblock_iff _).mp hblock
    rw [fragstoblks_eq] at hfull
    have hspec := gotit_spec cancel (dtogd fs (blknum fs bpref)) hfull
    rwa [← blknum_dtogd] at hspec
  · split
    · exact norot_spec cancel _
    · split
      · exact norot_spec cancel _
      · split
        · split
          · exact hnone
          · split
            · next hrot =>
              obtain ⟨h, hfull, rfl⟩ := rotblk_spec _ _ _ hrot
              exact gotit_spec cancel _ hfull
            · exact hnone
        · exact norot_spec cancel _

theorem Turned.blksfree (ht : Turned s g s0) : (s0.cgs g).blksfree = (s.cgs g).blksfree := by
  obtain ⟨rotor, frotor, rfl⟩ := ht
  unfold setCg
  dsimp only
  rw [update_self]

variable (hc : Consistent fs s) (hg : g < fs.ncg)
include hc hg

theorem takeBlk_eq (h : Nat) : takeBlk fs s g (h * fs.frag) = ((s.setCg g (({ s.cgs g with
        blksfree := clrblock fs (s.cgs g).blksfree h } : Cg).addNbfree fs (h * fs.frag)
          (-1))).addNbfree g (-1), g * fs.fpg + h * fs.frag) := by
  have hblk : fragstoblks fs (h * fs.frag) = h := by
    rw [fragstoblks_eq, Nat.mul_div_cancel h fs.frag_pos]
  unfold takeBlk
  dsimp only
  rw [hc.cgx g hg, hblk]

/-- A block is taken, all of it. -/
theorem takeBlk_spec (hfull : Full (block fs (s.cgs g).blksfree h) fs.frag) :
    Consistent fs (takeBlk fs s g (h * fs.frag)).1 ∧
    Took fs s (takeBlk fs s g (h * fs.frag)).1 (g * fs.fpg + h * fs.frag) fs.frag := by
  rw [takeBlk_eq hc hg]
  refine hc.hack hg hfull fs.frag_pos le_rfl rfl (isset_clrblock h)
    ⟨rfl, ?_, fun l hl _ => ?_, fun c => addNbfree_blktot .., fun c r => addNbfree_blks ..⟩ ?_ ?_
  · rw [Nat.sub_self, Nat.cast_zero, add_zero]
    rfl
  · rw [if_neg (by omega), add_zero]
    rfl
  · dsimp only [addNbfree, setCg, Cg.addNbfree]
    rw [hc.cs g hg]
  · rw [Nat.sub_self, Nat.cast_zero, add_zero]
    rfl

/-- The rest of a block that was taken is put back. -/
def putBack (fs : Fs) (s : State) (g h frags : Nat) : State :=
  let cgp := s.cgs g
  let cgp := { cgp with blksfree := setbits cgp.blksfree (h * fs.frag + frags) (fs.frag - frags) }
  let i := fs.frag - frags
  (s.setCg g ((cgp.addNffree i).addFrsum i 1)).addNffree g i

/-- A block is taken, and only its start is kept. -/
theorem putBack_spec (hfull : Full (block fs (s.cgs g).blksfree h) fs.frag) {frags : Nat}
    (hf : 0 < frags) (hfn : frags ≤ fs.frag) :
    Consistent fs (putBack fs (takeBlk fs s g (h * fs.frag)).1 g h frags) ∧
    Took fs s (putBack fs (takeBlk fs s g (h * fs.frag)).1 g h frags)
      (g * fs.fpg + h * fs.frag) frags := by
  rw [takeBlk_eq hc hg]
  unfold putBack
  dsimp only [addNbfree, setCg]
  rw [update_self, update_idem]
  refine hc.hack hg hfull hf hfn rfl (fun j => ?_) ⟨rfl, rfl, fun l _ _ => addFrsum_frsum ..,
    fun c => addNbfree_blktot .., fun c r => addNbfree_blks ..⟩ ?_ rfl
  · refine (isset_setbits _ _ j).trans ?_
    by_cases hrest : h * fs.frag + frags ≤ j ∧ j < h * fs.frag + frags + (fs.frag - frags)
    · rw [fill_inside hrest, cut_outside (by omega)]
      have hb := hfull (j - h * fs.frag) (by omega)
      rw [block_of_lt (by omega), Nat.add_sub_cancel' (by omega)] at hb
      exact hb.symm
    · rw [fill_outside hrest]
      refine (isset_clrblock h j).trans ?_
      by_cases hkept : h * fs.frag + 0 ≤ j ∧ j < h * fs.frag + 0 + frags
      · rw [cut_inside hkept, cut_inside (by omega)]
      · rw [cut_outside hkept, cut_outside (by omega)]
  · dsimp only [addNffree, Cg.addFrsum, Cg.addNffree, Cg.addNbfree]
    rw [update_self, update_idem, hc.cs g hg]

end

/-! ### The calls -/

/-- What a call that allocates does: it takes what it says, and keeps the counters
    right. If it returns 0, nothing has been handed out. -/
def Allocates (fs : Fs) (s : State) (frags : Nat) (r : State × Nat) : Prop :=
  Consistent fs r.1 ∧ ∃ lo n, Took fs s r.1 lo n ∧ (r.2 ≠ 0 → lo = r.2 ∧ n = frags)

theorem Turned.allocates (ht : Turned s g s') (hc : Consistent fs s) (hg : g < fs.ncg)
    (frags : Nat) : Allocates fs s frags (s', 0) :=
  ⟨ht.consistent hc hg, 0, 0, ht.took 0, absurd rfl⟩

variable {frags size frag bprev osize nsize l bno : Nat}

theorem Allocates.turned {r : State × Nat} (ht : Turned s g s') (h : Allocates fs s' frags r) :
    Allocates fs s frags r := by
  obtain ⟨hc, lo, n, htook, hret⟩ := h
  exact ⟨hc, lo, n, htook.turned ht, hret⟩

/-- A block is allocated. -/
theorem alloccgblk_ok (hc : Consistent fs s) (hg : g < fs.ncg) (cancel : Nat → Bool)
    (bpref : Nat) : ∃ r, alloccgblk fs cancel s g bpref = some r ∧ Allocates fs s fs.frag r := by
  have htakes : TakesBlk fs s g (alloccgblk fs cancel s g bpref) := alloccgblk_spec cancel bpref
  obtain ⟨s0, ht, hr | ⟨h, hfull, hr⟩⟩ := htakes
  · exact ⟨_, hr, ht.allocates hc hg _⟩
  refine ⟨_, hr, ?_⟩
  rw [← ht.blksfree] at hfull
  have hc0 := ht.consistent hc hg
  obtain ⟨hc', htook⟩ := takeBlk_spec hc0 hg hfull
  refine .turned ht ⟨hc', _, _, htook, fun _ => ⟨?_, rfl⟩⟩
  rw [takeBlk_eq hc0 hg]

/-- A block is allocated and hacked up. -/
theorem hackup_ok (hc : Consistent fs s) (hg : g < fs.ncg) (cancel : Nat → Bool) (bpref : Nat)
    (hf : 0 < frags) (hfn : frags ≤ fs.frag) :
    ∃ r, hackup fs cancel s g bpref frags = some r ∧ Allocates fs s frags r := by
  unfold hackup
  by_cases hnone : (s.cgs g).cs.nbfree = 0
  · rw [if_pos hnone]
    exact ⟨_, rfl, (Turned.refl s g).allocates hc hg _⟩
  rw [if_neg hnone]
  have htakes : TakesBlk fs s g (alloccgblk fs cancel s g bpref) := alloccgblk_spec cancel bpref
  obtain ⟨s0, ht, hr | ⟨h, hfull, hr⟩⟩ := htakes
  · rw [hr, map_some]
    exact ⟨_, rfl, ht.allocates hc hg _⟩
  rw [hr, map_some]
  refine ⟨_, rfl, ?_⟩
  rw [← ht.blksfree] at hfull
  have hc0 := ht.consistent hc hg
  have hret : (takeBlk fs s0 g (h * fs.frag)).2 = g * fs.fpg + h * fs.frag := by
    rw [takeBlk_eq hc0 hg]
  by_cases hzero : (takeBlk fs s0 g (h * fs.frag)).2 = 0
  · -- This is the first block of the file system, which counts as none.
    rw [if_pos hzero]
    obtain ⟨hc', htook⟩ := takeBlk_spec hc0 hg hfull
    exact .turned ht ⟨hc', _, _, htook, absurd rfl⟩
  rw [if_neg hzero]
  have hlt : h < nblk fs := (hc0.ok g hg).lt_nblk (hfull.isRun fs.frag_pos)
  have hpos : dtogd fs (g * fs.fpg + h * fs.frag) = h * fs.frag := by
    have := end_le_fpg (i := 0) (f := fs.frag) hlt (by omega)
    unfold dtogd
    rw [mul_add_mod_self_right, mod_eq_of_lt (by omega)]
  obtain ⟨hc', htook⟩ := putBack_spec hc0 hg hfull hf hfn
  rw [hret, hpos]
  exact .turned ht ⟨hc', _, _, htook, fun _ => ⟨rfl, rfl⟩⟩

theorem findsiz_bounds (frsum : Nat → Int) : ∀ (n a : Nat),
    a ≤ findsiz frsum n a ∧ findsiz frsum n a ≤ a + n := by
  intro n
  induction n with
  | zero => exact fun a => ⟨le_rfl, le_rfl⟩
  | succ n ih =>
    intro a
    rw [findsiz]
    split
    · exact ⟨le_rfl, by omega⟩
    · have := ih (a + 1)
      omega

/-- `alloccg` returns, and takes a block or fragments. -/
theorem alloccg_ok (hc : Consistent fs s) (cancel : Nat → Bool) (bpref : Nat)
    (hok : Call.Ok fs s (.alloccg cancel g bpref size)) :
    ∃ r, alloccg fs cancel s g bpref size = some r ∧ Allocates fs s (numfrags fs size) r := by
  obtain ⟨hg, hpos, hle, hoff⟩ := hok
  obtain ⟨hfpos, hfle, hwhole⟩ := numfrags_bounds fs hoff hpos hle
  have hnone : ∃ r, some (s, 0) = some r ∧ Allocates fs s (numfrags fs size) r :=
    ⟨_, rfl, (Turned.refl s g).allocates hc hg _⟩
  unfold alloccg
  split
  · exact hnone
  split
  · exact hnone
  split
  · next hsize =>
    rw [hwhole.mp hsize]
    exact alloccgblk_ok hc hg cancel bpref
  next hsize =>
  have hbounds := findsiz_bounds (s.cgs g).frsum (fs.frag - numfrags fs size) (numfrags fs size)
  dsimp only
  -- Fragments: the search is for the first size that is large enough.
  generalize numfrags fs size = frags at *
  generalize findsiz (s.cgs g).frsum (fs.frag - frags) frags = allocsiz at *
  split
  · exact hackup_ok hc hg cancel bpref hfpos hfle
  next hsmall =>
  rcases mapsearch_spec (by omega : 0 < allocsiz) (by omega : allocsiz ≤ fs.frag) cancel
    (s.cgs g) bpref with ⟨⟨frotor, hcg⟩, hfound⟩
  have ht : Turned s g (s.setCg g (mapsearch fs cancel (s.cgs g) bpref allocsiz).1) :=
    ⟨(s.cgs g).rotor, frotor, by rw [hcg]⟩
  cases hr : (mapsearch fs cancel (s.cgs g) bpref allocsiz).2 with
  | none =>
    obtain ⟨r, heq, halloc⟩ := hackup_ok (ht.consistent hc hg) hg cancel bpref hfpos hfle
    exact ⟨r, heq, halloc.turned ht⟩
  | some bno =>
    obtain ⟨-, h, i, rfl, hrun⟩ := hfound bno hr
    rw [hcg]
    refine ⟨_, rfl, And.imp_right (fun htook => ⟨_, _, htook, fun _ => ⟨rfl, rfl⟩⟩)
      (hc.cut hg hrun (by omega) hfpos hbounds.1 _ (fun j => ?_)
        ⟨?_, ?_, fun l hl _ => ?_, fun c => ?_, fun c r => ?_⟩ rfl)⟩
    · split <;> exact isset_clrbits _ _ j
    · split <;> rfl
    · rw [add_zero]
      split <;> rfl
    · rw [frsum_cut _ hl]
      rfl
    · rw [ite_self, add_zero]
      split <;> rfl
    · rw [ite_self, add_zero]
      split <;> rfl

/-- How far free fragments go. -/
theorem extent_spec (map : Nat → BitVec 8) (bno : Nat) : ∀ (n i : Nat),
    i ≤ extent map bno n i ∧ extent map bno n i ≤ i + n ∧
    (∀ j, i ≤ j → j < extent map bno n i → isset map (bno + j) = true) ∧
    (extent map bno n i = i + n ∨ isset map (bno + extent map bno n i) = false) := by
  intro n
  induction n with
  | zero =>
    intro i
    exact ⟨le_rfl, le_rfl, fun j h1 h2 => absurd h2 (not_lt.mpr h1), .inl rfl⟩
  | succ n ih =>
    intro i
    rw [extent]
    by_cases hclr : isclr map (bno + i) = true
    · rw [if_pos hclr]
      rw [isclr_eq, Bool.not_eq_true'] at hclr
      exact ⟨le_rfl, by omega, fun j h1 h2 => absurd h2 (not_lt.mpr h1), .inr hclr⟩
    rw [if_neg hclr]
    rw [isclr_eq, Bool.not_eq_true', Bool.not_eq_false] at hclr
    obtain ⟨h1, h2, h3, h4⟩ := ih (i + 1)
    refine ⟨by omega, by omega, ?_, ?_⟩
    · intro j hj1 hj2
      by_cases hj : j = i
      · rw [hj]
        exact hclr
      · exact h3 j (by omega) hj2
    · rcases h4 with h4 | h4
      · exact .inl (by omega)
      · exact .inr h4

/-- An extension that does not cross a block boundary is within the block. -/
theorem fragnum_le (hf : 0 < frags) (hle : frags ≤ frag)
    (h : ¬bprev % frag > (bprev + frags - 1) % frag) : bprev % frag + frags ≤ frag := by
  by_contra hno
  have hlt := mod_lt bprev (show 0 < frag by omega)
  have hmod : (bprev + frags - 1) % frag = bprev % frag + frags - 1 - frag := by
    have hsplit : bprev + frags - 1 =
        bprev % frag + frags - 1 - frag + frag * (bprev / frag + 1) := by
      have := mod_add_div bprev frag
      rw [mul_add]
      omega
    rw [hsplit, add_mul_mod_self_left, mod_eq_of_lt (by omega)]
  omega

/-- `fragextend` takes the fragments that follow, if all of them are free. -/
theorem fragextend_ok (hc : Consistent fs s) {cancel : Nat → Bool}
    (hok : Call.Ok fs s (.fragextend cancel g bprev osize nsize)) :
    Consistent fs (fragextend fs cancel s g bprev osize nsize).1 ∧
    ∃ lo n, Took fs s (fragextend fs cancel s g bprev osize nsize).1 lo n ∧
      ((fragextend fs cancel s g bprev osize nsize).2 ≠ 0 →
        lo = bprev + numfrags fs osize ∧ n = numfrags fs nsize - numfrags fs osize) := by
  obtain ⟨hg, hdtog, hopos, hlt, hnle, hooff, hnoff, hold⟩ := hok
  have hof := (numfrags_bounds fs hooff hopos (by omega)).1
  have hnf := numfrags_bounds fs hnoff (by omega) hnle
  have hflt : numfrags fs osize < numfrags fs nsize := by
    by_contra hno
    have h1 := size_eq fs hooff
    have h2 := size_eq fs hnoff
    have := mul_le_mul_right (2 ^ fs.fshift) (not_lt.mp hno)
    omega
  have hnone : Consistent fs s ∧ ∃ lo n, Took fs s s lo n ∧ (0 ≠ 0 →
      lo = bprev + numfrags fs osize ∧ n = numfrags fs nsize - numfrags fs osize) :=
    ⟨hc, 0, 0, (Turned.refl s g).took 0, absurd rfl⟩
  unfold fragextend
  dsimp only
  split
  · exact hnone
  split
  · exact hnone
  next hcross =>
  split
  · exact hnone
  split
  · exact hnone
  next hall =>
  -- The old fragment, and where it ends in its block.
  have hblk := fragnum_le hnf.1 hnf.2.1 hcross
  have hbase : fragnum fs bprev = dtogd fs bprev % fs.frag := fragnum_dtogd fs bprev
  have hbno : dtogd fs bprev = dtogd fs bprev / fs.frag * fs.frag + fragnum fs bprev := by
    rw [hbase, div_add_mod']
  change fragnum fs bprev + numfrags fs nsize ≤ fs.frag at hblk
  have hprev : bprev = g * fs.fpg + dtogd fs bprev := by
    have := div_add_mod' bprev fs.fpg
    unfold dtog at hdtog
    rw [hdtog] at this
    exact this.symm
  generalize numfrags fs osize = ofrags at *
  generalize numfrags fs nsize = frags at *
  generalize fragnum fs bprev = bbase at *
  generalize dtogd fs bprev / fs.frag = h at *
  generalize dtogd fs bprev = bno at *
  -- The first loop has met free fragments only. The second one counts on.
  obtain ⟨-, -, hfree, -⟩ := extent_spec (s.cgs g).blksfree bno (frags - ofrags) ofrags
  obtain ⟨hge, hle, hmore, hend⟩ :=
      extent_spec (s.cgs g).blksfree bno (fs.frag - bbase - frags) frags
  generalize hlast : extent (s.cgs g).blksfree bno (fs.frag - bbase - frags) frags = last at *
  -- The run that begins where the old fragment ends.
  have hrun : IsRun (block fs (s.cgs g).blksfree h) fs.frag (bbase + ofrags) (last - ofrags) := by
    refine ⟨by omega, by omega, ?_, .inr ?_, ?_⟩
    · intro j hj
      rw [block_of_lt (by omega), show h * fs.frag + (bbase + ofrags + j) = bno + (ofrags + j) by omega]
      by_cases hsecond : ofrags + j < frags
      · exact hfree _ (by omega) (by omega)
      · exact hmore _ (by omega) (by omega)
    · have hlastold := hold (ofrags - 1) (by omega)
      rw [isclr_eq, Bool.not_eq_true'] at hlastold
      rw [block_of_lt (by omega),
        show h * fs.frag + (bbase + ofrags - 1) = bno + (ofrags - 1) by omega]
      exact hlastold
    · rcases hend with hend | hend
      · exact .inl (by omega)
      · by_cases hn : bbase + ofrags + (last - ofrags) = fs.frag
        · exact .inl hn
        · refine .inr ?_
          rw [block_of_lt (by omega),
            show h * fs.frag + (bbase + ofrags + (last - ofrags)) = bno + last by omega]
          exact hend
  have hleft : last - ofrags - (frags - ofrags) = last - frags := by omega
  have hiff : frags - ofrags ≠ last - ofrags ↔ last ≠ frags := by omega
  refine And.imp_right (fun htook => ⟨_, _, htook, fun _ => ⟨?_, rfl⟩⟩)
    (hc.cut hg hrun (by omega) (f := frags - ofrags) (by omega) (by omega) _ (fun j => ?_)
      ⟨?_, ?_, fun l hl _ => ?_, fun c => ?_, fun c r => ?_⟩ rfl)
  · omega
  · rw [show h * fs.frag + (bbase + ofrags) = bno + ofrags by omega]
    split <;> exact isset_clrbits _ _ j
  · split <;> rfl
  · rw [add_zero]
    split <;> rfl
  · have hfr := frsum_cut (s.cgs g) (k := last - ofrags) (f := frags - ofrags) hl
    simp only [hiff, hleft] at hfr ⊢
    exact hfr
  · rw [ite_self, add_zero]
    split <;> rfl
  · rw [ite_self, add_zero]
    split <;> rfl

/-- Counting the fragments of a block before and after a change. -/
theorem fragacct_twice (map map' : Nat → BitVec 8) (h : Nat) (frsum : Nat → Int) (hl : 0 < l)
    (hlt : l < fs.frag) : fragacct fs (blkmap fs map' (h * fs.frag))
        (fragacct fs (blkmap fs map (h * fs.frag)) frsum (-1)) 1 l =
      frsum l + (runs (block fs map' h) fs.frag l - runs (block fs map h) fs.frag l) := by
  rw [fragacct_eq fs (blkmap_high h), fragacct_eq fs (blkmap_high h), testBit_blkmap, testBit_blkmap]
  omega

/-- `free` puts back what it is told to, unless some of it is free already. -/
theorem free_ok (hc : Consistent fs s) (hok : Call.Ok fs s (.free bno size))
    (heq : free fs s bno size = some s') :
    Consistent fs s' ∧ Gave fs s s' bno (numfrags fs size) := by
  obtain ⟨hg, hpos, hblk⟩ := hok
  unfold free at heq
  by_cases hbad : size > bsize fs ∨ fragoff fs size ≠ 0
  · rw [if_pos hbad] at heq
    cases heq
  rw [if_neg hbad] at heq
  rw [not_or, not_not] at hbad
  obtain ⟨hfpos, hfle, hwhole⟩ := numfrags_bounds fs hbad.2 hpos (by omega)
  have hbno : dtogd fs bno = dtogd fs bno / fs.frag * fs.frag + fragnum fs bno := by
    rw [fragnum_dtogd, div_add_mod']
  have hall : bno = dtog fs bno * fs.fpg + dtogd fs bno := (div_add_mod' bno fs.fpg).symm
  have hh : dtogd fs bno / fs.frag < nblk fs :=
    div_lt_div_of_lt_of_dvd fs.frag_dvd (mod_lt bno fs.fpg_pos)
  have hsame : dtogd fs bno / fs.frag * fs.frag / fs.frag = dtogd fs bno / fs.frag :=
    Nat.mul_div_cancel _ fs.frag_pos
  rw [hall] at ⊢
  generalize dtog fs bno = g at *
  generalize fragnum fs bno = i at *
  generalize dtogd fs bno / fs.frag = h at *
  generalize dtogd fs bno = b at *
  generalize numfrags fs size = n at *
  subst hbno
  dsimp only at heq
  by_cases hsize : size = bsize fs
  · -- A whole block.
    have hn := hwhole.mp hsize
    obtain rfl : i = 0 := by omega
    rw [if_pos hsize, add_zero, fragstoblks_eq, hsame] at heq
    -- A block must not be free in part.
    by_cases hclr : isclrblock fs (s.cgs g).blksfree h = true
    · rw [if_pos hclr] at heq
      have hclear := (isclrblock_iff h).mp hclr
      have hfull : Full (Runs.fill (block fs (s.cgs g).blksfree h) 0 n) fs.frag :=
        fun j hj => fill_inside (by omega)
      cases heq
      refine hc.fill hg hh hfpos hblk (fun j _ hj => hclear j (by omega)) rfl (fun j => ?_)
        (if_pos hfull).symm (by omega : (0 : Int) = n - 1 * fs.frag)
        ⟨rfl, ?_, fun l hl hlt => ?_, fun c => addNbfree_blktot .., fun c r => addNbfree_blks ..⟩
        ?_ ?_
      · rw [hn]
        exact isset_setblock h j
      · rw [add_zero]
        rfl
      · rw [runs_eq_zero hclear, hfull.runs_eq_zero (by omega), sub_self, add_zero]
        rfl
      · dsimp only [addNbfree, setCg, Cg.addNbfree]
        rw [hc.cs g hg]
      · rw [add_zero]
        rfl
    · rw [if_neg hclr] at heq
      cases heq
  · -- Fragments.
    have hbase : h * fs.frag + i - fragnum fs (h * fs.frag + i) = h * fs.frag := by
      unfold fragnum
      rw [Nat.mul_add_mod_self_right, Nat.mod_eq_of_lt (by omega), Nat.add_sub_cancel]
    rw [if_neg hsize, hbase, fragstoblks_eq, hsame] at heq
    by_cases hset : ((range n).any fun j => isset (s.cgs g).blksfree (h * fs.frag + i + j)) = true
    · rw [if_pos hset] at heq
      cases heq
    rw [if_neg hset] at heq
    have hclear : ∀ j, i ≤ j → j < i + n → block fs (s.cgs g).blksfree h j = false := by
      intro j h1 h2
      rw [block_of_lt (by omega)]
      by_contra hb
      refine hset (any_eq_true.mpr ⟨j - i, mem_range.mpr (by omega), ?_⟩)
      rw [show h * fs.frag + i + (j - i) = h * fs.frag + j by omega]
      exact Bool.not_eq_false _ ▸ hb
    have hnew : block fs (setbits (s.cgs g).blksfree (h * fs.frag + i) n) h =
        Runs.fill (block fs (s.cgs g).blksfree h) i n := by
      rw [block_setbits hblk, update_self]
    have hfull : isblock fs (setbits (s.cgs g).blksfree (h * fs.frag + i) n) h = true ↔
        Full (Runs.fill (block fs (s.cgs g).blksfree h) i n) fs.frag := by
      rw [isblock_iff, hnew]
    -- The block is counted off as it was and counted again as it is.
    have hfr : ∀ l, 0 < l → l < fs.frag → fragacct fs
        (blkmap fs (setbits (s.cgs g).blksfree (h * fs.frag + i) n) (h * fs.frag))
        (fragacct fs (blkmap fs (s.cgs g).blksfree (h * fs.frag)) (s.cgs g).frsum (-1)) 1 l =
        (s.cgs g).frsum l + (runs (Runs.fill (block fs (s.cgs g).blksfree h) i n) fs.frag l -
          runs (block fs (s.cgs g).blksfree h) fs.frag l) := by
      intro l hl hlt
      rw [fragacct_twice _ _ h _ hl hlt, hnew]
    split at heq
    · next hwb =>
      -- A complete block has been reassembled.
      cases heq
      refine hc.fill hg hh hfpos hblk hclear rfl (isset_setbits _ _)
        (if_pos (hfull.mp hwb)).symm (by omega : (n - fs.frag : Int) = n - 1 * fs.frag)
        ⟨rfl, ?_, hfr, fun c => addNbfree_blktot .., fun c r => addNbfree_blks ..⟩ ?_ ?_
      · dsimp only [Cg.addNbfree, Cg.addNffree]
        rw [show (s.cgs g).cs.nffree + (n : Int) + -(fs.frag : Int) =
          (s.cgs g).cs.nffree + (n - fs.frag) by omega]
      · dsimp only [addNbfree, addNffree, setCg, Cg.addNbfree, Cg.addNffree]
        rw [update_self, update_idem, update_self, update_idem, hc.cs g hg]
      · dsimp only [addNbfree, addNffree, setCg]
        rw [show s.cstotal.nffree + (n : Int) + -(fs.frag : Int) =
          s.cstotal.nffree + (n - fs.frag) by omega]
    · next hwb =>
      cases heq
      have hnot := fun h => hwb (hfull.mpr h)
      refine hc.fill hg hh hfpos hblk hclear rfl (isset_setbits _ _)
        (if_neg hnot).symm (by omega : (n : Int) = n - 0 * fs.frag)
        ⟨rfl, ?_, hfr, fun c => ?_, fun c r => ?_⟩ ?_ ?_
      · dsimp only [Cg.addNffree]
        rw [add_zero]
      · rw [ite_self, add_zero]
        rfl
      · rw [ite_self, add_zero]
        rfl
      · dsimp only [addNffree, setCg, Cg.addNffree]
        rw [hc.cs g hg]
      · dsimp only [addNffree, setCg]
        rw [add_zero]

end Sol7.Alloc
