import Sol7.UfsLog.RollBlocks

/-!
# Writing and Freeing What Was Rolled

The second half of a cycle of the roll thread: the sectors that deltas lie in
are written, run by run, and the deltas are removed from the logmap. With the
first half, the invariant of the roll thread holds in every state of every
run, whatever is added, cancelled and committed beside it.

## Theorems

* `Loaded.startWrite`: The next write of a block.
* `Writing.write`, `Writing.finish`: The blocks are written.
* `Removing.next`, `Removing.last`: The blocks whose deltas are freed.
* `inv_removePass`: A pass of `logmap_remove_roll`.
* `rolling_inv`: The invariant holds in every reachable state.
-/

namespace Sol7.UfsLog

open List Option Bool RollState Function Nat

/-! ### Writing -/

variable {β : Type} [Zero β] {rs : List (Me (Nat → β))} {master : Nat → β} {nmblk nbuf i : Nat}
  {pws pws' : Nat → Prewrite β} {s s' : RollState β}

omit [Zero β] in
/-- What a write puts on the master: some sectors of the block. -/
theorem store_spec {bp : RollBuf β} {blkno a b : Nat} (hblkno : bp.blkno = blkno + a)
    (haddr : bp.addr = devBsize * a) (hcount : bp.bcount = devBsize * (b - a)) (hab : a ≤ b)
    (x : Nat) : bp.store master x = if devBsize * (blkno + a) ≤ x ∧ x < devBsize * (blkno + b) then
        bp.data (x - devBsize * blkno)
      else master x := by
  unfold RollBuf.store
  rw [hblkno, haddr, hcount]
  have hrange : devBsize * (blkno + a) + devBsize * (b - a) = devBsize * (blkno + b) := by
    rw [← mul_add]
    congr 1
    omega
  rw [hrange]
  split
  · next hx =>
      congr 1
      unfold devBsize at *
      omega
  · rfl

/-- The next write of a block brings it further, and touches no other. -/
theorem Loaded.startWrite {pw : Prewrite β}
    (hblkno : pw.bp.blkno = pw.blkno + pw.bp.addr / devBsize)
    (haddr : pw.bp.addr % devBsize = 0) (hcount : pw.bp.bcount % devBsize = 0)
    (h : Loaded rs master pw.blkno ((pw.bp.addr + pw.bp.bcount) / devBsize) pw.secmap pw.bp.data)
    (hne : pw.secmap ≠ 0) :
    ∃ pw', pw.startWrite = pw' ∧ pw'.inuse = pw.inuse ∧ pw'.rem = pw.rem ∧ pw'.blkno = pw.blkno ∧
      pw'.bp.blkno = pw'.blkno + pw'.bp.addr / devBsize ∧ pw'.bp.addr % devBsize = 0 ∧
      pw'.bp.bcount % devBsize = 0 ∧
      Loaded rs (pw'.bp.store master) pw.blkno ((pw'.bp.addr + pw'.bp.bcount) / devBsize)
        pw'.secmap pw'.bp.data ∧
      ∀ x, pw'.bp.store master x = master x ∨
        ∃ k, k < mapBlockSize ∧ x = devBsize * pw.blkno + k ∧ pw'.bp.store master x = pw.bp.data k := by
  have hfits := h.fits
  generalize hpos : (pw.bp.addr + pw.bp.bcount) / devBsize = pos at h hfits
  obtain ⟨z, t, hzt, heq, hclear⟩ := startWrite_spec pw hne (sub_le 16 pos) hfits.2
  refine ⟨_, heq, rfl, rfl, rfl, ?_, ?_, mul_mod_right _ _, ?_⟩
  · change pw.bp.blkno + pw.bp.bcount / devBsize + z =
      pw.blkno + (pw.bp.addr + pw.bp.bcount + devBsize * z) / devBsize
    unfold devBsize at *
    omega
  · change (pw.bp.addr + pw.bp.bcount + devBsize * z) % devBsize = 0
    unfold devBsize at *
    omega
  · generalize hbp : ({ pw.bp with
      blkno := pw.bp.blkno + pw.bp.bcount / devBsize + z
      addr := pw.bp.addr + pw.bp.bcount + devBsize * z
      bcount := devBsize * t } : RollBuf β) = bp
    have hdata : bp.data = pw.bp.data := by rw [← hbp]
    have hend : (bp.addr + bp.bcount) / devBsize = pos + z + t := by
      rw [← hbp]
      change (pw.bp.addr + pw.bp.bcount + devBsize * z + devBsize * t) / devBsize = pos + z + t
      unfold devBsize at *
      omega
    have hstore : ∀ x, bp.store master x = if devBsize * (pw.blkno + (pos + z)) ≤ x ∧
        x < devBsize * (pw.blkno + (pos + z + t)) then bp.data (x - devBsize * pw.blkno)
        else master x := by
      refine store_spec ?_ ?_ ?_ (le_add_right _ _) <;> rw [← hbp]
      · change pw.bp.blkno + pw.bp.bcount / devBsize + z = pw.blkno + (pos + z)
        unfold devBsize at *
        omega
      · change pw.bp.addr + pw.bp.bcount + devBsize * z = devBsize * (pos + z)
        unfold devBsize at *
        omega
      · rw [Nat.add_sub_cancel_left]
    rw [hdata] at hstore
    constructor
    · rw [hdata, hend]
      have hexp : z + t = pos + z + t - pos := by omega
      rw [hexp]
      refine h.write (le_add_right _ _) (le_add_right _ _) (by omega) ?_ ?_ ?_
      · intro i hi hlt
        exact hclear (i - pos) (by omega)
      · intro k hk hlo hhi
        rw [hstore, if_pos (by unfold devBsize at *; omega), Nat.add_sub_cancel_left]
      · intro k hk hc
        rw [hstore, if_neg (by unfold devBsize at *; omega)]
    · intro x
      by_cases hin : devBsize * (pw.blkno + (pos + z)) ≤ x ∧
          x < devBsize * (pw.blkno + (pos + z + t))
      · refine .inr ⟨x - devBsize * pw.blkno, ?_, ?_, ?_⟩
        · unfold devBsize mapBlockSize at *
          omega
        · unfold devBsize at *
          omega
        · rw [hstore, if_pos hin]
      · refine .inl ?_
        rw [hstore, if_neg hin]

/-- A block is written. -/
theorem Writing.write (h : Writing rs master nbuf pws) {i : Nat} (hne : (pws i).secmap ≠ 0)
    (hself : pws' i = (pws i).startWrite) (hother : ∀ j, j ≠ i → pws' j = pws j) :
    Writing rs ((pws i).startWrite.bp.store master) nbuf pws' := by
  have hin : (pws i).inuse = true := by
    by_contra hno
    exact hne (h.free i (eq_false_iff.mpr hno)).2
  obtain ⟨hlt, hrem, hblkno, haddr, hcount⟩ := h.used i hin
  obtain ⟨pw', heq, hinuse', hrem', hblkno', hbp, haddr', hcount', hl, hx⟩ :=
      (h.loaded i hin).startWrite hblkno haddr hcount hne
  rw [heq] at hself ⊢
  have hsame : ∀ j, (pws' j).inuse = (pws j).inuse ∧ (pws' j).blkno = (pws j).blkno := by
    intro j
    by_cases hj : j = i
    · rw [hj, hself]
      exact ⟨hinuse', hblkno'⟩
    · rw [hother j hj]
      exact ⟨rfl, rfl⟩
  refine ⟨fun j hj => ?_, fun j hj => ?_, fun j hj => ?_, fun a b ha hb hab => ?_, fun e he => ?_⟩
  · by_cases hji : j = i
    · rw [hji, hself]
      exact ⟨hlt, hrem'.trans hrem, hbp, haddr', hcount'⟩
    · rw [hother j hji] at hj ⊢
      exact h.used j hj
  · by_cases hji : j = i
    · rw [hji, hself, hblkno']
      exact hl
    · rw [hother j hji] at hj ⊢
      refine (h.loaded j hj).congr fun k hk => ?_
      rcases hx (devBsize * (pws j).blkno + k) with hsame | ⟨k', hk', heq', _⟩
      · exact hsame
      -- The write is in another block.
      have ha := (h.loaded i hin).aligned
      have ha' := (h.loaded j hj).aligned
      refine absurd (h.distinct j i hj hin ?_) hji
      unfold devBsize mapBlockSize at *
      omega
  · rw [(hsame j).1] at hj
    by_cases hji : j = i
    · rw [hji] at hj
      exact nomatch hj.symm.trans hin
    · rw [hother j hji]
      exact h.free j hj
  · rw [(hsame a).1] at ha
    rw [(hsame b).1] at hb
    rw [(hsame a).2, (hsame b).2] at hab
    exact h.distinct a b ha hb hab
  · obtain ⟨j, hj, hin⟩ := h.owned e he
    refine ⟨j, ?_, ?_⟩
    · rw [(hsame j).1]
      exact hj
    · rw [(hsame j).2]
      exact hin

/-- Every block has been written. -/
theorem Writing.finish (h : Writing rs master nbuf pws)
    (hdone : ∀ j, j < nbuf → (pws j).secmap = 0) :
    Removing rs nbuf (fun i => if i < nbuf then { pws i with inuse := false } else pws i) 0
      none := by
  generalize hpws : (fun i => if i < nbuf then { pws i with inuse := false } else pws i) = pws'
  have hfields : ∀ j, (pws' j).inuse = false ∧ (pws' j).secmap = (pws j).secmap ∧
      (pws' j).rem = (pws j).rem ∧ (pws' j).blkno = (pws j).blkno := by
    intro j
    rw [← hpws]
    dsimp only
    split
    · exact ⟨rfl, rfl, rfl, rfl⟩
    · next hge => refine ⟨eq_false_iff.mpr fun hin => hge (h.used j hin).1, rfl, rfl, rfl⟩
  have hrem : ∀ j, (pws j).rem = true → (pws j).inuse = true := by
    intro j hr
    by_contra hno
    have hfree := (h.free j (eq_false_iff.mpr hno)).1
    exact false_ne_true (hfree.symm.trans hr)
  refine ⟨fun j => ⟨(hfields j).1, ?_⟩, fun j hj => ?_, fun c hc => ?_, fun e he => .inl ?_⟩
  · rw [(hfields j).2.1]
    by_cases hlt : j < nbuf
    · exact hdone j hlt
    · exact (h.free j (eq_false_iff.mpr fun hin => hlt (h.used j hin).1)).2
  · rw [(hfields j).2.2.1] at hj
    rw [(hfields j).2.2.2]
    exact ⟨zero_le, (h.used j (hrem j hj)).1, (h.loaded j (hrem j hj)).aligned⟩
  · cases hc
  · obtain ⟨j, hj, hin⟩ := h.owned e he
    refine ⟨j, ?_, ?_⟩
    · rw [(hfields j).2.2.1]
      exact (h.used j hj).2.1
    · rw [(hfields j).2.2.2]
      exact hin

/-- A pass over the blocks goes on, or all are written. -/
theorem inv_writeNext (h : RollInv s) {i : Nat} (hpc : s.pc = .write i) :
    RollInv (s.writeNext i) := by
  have hblocks := h.blocks
  rw [hpc] at hblocks
  unfold writeNext
  split
  · split
    · exact ⟨h.map.congr rfl ⟨rfl, rfl, rfl⟩, hblocks⟩
    · next hne =>
        exact ⟨h.map.congr rfl ⟨rfl, rfl, rfl⟩, hblocks.write hne (update_self ..)
          fun j hj => update_of_ne hj ..⟩
  · split
    · exact ⟨h.map.congr rfl ⟨rfl, rfl, rfl⟩, hblocks⟩
    · next hdone =>
        refine ⟨h.map.congr rfl ⟨rfl, rfl, rfl⟩, hblocks.finish fun j hj => ?_⟩
        rw [not_eq_true, List.any_eq_false] at hdone
        have := hdone j (mem_range.mpr hj)
        rw [bne_iff_ne, Decidable.not_not] at this
        exact this

/-! ### Removing -/

omit [Zero β] in
/-- The next block whose deltas are freed. -/
theorem Removing.next (h : Removing rs nbuf pws i none) (hrem : (pws i).rem = true)
    (hself : pws' i = { pws i with rem := false }) (hother : ∀ j, j ≠ i → pws' j = pws j) :
    Removing rs nbuf pws' (i + 1) (some i) := by
  have hne : ∀ j, (pws' j).rem = true → j ≠ i := by
    rintro j hj rfl
    rw [hself] at hj
    exact false_ne_true hj
  refine ⟨fun j => ?_, fun j hj => ?_, fun c hc => ?_, fun e he => ?_⟩
  · by_cases hji : j = i
    · rw [hji, hself]
      exact h.clear i
    · rw [hother j hji]
      exact h.clear j
  · have hji := hne j hj
    rw [hother j hji] at hj ⊢
    obtain ⟨hle, hrest⟩ := h.rem j hj
    exact ⟨lt_of_le_of_ne hle hji.symm, hrest⟩
  · cases hc
    rw [hself]
    exact (h.rem i hrem).2.2
  · rcases h.owned e he with ⟨j, hj, hin⟩ | ⟨c, hc, _⟩
    · by_cases hji : j = i
      · refine .inr ⟨i, rfl, ?_⟩
        rw [hself]
        exact hji ▸ hin
      · refine .inl ⟨j, ?_, ?_⟩ <;> rw [hother j hji]
        · exact hj
        · exact hin
    · cases hc

/-- After the last block nothing is being rolled. -/
theorem Removing.last (h : Removing rs nbuf pws i none) (hge : ¬i < nbuf) (master : Nat → β) :
    Building rs master nmblk pws none := by
  have hno : ∀ j, (pws j).rem = false := by
    intro j
    rw [eq_false_iff]
    intro hj
    obtain ⟨hle, hlt, _⟩ := h.rem j hj
    omega
  have hrs : ∀ e, e ∉ rs := by
    intro e he
    rcases h.owned e he with ⟨j, hj, _⟩ | ⟨c, hc, _⟩
    · exact false_ne_true ((hno j).symm.trans hj)
    · cases hc
  have hfree : ∀ j, (pws j).inuse ≠ true := fun j hj =>
    false_ne_true ((h.clear j).1.symm.trans hj)
  exact ⟨fun j hj => absurd hj (hfree j), fun j hj => absurd hj (hfree j),
    fun j _ => ⟨hno j, fun _ => (h.clear j).2⟩, fun j hj => absurd hj (hfree j),
    fun a _ ha => absurd ha (hfree a), fun e he => absurd he (hrs e)⟩

theorem inv_removeNext (h : RollInv s) (hpc : s.pc = .remove i) : RollInv (s.removeNext i) := by
  have hblocks := h.blocks
  rw [hpc] at hblocks
  unfold removeNext
  split
  · split
    · next hrem =>
        exact ⟨h.map.congr rfl ⟨rfl, rfl, rfl⟩, Removing.next hblocks hrem
          (update_self ..) fun j hj => update_of_ne hj ..⟩
    · next hrem =>
        refine ⟨h.map.congr rfl ⟨rfl, rfl, rfl⟩, { hblocks with rem := fun j hj => ?_ }⟩
        obtain ⟨hle, hrest⟩ := hblocks.rem j hj
        refine ⟨lt_of_le_of_ne hle ?_, hrest⟩
        rintro rfl
        exact hrem hj
  · next hge => exact ⟨h.map.congr rfl ⟨rfl, rfl, rfl⟩, Removing.last hblocks hge s.master⟩

/-- A pass of `logmap_remove_roll`. If it does not end early, nothing of the
    block is being rolled any more. -/
theorem inv_removePass (h : RollInv s) {dolock : Bool} (hpc : s.pc = .removing i dolock)
    (hs : s.removePass i dolock = some s') : RollInv s' := by
  have hblocks := h.blocks
  rw [hpc] at hblocks
  obtain ⟨-, heq⟩ := ite_none_left_eq_some.mp hs
  cases heq
  obtain ⟨hsub, _, hdone⟩ := removeRoll_spec (devBsize * (s.pws i).blkno) mapBlockSize
  have hrolled : ∀ e ∈ ((s.map.removeRoll (devBsize * (s.pws i).blkno)
      mapBlockSize).entries.filter Me.roll).map Me.bare, e ∈ s.rolled := fun e he =>
    ((hsub.filter Me.roll).map Me.bare).subset he
  refine ⟨h.map.removeRoll rfl ⟨rfl, rfl, rfl⟩, ?_⟩
  split
  · next hfin =>
      refine ⟨hblocks.clear, hblocks.rem, fun c hc => ?_, fun e he => .inl ?_⟩
      · cases hc
      rcases hblocks.owned e (hrolled e he) with hj | ⟨c, hc, hin⟩
      · exact hj
      -- What is left is not of this block.
      cases hc
      have ha := hblocks.curAligned i rfl
      obtain ⟨d, hd, rfl⟩ := mem_map.mp he
      rw [mem_filter] at hd
      have hblk := h.map.ordered.block d (hsub.subset hd.1)
      have hlo := Me.inBlk_iff.mp hin
      change devBsize * (s.pws i).blkno ≤ d.mof ∧
        d.mof < devBsize * (s.pws i).blkno + mapBlockSize at hlo
      have hidx : mapIndex s.map.nhash d.mof =
          mapIndex s.map.nhash (devBsize * (s.pws i).blkno) := by
        have hsame : d.mof / mapBlockSize = devBsize * (s.pws i).blkno / mapBlockSize := by
          unfold devBsize mapBlockSize at *
          omega
        unfold mapIndex
        rw [hsame]
      have hout := hdone hfin d hd.1 hd.2 hidx
      unfold Me.within at hout
      rw [and_eq_false_iff, decide_eq_false_iff_not, decide_eq_false_iff_not] at hout
      unfold devBsize mapBlockSize at *
      omega
  · exact { hblocks with owned := fun e he => hblocks.owned e (hrolled e he) }

/-! ### All steps -/

/-- The roll thread keeps the invariant. -/
theorem inv_roll (h : RollInv s) (hs : s.roll = some s') : RollInv s' := by
  unfold roll at hs
  split at hs
  · next hpc =>
      cases hs
      exact inv_choose h hpc
  · next i hpc => exact inv_getRoll h hpc hs
  · next i age hpc =>
      cases hs
      exact inv_readRoll h hpc
  · next i age hpc =>
      cases hs
      exact inv_putRoll h hpc
  · next i hpc =>
      cases hs
      exact inv_writeNext h hpc
  · next i hpc =>
      cases hs
      exact inv_removeNext h hpc
  · next i dolock hpc => exact inv_removePass h hpc hs

/-- The roll thread is not touched by anything else. -/
structure Beside (s s' : RollState β) : Prop where
  master : s'.master = s.master
  nmblk : s'.nmblk = s.nmblk
  pws : s'.pws = s.pws
  nbuf : s'.nbuf = s.nbuf
  pc : s'.pc = s.pc

theorem RollInv.beside (h : RollInv s) (hb : Beside s s') (hm : MapOk s' ∧ s'.rolled = s.rolled) :
    RollInv s' := by
  refine ⟨hm.1, ?_⟩
  rw [hm.2, hb.master, hb.nmblk, hb.nbuf, hb.pws, hb.pc]
  exact h.blocks

variable {op : RollOp β}

/-- A step is one of the roll thread, or leaves it alone. -/
theorem step_beside (hs : s.step op = some s') (hop : op ≠ .roll) : Beside s s' := by
  cases op with
  | roll => exact absurd rfl hop
  | addEnd =>
    simp only [step, addEnd] at hs
    split at hs
    · cases hs
    · cases hs
      exact ⟨rfl, rfl, rfl, rfl, rfl⟩
  | listPut i =>
    simp only [step, listPut] at hs
    split at hs
    · cases hs
    · cases hs
      exact ⟨rfl, rfl, rfl, rfl, rfl⟩
  | sethead =>
    simp only [step, sethead] at hs
    split at hs
    · obtain ⟨-, heq⟩ := ite_none_right_eq_some.mp hs
      cases heq
      exact ⟨rfl, rfl, rfl, rfl, rfl⟩
    · cases hs
  | _ =>
    simp only [step, addBegin, cancel, cancelDelta, commitBegin, freeCancel, commitEnd, commitDone,
      listGet, ite_none_right_eq_some, ite_none_left_eq_some, some.injEq] at hs
    obtain ⟨_, rfl⟩ := hs
    exact ⟨rfl, rfl, rfl, rfl, rfl⟩

/-- Whatever happens beside the roll thread keeps the invariant of the logmap,
    and leaves alone what is being rolled. -/
theorem MapOk.step (h : MapOk s) (hs : s.step op = some s') (hop : op ≠ .roll) :
    MapOk s' ∧ s'.rolled = s.rolled := by
  cases op with
  | roll => exact absurd rfl hop
  | addBegin mof nb dt src => exact h.addBegin hs
  | addEnd => exact h.addEnd hs
  | cancel mof nb => exact h.cancel hs
  | cancelDelta mof nb => exact h.cancelDelta hs
  | commitBegin => exact h.commitBegin hs
  | freeCancel age => exact h.freeCancel hs
  | commitEnd => exact h.commitEnd hs
  | commitDone => exact h.commitDone hs
  | listGet mof nb =>
    obtain ⟨-, heq⟩ := ite_none_left_eq_some.mp hs
    cases heq
    exact h.setAge
  | listPut i =>
    simp only [RollState.step, RollState.listPut] at hs
    split at hs
    · cases hs
    · cases hs
      exact h.listPut rfl ⟨rfl, rfl, rfl⟩
  | sethead => exact h.sethead hs

theorem inv_step (h : RollInv s) (hs : s.step op = some s') : RollInv s' := by
  by_cases hop : op = .roll
  · subst hop
    exact inv_roll h hs
  · exact h.beside (step_beside hs hop) (h.map.step hs hop)

/-- Nothing is being rolled at first. -/
theorem RollState.Init.inv (h : s.Init) : RollInv s := by
  have hmem : ∀ e, e ∉ s.map.entries := by
    intro e he
    rw [h.entries] at he
    exact absurd he not_mem_nil
  have hfree := logFree_iff.mp h.idle
  have hrolled : s.rolled = [] := by
    unfold rolled
    rw [h.entries]
    rfl
  refine ⟨⟨⟨?_, fun e he => absurd he (hmem e), ?_, fun e he => absurd he (hmem e),
    fun e he => absurd he (hmem e), fun e he => absurd he (hmem e)⟩, .inl h.committed,
    fun e he => absurd he (hmem e), fun e he => absurd he (hmem e),
    fun e he => absurd he (hmem e), fun e he => absurd he (hmem e), fun n hn => ?_,
    fun _ => h.committed⟩, ?_⟩
  · rw [h.entries]
    exact .nil
  · rw [h.entries]
    exact .nil
  · exact nomatch hfree.1.symm.trans hn
  · rw [h.start, hrolled]
    have hno : ∀ j, (s.pws j).inuse ≠ true := fun j hj =>
      false_ne_true ((h.free j).1.symm.trans hj)
    exact ⟨fun j hj => absurd hj (hno j), fun j hj => absurd hj (hno j),
      fun j _ => ⟨(h.free j).2.1, fun _ => (h.free j).2.2⟩, fun j hj => absurd hj (hno j),
      fun a _ ha => absurd ha (hno a), nofun⟩

/-- The invariant holds in every state of every run. -/
theorem rolling_inv (s : RollState β) (hr : (rolling β).Reachable s) : RollInv s :=
  System.Reachable.invariant (rolling β) RollInv (fun _ h => RollState.Init.inv h)
    (fun _ _ _ h hs => inv_step h hs) s hr

end Sol7.UfsLog
