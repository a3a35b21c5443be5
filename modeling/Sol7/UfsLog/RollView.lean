import Sol7.UfsLog.RollWrite

/-!
# Rolling Preserves the View

The file system that is seen through the logmap is the same whether or not
deltas are rolled. What a byte shows is changed by `logmap_add` only, which
makes it show the new data, and by the commit of a cancel, after which nothing
is known of it. This is the specification, one byte at a time (`Cell`), and no
step of the roll thread has a part in it.

While the roll thread frees the deltas of a cycle, which takes several holds of
`mtm_mutex` if somebody is reading, a delta may be gone when an older one is
still there. In between one has to look through the logmap without the deltas
that are on the master already (`RollState.shown`).

## Main definitions

* `Cell`: What is specified of a byte.
* `RollState.shown`: The entries that count.
* `RollState.eff`: What is seen through them.
* `Agrees`: The state is as specified.

## Theorems

* `roll_unseen`: The roll thread does not change what is seen.
* `agrees_step`: Every step does what is specified.
* `master_of_step`: What is written to the master.
* `roll_preserves_view`: The view is preserved along every run.
-/

namespace Sol7.UfsLog

open List Option Bool RollState

/-! ### The specification -/

/-- What is specified of a byte: what it shows, if that is known, whether it
    was cancelled since the last commit, and the data that is being added. -/
structure Cell (β : Type) where
  val : Option β
  doomed : Bool
  adding : Option β

/-- What an operation does to a byte. -/
def Cell.step {β : Type} [Zero β] (x : Nat) (c : Cell β) : RollOp β → Cell β
  | .addBegin mof nb dt src =>
    { c with
      val := if ((newEntry mof nb dt src).at x).isSome then none else c.val
      adding := (newEntry mof nb dt src).at x }
  | .addEnd =>
    match c.adding with
    | none => c
    | some v => { val := some v, doomed := false, adding := none }
  | .cancel mof nb => { c with doomed := c.doomed || (mof ≤ x && x < mof + nb) }
  | .commitBegin => { c with val := if c.doomed then none else c.val }
  | .commitEnd => { c with doomed := false }
  | _ => c

/-- The operations that say something about a byte. -/
def RollOp.touches {β : Type} [Zero β] (x : Nat) : RollOp β → Bool
  | .addBegin mof nb dt src => ((newEntry mof nb dt src).at x).isSome
  | .cancel mof nb => mof ≤ x && x < mof + nb
  | _ => false

namespace RollState

variable {β : Type} [Zero β] (s : RollState β)

/-- The entries that count: those that have been rolled do not, once their
    block is on the master. -/
def shown : List (Me (Nat → β)) :=
  if s.pc.frees then s.map.entries.filter fun me => !me.roll else s.map.entries

/-- What is seen through the entries that count. -/
def eff (x : Nat) : β := overlay (fun me => me.at x) s.shown (s.master x)

/-- A byte as it is in a state. -/
def cell (x : Nat) : Cell β where
  val :=
    if (s.adding.bind fun me => me.at x).isSome || (s.committing && s.doomed x) then none
    else some (s.view x)
  doomed := s.doomed x
  adding := s.adding.bind fun me => me.at x

end RollState

/-! ### What is seen -/

variable {β : Type} [Zero β] {s s' : RollState β} {x : Nat}

section

theorem eff_of_not_frees (hpc : s.pc.frees = false) (x : Nat) :
    s.eff x = overlay (fun me => me.at x) s.map.entries (s.master x) := by
  rw [eff, shown, if_neg (eq_false_iff.mp hpc)]

theorem eff_of_frees (hpc : s.pc.frees = true) (x : Nat) : s.eff x =
    overlay (fun me => me.at x) (s.map.entries.filter fun me => !me.roll) (s.master x) := by
  rw [eff, shown, if_pos hpc]

theorem view_eq_eff (h : RollInv s) (hpc : s.pc.frees = false) (x : Nat) : s.view x = s.eff x := by
  rw [eff_of_not_frees hpc, overlay_eq_argmax h.map.ordered.ages]
  rfl

theorem shown_pairwise (h : RollInv s) : s.shown.Pairwise fun d e => d.age < e.age := by
  unfold shown
  split
  · exact h.map.ordered.ages.sublist filter_sublist
  · exact h.map.ordered.ages

variable {f : Me (Nat → β) → Option (Me (Nat → β))}

omit [Zero β] in
/-- A change that leaves alone what is being rolled. -/
theorem shown_filterMap (hk : KeepsRoll s.map.entries f)
    (hentries : s'.map.entries = s.map.entries.filterMap f) (hpc : s'.pc = s.pc) :
    s'.shown = s.shown.filterMap f := by
  unfold shown
  rw [hpc, hentries]
  split
  · rw [filter_filterMap, filterMap_filter]
    refine filterMap_congr fun e he => ?_
    cases hf : f e with
    | none => split <;> rfl
    | some e' =>
      have hroll := (hk.bare e he e' hf).2
      rw [filter_some, hroll]
  · rfl

/-- Entries may be dropped unseen if a newer one covers the byte, which is not
    being rolled. -/
theorem eff_filterMap {x : Nat} (h : RollInv s) (hk : KeepsRoll s.map.entries f)
    (hentries : s'.map.entries = s.map.entries.filterMap f) (hmaster : s'.master = s.master)
    (hpc : s'.pc = s.pc) (hdrop : ∀ e ∈ s.map.entries, f e = none → e.at x ≠ none →
      ∃ d ∈ s.map.entries, e.age < d.age ∧ d.at x ≠ none ∧ f d ≠ none ∧ d.roll = false) :
    s'.eff x = s.eff x := by
  have hsub : ∀ e ∈ s.shown, e ∈ s.map.entries := by
    intro e he
    unfold shown at he
    split at he
    · exact mem_of_mem_filter he
    · exact he
  have hmem : ∀ d ∈ s.map.entries, d.roll = false → d ∈ s.shown := by
    intro d hd hr
    unfold shown
    split
    · exact mem_filter.mpr ⟨hd, by rw [hr]; rfl⟩
    · exact hd
  unfold eff
  rw [shown_filterMap hk hentries hpc, hmaster]
  refine overlay_filterMap (shown_pairwise h) (fun e he e' hfe => ?_) (fun e he hfe hx => ?_) _
  · exact Me.at_congr (hk.bare e (hsub e he) e' hfe).1 x
  · obtain ⟨d, hd, hlt, hdx, hfd, hdr⟩ := hdrop e (hsub e he) hfe hx
    exact ⟨d, hmem d hd hdr, hlt, hdx, hfd⟩

/-- A change of flags is not seen. -/
theorem eff_map {x : Nat} (h : RollInv s) {f : Me (Nat → β) → Me (Nat → β)}
    (hf : ∀ e, (f e).bare = e.bare ∧ (f e).roll = e.roll)
    (hentries : s'.map.entries = s.map.entries.map f) (hmaster : s'.master = s.master)
    (hpc : s'.pc = s.pc) : s'.eff x = s.eff x := by
  refine eff_filterMap h (f := fun e => some (f e)) ⟨fun e _ e' hfe => ?_, fun e _ _ => ?_⟩ ?_
    hmaster hpc fun e _ hfe => ?_
  · cases hfe
    exact hf e
  · exact some_ne_none _
  · rw [hentries, ← filterMap_eq_map]
    rfl
  · cases hfe

/-- A new entry is on top. -/
theorem eff_put {x : Nat} {me : Me (Nat → β)} (hroll : me.roll = false)
    (hentries : s'.map.entries = s.map.entries ++ [me]) (hmaster : s'.master = s.master)
    (hpc : s'.pc = s.pc) : s'.eff x = (me.at x).getD (s.eff x) := by
  have hshown : s'.shown = s.shown ++ [me] := by
    unfold shown
    rw [hpc, hentries]
    split
    · rw [filter_append, filter_cons_of_pos (by rw [hroll]; rfl)]
      rfl
    · rfl
  unfold eff
  rw [hshown, overlay_append, hmaster]
  rfl

end

/-! ### The roll thread -/

section
variable {mblkno i : Nat}

/-- Outside of the freeing of deltas, flags are not seen. -/
theorem eff_of_bare {f : Me (Nat → β) → Me (Nat → β)} (hf : ∀ e, (f e).bare = e.bare)
    (hpc : s.pc.frees = false) (hpc' : s'.pc.frees = false)
    (hentries : s'.map.entries = s.map.entries.map f) (hmaster : s'.master = s.master) :
    s'.eff x = s.eff x := by
  rw [eff_of_not_frees hpc, eff_of_not_frees hpc', hentries, hmaster]
  exact overlay_map f _ (fun e _ => Me.at_congr (hf e) x) _

theorem eff_same (hpc : s.pc.frees = false) (hpc' : s'.pc.frees = false) (hmap : s'.map = s.map)
    (hmaster : s'.master = s.master) : s'.eff x = s.eff x := by
  rw [eff_of_not_frees hpc, eff_of_not_frees hpc', hmap, hmaster]

variable {e : Me (Nat → β)}

/-- The block of a byte that a delta covers. -/
theorem at_inBlk (ha : mblkno % 16 = 0)
    (hblk : 0 < e.nb ∧ e.mof % mapBlockSize + e.nb ≤ mapBlockSize) (hx : e.at x ≠ none) :
    e.inBlk mblkno = true ↔ devBsize * mblkno ≤ x ∧ x < devBsize * mblkno + mapBlockSize := by
  rw [Me.at_ne_none] at hx
  rw [Me.inBlk_iff]
  unfold devBsize mapBlockSize at *
  omega

theorem rolled_block (h : RollInv s) (he : e ∈ s.rolled) :
    0 < e.nb ∧ e.mof % mapBlockSize + e.nb ≤ mapBlockSize := by
  obtain ⟨d, hd, rfl⟩ := mem_map.mp he
  exact h.map.ordered.block d (mem_of_mem_filter hd)

omit [Zero β] in
/-- What is being rolled is on the map. -/
theorem mem_of_rolled (he : e ∈ s.rolled) : ∃ d ∈ s.map.entries, d.roll = true ∧ d.bare = e := by
  obtain ⟨d, hd, rfl⟩ := mem_map.mp he
  rw [mem_filter] at hd
  exact ⟨d, hd.1, hd.2, rfl⟩

/-- With all blocks written, what is being rolled shows on the master. -/
theorem rolled_on_master (h : RollInv s) (hw : Writing s.rolled s.master s.nbuf s.pws)
    (hdone : ∀ j, (s.pws j).secmap = 0) (x : Nat) :
    overlay (fun me => me.at x) s.rolled (s.master x) = s.master x := by
  by_cases hex : ∃ e ∈ s.rolled, e.at x ≠ none
  · obtain ⟨e, he, hx⟩ := hex
    obtain ⟨j, hj, hin⟩ := hw.owned e he
    have hl := hw.loaded j hj
    have hrange := (at_inBlk hl.aligned (rolled_block h he) hx).mp hin
    rw [hdone j] at hl
    have hk : x - devBsize * (s.pws j).blkno < mapBlockSize := by omega
    have hwritten := hl.written hk
    rw [Nat.add_sub_cancel' hrange.1] at hwritten
    -- Deltas of other blocks say nothing about this byte.
    rw [overlay_filter (fun d hd hout => ?_)] at hwritten
    · exact hwritten
    · by_contra hdx
      rw [(at_inBlk hl.aligned (rolled_block h hd) hdx).mpr hrange] at hout
      cases hout
  · refine overlay_of_none (fun e he => ?_) _
    by_contra hx
    exact hex ⟨e, he, hx⟩

/-- What was rolled may then be left out. -/
theorem eff_melt (h : RollInv s)
    (hdone : overlay (fun me => me.at x) s.rolled (s.master x) = s.master x) :
    overlay (fun me => me.at x) s.map.entries (s.master x) =
      overlay (fun me => me.at x) (s.map.entries.filter fun me => !me.roll) (s.master x) := by
  have hlow : ∀ d ∈ s.map.entries, ∀ e ∈ s.map.entries, d.at x ≠ none → e.at x ≠ none →
      d.roll = false → e.roll = true → e.age < d.age := by
    intro d hd e he hdx hex hdr her
    have hdb := h.map.ordered.block d hd
    have heb := h.map.ordered.block e he
    rw [Me.at_ne_none] at hdx hex
    refine h.map.low d hd hdr hdx.1 e he her ?_
    unfold mapBlockSize at *
    omega
  have hbare : overlay (fun me => me.at x) s.rolled (s.master x) =
      overlay (fun me => me.at x) (s.map.entries.filter Me.roll) (s.master x) :=
    overlay_map Me.bare _ (fun e _ => e.at_bare x) _
  rw [overlay_melt h.map.ordered.ages hlow, ← hbare, hdone]

/-- A byte of a block that is being written, and what is written there. -/
theorem write_data (hw : Writing s.rolled s.master s.nbuf s.pws) (hne : (s.pws i).secmap ≠ 0) :
    (s.pws i).startWrite.bp.store s.master x = s.master x ∨
      ∃ e ∈ s.map.entries, e.roll = true ∧
        e.at x = some ((s.pws i).startWrite.bp.store s.master x) := by
  have hin : (s.pws i).inuse = true := by
    by_contra hno
    exact hne (hw.free i (eq_false_iff.mpr hno)).2
  obtain ⟨_, _, hblkno, haddr, hcount⟩ := hw.used i hin
  have hl := hw.loaded i hin
  obtain ⟨pw', heq, _, _, _, _, _, _, _, hx⟩ := hl.startWrite hblkno haddr hcount hne
  rw [heq]
  rcases hx x with hsame | ⟨k, hk, rfl, hdata⟩
  · exact .inl hsame
  rw [hdata, hl.holds k hk]
  rcases overlay_eq_or_mem (fun me : Me (Nat → β) =>
    me.at (devBsize * (s.pws i).blkno + k)) (s.rolled.filter (Me.inBlk (s.pws i).blkno))
    (s.master (devBsize * (s.pws i).blkno + k)) with hb | ⟨e, he, hsome⟩
  · exact .inl hb
  · obtain ⟨d, hd, hdr, rfl⟩ := mem_of_rolled (mem_of_mem_filter he)
    exact .inr ⟨d, hd, hdr, hsome⟩

/-- The roll thread changes the logmap and the master, but not what is seen, and no
    transaction. The master is changed by the write of a block only. -/
theorem roll_unseen (h : RollInv s) (hs : s.roll = some s') (x : Nat) :
    s'.eff x = s.eff x ∧ s'.doomed = s.doomed ∧ s'.adding = s.adding ∧
      s'.committing = s.committing ∧ (s'.master = s.master ∨ ∃ i, s.pc = .write i ∧
        (s.pws i).secmap ≠ 0 ∧ s'.master = (s.pws i).startWrite.bp.store s.master) := by
  have hblocks := h.blocks
  unfold roll at hs
  split at hs
  · next hpc =>
      cases hs
      have hfrees : s.pc.frees = false := by rw [hpc]; rfl
      unfold RollState.choose
      have hprepare : s.prepare.eff x = s.eff x := by
        refine eff_same hfrees ?_ rfl rfl
        unfold prepare
        simp only []
        split <;> rfl
      split
      · exact ⟨hprepare, rfl, rfl, rfl, .inl rfl⟩
      · simp only []
        split
        · exact ⟨hprepare, rfl, rfl, rfl, .inl rfl⟩
        · exact ⟨eff_same hfrees rfl rfl rfl, rfl, rfl, rfl, .inl rfl⟩
  · next i hpc =>
      have hfrees : s.pc.frees = false := by rw [hpc]; rfl
      unfold getRoll at hs
      simp only [] at hs
      split at hs
      · cases hs
      split at hs
      · cases hs
        exact ⟨eff_same hfrees rfl rfl rfl, rfl, rfl, rfl, .inl rfl⟩
      · cases hs
        exact ⟨eff_of_bare (fun e => (MapOk.rollMark_flags s.map _ _ e).1) hfrees rfl rfl rfl, rfl,
          rfl, rfl, .inl rfl⟩
  · next i age hpc =>
      cases hs
      exact ⟨eff_same (by rw [hpc]; rfl) rfl rfl rfl, rfl, rfl, rfl, .inl rfl⟩
  · next i age hpc =>
      cases hs
      refine ⟨eff_of_bare (fun e => ?_) (by rw [hpc]; rfl) rfl rfl rfl, rfl, rfl, rfl, .inl rfl⟩
      split <;> rfl
  · next i hpc =>
      cases hs
      rw [hpc] at hblocks
      have hfrees : s.pc.frees = false := by rw [hpc]; rfl
      unfold writeNext
      split
      · split
        · exact ⟨eff_same hfrees rfl rfl rfl, rfl, rfl, rfl, .inl rfl⟩
        · next hne =>
            -- A byte changes only where a delta covers it.
            refine ⟨?_, rfl, rfl, rfl, .inr ⟨i, hpc, hne, rfl⟩⟩
            rw [eff_of_not_frees hfrees, eff_of_not_frees (by rfl)]
            rcases write_data hblocks (x := x) hne with heq | ⟨e, he, _, hsome⟩
            · exact congrArg _ heq
            · exact overlay_of_some he (hsome ▸ some_ne_none _) _ _
      · split
        · exact ⟨eff_same hfrees rfl rfl rfl, rfl, rfl, rfl, .inl rfl⟩
        · next hdone =>
            rw [not_eq_true, List.any_eq_false] at hdone
            refine ⟨?_, rfl, rfl, rfl, .inl rfl⟩
            rw [eff_of_not_frees hfrees, eff_of_frees (by rfl)]
            refine (eff_melt h (rolled_on_master h hblocks (fun j => ?_) x)).symm
            by_cases hj : j < s.nbuf
            · have := hdone j (mem_range.mpr hj)
              rw [bne_iff_ne, Decidable.not_not] at this
              exact this
            · exact (hblocks.free j (eq_false_iff.mpr fun hin =>
                hj (hblocks.used j hin).1)).2
  · next i hpc =>
      cases hs
      rw [hpc] at hblocks
      have hseen := eff_of_frees (s := s) (by rw [hpc]; rfl) x
      unfold removeNext
      split
      · split <;> exact ⟨(eff_of_frees (by rfl) x).trans hseen.symm, rfl, rfl, rfl, .inl rfl⟩
      next hge =>
        -- Nothing is being rolled any more, so all entries count.
        refine ⟨?_, rfl, rfl, rfl, .inl rfl⟩
        rw [hseen, eff_of_not_frees (by rfl)]
        refine (overlay_filter (fun e he hr => ?_) _).symm
        rw [not_eq_false'] at hr
        have hlast : Building s.rolled s.master s.nmblk s.pws none :=
          Removing.last hblocks hge s.master
        have hmem : e.bare ∈ s.rolled := mem_map_of_mem (mem_filter.mpr ⟨he, hr⟩)
        rcases hlast.owned e.bare hmem with ⟨j, hj, _⟩ | ⟨c, hc, _⟩
        · exact nomatch (hblocks.clear j).1.symm.trans hj
        · cases hc
  · next i dolock hpc =>
      obtain ⟨-, heq⟩ := ite_none_left_eq_some.mp hs
      cases heq
      have hrest := (removeRoll_spec (m := s.map) (devBsize * (s.pws i).blkno) mapBlockSize).2.1
      refine ⟨?_, rfl, rfl, rfl, .inl rfl⟩
      rw [eff_of_frees (s := s) (by rw [hpc]; rfl), eff_of_frees, hrest]
      split <;> rfl

/-- A byte of the master is written by the roll thread only, with the data of
    a delta that is being rolled. -/
theorem master_of_roll (h : RollInv s) (hs : s.roll = some s') (hx : s'.master x ≠ s.master x) :
    ∃ e ∈ s.map.entries, e.roll = true ∧ e.at x = some (s'.master x) := by
  rcases (roll_unseen h hs x).2.2.2.2 with heq | ⟨i, hpc, hne, heq⟩
  · exact absurd (congrFun heq x) hx
  · have hblocks := h.blocks
    rw [hpc] at hblocks
    rw [heq] at hx ⊢
    exact (write_data hblocks hne).resolve_left hx

/-- What reaches the master belongs to neither the current transaction nor the
    committing one. -/
theorem master_of_step (h : RollInv s) {op : RollOp β} (hs : s.step op = some s')
    (hx : s'.master x ≠ s.master x) :
    ∃ e ∈ s.map.entries, e.at x = some (s'.master x) ∧ e.tid ≠ s.map.tid ∧
      e.tid ≠ s.map.committid := by
  by_cases hop : op = .roll
  · subst hop
    obtain ⟨e, he, hroll, hsome⟩ := master_of_roll h hs hx
    have htid := (h.map.rolls e he hroll).1
    have hcom := h.map.committid
    exact ⟨e, he, hsome, by omega, by omega⟩
  · exact absurd (congrFun (step_beside hs hop).master x) hx

end

/-! ### Every step does what is specified -/

section
variable {c : Cell β}

/-- A byte is as specified. -/
structure Agrees (s : RollState β) (x : Nat) (c : Cell β) : Prop where
  doomed : c.doomed = s.doomed x
  adding : c.adding = s.adding.bind fun me => me.at x
  blank : s.committing = true → s.doomed x = true → c.val = none
  val : ∀ v, c.val = some v → s.eff x = v

/-- A step that is not specified to do anything, and that nobody sees. -/
theorem Agrees.same (h : Agrees s x c) (heff : s'.eff x = s.eff x)
    (hdoomed : s'.doomed = s.doomed) (hadding : s'.adding = s.adding)
    (hcommitting : s'.committing = s.committing) : Agrees s' x c := by
  refine ⟨?_, hadding ▸ h.adding, ?_, fun v hv => heff.trans (h.val v hv)⟩
  · exact hdoomed ▸ h.doomed
  · exact hcommitting ▸ hdoomed ▸ h.blank

variable {mof nb age : Nat}

section
variable (hi : RollInv s)
include hi

section
variable (h : Agrees s x c)
include h

theorem agrees_addBegin {dt : DeltaType} {src : Nat → β} (hs : s.addBegin mof nb dt src = some s') :
    Agrees s' x (c.step x (.addBegin mof nb dt src)) := by
  unfold addBegin at hs
  simp only [ite_none_right_eq_some, and_eq_true, decide_eq_true_eq, some.injEq] at hs
  obtain ⟨⟨⟨⟨hfree, _⟩, _⟩, hcancel⟩, rfl⟩ := hs
  refine ⟨h.doomed, rfl, fun hc => ?_, fun v hv => ?_⟩
  · exact nomatch (logFree_iff.mp hfree).2.symm.trans hc
  simp only [Cell.step, ite_none_left_eq_some] at hv
  rw [← h.val v hv.2]
  refine eff_filterMap hi (supersede_keepsRoll s.map mof nb) rfl rfl rfl ?_
  -- What is freed lies within the new data, which does not cover the byte.
  intro e _ hfe hx
  rcases superseded_cases mof nb e with ⟨_, heq⟩ | ⟨hcons, _⟩
  · exact absurd (heq.symm.trans hfe) (some_ne_none e)
  · have hin := Me.covers_of_within ((consumes_iff mof nb e).mp hcons).2.1 hx
    have hnew : (newEntry mof nb dt src).at x ≠ none := Me.at_ne_none.mpr ⟨hcancel, hin⟩
    exact absurd (isSome_iff_ne_none.mpr hnew) hv.1

theorem agrees_addEnd (hs : s.addEnd = some s') : Agrees s' x (c.step x .addEnd) := by
  unfold addEnd at hs
  split at hs
  · cases hs
  next me hme =>
    obtain ⟨hcommitting, _, _, _, hroll, _⟩ := hi.map.adding me hme
    have heff : s'.eff x = (me.at x).getD (s.eff x) := by
      cases hs
      refine Eq.trans (eff_put ?_ rfl rfl rfl) rfl
      exact hroll
    cases hs
    have hadding := h.adding
    rw [hme, bind_some] at hadding
    have hblank : ∀ o : Option β, s.committing = true → o = none := fun o hc =>
      nomatch hcommitting.symm.trans hc
    simp only [Cell.step, hadding]
    cases hat : me.at x with
    | none =>
      rw [hat] at hadding heff
      refine ⟨?_, hadding, fun hc _ => hblank _ hc, fun v hv => heff.trans (h.val v hv)⟩
      simp only [hat, h.doomed, isSome_none, Bool.not_false, Bool.and_true]
    | some v =>
      rw [hat] at heff
      refine ⟨?_, rfl, fun hc _ => hblank _ hc, fun w hw => ?_⟩
      · simp only [hat, isSome_some, Bool.not_true, Bool.and_false]
      · exact heff.trans (some.inj hw)

theorem agrees_cancel (hs : s.cancel mof nb = some s') :
    Agrees s' x (c.step x (.cancel mof nb)) := by
  unfold cancel at hs
  simp only [ite_none_right_eq_some, and_eq_true, not_eq_true', some.injEq] at hs
  obtain ⟨⟨⟨hcommitting, _⟩, _⟩, rfl⟩ := hs
  refine ⟨congrArg (· || _) h.doomed, h.adding, fun hc => ?_, fun v hv => ?_⟩
  · exact nomatch hcommitting.symm.trans hc
  · rw [← h.val v hv]
    refine eff_map hi (fun e => ?_) rfl rfl rfl
    split <;> exact ⟨rfl, rfl⟩

/-- A turn of `logmap_free_cancel` is seen only where a byte was cancelled. -/
theorem agrees_freeCancel (hs : s.freeCancel age = some s') : Agrees s' x c := by
  unfold freeCancel at hs
  simp only [ite_none_right_eq_some, and_eq_true, some.injEq] at hs
  obtain ⟨⟨hcommitting, _⟩, rfl⟩ := hs
  refine ⟨h.doomed, h.adding, h.blank, fun v hv => ?_⟩
  rw [← h.val v hv]
  refine eff_filterMap hi (freeCancelOne_keepsRoll s.map age) rfl rfl rfl ?_
  intro e he hfe hx
  obtain ⟨hcancel, _⟩ := freed_none hfe
  -- The byte was not cancelled, so a delta of the transaction covers it.
  rcases hi.map.covered e he hcancel x hx with hdoomed | ⟨n, hn, _⟩ | ⟨d, hd, hdc, hdt, hdx, hlt⟩
  · exact absurd ((h.blank hcommitting hdoomed).symm.trans hv) (some_ne_none v).symm
  · exact nomatch (hi.map.adding n hn).1.symm.trans hcommitting
  · refine ⟨d, hd, hlt, hdx, ?_, ?_⟩
    · rw [freed_of_not_cancel hdc]
      exact some_ne_none d
    · by_contra hroll
      have htid := (hi.map.rolls d hd (eq_true_of_not_eq_false hroll)).1
      have hcom := hi.map.committing hcommitting
      omega

/-- Every step does to a byte what is specified. -/
theorem agrees_step {op : RollOp β} (hs : s.step op = some s') : Agrees s' x (c.step x op) := by
  cases op with
  | addBegin mof nb dt src => exact agrees_addBegin hi h hs
  | addEnd => exact agrees_addEnd hi h hs
  | cancel mof nb => exact agrees_cancel hi h hs
  | freeCancel age => exact agrees_freeCancel hi h hs
  | cancelDelta mof nb =>
    obtain ⟨-, heq⟩ := ite_none_right_eq_some.mp hs
    cases heq
    refine h.same (Eq.trans (eff_put ?_ rfl rfl rfl) rfl) rfl rfl rfl
    rfl
  | commitBegin =>
    obtain ⟨-, heq⟩ := ite_none_right_eq_some.mp hs
    cases heq
    refine ⟨h.doomed, h.adding, fun _ hd => ?_, fun v hv => ?_⟩
    · exact if_pos (h.doomed.trans hd)
    · simp only [Cell.step, ite_none_left_eq_some] at hv
      exact h.val v hv.2
  | commitEnd =>
    obtain ⟨-, heq⟩ := ite_none_right_eq_some.mp hs
    cases heq
    exact ⟨rfl, h.adding, nofun, h.val⟩
  | commitDone =>
    obtain ⟨-, heq⟩ := ite_none_right_eq_some.mp hs
    cases heq
    exact h.same rfl rfl rfl rfl
  | listGet mof nb =>
    obtain ⟨-, heq⟩ := ite_none_left_eq_some.mp hs
    cases heq
    refine h.same (eff_map hi (fun e => ?_) rfl rfl rfl) rfl rfl rfl
    split <;> exact ⟨rfl, rfl⟩
  | listPut i =>
    simp only [step, listPut] at hs
    split at hs
    · cases hs
    next ages _ =>
      cases hs
      refine h.same (eff_map hi (fun e => ?_) rfl rfl rfl) rfl rfl rfl
      split <;> exact ⟨rfl, rfl⟩
  | sethead =>
    simp only [step, sethead] at hs
    split at hs
    · obtain ⟨-, heq⟩ := ite_none_right_eq_some.mp hs
      cases heq
      exact h.same rfl rfl rfl rfl
    · cases hs
  | roll =>
    obtain ⟨heff, hdoomed, hadding, hcommitting, _⟩ := roll_unseen hi hs x
    exact h.same heff hdoomed hadding hcommitting

end

/-- A byte of a state is as specified there. -/
theorem agrees_cell (hpc : s.pc.frees = false) : Agrees s x (s.cell x) := by
  refine ⟨rfl, rfl, fun hc hd => ?_, fun v hv => ?_⟩
  · simp only [cell, hc, hd, Bool.and_self, Bool.or_true, if_true]
  · simp only [cell, ite_none_left_eq_some, some.injEq] at hv
    rw [← view_eq_eff hi hpc]
    exact hv.2

end

/-- Every run does to a byte what is specified. -/
theorem agrees_exec (ops : List (RollOp β)) (hi : RollInv s) (h : Agrees s x c)
    (hs : (rolling β).exec s ops = some s') :
    RollInv s' ∧ Agrees s' x (ops.foldl (fun c op => c.step x op) c) := by
  induction ops generalizing s c with
  | nil =>
    simp only [System.exec, some.injEq] at hs
    exact hs ▸ ⟨hi, h⟩
  | cons op ops ih =>
    simp only [System.exec, bind_eq_some_iff] at hs
    obtain ⟨t, hst, hts⟩ := hs
    exact ih (inv_step hi hst) (agrees_step hi h hst) hts

/-- A byte that no operation says anything about stays as it is. -/
theorem Cell.steps_of_untouched (ops : List (RollOp β)) (val : Option β)
    (hops : ∀ op ∈ ops, op.touches x = false) :
    ops.foldl (fun c op => Cell.step x c op) ⟨val, false, none⟩ = ⟨val, false, none⟩ := by
  induction ops with
  | nil => rfl
  | cons op ops ih =>
    have hstep : Cell.step x ⟨val, false, none⟩ op = ⟨val, false, none⟩ := by
      have hop := hops op mem_cons_self
      cases op with
      | addBegin mof nb dt src =>
        have hat : (newEntry mof nb dt src).at x = none := by
          rw [← isNone_iff_eq_none, ← isSome_eq_false_iff]
          exact hop
        simp only [Cell.step, hat, isSome_none, false_eq_true, if_false]
      | cancel mof nb =>
        change (decide (mof ≤ x) && decide (x < mof + nb)) = false at hop
        simp only [Cell.step, hop, Bool.or_false]
      | _ => rfl
    rw [foldl_cons, hstep]
    exact ih (forall_mem_cons.mp hops).2

end

/-! ### The view -/

/-- From one point between the frees of the roll thread to another, with any
    number of its cycles and anything else in between, every byte that is seen
    through the logmap is what the additions and the commits of cancels make
    it. Where there are none of these it stays as it was. And what reaches the
    master is data of a delta that is neither of the current nor of the
    committing transaction. -/
theorem roll_preserves_view (β : Type) [Zero β] :
    (∀ (s s' : RollState β) (ops : List (RollOp β)), (rolling β).Reachable s →
      (rolling β).exec s ops = some s' → s.pc.frees = false → s'.pc.frees = false →
        ∀ x v, (ops.foldl (fun c op => c.step x op) (s.cell x)).val = some v → s'.view x = v) ∧
    (∀ (s s' : RollState β) (ops : List (RollOp β)), (rolling β).Reachable s →
      (rolling β).exec s ops = some s' → s.pc.frees = false → s'.pc.frees = false →
        ∀ x, (s.adding.bind fun me => me.at x) = none → s.doomed x = false →
          (∀ op ∈ ops, op.touches x = false) → s'.view x = s.view x) ∧
    (∀ (s s' : RollState β) (op : RollOp β), (rolling β).Reachable s →
      (rolling β).step s op = some s' → ∀ x, s'.master x ≠ s.master x →
        ∃ e ∈ s.map.entries, e.at x = some (s'.master x) ∧ e.tid ≠ s.map.tid ∧
          e.tid ≠ s.map.committid) := by
  have hview : ∀ (s s' : RollState β) (ops : List (RollOp β)), (rolling β).Reachable s →
      (rolling β).exec s ops = some s' → s.pc.frees = false → s'.pc.frees = false →
        ∀ x v, (ops.foldl (fun c op => c.step x op) (s.cell x)).val = some v → s'.view x = v := by
    intro s s' ops hr hs hpc hpc' x v hv
    have hi := rolling_inv s hr
    obtain ⟨hi', hagrees⟩ := agrees_exec ops hi (agrees_cell hi hpc) hs
    rw [view_eq_eff hi' hpc']
    exact hagrees.val v hv
  refine ⟨hview, ?_, fun s s' op hr hs x hx => master_of_step (rolling_inv s hr) hs hx⟩
  intro s s' ops hr hs hpc hpc' x hadding hdoomed hops
  refine hview s s' ops hr hs hpc hpc' x (s.view x) ?_
  have hcell : s.cell x = ⟨some (s.view x), false, none⟩ := by
    simp only [cell, hadding, hdoomed, isSome_none, Bool.and_false, Bool.or_false,
      false_eq_true, if_false]
  rw [hcell, Cell.steps_of_untouched ops _ hops]

/-- An empty logmap and a roll thread with one block. -/
def rollSample : RollState Nat where
  map := { entries := [], nhash := 1, tid := 1, committid := 1, age := 0, dirty := 0 }
  master := fun _ => 0
  adding := none
  committing := false
  doomed := fun _ => false
  readers := []
  nmblk := 1
  pws := fun _ =>
    { inuse := false, rem := false, blkno := 0, secmap := 0,
      bp := { blkno := 0, addr := 0, bcount := 0, data := fun _ => 0 } }
  nbuf := 0
  pc := .build

/-- A delta is added and committed, and rolled. -/
def rollSampleOps : List (RollOp Nat) :=
  [.addBegin 0 4 .dir (fun _ => 7), .addEnd, .commitBegin, .commitEnd, .commitDone] ++
    replicate 11 .roll

/-- In the end the delta is on the master, and is seen as it was before. -/
theorem roll_preserves_view_cycle :
    ((rolling Nat).exec rollSample rollSampleOps).any (fun s' => s'.map.entries.isEmpty &&
      !s'.pc.frees && s'.master 2 == 7) = true ∧
      ∃ s', (rolling Nat).exec rollSample rollSampleOps = some s' ∧ s'.view 2 = 7 := by
  have hrun : ((rolling Nat).exec rollSample rollSampleOps).any (fun s' => s'.map.entries.isEmpty &&
      !s'.pc.frees && s'.master 2 == 7) = true := by
    decide +kernel
  refine ⟨hrun, ?_⟩
  cases hs : (rolling Nat).exec rollSample rollSampleOps with
  | none =>
    rw [hs] at hrun
    cases hrun
  | some s' =>
    rw [hs, any_some, and_eq_true, and_eq_true, not_eq_true'] at hrun
    refine ⟨s', rfl, ?_⟩
    exact (roll_preserves_view Nat).1 rollSample s' rollSampleOps
      (System.Reachable.of_init _ _ ⟨rfl, rfl, rfl, fun _ => rfl, fun _ => ⟨rfl, rfl, rfl⟩, rfl⟩)
      hs rfl hrun.1.2 2 7 rfl

end Sol7.UfsLog
