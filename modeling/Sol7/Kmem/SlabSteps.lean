import Sol7.Kmem.SlabLists

/-!
# The Steps of the Slab Layer

Every step of the slab layer keeps the invariant, and no step is a fault.

## Theorems

* `Inv.reframe`: A section that does not touch the ring and the chains.
* `Inv.retire`, `Inv.linkSlab`: Taking a slab off the ring and putting one there.
* `Inv.allocBegin`, `Inv.allocResume`, `Inv.kmemCacheFreeGlobal`: The sections with the lock.
* `Inv.kmemSlabCreate`, `Inv.pageFree`, `Inv.release`: The sections without it.
* `Inv.hashRescale`: The new hash table.
* `step_inv`: All of them.
-/

namespace Sol7.Kmem

open List Option Function

variable {c : Config} {w w' : World} {g : Ghost} {t sp b : Nat}

namespace Inv

/-! ### Sections without the lock -/

variable (h : Inv c w g)
include h

/-- A section that does not touch the ring, the chains and the slabs on the ring. -/
theorem reframe {store : Store} {head tail bcNext : Nat → Option Nat} {refcnt : Nat → Nat}
    {color : Nat} {call : Nat → Pc} (held paged : List Nat) (cells fs os : Nat → List Nat)
    (harena : Arena c store held paged cells) (hcalls : Calls c call held paged g.live)
    (hnull : head 0 = w.head 0 ∧ tail 0 = w.tail 0) (hlive : g.live ⊆ paged)
    (hsplit : ∀ s ∈ held, (fs s ++ os s).Perm (cells s))
    (htailed : ∀ s ∈ held, Tailed (head s) (tail s) bcNext (fs s))
    (hrefcnt : ∀ s ∈ held, refcnt s = (os s).length) (hidle : ∀ s ∈ held, s ∉ g.live → os s = [])
    (hfs : ∀ s ∈ g.live, fs s = g.fs s) (hos : ∀ s ∈ g.live, os s = g.os s)
    (hchunks : ∀ s ∈ g.live, store.chunks s = w.store.chunks s)
    (haddr : c.hash = true → ∀ s ∈ g.live, ∀ b ∈ g.os s, store.addr b = w.store.addr b)
    (hbc : c.hash = true → ∀ s ∈ g.live, ∀ b ∈ g.os s, bcNext b = w.bcNext b) : Inv c { w with
      store := store
      head := head
      tail := tail
      refcnt := refcnt
      bcNext := bcNext
      color := color
      call := call } { g with
      held := held
      paged := paged
      cells := cells
      fs := fs
      os := os } := by
  have hbuf : ∀ s ∈ g.live, ∀ b ∈ g.os s, store.bufOf c b = w.store.bufOf c b := by
    intro s hs b hb
    unfold Store.bufOf
    split
    · next hash => exact haddr hash s hs b hb
    · rfl
  -- The bufctls of the chains are outstanding.
  have hmem : c.hash = true → ∀ i, ∀ b ∈ g.hs i, ∃ s ∈ g.live, b ∈ g.os s := by
    intro hash i b hb
    rw [← (h.chains hash).home i b hb] at hb
    exact (h.hashed hash b).mp hb
  have hhash : c.hash = true → ∀ s ∈ g.live, ∀ b ∈ g.os s,
      { w with store := store }.hashOf c b = w.hashOf c b := by
    intro hash s hs b hb
    unfold World.hashOf
    rw [haddr hash s hs b hb]
  refine ⟨harena, hcalls, h.fault, h.ring, h.freelist, ?_, hlive, hsplit, htailed, hrefcnt,
    fun s hs => ?_, fun s hs => ?_, hidle, ?_, ?_, fun hash => ?_, fun hash b => ?_⟩ <;> dsimp only
  · rw [hnull.1, hnull.2]
    exact h.null
  · exact (hfs s (mem_append_left _ hs)).trans (h.full s hs)
  · rw [hfs s (mem_append_right _ hs)]
    exact h.free s hs
  · rw [h.buftotal]
    exact congrArg List.sum (map_congr_left fun s hs => (hchunks s hs).symm)
  · refine h.out.trans (List.Perm.of_eq ?_)
    refine flatMap_congr fun s hs => ?_
    rw [hos s hs]
    exact map_congr_left fun b hb => (hbuf s hs b hb).symm
  · refine ((h.chains hash).congr fun i b hb => ?_).congr_hash fun i b hb => ?_
    · obtain ⟨s, hs, hb'⟩ := hmem hash i b hb
      exact hbc hash s hs b hb'
    · obtain ⟨s, hs, hb'⟩ := hmem hash i b hb
      exact hhash hash s hs b hb'
  · constructor
    · intro hb
      obtain ⟨s, hs, hb'⟩ := hmem hash _ b hb
      refine ⟨s, hs, ?_⟩
      rw [hos s hs]
      exact hb'
    · rintro ⟨s, hs, hb⟩
      rw [hos s hs] at hb
      have hb' := (h.hashed hash b).mpr ⟨s, hs, hb⟩
      rw [← hhash hash s hs b hb] at hb'
      exact hb'

theorem goto {pc : Pc}
    (hcalls : Calls c (update w.call t pc) g.held g.paged g.live) : Inv c (w.goto t pc) g :=
  { h with calls := hcalls }

/-- The bufctls of a slab off the ring are all free. -/
theorem perm_fs (hsp : sp ∈ g.held) (hnot : sp ∉ g.live) : (g.fs sp).Perm (g.cells sp) := by
  have hsplit := h.split sp hsp
  rwa [h.idle sp hsp hnot, append_nil] at hsplit

theorem fs_ne_nil (hsp : sp ∈ g.held) (hnot : sp ∉ g.live) : g.fs sp ≠ [] := by
  intro hnil
  have hlen := (h.perm_fs hsp hnot).length_eq
  have hpos := c.perSlab_pos
  rw [hnil, h.arena.length_cells hsp, h.arena.chunks sp hsp, length_nil] at hlen
  omega

/-- A slab loses its pages, and with them a raw slab disappears. -/
theorem pageFree (hpc : w.call t = .destroy sp) : ∃ g', Inv c (Kmem.pageFree c w t sp) g' := by
  obtain ⟨hpg, hnot⟩ := h.calls.destroy t sp hpc
  have hown : (w.call t).owner = some sp := by rw [hpc]; rfl
  have hno := h.calls.not_owner_idle hown
  have hfilter : ∀ (l : List Nat) s, s ∈ l.filter (· ≠ sp) ↔ s ∈ l ∧ s ≠ sp := by simp
  obtain ⟨held, hkeep⟩ : ∃ held : List Nat, ∀ s, s ∈ held ↔
      s ∈ g.held ∧ (c.hash = false → s ≠ sp) :=
    ⟨g.held.filter fun s => c.hash = false → s ≠ sp, fun s => by
      simp only [mem_filter, decide_eq_true_eq]⟩
  have harena : Arena c { w.store with
      pages := w.store.pages.filter (· ≠ c.pageBase (w.store.base sp)) }
      held (g.paged.filter (· ≠ sp)) g.cells := by
    refine h.arena.shrink (fun s hs => ((hkeep s).mp hs).1) filter_sublist.subset
      (fun s hs => ?_) (fun hash s hs => ?_) (fun _ _ => rfl) (fun _ _ => rfl) (fun _ _ => rfl)
      (fun _ _ _ _ _ => rfl) (fun _ _ _ _ _ => rfl) (fun s hs => ?_) filter_sublist.subset
      (fun hash s hs => h.arena.slabs hash s ((hkeep s).mp hs).1)
      fun hash s hs => h.arena.bufctls hash s ((hkeep s).mp hs).1
    · obtain ⟨hs, hne⟩ := (hfilter _ s).mp hs
      exact (hkeep s).mpr ⟨h.arena.sub hs, fun _ => hne⟩
    · obtain ⟨hs, hne⟩ := (hkeep s).mp hs
      exact (hfilter _ s).mpr ⟨h.arena.raw hash hs, hne hash⟩
    · -- The page of another slab is another page.
      obtain ⟨hs, hne⟩ := (hfilter _ s).mp hs
      refine mem_filter.mpr ⟨h.arena.page s hs, ?_⟩
      exact decide_eq_true fun heq => hne (h.arena.page_inj s hs sp hpg heq)
  have hshrink := (h.calls.goto_idle).shrink held (g.paged.filter (· ≠ sp)) hno
    (fun s hs hne => (hkeep s).mpr ⟨hs, fun _ => hne⟩)
    (fun s hs hne => (hfilter _ s).mpr ⟨hs, hne⟩) filter_sublist.subset
  have hcalls : Calls c (update w.call t (if c.hash then .release sp else .idle)) held
      (g.paged.filter (· ≠ sp)) g.live := by
    cases hash : c.hash with
    | false => exact hshrink
    | true =>
      have hok : (Pc.release sp).Ok c held (g.paged.filter (· ≠ sp)) g.live :=
        ⟨hash, (hkeep sp).mpr ⟨h.arena.sub hpg, by simp [hash]⟩, by simp⟩
      have hgoto := hshrink.goto t (.release sp) hok fun t' _ _ => hno t'
      rwa [update_idem] at hgoto
  have hsub : ∀ s ∈ held, s ∈ g.held := fun s hs => ((hkeep s).mp hs).1
  refine ⟨_, h.reframe _ _ g.cells g.fs g.os harena hcalls ⟨rfl, rfl⟩ (fun s hs => ?_)
    (fun s hs => h.split s (hsub s hs)) (fun s hs => h.tailed s (hsub s hs))
    (fun s hs => h.refcnt s (hsub s hs)) (fun s hs => h.idle s (hsub s hs)) (fun _ _ => rfl)
    (fun _ _ => rfl) (fun _ _ => rfl) (fun _ _ _ _ _ => rfl) fun _ _ _ _ _ => rfl⟩
  exact (hfilter _ s).mpr ⟨h.live hs, fun heq => hnot (heq ▸ hs)⟩

/-- A slab of a hashed cache disappears. -/
theorem release (hpc : w.call t = .release sp) :
    ∃ w' g', Kmem.release w t sp = some w' ∧ Inv c w' g' := by
  obtain ⟨hash, hheld, hpg⟩ := h.calls.release t sp hpc
  have hnot : sp ∉ g.live := fun hs => hpg (h.live hs)
  have hown : (w.call t).owner = some sp := by rw [hpc]; rfl
  have htl := h.tailed sp hheld
  have hsp0 : (0 : Nat) ≠ sp := fun heq => h.arena.ne sp hheld heq.symm
  rcases eq_nil_or_concat' (g.fs sp) with hnil | ⟨l, old, hfs⟩
  · exact absurd hnil (h.fs_ne_nil hheld hnot)
  have htail : w.tail sp = some old := by rw [htl.tail, hfs, getLast?_concat]
  have hold : old ∈ g.fs sp := by simp [hfs]
  rw [htail] at htl
  have hsub : g.fs sp ⊆ w.store.bufctls :=
    fun b hb => h.arena.bufctls hash sp hheld b (h.fs_sub hheld hb)
  have hlen := (htl.nodup.subperm hsub).length_le
  have hwalk := freeBufctls_spec w.store.bufctls htl.threaded (Nat.lt_succ_of_le hlen)
  have hfilter : ∀ (l : List Nat) s, s ∈ l.filter (· ≠ sp) ↔ s ∈ l ∧ s ≠ sp := by simp
  have hsub' : ∀ s ∈ g.held.filter (· ≠ sp), s ∈ g.held ∧ s ≠ sp := fun s hs => (hfilter _ s).mp hs
  have hother : ∀ s ∈ g.held, s ≠ sp → ∀ b ∈ g.cells s, b ∉ g.fs sp := by
    intro s hs hne b hb hb'
    exact hne (h.arena.cell_unique hs hheld hb (h.fs_sub hheld hb'))
  have hbc : ∀ s ∈ g.held, s ≠ sp → ∀ b ∈ g.cells s, update w.bcNext old none b = w.bcNext b := by
    intro s hs hne b hb
    exact update_of_ne (fun heq : b = old => hother s hs hne b hb (heq ▸ hold)) _ _
  unfold Kmem.release
  rw [htail]
  change ∃ w' g', bind (freeBufctls (update w.bcNext old none)
    (w.store.bufctls.length + 1) (w.head sp) w.store.bufctls) _ = some w' ∧ _
  rw [hwalk]
  refine ⟨_, _, rfl, h.reframe (g.held.filter (· ≠ sp)) g.paged g.cells g.fs g.os ?_ ?_
    ⟨?_, rfl⟩ h.live (fun s hs => h.split s (hsub' s hs).1) (fun s hs => ?_) (fun s hs => h.refcnt s (hsub' s hs).1)
    (fun s hs => h.idle s (hsub' s hs).1) (fun _ _ => rfl) (fun _ _ => rfl) (fun _ _ => rfl)
    (fun _ _ _ _ _ => rfl) fun _ s hs b hb => ?_⟩
  · refine h.arena.shrink filter_sublist.subset (fun s hs => hs) (fun s hs => ?_) (by simp [hash])
      (fun _ _ => rfl) (fun _ _ => rfl) (fun _ _ => rfl) (fun _ _ _ _ _ => rfl)
      (fun _ _ _ _ _ => rfl) h.arena.page (fun p hp => hp) (fun _ s hs => ?_) fun _ s hs b hb => ?_
    · exact (hfilter _ s).mpr ⟨h.arena.sub hs, fun heq => hpg (heq ▸ hs)⟩
    · exact (hfilter _ s).mpr ⟨h.arena.slabs hash s (hsub' s hs).1, (hsub' s hs).2⟩
    · refine mem_filter.mpr ⟨h.arena.bufctls hash s (hsub' s hs).1 b hb, decide_eq_true ?_⟩
      exact hother s (hsub' s hs).1 (hsub' s hs).2 b hb
  · exact h.calls.goto_idle.shrink _ _ (h.calls.not_owner_idle hown)
      (fun s hs hne => (hfilter _ s).mpr ⟨hs, hne⟩) (fun s hs _ => hs) fun s hs => hs
  · exact update_of_ne hsp0 ..
  · obtain ⟨hs', hne⟩ := hsub' s hs
    have hhead : update w.head sp none s = w.head s := update_of_ne hne ..
    change Tailed (update w.head sp none s) (w.tail s) _ _
    rw [hhead]
    exact (h.tailed s hs').congr fun b hb => hbc s hs' hne b (h.fs_sub hs' hb)
  · have hne : s ≠ sp := fun heq => hnot (heq ▸ hs)
    exact hbc s (h.live_held hs) hne b (h.os_sub (h.live_held hs) hb)

variable {buf page color k : Nat}

/-- A client writes into a raw buffer. The bufctl there is on no list. -/
theorem scribble (hash : c.hash = false) (hbuf : buf ∈ w.out) (v : Option Nat) :
    Inv c { w with bcNext := update w.bcNext (buf + c.offset) v } g := by
  obtain ⟨sp, hsp, b, hb, rfl⟩ := h.mem_out.mp hbuf
  have hheld := h.live_held hsp
  have hoff := h.arena.cell hash sp hheld b (h.os_sub hheld hb)
  have hcell : w.store.bufOf c b + c.offset = b := by
    unfold Store.bufOf
    rw [hash]
    simp only [Bool.false_eq_true, if_false]
    omega
  rw [hcell]
  refine h.reframe _ _ _ _ _ h.arena h.calls ⟨rfl, rfl⟩ h.live h.split
    (fun s hs => ?_) h.refcnt h.idle (fun _ _ => rfl) (fun _ _ => rfl) (fun _ _ => rfl)
    (fun _ _ _ _ _ => rfl) (by simp [hash])
  refine (h.tailed s hs).congr fun x hx => update_of_ne ?_ _ _
  rintro rfl
  exact h.not_mem_os hs hx hheld hb

/-! ### A new slab -/

omit h in
/-- A slab has room for its number of chunks, whatever its color is. -/
theorem length_eq_perSlab (hcolor : color ≤ c.maxcolor)
    (hle : page + color + k * c.chunksize ≤ page + c.room)
    (hlt : page + c.room < page + color + (k + 1) * c.chunksize) : k = c.perSlab := by
  have hroom := c.maxcolor_add
  have hmod : c.maxcolor < c.chunksize := Nat.mod_lt _ c.chunksize_pos
  have hk : k < c.perSlab + 1 := by
    refine Nat.lt_of_mul_lt_mul_right (a := c.chunksize) ?_
    rw [Nat.succ_mul]
    omega
  have hk' : c.perSlab < k + 1 := by
    refine Nat.lt_of_mul_lt_mul_right (a := c.chunksize) ?_
    omega
  omega

theorem withSlab {l : List Nat} {f : Fill}
    (hf : Filled c sp (page + color) (w.toFill sp) l f) (hlen : l.length = c.perSlab)
    (hcolor : color ≤ c.maxcolor) (hp : c.pagesize ∣ page)
    (hfresh : ∀ q ∈ w.store.pages, page + c.slabsize ≤ q ∨ q + c.slabsize ≤ page)
    (hsp : c.hash = true → sp ≠ 0 ∧ sp ∉ w.store.slabs)
    (hraw : c.hash = false → sp = page + c.slabsize - c.sizeofSlab)
    (hnew : c.hash = true → ∀ b ∈ l, b ∉ w.store.bufctls) :
    ∃ g', Inv c (w.withSlab c t page color sp l.length f) g' := by
  have hnot : sp ∉ g.held := h.arena.fresh hfresh (fun hash => (hsp hash).2) hraw
  have harena := h.arena.create hf rfl rfl rfl hlen hcolor hp hfresh hsp hraw hnew
  have hne : ∀ s ∈ g.held, s ≠ sp := fun s hs heq => hnot (heq ▸ hs)
  have hsp0 : (0 : Nat) ≠ sp := fun heq => harena.ne sp mem_cons_self heq.symm
  have hl : l ≠ [] := by
    intro hnil
    have hpos := c.perSlab_pos
    rw [← hlen, hnil, length_nil] at hpos
    omega
  -- The bufctls of other slabs are not written.
  have hother : ∀ s ∈ g.held, ∀ b ∈ g.cells s, b ∉ l := by
    intro s hs b hb hbl
    refine hne s hs (harena.cell_unique (mem_cons_of_mem _ hs) mem_cons_self ?_ ?_ (b := b))
    · rwa [update_of_ne (hne s hs)]
    · rwa [update_self]
  have hno : ∀ t', (w.call t').owner ≠ some sp :=
    fun t' hown => hnot (h.calls.owner_held h.arena.sub hown)
  have hlive : sp ∉ g.live := fun hs => hnot (h.live_held hs)
  have hcalls : Calls c (update w.call t (.built sp)) (sp :: g.held) (sp :: g.paged)
      g.live := by
    have hgrow := h.calls.grow (sp :: g.held) (sp :: g.paged) g.live hno (subset_cons_self _ _)
      (subset_cons_self _ _) (fun s hs => (mem_cons.mp hs).symm) fun s hs => .inl hs
    exact hgrow.goto _ _ ⟨mem_cons_self, hlive⟩ fun t' _ _ => hno t'
  refine ⟨_, h.reframe _ _ _ (update g.fs sp l) (update g.os sp []) harena hcalls ⟨?_, ?_⟩
    (fun s hs => mem_cons_of_mem _ (h.live hs)) (fun s hs => ?_) (fun s hs => ?_) (fun s hs => ?_)
    (fun s hs hns => ?_) (fun s hs => ?_) (fun s hs => ?_) (fun s hs => ?_) (fun _ s hs b hb => ?_)
    fun _ s hs b hb => ?_⟩
  · exact update_of_ne hsp0 ..
  · exact update_of_ne hsp0 ..
  · rcases mem_cons.mp hs with rfl | hs
    · rw [update_self, update_self, update_self, append_nil]
    · simp only [update_of_ne (hne s hs)]
      exact h.split s hs
  · rcases mem_cons.mp hs with rfl | hs
    · rw [update_self, update_self, update_self, hf.tail hl]
      exact Tailed.of_threaded hf.chain hf.nodup
    · simp only [update_of_ne (hne s hs)]
      exact (h.tailed s hs).congr fun b hb => hf.next_of b (hother s hs b (h.fs_sub hs hb))
  · rcases mem_cons.mp hs with rfl | hs
    · rw [update_self, update_self]
      rfl
    · simp only [update_of_ne (hne s hs)]
      exact h.refcnt s hs
  · rcases mem_cons.mp hs with rfl | hs
    · exact update_self ..
    · rw [update_of_ne (hne s hs)]
      exact h.idle s hs hns
  · exact update_of_ne (hne s (h.live_held hs)) _ _
  · exact update_of_ne (hne s (h.live_held hs)) _ _
  · exact update_of_ne (hne s (h.live_held hs)) _ _
  · exact hf.addr_of b (hother s (h.live_held hs) b (h.os_sub (h.live_held hs) hb))
  · exact hf.next_of b (hother s (h.live_held hs) b (h.os_sub (h.live_held hs) hb))

/-- A bufctl was missing, and everything is given back. -/
theorem withoutSlab (hash : c.hash = true) {l : List Nat} {f : Fill}
    (hf : Filled c sp (page + color) (w.toFill sp) l f) (hsp : sp ≠ 0 ∧ sp ∉ w.store.slabs)
    (hnew : ∀ b ∈ l, b ∉ w.store.bufctls) :
    ∃ w', w.withoutSlab t page color sp f = some w' ∧ Inv c w' g := by
  have hnot : sp ∉ g.held := fun hs => hsp.2 (h.arena.slabs hash sp hs)
  have hne : ∀ s ∈ g.held, s ≠ sp := fun s hs heq => hnot (heq ▸ hs)
  have hbufctls : f.bufctls = l ++ w.store.bufctls := hf.bufctls.trans (if_pos hash)
  have hlen : l.length < f.bufctls.length + 1 := by
    rw [hbufctls, length_append]
    omega
  have hother : ∀ s ∈ g.held, ∀ b ∈ g.cells s, b ∉ l :=
    fun s hs b hb hbl => hnew b hbl (h.arena.bufctls hash s hs b hb)
  unfold World.withoutSlab
  rw [freeBufctls_spec _ hf.chain hlen]
  refine ⟨_, rfl, h.reframe g.held g.paged g.cells g.fs g.os ?_ h.calls.goto_idle ⟨?_, ?_⟩
    h.live h.split (fun s hs => ?_) (fun s hs => ?_) h.idle (fun _ _ => rfl) (fun _ _ => rfl) (fun _ _ => rfl)
    (fun _ s hs b hb => ?_) fun _ s hs b hb => ?_⟩
  · refine h.arena.shrink (fun s hs => hs) (fun s hs => hs) h.arena.sub h.arena.raw
      (fun s hs => update_of_ne (hne s hs) ..)
      (fun s hs => update_of_ne (hne s hs) ..) (fun _ _ => rfl)
      (fun _ s hs b hb => hf.addr_of b (hother s hs b hb))
      (fun _ s hs b hb => hf.slab_of b (hother s hs b hb)) h.arena.page (fun p hp => hp)
      h.arena.slabs fun _ s hs b hb => ?_
    refine mem_filter.mpr ⟨?_, decide_eq_true (hother s hs b hb)⟩
    rw [hbufctls]
    exact mem_append_right _ (h.arena.bufctls hash s hs b hb)
  · exact update_of_ne hsp.1.symm _ _
  · exact update_of_ne hsp.1.symm _ _
  · simp only [update_of_ne (hne s hs)]
    exact (h.tailed s hs).congr fun b hb => hf.next_of b (hother s hs b (h.fs_sub hs hb))
  · rw [update_of_ne (hne s hs)]
    exact h.refcnt s hs
  · exact hf.addr_of b (hother s (h.live_held hs) b (h.os_sub (h.live_held hs) hb))
  · exact hf.next_of b (hother s (h.live_held hs) b (h.os_sub (h.live_held hs) hb))

theorem kmemSlabCreate (hpc : w.call t = .create color) {a : Answers} (hfresh : a.Fresh c w.store) :
    ∃ w' g', Kmem.kmemSlabCreate c w t color a = some w' ∧ Inv c w' g' := by
  obtain ⟨hpage, hslab, hnd, hbufctl⟩ := hfresh
  have hcolor := h.calls.color t color hpc
  have hidle : Inv c (w.goto t .idle) g := h.goto h.calls.goto_idle
  unfold Kmem.kmemSlabCreate
  cases hp : a.page with
  | none => exact ⟨_, g, rfl, hidle⟩
  | some page =>
    dsimp only
    obtain ⟨hdvd, hapart⟩ := hpage page hp
    cases hsp : (if c.hash then a.slab else some (page + c.slabsize - c.sizeofSlab)) with
    | none => exact ⟨_, g, rfl, hidle⟩
    | some sp =>
      dsimp only
      have hhash : c.hash = true → sp ≠ 0 ∧ sp ∉ w.store.slabs := by
        intro hash
        rw [if_pos hash] at hsp
        exact hslab sp hsp
      have hraw : c.hash = false → sp = page + c.slabsize - c.sizeofSlab := by
        intro hash
        rw [hash] at hsp
        exact (some.inj hsp).symm
      have hroom := c.maxcolor_add
      have hfuel : page + c.room < page + color + 0 * c.chunksize + (c.slabsize + 1) * c.chunksize := by
        have hle := c.room_le
        have hmul := Nat.le_mul_of_pos_right (c.slabsize + 1) c.chunksize_pos
        omega
      obtain ⟨f, l, ok, heq, hf, hmem, hok, hbound⟩ :=
          fillLoop_spec (Filled.start c sp (page + color) (w.toFill sp) rfl)
        (fun _ => (take_zero).symm) hnd (by rw [length_nil]; omega) hfuel
      simp only [length_nil, zero_mul, add_zero] at heq
      have hnew : c.hash = true → ∀ b ∈ l, b ∉ w.store.bufctls :=
        fun hash b hb => hbufctl b (hmem hash b hb)
      rw [heq]
      cases ok with
      | true =>
        obtain ⟨hle, hlt⟩ := hbound rfl
        have hlen := length_eq_perSlab hcolor hle hlt
        obtain ⟨g', hinv⟩ := h.withSlab hf hlen hcolor hdvd hapart hhash hraw hnew
        exact ⟨_, g', rfl, hinv⟩
      | false =>
        have hash : c.hash = true := by
          cases hash : c.hash with
          | true => rfl
          | false => exact absurd (hok hash) (by simp)
        obtain ⟨w', heq', hinv⟩ := h.withoutSlab hash hf (hhash hash) (hnew hash)
        exact ⟨w', g, heq', hinv⟩

/-! ### The hash table -/

theorem hashRescale (hash : c.hash = true) (size : Nat) :
    ∃ w' g', Kmem.hashRescale c w t size = some w' ∧ Inv c w' g' := by
  have hfuel : ∀ i, (g.hs i).length < w.buftotal + 1 :=
    fun i => Nat.lt_succ_of_le (h.length_chain_le hash i)
  rcases rehash_spec (f := fun b => c.kmemHash (size - 1) (w.store.addr b))
    (h.chains hash) hfuel with ⟨r, hs, heq, hchains, hiff, hframe⟩
  -- All buckets of the old table are moved.
  have hall : ∀ b, w.hashOf c b < w.hashMask + 1 := fun b => Nat.lt_succ_of_le Nat.and_le_right
  have hmem : ∀ b, b ∈ hs (c.kmemHash (size - 1) (w.store.addr b)) ↔ ∃ s ∈ g.live, b ∈ g.os s := by
    intro b
    rw [hiff, and_iff_left (hall b)]
    exact h.hashed hash b
  have hfree : ∀ s ∈ g.held, ∀ b ∈ g.fs s, r.2 b = w.bcNext b := by
    intro s hs' b hb
    refine hframe b fun hin => ?_
    obtain ⟨s', hs'', hb'⟩ := (h.hashed hash b).mp hin.1
    exact h.not_mem_os hs' hb (h.live_held hs'') hb'
  unfold Kmem.hashRescale
  rw [heq]
  refine ⟨_, { g with hs := hs }, rfl, ?_⟩
  exact { h with
    calls := h.calls.goto_idle
    tailed := fun s hs' => (h.tailed s hs').congr (hfree s hs')
    chains := fun _ => hchains
    hashed := fun _ => hmem }

/-! ### The ring -/

/-- A slab without outstanding buffers leaves the ring. -/
theorem retire (hsp : sp ∈ g.free) (hos : g.os sp = []) :
    ∃ w' g', Kmem.retire w t sp = some w' ∧ Inv c w' g' := by
  obtain ⟨x, y, hxy⟩ := append_of_mem hsp
  have hlive : sp ∈ g.live := mem_append_right _ hsp
  have hassoc : g.live = (g.full ++ x) ++ sp :: y := by
    unfold Ghost.live
    rw [hxy, append_assoc]
  have hring := h.ring
  rw [hassoc] at hring
  have hperm : g.live.Perm (sp :: ((g.full ++ x) ++ y)) := hassoc ▸ perm_middle
  have hrem := hring.remove rfl rfl
  have hnot : sp ∉ (g.full ++ x) ++ y := (nodup_cons.mp (nodup_middle.mp hring.nodup)).1
  have hlist : g.full ++ (x ++ y) = (g.full ++ x) ++ y := (append_assoc _ _ _).symm
  have hsub : ∀ s ∈ g.full ++ (x ++ y), s ∈ g.live := by
    intro s hs
    rw [hlist] at hs
    exact hperm.mem_iff.mpr (mem_cons_of_mem _ hs)
  have hother : ∀ s ∈ g.live, s ≠ sp → s ∈ g.full ++ (x ++ y) := by
    intro s hs hne
    rw [hlist]
    exact (mem_cons.mp (hperm.mem_iff.mp hs)).resolve_left hne
  have hfreelist : (if sp = w.freelist then y.head?.getD 0 else w.freelist) =
      (x ++ y).head?.getD 0 := by
    rw [h.freelist, hxy]
    cases x with
    | nil => exact if_pos rfl
    | cons e x =>
      refine if_neg fun heq : sp = e => hnot ?_
      rw [heq]
      simp
  have hcalls : Calls c (update w.call t (.destroy sp)) g.held g.paged
      (g.full ++ (x ++ y)) := by
    exact (h.calls.mono hsub).goto _ _ ⟨h.live hlive, hlist ▸ hnot⟩ fun _ _ _ =>
      h.calls.not_owner h.live hlive
  unfold Kmem.retire
  rw [hring.next_eq, hring.prev_eq]
  refine ⟨_, { g with free := x ++ y }, rfl, h.arena, hcalls, h.fault, ?_, hfreelist, h.null,
    fun s hs => h.live (hsub s hs), h.split, h.tailed, h.refcnt, h.full, fun s hs => ?_,
    fun s hs hns => ?_, ?_, ?_, h.chains, fun hash b => ?_⟩
  · unfold Ghost.live
    rw [hlist]
    exact hrem
  · refine h.free s (hxy ▸ ?_)
    simp only [mem_append, mem_cons] at hs ⊢
    tauto
  · by_cases heq : s = sp
    · exact heq ▸ hos
    · exact h.idle s hs fun hs' => hns (hother s hs' heq)
  · change w.buftotal - w.store.chunks sp = ((g.full ++ (x ++ y)).map w.store.chunks).sum
    rw [h.buftotal, (hperm.map _).sum_eq, map_cons, sum_cons, Nat.add_sub_cancel_left, hlist]
  · refine h.out.trans ((hperm.flatMap_right _).trans (List.Perm.of_eq ?_))
    rw [flatMap_cons, hos, ← hlist]
    rfl
  refine (h.hashed hash b).trans ?_
  constructor
  · rintro ⟨s, hs, hb⟩
    have hne : s ≠ sp := by
      rintro rfl
      rw [hos] at hb
      cases hb
    exact ⟨s, hother s hs hne, hb⟩
  · rintro ⟨s, hs, hb⟩
    exact ⟨s, hsub s hs, hb⟩

/-- A new slab comes to the end of the ring, where it is the only one with a free chunk. -/
theorem linkSlab (hpc : w.call t = .built sp) (hfree : g.free = []) :
    ∃ w' g', Kmem.linkSlab ({ w with buftotal := w.buftotal + w.store.chunks sp }.goto t .idle) sp =
      some w' ∧ Inv c w' g' ∧ g'.free = [sp] := by
  obtain ⟨hpg, hnot⟩ := h.calls.built t sp hpc
  have hheld := h.arena.sub hpg
  have hown : (w.call t).owner = some sp := by rw [hpc]; rfl
  have hlist : g.live = g.full ++ [] := by
    unfold Ghost.live
    rw [hfree]
  have hring := h.ring
  rw [hlist] at hring
  have hins := hring.insert (hlist ▸ hnot) (h.arena.ne sp hheld) rfl rfl
  have hmem : ∀ s, s ∈ g.full ++ [sp] ↔ s ∈ g.live ∨ s = sp := by
    intro s
    rw [hlist, append_nil, mem_append, mem_singleton]
  have hprev : w.prev 0 = some (g.full.getLast?.getD 0) := hring.prev_head
  have hos := h.idle sp hheld hnot
  change ∃ w' g', Option.map _ (w.prev 0) = some w' ∧ _
  rw [hprev]
  refine ⟨_, { g with free := [sp] }, rfl, ⟨h.arena, ?_, h.fault, hins, rfl, h.null, fun s hs => ?_,
    h.split, h.tailed, h.refcnt, h.full, fun s hs => ?_, fun s hs hns => ?_, ?_, ?_, h.chains,
    fun hash b => ?_⟩, rfl⟩
  · exact h.calls.goto_idle.grow _ _ _ (h.calls.not_owner_idle hown) (fun s hs => hs) (fun s hs => hs)
      (fun s hs => .inl hs) fun s hs => (hmem s).mp hs
  · rcases (hmem s).mp hs with hs | rfl
    · exact h.live hs
    · exact hpg
  · obtain rfl := mem_singleton.mp hs
    exact h.fs_ne_nil hheld hnot
  · exact h.idle s hs fun hs' => hns ((hmem s).mpr (.inl hs'))
  · change w.buftotal + w.store.chunks sp = ((g.full ++ [sp]).map w.store.chunks).sum
    rw [h.buftotal, hlist, append_nil, map_append, sum_append, map_singleton, sum_singleton]
  · refine h.out.trans (List.Perm.of_eq ?_)
    change _ = (g.full ++ [sp]).flatMap _
    rw [hlist, append_nil, flatMap_append, flatMap_singleton, hos, map_nil, append_nil]
    rfl
  · refine (h.hashed hash b).trans ?_
    constructor
    · rintro ⟨s, hs, hb⟩
      exact ⟨s, (hmem s).mpr (.inl hs), hb⟩
    rintro ⟨s, hs, hb⟩
    rcases (hmem s).mp hs with hs | rfl
    · exact ⟨s, hs, hb⟩
    · rw [hos] at hb
      cases hb

/-! ### The routines -/

/-- The first slab of the free list. -/
theorem freelist_cases :
    (g.free = [] ∧ w.freelist = 0) ∨ ∃ rest, g.free = w.freelist :: rest ∧ w.freelist ≠ 0 := by
  have hfl := h.freelist
  cases hfree : g.free with
  | nil =>
    rw [hfree] at hfl
    exact .inl ⟨rfl, hfl⟩
  | cons sp rest =>
    rw [hfree] at hfl
    have hsp : w.freelist = sp := hfl
    have hmem : sp ∈ g.live := mem_append_right _ (hfree ▸ mem_cons_self)
    exact .inr ⟨rest, by rw [hsp], hsp ▸ h.arena.ne sp (h.live_held hmem)⟩

theorem allocBegin : ∃ w' g', Kmem.allocBegin c w t = some w' ∧ Inv c w' g' := by
  unfold Kmem.allocBegin
  rcases h.freelist_cases with ⟨hfree, hzero⟩ | ⟨rest, hfree, hne⟩
  · have hcond : w.head w.freelist = w.tail w.freelist ∧ w.head w.freelist = none := by
      rw [hzero, h.null.1, h.null.2]
      exact ⟨rfl, rfl⟩
    have hcolor : nextColor c w ≤ c.maxcolor := by
      unfold nextColor
      split
      · exact zero_le
      · omega
    rw [if_pos hcond]
    exact ⟨_, g, rfl, { h with calls := h.calls.goto _ _ hcolor fun _ _ hne => absurd rfl hne }⟩
  · have hsp : w.freelist ∈ g.free := hfree ▸ mem_cons_self
    have hheld := h.live_held (mem_append_right _ hsp)
    have hhead := (h.tailed _ hheld).head (h.free _ hsp)
    have hcond : ¬(w.head w.freelist = w.tail w.freelist ∧ w.head w.freelist = none) := by
      rintro ⟨-, hnone⟩
      rw [hhead] at hnone
      exact h.free _ hsp (head?_eq_none_iff.mp hnone)
    rw [if_neg hcond]
    obtain ⟨w', g', heq, hinv, -⟩ := h.takeChunk hfree
    exact ⟨w', g', heq, hinv⟩

omit h in
/-- Taking a chunk does not depend on `cache_buftotal`. -/
theorem takeChunk_buftotal (c : Config) (w : World) (sp n : Nat) :
    Kmem.takeChunk c { w with buftotal := n } sp =
      (Kmem.takeChunk c w sp).map fun w' => { w' with buftotal := n } := by
  have hand : ∀ (v : World) b, Kmem.handOut c { v with buftotal := n } sp b =
      { Kmem.handOut c v sp b with buftotal := n } := by
    intro v b
    unfold Kmem.handOut
    split <;> rfl
  unfold Kmem.takeChunk
  cases w.head sp with
  | none => rfl
  | some b =>
    simp only [bind_some]
    split
    · cases w.next sp with
      | none => rfl
      | some snext =>
        exact congrArg some
          (hand { w with freelist := snext, tail := update w.tail sp none } b)
    · exact congrArg some (hand _ b)

theorem allocResume (hpc : w.call t = .built sp) :
    ∃ w' g', Kmem.allocResume c w t sp = some w' ∧ Inv c w' g' := by
  obtain ⟨hpg, hnot⟩ := h.calls.built t sp hpc
  unfold Kmem.allocResume
  rcases h.freelist_cases with ⟨hfree, hzero⟩ | ⟨rest, hfree, hne⟩
  · obtain ⟨w', g', heq, hinv, hfree'⟩ := h.linkSlab hpc hfree
    rw [if_pos hzero, heq]
    obtain ⟨w'', g'', heq', hinv', -⟩ := hinv.takeChunk hfree'
    exact ⟨w'', g'', heq', hinv'⟩
  -- The new slab is one too many. It has not been on the ring.
  obtain ⟨w', g', heq, hinv, hlive, hpaged⟩ := h.takeChunk hfree
  have hcall : w'.call = w.call ∧ w'.store = w.store ∧ w'.buftotal = w.buftotal := by
    obtain ⟨b, -, heq⟩ := bind_eq_some_iff.mp heq
    split at heq
    · obtain ⟨snext, -, rfl⟩ := map_eq_some_iff.mp heq
      exact handOut_frame ..
    · cases heq
      exact handOut_frame ..
  rw [if_neg hne, takeChunk_buftotal, heq]
  have htotal : w.buftotal + w.store.chunks sp - w'.store.chunks sp = w'.buftotal := by
    rw [hcall.2.1, hcall.2.2, Nat.add_sub_cancel]
  refine ⟨_, g', rfl, ?_⟩
  dsimp only
  rw [htotal]
  have hown : (w.call t).owner = some sp := by rw [hpc]; rfl
  refine { hinv with calls := hinv.calls.goto _ (.destroy sp) ?_ fun t' ht' _ how => ?_ }
  · rw [hpaged, hlive]
    exact ⟨hpg, hnot⟩
  · rw [hcall.1] at how
    exact ht' (h.calls.distinct t' t sp how hown)

theorem kmemCacheFreeGlobal (hbuf : buf ∈ w.out) :
    ∃ w' g', Kmem.kmemCacheFreeGlobal c w t buf = some w' ∧ Inv c w' g' := by
  obtain ⟨sp, hsp, b, hb, rfl⟩ := h.mem_out.mp hbuf
  have hheld := h.live_held hsp
  have hmem := h.arena.bufOf_mem hheld (h.os_sub hheld hb)
  obtain ⟨table, next, hs, hlook, hold, hhash⟩ := h.lookup_spec hsp hb
  obtain ⟨w', g', hput, hinv, hfree⟩ := h.putChunk hsp hb hold hhash
  -- The address is good.
  have hgood : ¬(w.store.cache sp = false ∨ w.store.bufOf c b < w.store.base sp ∨
      c.slabsize ≤ w.store.bufOf c b - w.store.base sp) := by
    have hbnd := Config.chunksAt_bounds (h.arena.color sp hheld) hmem
    have hle := c.pageBase_le (w.store.base sp)
    have hroom := c.room_le
    have hpos := c.chunksize_pos
    rw [h.arena.cache sp hheld]
    simp only [Bool.true_eq_false, false_or, not_or, not_lt, not_le]
    omega
  unfold Kmem.kmemCacheFreeGlobal
  rw [hlook]
  change ∃ w' g', (if w.store.cache sp = false ∨ w.store.bufOf c b < w.store.base sp ∨
    c.slabsize ≤ w.store.bufOf c b - w.store.base sp then none
    else bind (Kmem.putChunk _ sp b) _) = some w' ∧ _
  rw [if_neg hgood, hput]
  change ∃ w'' g', (if update w'.refcnt sp (w'.refcnt sp - 1) sp = 0 then _ else _) = some w'' ∧ _
  split
  · next hzero =>
    have hnil : g'.os sp = [] := by
      have hlen := hinv.refcnt sp (hinv.live_held (mem_append_right _ hfree))
      dsimp only at hlen
      rw [hzero] at hlen
      exact eq_nil_of_length_eq_zero hlen.symm
    exact hinv.retire hfree hnil
  · exact ⟨_, g', rfl, hinv⟩

end Inv

/-! ### All steps -/

theorem orFault_inv {r : Option World} (h : ∃ w' g', r = some w' ∧ Inv c w' g') :
    ∃ g', Inv c (w.orFault r) g' := by
  obtain ⟨w', g', rfl, hinv⟩ := h
  exact ⟨g', hinv⟩

/-- Every step keeps the invariant. -/
theorem step_inv {l : Label} (h : Inv c w g) (hstep : step c w l = some w') : ∃ g', Inv c w' g' := by
  cases l with
  | allocBegin t =>
    obtain ⟨-, heq⟩ := ite_none_right_eq_some.mp hstep
    cases heq
    exact orFault_inv h.allocBegin
  | create t a =>
    cases hpc : w.call t with
    | create color =>
      simp only [step, hpc] at hstep
      obtain ⟨hfresh, heq⟩ := ite_none_right_eq_some.mp hstep
      cases heq
      exact orFault_inv (h.kmemSlabCreate hpc hfresh)
    | _ => simp [step, hpc] at hstep
  | allocResume t =>
    cases hpc : w.call t with
    | built sp =>
      simp only [step, hpc] at hstep
      cases hstep
      exact orFault_inv (h.allocResume hpc)
    | _ => simp [step, hpc] at hstep
  | free t buf =>
    obtain ⟨hguard, heq⟩ := ite_none_right_eq_some.mp hstep
    cases heq
    exact orFault_inv (h.kmemCacheFreeGlobal hguard.2)
  | pageFree t =>
    cases hpc : w.call t with
    | destroy sp =>
      simp only [step, hpc] at hstep
      cases hstep
      exact h.pageFree hpc
    | _ => simp [step, hpc] at hstep
  | release t =>
    cases hpc : w.call t with
    | release sp =>
      simp only [step, hpc] at hstep
      cases hstep
      exact orFault_inv (h.release hpc)
    | _ => simp [step, hpc] at hstep
  | rescaleBegin t =>
    obtain ⟨hguard, heq⟩ := ite_none_right_eq_some.mp hstep
    cases heq
    exact ⟨g, h.goto (h.calls.goto _ _ hguard.2 fun _ _ hne => absurd rfl hne)⟩
  | rescale t zalloc =>
    cases hpc : w.call t with
    | rescale size =>
      simp only [step, hpc] at hstep
      split at hstep
      · cases hstep
        exact orFault_inv (h.hashRescale (h.calls.rescale t size hpc) size)
      · cases hstep
        exact ⟨g, h.goto h.calls.goto_idle⟩
    | _ => simp [step, hpc] at hstep
  | scribble buf v =>
    obtain ⟨hguard, heq⟩ := ite_none_right_eq_some.mp hstep
    cases heq
    exact ⟨g, h.scribble hguard.1 hguard.2 v⟩

/-- A new cache has no slabs. -/
theorem initial_inv (h : Initial w) : ∃ g, Inv c w g := by
  refine ⟨⟨[], [], [], [], fun _ => [], fun _ => [], fun _ => [], fun _ => []⟩, ?_, ?_, h.fault, ?_,
    h.freelist, ⟨h.head, h.tail⟩, fun s hs => hs, ?_, ?_, ?_, ?_, ?_, ?_, h.buftotal, ?_, fun _ => ?_,
    ?_⟩
  · constructor
    all_goals simp [h.pages]
  · constructor
    all_goals simp [h.call, Pc.owner]
  · exact Ring.nil h.next h.prev
  · simp
  · simp
  · simp
  · simp
  · simp
  · simp
  · rw [h.out]
    exact .rfl
  · rw [h.table]
    exact Chains.nil _ _
  · simp [Ghost.live]

/-- The invariant holds in every state. -/
theorem reachable_inv (hr : (system c).Reachable w) : ∃ g, Inv c w g :=
  System.Reachable.invariant (system c) (fun w => ∃ g, Inv c w g) (fun _ h => initial_inv h)
    (fun _ _ _ ⟨_, h⟩ hstep => step_inv h hstep) w hr

/-! ### Conservation -/

/-- Conservation in the slab layer. The slabs on the ring are those without a free chunk
    followed by those with one, where `cache_freelist` points. Every chunk of a slab has a
    bufctl on the free list of the slab or an outstanding one, and the hash table holds the
    outstanding ones. -/
structure Conserved (c : Config) (w : World) (full free : List Nat) (fs os hs : Nat → List Nat) :
    Prop where
  ring : Ring 0 w.next w.prev (full ++ free)
  freelist : w.freelist = free.head?.getD 0
  hasFree : ∀ sp ∈ full ++ free, sp ∈ free ↔ fs sp ≠ []
  listed : ∀ sp ∈ full ++ free, Tailed (w.head sp) (w.tail sp) w.bcNext (fs sp)
  bufctls : ∀ sp ∈ full ++ free,
    ((fs sp ++ os sp).map (w.store.bufOf c)).Perm (c.chunksAt (w.store.base sp))
  chunks : ∀ sp ∈ full ++ free, w.store.chunks sp = (c.chunksAt (w.store.base sp)).length
  either : ∀ sp ∈ full ++ free, ∀ a ∈ c.chunksAt (w.store.base sp),
    Xor (a ∈ w.out) (a ∈ (fs sp).map (w.store.bufOf c))
  refcnt : ∀ sp ∈ full ++ free,
    w.refcnt sp = ((c.chunksAt (w.store.base sp)).filter (· ∈ w.out)).length
  out : ∀ a ∈ w.out, ∃ sp ∈ full ++ free, a ∈ c.chunksAt (w.store.base sp)
  once : w.out.Nodup
  buftotal : w.buftotal = ((full ++ free).map w.store.chunks).sum
  outstanding : ∀ sp ∈ full ++ free, ∀ b ∈ os sp, w.store.bufOf c b ∈ w.out
  table : c.hash = true → Chains w.table w.bcNext (w.hashOf c) hs ∧
    ∀ b, b ∈ hs (w.hashOf c b) ↔ ∃ sp ∈ full ++ free, b ∈ os sp

namespace Inv

/-- The buffer of a free bufctl is not outstanding. -/
theorem bufOf_not_mem_out (h : Inv c w g) (hsp : sp ∈ g.paged) (hb : b ∈ g.fs sp) :
    w.store.bufOf c b ∉ w.out := by
  intro hout
  have hheld := h.arena.sub hsp
  obtain ⟨s, hs, b', hb', heq⟩ := h.mem_out.mp hout
  obtain rfl := h.arena.bufOf_inj (h.live hs) hsp (h.os_sub (h.live_held hs) hb')
    (h.fs_sub hheld hb) heq
  exact h.not_mem_os hheld hb (h.live_held hs) hb'

/-- The chunks of a slab are those of its bufctls. -/
theorem perm_chunks (h : Inv c w g) (hsp : sp ∈ g.held) :
    ((g.fs sp ++ g.os sp).map (w.store.bufOf c)).Perm (c.chunksAt (w.store.base sp)) :=
  ((h.split sp hsp).map _).trans (h.arena.bufs sp hsp)

/-- A slab off the ring has nothing outstanding. -/
theorem not_mem_out (h : Inv c w g) (hsp : sp ∈ g.paged) (hnot : sp ∉ g.live) {a : Nat}
    (ha : a ∈ c.chunksAt (w.store.base sp)) : a ∉ w.out := by
  have hheld := h.arena.sub hsp
  rw [← (h.perm_chunks hheld).mem_iff, h.idle sp hheld hnot, append_nil] at ha
  obtain ⟨b, hb, rfl⟩ := mem_map.mp ha
  exact h.bufOf_not_mem_out hsp hb

theorem conserved (h : Inv c w g) : Conserved c w g.full g.free g.fs g.os g.hs := by
  have hmemOut : ∀ sp ∈ g.live, ∀ b ∈ g.os sp, w.store.bufOf c b ∈ w.out :=
    fun sp hsp b hb => h.mem_out.mpr ⟨sp, hsp, b, hb, rfl⟩
  refine ⟨h.ring, h.freelist, fun sp hsp => ?_, fun sp hsp => h.tailed sp (h.live_held hsp),
    fun sp hsp => h.perm_chunks (h.live_held hsp), fun sp hsp => ?_, fun sp hsp a ha => ?_,
    fun sp hsp => ?_, fun a ha => ?_, h.nodup_out, h.buftotal, hmemOut,
    fun hash => ⟨h.chains hash, h.hashed hash⟩⟩
  · constructor
    · exact h.free sp
    · intro hne
      exact (mem_append.mp hsp).resolve_left fun hfull => hne (h.full sp hfull)
  · rw [Config.length_chunksAt]
    exact h.arena.chunks sp (h.live_held hsp)
  · rw [← (h.perm_chunks (h.live_held hsp)).mem_iff, map_append] at ha
    rcases mem_append.mp ha with ha | ha
    · refine .inr ⟨ha, ?_⟩
      obtain ⟨b, hb, rfl⟩ := mem_map.mp ha
      exact h.bufOf_not_mem_out (h.live hsp) hb
    · obtain ⟨b, hb, rfl⟩ := mem_map.mp ha
      refine .inl ⟨hmemOut sp hsp b hb, fun hfs => ?_⟩
      obtain ⟨b', hb', heq⟩ := mem_map.mp hfs
      exact h.bufOf_not_mem_out (h.live hsp) hb' (heq ▸ hmemOut sp hsp b hb)
  · -- Of the bufctls of the slab, the outstanding ones are left.
    have hlen := ((h.perm_chunks (h.live_held hsp)).filter (· ∈ w.out)).length_eq
    have hfs : ((g.fs sp).map (w.store.bufOf c)).filter (· ∈ w.out) = [] := by
      rw [filter_eq_nil_iff]
      intro a ha
      obtain ⟨b, hb, rfl⟩ := mem_map.mp ha
      simpa using h.bufOf_not_mem_out (h.live hsp) hb
    have hos : ((g.os sp).map (w.store.bufOf c)).filter (· ∈ w.out) =
        (g.os sp).map (w.store.bufOf c) := by
      rw [filter_eq_self]
      intro a ha
      obtain ⟨b, hb, rfl⟩ := mem_map.mp ha
      simpa using hmemOut sp hsp b hb
    rw [map_append, filter_append, hfs, hos, nil_append, length_map] at hlen
    rw [h.refcnt sp (h.live_held hsp), hlen]
  · obtain ⟨sp, hsp, b, hb, rfl⟩ := h.mem_out.mp ha
    exact ⟨sp, hsp, h.arena.bufOf_mem (h.live_held hsp) (h.os_sub (h.live_held hsp) hb)⟩

end Inv

/-- The slab layer conserves its chunks in every interleaving. No routine fails, a slab
    that is being destroyed has nothing outstanding, and an allocation does not return a
    buffer that is outstanding. -/
theorem slab_layer_conserved (c : Config) (w : World) (hr : (system c).Reachable w) :
    w.fault = false ∧
    (∃ full free fs os hs, Conserved c w full free fs os hs) ∧
    (∀ t sp, w.call t = .destroy sp → ∀ a ∈ c.chunksAt (w.store.base sp), a ∉ w.out) ∧
    ∀ l w', step c w l = some w' → ∀ a, w'.out = a :: w.out → a ∉ w.out := by
  obtain ⟨g, h⟩ := reachable_inv hr
  refine ⟨h.fault, ⟨_, _, _, _, _, h.conserved⟩, fun t sp hpc a ha => ?_, fun l w' hstep a heq => ?_⟩
  · obtain ⟨hpg, hnot⟩ := h.calls.destroy t sp hpc
    exact h.not_mem_out hpg hnot ha
  · obtain ⟨g', h'⟩ := step_inv h hstep
    have hnd := h'.nodup_out
    rw [heq] at hnd
    exact (nodup_cons.mp hnd).1

/-- A hashed cache with two chunks to a slab. -/
def twoChunks : Config where
  hash := true
  pageshift := 3
  slabsize := 8
  chunksize := 4
  align := 1
  offset := 0
  sizeofSlab := 0
  hashShift := 2
  chunksize_pos := by decide
  fits := by decide
  whole := by decide
  raw := by decide
  hashed := by decide

/-- A cache before its first slab. -/
def emptyCache : World where
  store := ⟨fun _ => false, fun _ => 0, fun _ => 0, fun _ => 0, fun _ => 0, [], [], []⟩
  next := fun _ => some 0
  prev := fun _ => some 0
  head := fun _ => none
  tail := fun _ => none
  refcnt := fun _ => 0
  bcNext := fun _ => none
  freelist := 0
  color := 0
  buftotal := 0
  table := fun _ => none
  hashMask := 1
  call := fun _ => .idle
  out := []
  fault := false

/-- Two threads find no slab and create one each. The second slab is one too many. -/
theorem slab_layer_conserved_two : ∃ w, (system twoChunks).Reachable w ∧ w.out = [16, 20] ∧
    w.call 1 = .destroy 2 ∧ w.fault = false ∧
    (∃ full free fs os hs, Conserved twoChunks w full free fs os hs) ∧
    (∀ t sp, w.call t = .destroy sp → ∀ a ∈ twoChunks.chunksAt (w.store.base sp), a ∉ w.out) ∧
    ∀ l w', step twoChunks w l = some w' → ∀ a, w'.out = a :: w.out → a ∉ w.out := by
  have hsome : ((system twoChunks).exec emptyCache [.allocBegin 0, .allocBegin 1,
      .create 0 ⟨some 16, some 1, [some 11, some 12]⟩,
      .create 1 ⟨some 24, some 2, [some 21, some 22]⟩, .allocResume 0,
      .allocResume 1]).isSome = true := by
    decide
  have hinit : (system twoChunks).init emptyCache :=
    ⟨rfl, rfl, rfl, rfl, rfl, rfl, rfl, fun _ => rfl, rfl, rfl, rfl, rfl, rfl⟩
  have hr := System.reachable_get (system twoChunks) _ emptyCache hinit hsome
  exact ⟨_, hr, rfl, rfl, slab_layer_conserved twoChunks _ hr⟩

end Sol7.Kmem
