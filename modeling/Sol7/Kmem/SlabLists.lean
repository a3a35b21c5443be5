import Sol7.Kmem.SlabArena

/-!
# The Lists of the Slab Layer

The invariant of the slab layer. It names the slabs on the ring, those without a free
chunk and those with one, the slabs that belong to a thread, and the free and the
outstanding bufctls of every slab. A lock section changes the bufctls of at most one
slab, moves it between the two parts of the ring or takes it off, and the rest stays.

## Main definitions

* `Ghost`: The lists that the pointers stand for.
* `Calls`: The slabs that threads work on.
* `Inv`: The invariant.

## Theorems

* `Inv.nodup_out`, `Inv.length_chain_le`: Buffers are outstanding once, and chains are
  not longer than `cache_buftotal`.
* `Inv.relist`: A section that changes the bufctls of one slab.
* `Inv.takeChunk`: Taking a chunk.
* `lookup_spec`, `Inv.putChunk`: Finding the bufctl of a buffer and putting it back.
* `Inv.retire`, `Inv.linkSlab`: Taking a slab off the ring and putting one there.
-/

namespace Sol7.Kmem

open List Function

variable {c : Config} {w : World} {t sp b : Nat}

/-! ### The invariant -/

/-- The lists that the pointers stand for: the slabs on the ring, those that exist and
    those that have their pages, the bufctls of a slab, the free and the outstanding ones,
    and the chains of the hash table. -/
structure Ghost where
  full : List Nat
  free : List Nat
  held : List Nat
  paged : List Nat
  cells : Nat → List Nat
  fs : Nat → List Nat
  os : Nat → List Nat
  hs : Nat → List Nat

/-- The slabs on the ring. -/
def Ghost.live (g : Ghost) : List Nat := g.full ++ g.free

/-- The bucket of a bufctl. -/
def World.hashOf (c : Config) (w : World) (bcp : Nat) : Nat :=
  c.kmemHash w.hashMask (w.store.addr bcp)

/-- The slab that a thread works on. -/
def Pc.owner : Pc → Option Nat
  | .built sp => some sp
  | .destroy sp => some sp
  | .release sp => some sp
  | _ => none

/-- What a thread may be at. A slab that it works on is not on the ring. -/
def Pc.Ok (c : Config) (held paged live : List Nat) : Pc → Prop
  | .idle => True
  | .create k => k ≤ c.maxcolor
  | .built sp => sp ∈ paged ∧ sp ∉ live
  | .destroy sp => sp ∈ paged ∧ sp ∉ live
  | .release sp => c.hash = true ∧ sp ∈ held ∧ sp ∉ paged
  | .rescale _ => c.hash = true

/-- A slab that a thread works on is not on the ring, and no other thread works on it. -/
structure Calls (c : Config) (call : Nat → Pc) (held paged live : List Nat) : Prop where
  color : ∀ t k, call t = .create k → k ≤ c.maxcolor
  built : ∀ t sp, call t = .built sp → sp ∈ paged ∧ sp ∉ live
  destroy : ∀ t sp, call t = .destroy sp → sp ∈ paged ∧ sp ∉ live
  release : ∀ t sp, call t = .release sp → c.hash = true ∧ sp ∈ held ∧ sp ∉ paged
  rescale : ∀ t n, call t = .rescale n → c.hash = true
  distinct : ∀ t t' sp, (call t).owner = some sp → (call t').owner = some sp → t = t'

/-- The invariant of the slab layer. -/
structure Inv (c : Config) (w : World) (g : Ghost) : Prop where
  arena : Arena c w.store g.held g.paged g.cells
  calls : Calls c w.call g.held g.paged g.live
  fault : w.fault = false
  ring : Ring 0 w.next w.prev g.live
  freelist : w.freelist = g.free.head?.getD 0
  null : w.head 0 = none ∧ w.tail 0 = none
  live : g.live ⊆ g.paged
  split : ∀ sp ∈ g.held, (g.fs sp ++ g.os sp).Perm (g.cells sp)
  tailed : ∀ sp ∈ g.held, Tailed (w.head sp) (w.tail sp) w.bcNext (g.fs sp)
  refcnt : ∀ sp ∈ g.held, w.refcnt sp = (g.os sp).length
  full : ∀ sp ∈ g.full, g.fs sp = []
  free : ∀ sp ∈ g.free, g.fs sp ≠ []
  idle : ∀ sp ∈ g.held, sp ∉ g.live → g.os sp = []
  buftotal : w.buftotal = (g.live.map w.store.chunks).sum
  out : w.out.Perm (g.live.flatMap fun sp => (g.os sp).map (w.store.bufOf c))
  chains : c.hash = true → Chains w.table w.bcNext (w.hashOf c) g.hs
  hashed : c.hash = true → ∀ b, b ∈ g.hs (w.hashOf c b) ↔ ∃ sp ∈ g.live, b ∈ g.os sp

/-! ### Threads -/

namespace Calls

variable {call : Nat → Pc} {held paged live live' : List Nat} (h : Calls c call held paged live)
include h

/-- Where the slab of a thread is. -/
theorem of_owner (hown : (call t).owner = some sp) :
    (sp ∈ paged ∧ sp ∉ live) ∨ (c.hash = true ∧ sp ∈ held ∧ sp ∉ paged) := by
  cases hpc : call t with
  | built s =>
    obtain rfl : s = sp := by simpa [hpc, Pc.owner] using hown
    exact .inl (h.built t s hpc)
  | destroy s =>
    obtain rfl : s = sp := by simpa [hpc, Pc.owner] using hown
    exact .inl (h.destroy t s hpc)
  | release s =>
    obtain rfl : s = sp := by simpa [hpc, Pc.owner] using hown
    exact .inr (h.release t s hpc)
  | _ => simp [hpc, Pc.owner] at hown

/-- A slab on the ring has no owner. -/
theorem not_owner (hlive : live ⊆ paged) (hsp : sp ∈ live) : (call t).owner ≠ some sp := by
  intro hown
  rcases h.of_owner hown with ⟨_, hnot⟩ | ⟨_, _, hnot⟩
  · exact hnot hsp
  · exact hnot (hlive hsp)

/-- The slab of a thread exists. -/
theorem owner_held (hsub : paged ⊆ held) (hown : (call t).owner = some sp) : sp ∈ held := by
  rcases h.of_owner hown with ⟨hpaged, _⟩ | ⟨_, hheld, _⟩
  · exact hsub hpaged
  · exact hheld

/-- A thread goes on. It may keep its slab or get one that nobody has. -/
theorem goto (t : Nat) (pc : Pc) (hok : pc.Ok c held paged live)
    (hown : ∀ t', t' ≠ t → pc.owner ≠ none → (call t').owner ≠ pc.owner) :
    Calls c (update call t pc) held paged live := by
  have hcase : ∀ {t' q}, update call t pc t' = q → pc = q ∨ call t' = q := by
    intro t' q hq
    rw [update_apply] at hq
    split at hq
    · exact .inl hq
    · exact .inr hq
  refine ⟨fun t' k hpc => ?_, fun t' sp hpc => ?_, fun t' sp hpc => ?_, fun t' sp hpc => ?_,
    fun t' n hpc => ?_, fun t1 t2 sp h1 h2 => ?_⟩
  · exact (hcase hpc).elim (fun heq => by rwa [heq] at hok) (h.color t' k)
  · exact (hcase hpc).elim (fun heq => by rwa [heq] at hok) (h.built t' sp)
  · exact (hcase hpc).elim (fun heq => by rwa [heq] at hok) (h.destroy t' sp)
  · exact (hcase hpc).elim (fun heq => by rwa [heq] at hok) (h.release t' sp)
  · exact (hcase hpc).elim (fun heq => by rwa [heq] at hok) (h.rescale t' n)
  · by_cases ht1 : t1 = t
    · by_cases ht2 : t2 = t
      · rw [ht1, ht2]
      · rw [ht1, update_self] at h1
        rw [update_of_ne ht2] at h2
        exact absurd (h2.trans h1.symm) (hown t2 ht2 (by simp [h1]))
    · rw [update_of_ne ht1] at h1
      by_cases ht2 : t2 = t
      · rw [ht2, update_self] at h2
        exact absurd (h1.trans h2.symm) (hown t1 ht1 (by simp [h2]))
      · rw [update_of_ne ht2] at h2
        exact h.distinct t1 t2 sp h1 h2

/-- A thread has nothing more to do with a slab. -/
theorem goto_idle : Calls c (update call t .idle) held paged live :=
  h.goto _ _ trivial fun _ _ hne => absurd rfl hne

/-- The lists change, but not for the slabs that threads work on. -/
theorem relist (held' paged' live' : List Nat)
    (hheld : ∀ {t s}, (call t).owner = some s → s ∈ held → s ∈ held')
    (hpaged : ∀ {t s}, (call t).owner = some s → (s ∈ paged' ↔ s ∈ paged))
    (hlive : ∀ {t s}, (call t).owner = some s → s ∈ live' → s ∈ live) :
    Calls c call held' paged' live' where
  color := h.color
  built t s hpc := by
    have hown := congrArg Pc.owner hpc
    obtain ⟨hs, hnot⟩ := h.built t s hpc
    exact ⟨(hpaged hown).mpr hs, fun hmem => hnot (hlive hown hmem)⟩
  destroy t s hpc := by
    have hown := congrArg Pc.owner hpc
    obtain ⟨hs, hnot⟩ := h.destroy t s hpc
    exact ⟨(hpaged hown).mpr hs, fun hmem => hnot (hlive hown hmem)⟩
  release t s hpc := by
    have hown := congrArg Pc.owner hpc
    obtain ⟨hash, hs, hnot⟩ := h.release t s hpc
    exact ⟨hash, hheld hown hs, fun hmem => hnot ((hpaged hown).mp hmem)⟩
  rescale := h.rescale
  distinct := h.distinct

theorem mono (hlive : live' ⊆ live) : Calls c call held paged live' :=
  h.relist _ _ _ (fun _ => id) (fun _ => Iff.rfl) fun _ hs => hlive hs

/-- Nobody else has the slab of a thread. -/
theorem not_owner_idle (hown : (call t).owner = some sp)
    (t' : Nat) : (update call t .idle t').owner ≠ some sp := by
  by_cases ht : t' = t
  · rw [ht]
    simp [Pc.owner]
  · rw [update_of_ne ht]
    exact fun hown' => ht (h.distinct t' t sp hown' hown)

omit h in
/-- The slab of a thread is another one than a slab without an owner. -/
theorem ne_of_owner (hno : ∀ t, (call t).owner ≠ some sp) {s : Nat}
    (hown : (call t).owner = some s) : s ≠ sp :=
  fun heq => hno t (heq ▸ hown)

/-- A slab that no thread works on disappears or loses its pages. -/
theorem shrink (held' paged' : List Nat)
    (hno : ∀ t, (call t).owner ≠ some sp) (hheld : ∀ s ∈ held, s ≠ sp → s ∈ held')
    (hpaged : ∀ s ∈ paged, s ≠ sp → s ∈ paged') (hsub : paged' ⊆ paged) :
    Calls c call held' paged' live :=
  h.relist _ _ _ (fun hown hs => hheld _ hs (ne_of_owner hno hown))
    (fun hown => ⟨fun hs => hsub hs, fun hs => hpaged _ hs (ne_of_owner hno hown)⟩) fun _ => id

/-- A slab that no thread works on is new or comes to the ring. -/
theorem grow (held' paged' live' : List Nat)
    (hno : ∀ t, (call t).owner ≠ some sp) (hheld : held ⊆ held') (hpaged : paged ⊆ paged')
    (hback : ∀ s ∈ paged', s ∈ paged ∨ s = sp) (hlive : ∀ s ∈ live', s ∈ live ∨ s = sp) :
    Calls c call held' paged' live' :=
  h.relist _ _ _ (fun _ hs => hheld hs)
    (fun hown => ⟨fun hs => (hback _ hs).resolve_right (ne_of_owner hno hown), fun hs => hpaged hs⟩)
    fun hown hs => (hlive _ hs).resolve_right (ne_of_owner hno hown)

end Calls

/-! ### What the invariant says -/

/-- One element of a list is given another image. -/
theorem perm_flatMap_update {α β : Type*} [DecidableEq α] {f : α → List β} {l : List α} {x : α}
    {v : List β} (hnd : l.Nodup) (hx : x ∈ l) : (l.flatMap f).Perm (f x ++ (l.erase x).flatMap f) ∧
      (l.flatMap (update f x v)).Perm (v ++ (l.erase x).flatMap f) := by
  have hperm := perm_cons_erase hx
  refine ⟨hperm.flatMap_right f, (hperm.flatMap_right _).trans ?_⟩
  rw [flatMap_cons, update_self]
  have hrest : (l.erase x).flatMap (update f x v) = (l.erase x).flatMap f := by
    refine flatMap_congr fun y hy => ?_
    exact update_of_ne (fun heq => hnd.not_mem_erase (heq ▸ hy)) _ _
  rw [hrest]

/-- One element of a list has a property, or another one does. -/
theorem exists_mem_iff {α : Type*} {l : List α} {x : α} (hx : x ∈ l) {P : α → Prop} :
    (∃ y ∈ l, P y) ↔ P x ∨ ∃ y ∈ l, y ≠ x ∧ P y := by
  constructor
  · rintro ⟨y, hy, hp⟩
    by_cases heq : y = x
    · exact .inl (heq ▸ hp)
    · exact .inr ⟨y, hy, heq, hp⟩
  · rintro (hp | ⟨y, hy, -, hp⟩)
    · exact ⟨x, hx, hp⟩
    · exact ⟨y, hy, hp⟩

namespace Inv

variable {g : Ghost} {s a x n : Nat} {l full free f o rest out : List Nat} {head tail : Option Nat}
  {next prev bcNext table : Nat → Option Nat} {hs : Nat → List Nat}

section
variable (h : Inv c w g)
include h

theorem live_held : g.live ⊆ g.held := fun _ hs => h.arena.sub (h.live hs)

theorem fs_sub (hs : s ∈ g.held) (hb : b ∈ g.fs s) : b ∈ g.cells s :=
  (h.split s hs).mem_iff.mp (mem_append_left _ hb)

theorem os_sub (hs : s ∈ g.held) (hb : b ∈ g.os s) : b ∈ g.cells s :=
  (h.split s hs).mem_iff.mp (mem_append_right _ hb)

theorem nodup_split (hs : s ∈ g.held) : (g.fs s ++ g.os s).Nodup :=
  (h.split s hs).nodup_iff.mpr (h.arena.nodup_cells hs)

/-- A bufctl is not both free and outstanding. -/
theorem not_mem_os (hs : s ∈ g.held) (hb : b ∈ g.fs s) (hsp : sp ∈ g.held) : b ∉ g.os sp := by
  intro hb'
  obtain rfl := h.arena.cell_unique hs hsp (h.fs_sub hs hb) (h.os_sub hsp hb')
  exact (nodup_append.mp (h.nodup_split hs)).2.2 b hb b hb' rfl

theorem mem_out : a ∈ w.out ↔ ∃ sp ∈ g.live, ∃ b ∈ g.os sp, w.store.bufOf c b = a := by
  rw [h.out.mem_iff]
  simp

theorem nodup_out : w.out.Nodup := by
  rw [h.out.nodup_iff, nodup_flatMap]
  constructor
  · intro s hs
    have hheld := h.live_held hs
    have hnd := h.arena.nodup_bufs hheld
    rw [← ((h.split s hheld).map _).nodup_iff, map_append] at hnd
    exact (nodup_append.mp hnd).2.1
  · refine h.ring.nodup.imp_of_mem fun {s s'} hs hs' hne => ?_
    intro a ha ha'
    obtain ⟨b, hb, rfl⟩ := mem_map.mp ha
    obtain ⟨b', hb', heq⟩ := mem_map.mp ha'
    have hcell := h.os_sub (h.live_held hs) hb
    have hcell' := h.os_sub (h.live_held hs') hb'
    obtain rfl := h.arena.bufOf_inj (h.live hs') (h.live hs) hcell' hcell heq
    exact hne (h.arena.cell_unique (h.live_held hs) (h.live_held hs') hcell hcell')

/-- A chain is not longer than `cache_buftotal`. -/
theorem length_chain_le (hash : c.hash = true) (i : Nat) : (g.hs i).length ≤ w.buftotal := by
  have hsub : g.hs i ⊆ g.live.flatMap g.os := by
    intro b hb
    have hhome := (h.chains hash).home i b hb
    rw [← hhome] at hb
    obtain ⟨sp, hsp, hmem⟩ := (h.hashed hash b).mp hb
    exact mem_flatMap.mpr ⟨sp, hsp, hmem⟩
  have hle := (((h.chains hash).nodup i).subperm hsub).length_le
  rw [length_flatMap] at hle
  rw [h.buftotal]
  refine hle.trans (sum_le_sum fun s hs => ?_)
  have hheld := h.live_held hs
  have hlen := (h.split s hheld).length_eq
  rw [length_append, h.arena.length_cells hheld] at hlen
  omega

/-- A section that changes the bufctls of one slab and where it is on the ring. -/
theorem relist (hsp : sp ∈ g.live) (hperm : (full ++ free).Perm g.live)
    (hring : Ring 0 next prev (full ++ free))
    (hnext : ∀ s ∈ g.held, s ≠ sp → ∀ b ∈ g.fs s, bcNext b = w.bcNext b)
    (hsplit : (f ++ o).Perm (g.fs sp ++ g.os sp)) (htailed : Tailed head tail bcNext f)
    (hrefcnt : n = o.length) (hfull : ∀ s ∈ full, (s = sp ∧ f = []) ∨ (s ≠ sp ∧ s ∈ g.full))
    (hfree : ∀ s ∈ free, (s = sp ∧ f ≠ []) ∨ (s ≠ sp ∧ s ∈ g.free))
    (hout : (out ++ (g.os sp).map (w.store.bufOf c)).Perm (w.out ++ o.map (w.store.bufOf c)))
    (hchains : c.hash = true → Chains table bcNext (w.hashOf c) hs)
    (hhashed : c.hash = true → ∀ b, b ∈ hs (w.hashOf c b) ↔
      b ∈ o ∨ ∃ s ∈ g.live, s ≠ sp ∧ b ∈ g.os s) : Inv c { w with
      next := next
      prev := prev
      head := update w.head sp head
      tail := update w.tail sp tail
      refcnt := update w.refcnt sp n
      bcNext := bcNext
      freelist := free.head?.getD 0
      table := table
      out := out } { g with
      full := full
      free := free
      fs := update g.fs sp f
      os := update g.os sp o
      hs := hs } := by
  have hheld := h.live_held hsp
  have hmem : ∀ s, s ∈ full ++ free ↔ s ∈ g.live := fun s => hperm.mem_iff
  have hsp0 : (0 : Nat) ≠ sp := fun heq => h.arena.ne sp hheld heq.symm
  refine ⟨h.arena, h.calls.mono hperm.subset, h.fault, hring, rfl, ?_,
    fun s hs => h.live ((hmem s).mp hs), fun s hs => ?_, fun s hs => ?_, fun s hs => ?_,
    fun s hs => ?_, fun s hs => ?_, fun s hs hnot => ?_, ?_, ?_, hchains, fun hash b => ?_⟩ <;>
    dsimp only
  · rw [update_of_ne hsp0, update_of_ne hsp0]
    exact h.null
  · by_cases heq : s = sp
    · subst heq
      rw [update_self, update_self]
      exact hsplit.trans (h.split s hs)
    · rw [update_of_ne heq, update_of_ne heq]
      exact h.split s hs
  · by_cases heq : s = sp
    · subst heq
      rw [update_self, update_self, update_self]
      exact htailed
    · rw [update_of_ne heq, update_of_ne heq, update_of_ne heq]
      exact (h.tailed s hs).congr (hnext s hs heq)
  · by_cases heq : s = sp
    · subst heq
      rw [update_self, update_self, hrefcnt]
    · rw [update_of_ne heq, update_of_ne heq]
      exact h.refcnt s hs
  · rcases hfull s hs with ⟨rfl, hf⟩ | ⟨hne, hs⟩
    · rw [update_self, hf]
    · rw [update_of_ne hne]
      exact h.full s hs
  · rcases hfree s hs with ⟨rfl, hf⟩ | ⟨hne, hs⟩
    · rw [update_self]
      exact hf
    · rw [update_of_ne hne]
      exact h.free s hs
  · have hnot' : s ∉ g.live := fun hlive => hnot ((hmem s).mpr hlive)
    have hne : s ≠ sp := fun heq => hnot' (heq ▸ hsp)
    rw [update_of_ne hne]
    exact h.idle s hs hnot'
  · rw [h.buftotal]
    exact ((hperm.map _).sum_eq).symm
  · -- The outstanding buffers of the other slabs are the same before and after.
    obtain ⟨hold, hnew⟩ := perm_flatMap_update (f := fun s => (g.os s).map (w.store.bufOf c))
      (v := o.map (w.store.bufOf c)) h.ring.nodup hsp
    have hfun : (fun s => (update g.os sp o s).map (w.store.bufOf c)) =
        update (fun s => (g.os s).map (w.store.bufOf c)) sp
          (o.map (w.store.bufOf c)) := by
      funext s
      by_cases heq : s = sp
      · rw [heq, update_self, update_self]
      · rw [update_of_ne heq, update_of_ne heq]
    refine List.Perm.trans ?_ (hperm.flatMap_right _).symm
    rw [hfun]
    refine List.Perm.trans ?_ hnew.symm
    refine (perm_append_right_iff ((g.os sp).map (w.store.bufOf c))).mp ?_
    refine hout.trans (((h.out.trans hold).append_right _).trans ?_)
    refine (perm_append_comm).trans ?_
    rw [append_assoc]
    exact (perm_append_comm).append_left _
  · refine (hhashed hash b).trans (Iff.trans ?_ (exists_mem_iff ((hmem sp).mpr hsp)).symm)
    rw [update_self]
    refine or_congr_right (exists_congr fun s => and_congr (hmem s).symm ?_)
    refine and_congr_right fun hne => ?_
    rw [update_of_ne hne]

end

/-! ### Taking a chunk -/

/-- A chunk is handed out. In a hashed cache it comes to the front of its chain. -/
theorem handOut_eq (c : Config) (w : World) (sp b : Nat) :
    ∃ table bcNext, handOut c w sp b = { w with
        head := update w.head sp (w.bcNext b)
        refcnt := update w.refcnt sp (w.refcnt sp + 1)
        out := w.store.bufOf c b :: w.out
        table := table
        bcNext := bcNext } ∧
      (∀ x, x ≠ b → bcNext x = w.bcNext x) ∧
      (c.hash = true → table = update w.table (w.hashOf c b) (some b) ∧
        bcNext = update w.bcNext b (w.table (w.hashOf c b))) := by
  unfold handOut Store.bufOf
  cases hash : c.hash with
  | true => exact ⟨_, _, rfl, fun x hx => update_of_ne hx .., fun _ => ⟨rfl, rfl⟩⟩
  | false => exact ⟨_, _, rfl, fun _ _ => rfl, nofun⟩

theorem handOut_frame (c : Config) (w : World) (sp b : Nat) : (handOut c w sp b).call = w.call ∧
    (handOut c w sp b).store = w.store ∧ (handOut c w sp b).buftotal = w.buftotal := by
  unfold handOut
  split <;> exact ⟨rfl, rfl, rfl⟩

/-- A slab is left with some free bufctls, and the free list with some slabs. -/
def left (w : World) (free : List Nat) (sp : Nat) (l : List Nat) : World :=
  { w with freelist := free.head?.getD 0, tail := update w.tail sp l.getLast? }

/-- The first free chunk of a slab is handed out, and the slab moves if it was the last
    one. -/
theorem handOut (h : Inv c w g) (hsp : sp ∈ g.free) (hfs : g.fs sp = b :: l)
    (hlist : full ++ free = g.live) (hfull : ∀ s ∈ full, (s = sp ∧ l = []) ∨ (s ≠ sp ∧ s ∈ g.full))
    (hfree : ∀ s ∈ free, (s = sp ∧ l ≠ []) ∨ (s ≠ sp ∧ s ∈ g.free)) :
    Inv c (Kmem.handOut c (left w free sp l) sp b) { g with
        full := full
        free := free
        fs := update g.fs sp l
        os := update g.os sp (b :: g.os sp)
        hs := update g.hs (w.hashOf c b) (b :: g.hs (w.hashOf c b)) } := by
  have hlive : sp ∈ g.live := mem_append_right _ hsp
  have hheld := h.live_held hlive
  have hbfs : b ∈ g.fs sp := by simp [hfs]
  have htl := h.tailed sp hheld
  rw [hfs] at htl
  have hbl : b ∉ l := (nodup_cons.mp htl.nodup).1
  -- The chunk was free, so that it is on no chain.
  have hnot : c.hash = true → b ∉ g.hs (w.hashOf c b) := by
    intro hash hmem
    obtain ⟨s, hs, hos⟩ := (h.hashed hash b).mp hmem
    exact h.not_mem_os hheld hbfs (h.live_held hs) hos
  obtain ⟨table, bcNext, heq, hbc, hhashed⟩ := handOut_eq c (left w free sp l) sp b
  rw [heq]
  refine h.relist hlive (hlist ▸ .rfl) (hlist ▸ h.ring)
    (fun s hs hne x hx => hbc x fun heq => hne ?_) ?_ ?_ ?_ hfull hfree ?_ (fun hash => ?_)
    fun hash x => ?_
  · exact h.arena.cell_unique hs hheld (h.fs_sub hs (heq ▸ hx)) (h.fs_sub hheld hbfs)
  · rw [hfs]
    exact perm_middle
  · have hsame : ∀ y ∈ l, bcNext y = w.bcNext y := fun y hy => hbc y fun heq => hbl (heq ▸ hy)
    by_cases hl : l = []
    · subst hl
      exact Tailed.nil _ _
    · have hpop := htl.pop hsame hl
      rw [htl.tail, getLast?_cons_of_ne_nil hl] at hpop
      exact hpop
  · rw [length_cons, ← h.refcnt sp hheld]
    rfl
  · exact perm_middle.symm
  · obtain ⟨rfl, rfl⟩ := hhashed hash
    exact (h.chains hash).push (hnot hash)
  · have hmem : x ∈ update g.hs (w.hashOf c b) (b :: g.hs (w.hashOf c b)) (w.hashOf c x) ↔
        x = b ∨ x ∈ g.hs (w.hashOf c x) := by
      by_cases hx : w.hashOf c x = w.hashOf c b
      · rw [hx, update_self, mem_cons]
      · rw [update_of_ne hx]
        refine (or_iff_right ?_).symm
        rintro rfl
        exact hx rfl
    refine hmem.trans ?_
    rw [h.hashed hash x, mem_cons, or_assoc, exists_mem_iff hlive]

/-- Taking a chunk from the first slab of the free list. -/
theorem takeChunk (h : Inv c w g) (hfree : g.free = sp :: rest) :
    ∃ w' g', takeChunk c w sp = some w' ∧ Inv c w' g' ∧ g'.live = g.live ∧ g'.paged = g.paged := by
  have hsp : sp ∈ g.free := by simp [hfree]
  have hheld := h.live_held (mem_append_right _ hsp)
  have htl := h.tailed sp hheld
  obtain ⟨b, l, hfs⟩ := exists_cons_of_ne_nil (h.free sp hsp)
  rw [hfs] at htl
  have hhead : w.head sp = some b := htl.head (by simp)
  have hnd : g.live.Nodup := h.ring.nodup
  have hnext : w.next sp = some (rest.head?.getD 0) := by
    have hr := h.ring
    unfold Ghost.live at hr
    rw [hfree] at hr
    exact hr.next_eq
  unfold Ghost.live at hnd
  rw [hfree] at hnd
  have hnd' := nodup_append.mp hnd
  have hfull : ∀ s ∈ g.full, s ≠ sp := fun s hs => hnd'.2.2 s hs sp mem_cons_self
  have hrest : sp ∉ rest := (nodup_cons.mp hnd'.2.1).1
  unfold Kmem.takeChunk
  rw [hhead]
  change ∃ w' g', (if w.tail sp = some b then _ else _) = some w' ∧ _
  by_cases hl : l = []
  · -- The last chunk: the slab is the last one of those without a free chunk.
    subst hl
    have hlist : (g.full ++ [sp]) ++ rest = g.live := by
      unfold Ghost.live
      rw [hfree, append_assoc]
      rfl
    have hlast : w.tail sp = some b := htl.tail
    rw [if_pos hlast, hnext]
    refine ⟨_, _, rfl, h.handOut hsp hfs hlist (fun s hs => ?_) fun s hs => ?_, hlist, rfl⟩
    · rcases mem_append.mp hs with hs | hs
      · exact .inr ⟨hfull s hs, hs⟩
      · exact .inl ⟨mem_singleton.mp hs, rfl⟩
    · exact .inr ⟨fun heq => hrest (heq ▸ hs), hfree ▸ mem_cons_of_mem _ hs⟩
  · have htail : w.tail sp = l.getLast? := by rw [htl.tail, getLast?_cons_of_ne_nil hl]
    have hne : w.tail sp ≠ some b := by
      rw [htail]
      exact fun heq => (nodup_cons.mp htl.nodup).1 (mem_of_getLast? heq)
    have hw : left w g.free sp l = w := by
      unfold left
      rw [← h.freelist, ← htail, update_eq_self]
    have hstay : ∀ s ∈ g.free, (s = sp ∧ l ≠ []) ∨ (s ≠ sp ∧ s ∈ g.free) := by
      intro s hs
      by_cases heq : s = sp
      · exact .inl ⟨heq, hl⟩
      · exact .inr ⟨heq, hs⟩
    have hinv := h.handOut hsp hfs rfl (fun s hs => .inr ⟨hfull s hs, hs⟩) hstay
    rw [hw] at hinv
    rw [if_neg hne]
    exact ⟨_, _, rfl, hinv, rfl, rfl⟩

/-! ### Putting a chunk back -/

/-- The bufctl of an outstanding buffer is found, and in a hashed cache it leaves its
    chain. Only links of outstanding bufctls change. -/
theorem lookup_spec (h : Inv c w g) (hsp : sp ∈ g.live) (hb : b ∈ g.os sp) :
    ∃ table bcNext hs, lookup c w (w.store.bufOf c b) =
        some (b, sp, { w with table := table, bcNext := bcNext }) ∧
      (∀ x, (∀ s ∈ g.live, x ∉ g.os s) → bcNext x = w.bcNext x) ∧
      (c.hash = true → Chains table bcNext (w.hashOf c) hs ∧
        ∀ x, x ∈ hs (w.hashOf c x) ↔ x ∈ g.hs (w.hashOf c x) ∧ x ≠ b) := by
  have hheld := h.live_held hsp
  have hcell := h.os_sub hheld hb
  have hplace := h.arena.place sp hheld b hcell
  unfold lookup
  cases hash : c.hash with
  | false =>
    have hoff := h.arena.cell hash sp hheld b hcell
    unfold Store.slabOf at hplace
    unfold Store.bufOf
    simp only [hash, Bool.false_eq_true, if_false] at hplace ⊢
    rw [hplace, Nat.sub_add_cancel hoff]
    exact ⟨w.table, w.bcNext, g.hs, rfl, fun _ _ => rfl, by simp⟩
  | true =>
    have hch := h.chains hash
    have hmem : b ∈ g.hs (w.hashOf c b) := (h.hashed hash b).mpr ⟨sp, hsp, hb⟩
    obtain ⟨x, y, hxy⟩ := append_of_mem hmem
    have hfwd := hch.fwd (w.hashOf c b)
    have hnd := hch.nodup (w.hashOf c b)
    rw [hxy] at hfwd hnd
    have hbx : b ∉ x := fun hbx => (nodup_append.mp hnd).2.2 b hbx b mem_cons_self rfl
    -- Every bufctl of the chain is outstanding, and no other one has this address.
    have hosx : ∀ e ∈ g.hs (w.hashOf c b), ∃ s ∈ g.live, e ∈ g.os s := by
      intro e he
      have hhome := hch.home _ e he
      rw [← hhome] at he
      exact (h.hashed hash e).mp he
    have hbuf : ∀ e, w.store.bufOf c e = w.store.addr e := by
      intro e
      unfold Store.bufOf
      rw [if_pos hash]
    have hmiss : ∀ e ∈ x, decide (w.store.addr e = w.store.addr b) = false := by
      intro e he
      have he' : e ∈ g.hs (w.hashOf c b) := hxy ▸ mem_append_left _ he
      obtain ⟨s, hs, hes⟩ := hosx e he'
      refine decide_eq_false fun heq => hbx ?_
      rw [← hbuf, ← hbuf] at heq
      have hsame := h.arena.bufOf_inj (h.live hs) (h.live hsp) (h.os_sub (h.live_held hs) hes) hcell heq
      exact hsame ▸ he
    have hlen : x.length < w.buftotal + 1 := by
      have hle := h.length_chain_le hash (w.hashOf c b)
      rw [hxy, length_append, length_cons] at hle
      omega
    have hfind := findBy_spec none hfwd hmiss (decide_eq_true rfl) hlen
    rw [Option.or_none] at hfind
    have hslab : w.store.slab b = sp := by
      unfold Store.slabOf at hplace
      rwa [if_pos hash] at hplace
    have hun := hch.unlink hxy
    refine ⟨_, _, update g.hs (w.hashOf c b) (x ++ y), ?_, fun e he => ?_, fun _ => ⟨hun, ?_⟩⟩
    · rw [if_pos rfl, hbuf]
      change Option.map _ (findBy w.bcNext _ _ none (w.table (w.hashOf c b))) = _
      rw [hfind, Option.map_some, hslab]
      rfl
    · rcases hlast : x.getLast? with _ | e'
      · rfl
      · refine update_of_ne ?_ _ _
        rintro rfl
        obtain ⟨s, hs, hes⟩ := hosx e (hxy ▸ mem_append_left _ (mem_of_getLast? hlast))
        exact he s hs hes
    · intro e
      by_cases heq : w.hashOf c e = w.hashOf c b
      · have hby : b ∉ x ++ y := (nodup_cons.mp (nodup_middle.mp hnd)).1
        rw [heq, update_self, hxy, mem_append, mem_append, mem_cons]
        constructor
        · intro he
          have hne : e ≠ b := fun hc => hby (hc ▸ mem_append.mpr he)
          exact ⟨he.imp id .inr, hne⟩
        · rintro ⟨he | he | he, hne⟩
          · exact .inl he
          · exact absurd he hne
          · exact .inr he
      · rw [update_of_ne heq]
        refine (and_iff_left ?_).symm
        rintro rfl
        exact heq rfl

/-- A bufctl that was outstanding is behind the free ones of its slab. The hypotheses say
    where the slab is then. -/
theorem putBack (h : Inv c w g) (hsp : sp ∈ g.live) (hb : b ∈ g.os sp) (full free : List Nat)
    {bcNext' : Nat → Option Nat} (hold : ∀ x, (∀ s ∈ g.live, x ∉ g.os s) → bcNext x = w.bcNext x)
    (hnext : ∀ x, x ∉ g.fs sp → bcNext' x = bcNext x)
    (hhash : c.hash = true → Chains table bcNext (w.hashOf c) hs ∧
      ∀ x, x ∈ hs (w.hashOf c x) ↔ x ∈ g.hs (w.hashOf c x) ∧ x ≠ b)
    (htailed : Tailed head tail bcNext' (g.fs sp ++ [b])) (hperm : (full ++ free).Perm g.live)
    (hring : Ring 0 next prev (full ++ free)) (hfull : ∀ s ∈ full, s ≠ sp ∧ s ∈ g.full)
    (hfree : ∀ s ∈ free, s = sp ∨ s ∈ g.free) : Inv c { w with
      next := next
      prev := prev
      head := update w.head sp head
      tail := update w.tail sp tail
      refcnt := update w.refcnt sp (w.refcnt sp - 1)
      bcNext := bcNext'
      freelist := free.head?.getD 0
      table := table
      out := w.out.erase (w.store.bufOf c b) } { g with
      full := full
      free := free
      fs := update g.fs sp (g.fs sp ++ [b])
      os := update g.os sp ((g.os sp).erase b)
      hs := hs } := by
  have hheld := h.live_held hsp
  have hcell := h.os_sub hheld hb
  have hos := perm_cons_erase hb
  have hnd : (g.os sp).Nodup := (nodup_append.mp (h.nodup_split hheld)).2.1
  -- A free bufctl of another slab keeps its link.
  have hframe : ∀ s ∈ g.held, s ≠ sp → ∀ x ∈ g.fs s, bcNext' x = w.bcNext x := by
    intro s hs' hne x hx
    rw [hnext x, hold x]
    · exact fun s' hs'' => h.not_mem_os hs' hx (h.live_held hs'')
    · exact fun hx' => hne (h.arena.cell_unique hs' hheld (h.fs_sub hs' hx) (h.fs_sub hheld hx'))
  refine h.relist hsp hperm hring hframe ?_ htailed ?_ (fun s hs' => .inr (hfull s hs'))
    (fun s hs' => ?_) ?_ (fun hash => ?_) fun hash x => ?_
  · rw [append_assoc]
    exact hos.symm.append_left _
  · rw [length_erase_of_mem hb, h.refcnt sp hheld]
  · by_cases heq : s = sp
    · exact .inl ⟨heq, by simp⟩
    · exact .inr ⟨heq, (hfree s hs').resolve_left heq⟩
  · have hmem : w.store.bufOf c b ∈ w.out := h.mem_out.mpr ⟨sp, hsp, b, hb, rfl⟩
    refine ((hos.map _).append_left _).trans ?_
    refine perm_middle.trans ?_
    exact (perm_cons_erase hmem).symm.append_right _
  · refine (hhash hash).1.congr fun i x hx => hnext x fun hx' => ?_
    -- A bufctl of a chain is not free.
    rw [← (hhash hash).1.home i x hx] at hx
    obtain ⟨s, hs', hxs⟩ := (h.hashed hash x).mp (((hhash hash).2 x).mp hx).1
    exact h.not_mem_os hheld hx' (h.live_held hs') hxs
  · rw [(hhash hash).2, h.hashed hash, hnd.mem_erase_iff, exists_mem_iff hsp, or_and_right,
      and_comm]
    refine or_congr_right (and_iff_left_of_imp ?_)
    rintro ⟨s, hs', hne, hx⟩ rfl
    exact hne (h.arena.cell_unique (h.live_held hs') hheld (h.os_sub (h.live_held hs') hx) hcell)

end Inv

/-- A slab without a free chunk moves to the front of the free list. -/
theorem toFreelist_spec {x y free : List Nat} (hring : Ring 0 w.next w.prev ((x ++ sp :: y) ++ free))
    (hfl : w.freelist = free.head?.getD 0) :
    ∃ next prev, toFreelist w sp = some { w with next := next, prev := prev, freelist := sp } ∧
      Ring 0 next prev ((x ++ y) ++ sp :: free) := by
  have hassoc : (x ++ sp :: y) ++ free = x ++ sp :: (y ++ free) := by simp
  rw [hassoc] at hring
  have hnd := hring.nodup
  have hsp0 : sp ≠ 0 := hring.ne_of_mem (by simp)
  unfold toFreelist
  rw [hring.next_eq, hfl]
  change ∃ next prev, (if (y ++ free).head?.getD 0 = free.head?.getD 0 then _ else _) = _ ∧ _
  cases y with
  | nil =>
    have heq : ([] ++ free).head?.getD 0 = free.head?.getD 0 := rfl
    rw [if_pos heq]
    exact ⟨w.next, w.prev, rfl, by rw [append_nil]; exact hring⟩
  | cons e y =>
    have hne : (e :: y ++ free).head?.getD 0 ≠ free.head?.getD 0 := by
      have he0 : e ≠ 0 := hring.ne_of_mem (by simp)
      have hsub : (e :: (y ++ free)).Nodup := (nodup_cons.mp (nodup_append.mp hnd).2.1).2
      have hef : e ∉ free := fun hmem =>
        (nodup_cons.mp hsub).1 (mem_append_right _ hmem)
      change e ≠ free.head?.getD 0
      cases free with
      | nil => exact he0
      | cons e' free =>
        rintro rfl
        exact hef mem_cons_self
    rw [if_neg hne, hring.prev_eq]
    have hrem := hring.remove rfl rfl
    have hsplit : x ++ (e :: y ++ free) = (x ++ e :: y) ++ free := by simp
    rw [hsplit] at hrem
    have hfresh : sp ∉ (x ++ e :: y) ++ free := by
      rw [← hsplit]
      exact (nodup_cons.mp (nodup_middle.mp hnd)).1
    have hprev := hrem.prev_head
    have hins := hrem.insert hfresh hsp0 rfl rfl
    refine ⟨_, _, ?_, hins⟩
    change Option.bind (update w.prev _ _ (free.head?.getD 0)) _ = _
    rw [hprev]
    rfl

namespace Inv

variable {g : Ghost} {s a x : Nat} {l : List Nat}

/-- Putting a chunk back and counting it. -/
theorem putChunk (h : Inv c w g) (hsp : sp ∈ g.live) (hb : b ∈ g.os sp)
    {table next : Nat → Option Nat} {hs : Nat → List Nat}
    (hold : ∀ x, (∀ s ∈ g.live, x ∉ g.os s) → next x = w.bcNext x)
    (hhash : c.hash = true → Chains table next (w.hashOf c) hs ∧
      ∀ x, x ∈ hs (w.hashOf c x) ↔ x ∈ g.hs (w.hashOf c x) ∧ x ≠ b) : ∃ w' g', putChunk { w with
        table := table
        bcNext := next
        out := w.out.erase (w.store.bufOf c b) } sp b = some w' ∧
      Inv c { w' with refcnt := update w'.refcnt sp (w'.refcnt sp - 1) } g' ∧ sp ∈ g'.free := by
  have hheld := h.live_held hsp
  have hnot : ∀ x ∈ g.fs sp, ∀ s ∈ g.live, x ∉ g.os s :=
    fun x hx s hs => h.not_mem_os hheld hx (h.live_held hs)
  have htl := (h.tailed sp hheld).congr fun x hx => hold x (hnot x hx)
  have hbfs : b ∉ g.fs sp := fun hmem => h.not_mem_os hheld hmem hheld hb
  have hnd : (g.full ++ g.free).Nodup := h.ring.nodup
  unfold Kmem.putChunk
  cases htail : w.tail sp with
  | none =>
    have hfs : g.fs sp = [] := by rw [← getLast?_eq_none_iff, ← htl.tail, htail]
    have hfull : sp ∈ g.full := (mem_append.mp hsp).resolve_right fun hmem => h.free sp hmem hfs
    obtain ⟨x, y, hxy⟩ := append_of_mem hfull
    have hring := h.ring
    unfold Ghost.live at hring
    rw [hxy] at hring hnd
    obtain ⟨next', prev', heq, hring'⟩ := toFreelist_spec (w := { w with
        table := table
        bcNext := next
        out := w.out.erase (w.store.bufOf c b)
        tail := update w.tail sp (some b)
        head := update w.head sp (some b) }) hring h.freelist
    have hperm : (x ++ y ++ sp :: g.free).Perm g.live := by
      unfold Ghost.live
      rw [hxy]
      refine perm_middle.trans ?_
      exact perm_middle.symm.append_right _
    have hxy' : ∀ s ∈ x ++ y, s ≠ sp ∧ s ∈ g.full := by
      intro s hs
      have hnot' : sp ∉ x ++ y := (nodup_cons.mp (nodup_middle.mp
        (nodup_append.mp hnd).1)).1
      refine ⟨fun heq => hnot' (heq ▸ hs), hxy ▸ ?_⟩
      simp only [mem_append, mem_cons] at hs ⊢
      tauto
    refine ⟨_, _, heq, h.putBack hsp hb _ _ hold (fun _ _ => rfl) hhash ?_ hperm hring' hxy'
      fun s hs => ?_, mem_cons_self⟩
    · rw [hfs]
      exact Tailed.singleton _ b
    · exact mem_cons.mp hs
  | some old =>
    rw [htail] at htl
    have hfs : g.fs sp ≠ [] := by
      intro hnil
      have := htl.tail
      simp [hnil] at this
    have hfree : sp ∈ g.free := (mem_append.mp hsp).resolve_left fun hmem => hfs (h.full sp hmem)
    have hlast : old ∈ g.fs sp := mem_of_getLast? htl.tail.symm
    have hpush := htl.push hbfs
    have hinv := h.putBack hsp hb g.full g.free hold (fun x hx => ?_) hhash hpush .rfl h.ring
      (fun s hs => ?_) fun s hs => .inr hs
    · rw [update_eq_self, ← h.freelist] at hinv
      exact ⟨_, _, rfl, hinv, hfree⟩
    · exact update_of_ne (fun heq : x = old => hx (heq ▸ hlast)) _ _
    · exact ⟨(nodup_append.mp hnd).2.2 s hs sp hfree, hs⟩

end Inv

end Sol7.Kmem
