import Sol7.Kmem.Slab

/-!
# Slabs in Memory

What stays as it is from the time a slab is created until its resources are given back:
its base, its bufctls, which chunk each bufctl is for, and that no two slabs have a page,
a chunk or a bufctl in common.

## Main definitions

* `Arena`: The slabs and their bufctls as `kmem_slab_create` leaves them.
* `Filled`: The memory in the middle of the loop of `kmem_slab_create`.

## Theorems

* `mem_chunksAt`, `nodup_chunksAt`, `chunksAt_bounds`: The chunks of a slab.
* `Arena.cell_unique`, `Arena.chunk_unique`, `Arena.bufOf_inj`: Slabs are apart.
* `fillLoop_spec`: A slab gets a bufctl for every chunk, or a bufctl is missing.
* `Arena.create`, `Arena.shrink`: A new slab, and fewer of them.
-/

namespace Sol7.Kmem

open List Function Nat

variable {c : Config} {st st' : Store} {held paged held' paged' : List Nat} {cells : Nat → List Nat}
  {sp sp' b b' a base page color : Nat}

/-! ### Chunks -/

namespace Config

theorem pagesize_pos (c : Config) : 0 < c.pagesize := Nat.two_pow_pos _

theorem chunksize_le_room (c : Config) : c.chunksize ≤ c.room := by
  have h := c.fits
  unfold room
  omega

theorem room_le (c : Config) : c.room ≤ c.slabsize := sub_le _ _

theorem slabsize_pos (c : Config) : 0 < c.slabsize := by
  have h := c.chunksize_pos
  have h' := c.chunksize_le_room
  have h'' := c.room_le
  omega

theorem perSlab_pos (c : Config) : 0 < c.perSlab := div_pos c.chunksize_le_room c.chunksize_pos

theorem maxcolor_add (c : Config) : c.maxcolor + c.perSlab * c.chunksize = c.room := by
  rw [mul_comm]
  exact mod_add_div _ _

theorem raw_pagesize (c : Config) (h : c.hash = false) : c.slabsize = c.pagesize := c.raw h

theorem raw_fits (c : Config) (h : c.hash = false) : c.chunksize + c.sizeofSlab ≤ c.slabsize := by
  simpa [h] using c.fits

/-- A color stays on the first page of a slab. -/
theorem maxcolor_lt (c : Config) : c.maxcolor < c.pagesize := by
  cases h : c.hash with
  | true =>
    have hc := c.hashed h
    unfold maxcolor room
    rwa [h, if_pos rfl]
  | false =>
    have hs := c.raw_pagesize h
    have hr := c.room_le
    have hlt := mod_lt c.room c.chunksize_pos
    have hle := c.chunksize_le_room
    unfold maxcolor
    omega

theorem mem_chunksAt : a ∈ c.chunksAt base ↔ ∃ i < c.perSlab, base + i * c.chunksize = a := by
  unfold chunksAt
  simp

theorem length_chunksAt : (c.chunksAt base).length = c.perSlab := by
  unfold chunksAt
  simp

theorem nodup_chunksAt : (c.chunksAt base).Nodup := by
  refine nodup_range.map fun i j hij => ?_
  have hmul : i * c.chunksize = j * c.chunksize := add_left_cancel hij
  exact eq_of_mul_eq_mul_right c.chunksize_pos hmul

theorem pageBase_le (c : Config) (a : Nat) : c.pageBase a ≤ a := div_mul_le_self _ _

/-- The page of an address near an aligned one. -/
theorem pageBase_add {k : Nat} (hp : c.pagesize ∣ page) (hk : k < c.pagesize) :
    c.pageBase (page + k) = page := by
  obtain ⟨m, rfl⟩ := hp
  unfold pageBase
  rw [mul_add_div c.pagesize_pos, div_eq_of_lt hk, add_zero, mul_comm]

/-- The chunks of a slab are on its pages. -/
theorem chunksAt_bounds (hcolor : base ≤ c.pageBase base + c.maxcolor) (ha : a ∈ c.chunksAt base) :
    base ≤ a ∧ a + c.chunksize ≤ c.pageBase base + c.room := by
  obtain ⟨i, hi, rfl⟩ := mem_chunksAt.mp ha
  have hroom := c.maxcolor_add
  have hmul : (i + 1) * c.chunksize ≤ c.perSlab * c.chunksize := mul_le_mul_right _ hi
  rw [succ_mul] at hmul
  omega

end Config

/-! ### Slabs -/

/-- The slabs and their bufctls as `kmem_slab_create` leaves them. The slabs in `paged`
    still have their pages. -/
structure Arena (c : Config) (st : Store) (held paged : List Nat) (cells : Nat → List Nat) :
    Prop where
  ne : ∀ sp ∈ held, sp ≠ 0
  cache : ∀ sp ∈ held, st.cache sp = true
  chunks : ∀ sp ∈ held, st.chunks sp = c.perSlab
  bufs : ∀ sp ∈ held, ((cells sp).map (st.bufOf c)).Perm (c.chunksAt (st.base sp))
  place : ∀ sp ∈ held, ∀ b ∈ cells sp, st.slabOf c b = sp
  cell : c.hash = false → ∀ sp ∈ held, ∀ b ∈ cells sp, c.offset ≤ b
  color : ∀ sp ∈ held, st.base sp ≤ c.pageBase (st.base sp) + c.maxcolor
  struct : c.hash = false → ∀ sp ∈ held, sp = c.pageBase (st.base sp) + c.slabsize - c.sizeofSlab
  sub : paged ⊆ held
  raw : c.hash = false → held ⊆ paged
  page : ∀ sp ∈ paged, c.pageBase (st.base sp) ∈ st.pages
  page_inj : ∀ sp ∈ paged, ∀ sp' ∈ paged,
    c.pageBase (st.base sp) = c.pageBase (st.base sp') → sp = sp'
  apart : ∀ p ∈ st.pages, ∀ q ∈ st.pages, p ≠ q → p + c.slabsize ≤ q ∨ q + c.slabsize ≤ p
  slabs : c.hash = true → ∀ sp ∈ held, sp ∈ st.slabs
  bufctls : c.hash = true → ∀ sp ∈ held, ∀ b ∈ cells sp, b ∈ st.bufctls

namespace Arena

variable (h : Arena c st held paged cells)
include h

theorem cell_unique (hsp : sp ∈ held) (hsp' : sp' ∈ held)
    (hb : b ∈ cells sp) (hb' : b ∈ cells sp') : sp = sp' := by
  rw [← h.place sp hsp b hb, h.place sp' hsp' b hb']

theorem nodup_bufs (hsp : sp ∈ held) : ((cells sp).map (st.bufOf c)).Nodup :=
  (h.bufs sp hsp).nodup_iff.mpr Config.nodup_chunksAt

theorem nodup_cells (hsp : sp ∈ held) : (cells sp).Nodup := List.Nodup.of_map _ (h.nodup_bufs hsp)

theorem length_cells (hsp : sp ∈ held) : (cells sp).length = st.chunks sp := by
  have hlen := (h.bufs sp hsp).length_eq
  rw [length_map, Config.length_chunksAt] at hlen
  rw [hlen, h.chunks sp hsp]

theorem bufOf_mem (hsp : sp ∈ held) (hb : b ∈ cells sp) : st.bufOf c b ∈ c.chunksAt (st.base sp) :=
  (h.bufs sp hsp).mem_iff.mp (mem_map_of_mem hb)

theorem chunk_unique (hsp : sp ∈ paged) (hsp' : sp' ∈ paged)
    (ha : a ∈ c.chunksAt (st.base sp)) (ha' : a ∈ c.chunksAt (st.base sp')) : sp = sp' := by
  refine h.page_inj sp hsp sp' hsp' ?_
  by_contra hne
  have hbnd := Config.chunksAt_bounds (h.color sp (h.sub hsp)) ha
  have hbnd' := Config.chunksAt_bounds (h.color sp' (h.sub hsp')) ha'
  have hle := c.pageBase_le (st.base sp)
  have hle' := c.pageBase_le (st.base sp')
  have hroom := c.room_le
  have hpos := c.chunksize_pos
  rcases h.apart _ (h.page sp hsp) _ (h.page sp' hsp') hne with hlt | hlt
  all_goals omega

/-- A buffer has one bufctl. -/
theorem bufOf_inj (hsp : sp ∈ paged) (hsp' : sp' ∈ paged)
    (hb : b ∈ cells sp) (hb' : b' ∈ cells sp') (heq : st.bufOf c b = st.bufOf c b') : b = b' := by
  have hmem := h.bufOf_mem (h.sub hsp) hb
  rw [heq] at hmem
  obtain rfl := h.chunk_unique hsp hsp' hmem (h.bufOf_mem (h.sub hsp') hb')
  exact inj_on_of_nodup_map (h.nodup_bufs (h.sub hsp)) hb hb' heq

/-- Fewer slabs, in memory that is the same where it matters. -/
theorem shrink (hheld : held' ⊆ held) (hpaged : paged' ⊆ paged)
    (hsub : paged' ⊆ held') (hraw : c.hash = false → held' ⊆ paged')
    (hcache : ∀ sp ∈ held', st'.cache sp = st.cache sp)
    (hbase : ∀ sp ∈ held', st'.base sp = st.base sp)
    (hchunks : ∀ sp ∈ held', st'.chunks sp = st.chunks sp)
    (haddr : c.hash = true → ∀ sp ∈ held', ∀ b ∈ cells sp, st'.addr b = st.addr b)
    (hslab : c.hash = true → ∀ sp ∈ held', ∀ b ∈ cells sp, st'.slab b = st.slab b)
    (hpages : ∀ sp ∈ paged', c.pageBase (st.base sp) ∈ st'.pages) (hp : st'.pages ⊆ st.pages)
    (hslabs : c.hash = true → ∀ sp ∈ held', sp ∈ st'.slabs)
    (hbufctls : c.hash = true → ∀ sp ∈ held', ∀ b ∈ cells sp, b ∈ st'.bufctls) :
    Arena c st' held' paged' cells := by
  have hbuf : ∀ sp ∈ held', ∀ b ∈ cells sp, st'.bufOf c b = st.bufOf c b := by
    intro sp hsp b hb
    unfold Store.bufOf
    split
    · next hash => exact haddr hash sp hsp b hb
    · rfl
  have hof : ∀ sp ∈ held', ∀ b ∈ cells sp, st'.slabOf c b = st.slabOf c b := by
    intro sp hsp b hb
    unfold Store.slabOf
    split
    · next hash => exact hslab hash sp hsp b hb
    · rfl
  exact {
    ne := fun sp hsp => h.ne sp (hheld hsp)
    cache := fun sp hsp => (hcache sp hsp).trans (h.cache sp (hheld hsp))
    chunks := fun sp hsp => (hchunks sp hsp).trans (h.chunks sp (hheld hsp))
    bufs := fun sp hsp => by
      rw [map_congr_left (hbuf sp hsp), hbase sp hsp]
      exact h.bufs sp (hheld hsp)
    place := fun sp hsp b hb => (hof sp hsp b hb).trans (h.place sp (hheld hsp) b hb)
    cell := fun hash sp hsp => h.cell hash sp (hheld hsp)
    color := fun sp hsp => by
      rw [hbase sp hsp]
      exact h.color sp (hheld hsp)
    struct := fun hash sp hsp => by
      rw [hbase sp hsp]
      exact h.struct hash sp (hheld hsp)
    sub := hsub
    raw := hraw
    page := fun sp hsp => by
      rw [hbase sp (hsub hsp)]
      exact hpages sp hsp
    page_inj := fun sp hsp sp' hsp' heq => by
      rw [hbase sp (hsub hsp), hbase sp' (hsub hsp')] at heq
      exact h.page_inj sp (hpaged hsp) sp' (hpaged hsp') heq
    apart := fun p hp' q hq => h.apart p (hp hp') q (hp hq)
    slabs := hslabs
    bufctls := hbufctls }

end Arena

/-! ### The loop that cuts a slab up -/

/-- The memory after some rounds of the loop. The bufctls are in the order of the free
    list, which is the order from the last chunk back to the first one. -/
structure Filled (c : Config) (sp base : Nat) (f0 : Fill) (l : List Nat) (f : Fill) : Prop where
  nodup : l.Nodup
  chain : Threaded (links f.head f.bcNext) l
  tail : l ≠ [] → f.tail = l.getLast?
  next_of : ∀ b, b ∉ l → f.bcNext b = f0.bcNext b
  addr_of : ∀ b, b ∉ l → f.addr b = f0.addr b
  slab_of : ∀ b, b ∉ l → f.slab b = f0.slab b
  bufctls : f.bufctls = if c.hash then l ++ f0.bufctls else f0.bufctls
  bufs : l.reverse.map (fun b => if c.hash then f.addr b else b - c.offset) =
    (List.range l.length).map fun i => base + i * c.chunksize
  slab : c.hash = true → ∀ b ∈ l, f.slab b = sp
  cell : c.hash = false → ∀ b ∈ l, c.offset ≤ b

namespace Filled

variable {f0 f : Fill} {l : List Nat}

theorem start (c : Config) (sp base : Nat) (f0 : Fill) (h : f0.head = none) :
    Filled c sp base f0 [] f0 where
  nodup := nodup_nil
  chain := threaded_nil (by rw [h]; rfl)
  tail := by simp
  next_of := fun _ _ => rfl
  addr_of := fun _ _ => rfl
  slab_of := fun _ _ => rfl
  bufctls := by simp
  bufs := rfl
  slab := by simp
  cell := by simp

/-- One more round. -/
theorem round (h : Filled c sp base f0 l f) (hb : b ∉ l)
    (hraw : c.hash = false → b = base + l.length * c.chunksize + c.offset) :
    Filled c sp base f0 (b :: l) (f.chunk c sp (base + l.length * c.chunksize) l.length b) where
  nodup := nodup_cons.mpr ⟨hb, h.nodup⟩
  chain := by
    change Threaded (links (some b) (update f.bcNext b f.head)) (b :: l)
    rw [h.chain.head_links]
    exact h.chain.insert_front h.nodup hb
  tail := fun _ => by
    change (if l.length = 0 then some b else f.tail) = (b :: l).getLast?
    cases l with
    | nil => rfl
    | cons e l =>
      rw [if_neg (by simp), h.tail (by simp)]
      rfl
  next_of := fun x hx => by
    rw [← h.next_of x (not_mem_of_not_mem_cons hx)]
    exact update_of_ne (ne_of_not_mem_cons hx) ..
  addr_of := fun x hx => by
    rw [← h.addr_of x (not_mem_of_not_mem_cons hx)]
    unfold Fill.chunk
    split
    · exact update_of_ne (ne_of_not_mem_cons hx) ..
    · rfl
  slab_of := fun x hx => by
    rw [← h.slab_of x (not_mem_of_not_mem_cons hx)]
    unfold Fill.chunk
    split
    · exact update_of_ne (ne_of_not_mem_cons hx) ..
    · rfl
  bufctls := by
    unfold Fill.chunk
    rw [h.bufctls]
    split <;> rfl
  bufs := by
    rw [reverse_cons, map_append, length_cons, range_succ, map_append, ← h.bufs]
    unfold Fill.chunk
    cases hash : c.hash with
    | true =>
      have hold : ∀ x ∈ l.reverse, update f.addr b (base + l.length * c.chunksize) x =
          f.addr x := by
        intro x hx
        refine update_of_ne (fun heq => hb ?_) ..
        rw [← heq]
        exact mem_reverse.mp hx
      simp only [if_true, map_cons, map_nil, update_self]
      rw [map_congr_left hold]
    | false =>
      have hsub : b - c.offset = base + l.length * c.chunksize := by
        have := hraw hash
        omega
      simp [hsub]
  slab := fun hash x hx => by
    unfold Fill.chunk
    dsimp only
    rw [if_pos hash]
    by_cases hxb : x = b
    · rw [hxb, update_self]
    · rw [update_of_ne hxb]
      exact h.slab hash x (mem_of_ne_of_mem hxb hx)
  cell := fun hash x hx => by
    rcases mem_cons.mp hx with rfl | hx
    · have := hraw hash
      omega
    · exact h.cell hash x hx

/-- The bufctls of a raw slab are inside the chunks. -/
theorem raw_mem (h : Filled c sp base f0 l f) (hash : c.hash = false) (hb : b ∈ l) :
    ∃ i < l.length, b = base + i * c.chunksize + c.offset := by
  have hmem : b - c.offset ∈ (List.range l.length).map fun i => base + i * c.chunksize := by
    rw [← h.bufs]
    refine mem_map.mpr ⟨b, mem_reverse.mpr hb, ?_⟩
    simp [hash]
  obtain ⟨i, hi, heq⟩ := mem_map.mp hmem
  have hcell := h.cell hash b hb
  exact ⟨i, mem_range.mp hi, by omega⟩

end Filled

/-- A slab gets a bufctl for every chunk, or a bufctl is missing. In both cases the
    bufctls are the first ones of the answers. -/
theorem fillLoop_spec {f0 f : Fill} {l : List Nat} {answers : List (Option Nat)} {limit n : Nat}
    (h : Filled c sp base f0 l f)
    (hans : c.hash = true → l.reverse.map some = answers.take l.length)
    (hnd : (answers.filterMap id).Nodup) (hle : base + l.length * c.chunksize ≤ limit)
    (hn : limit < base + l.length * c.chunksize + n * c.chunksize) :
    ∃ f' l' ok, fillLoop c sp limit answers n (base + l.length * c.chunksize) l.length f =
        (f', l'.length, ok) ∧ Filled c sp base f0 l' f' ∧
      (c.hash = true → ∀ b ∈ l', b ∈ answers.filterMap id) ∧
      (c.hash = false → ok = true) ∧
      (ok = true → base + l'.length * c.chunksize ≤ limit ∧
        limit < base + (l'.length + 1) * c.chunksize) := by
  have hmem : c.hash = true → ∀ b ∈ l, b ∈ answers.filterMap id := by
    intro hash b hb
    have hb' : some b ∈ answers.take l.length := by
      rw [← hans hash]
      exact mem_map_of_mem (mem_reverse.mpr hb)
    exact mem_filterMap.mpr ⟨some b, mem_of_mem_take hb', rfl⟩
  induction n generalizing l f with
  | zero => omega
  | succ n ih =>
    unfold fillLoop
    split
    · next hfit =>
      have hlen : base + (l.length + 1) * c.chunksize =
          base + l.length * c.chunksize + c.chunksize := by
        rw [succ_mul, add_assoc]
      have hfuel : limit < base + (l.length + 1) * c.chunksize + n * c.chunksize := by
        rw [succ_mul] at hn
        omega
      cases hash : c.hash with
      | false =>
        have hnew : base + l.length * c.chunksize + c.offset ∉ l := by
          intro hb
          obtain ⟨i, hi, heq⟩ := h.raw_mem hash hb
          have hmul : (i + 1) * c.chunksize ≤ l.length * c.chunksize := mul_le_mul_right _ hi
          have hpos := c.chunksize_pos
          rw [succ_mul] at hmul
          omega
        have hround := h.round hnew fun _ => rfl
        have hih := ih hround (by simp [hash]) (by rw [length_cons, hlen]; exact hfit)
          (by rw [length_cons]; exact hfuel) (by simp [hash])
        rw [length_cons, hlen, hash] at hih
        exact hih
      | true =>
        cases hget : answers[l.length]?.join with
        | none => exact ⟨f, l, false, by simp, h, fun _ => hmem hash, by simp, by simp⟩
        | some b =>
          have hget' : answers[l.length]? = some (some b) := by
            rwa [Option.join_eq_some_iff] at hget
          have htake : (b :: l).reverse.map some = answers.take (l.length + 1) := by
            rw [take_add_one, hget', reverse_cons, map_append, hans hash]
            rfl
          -- The bufctls so far are the first ones of the answers.
          have hprefix : (b :: l).reverse.Sublist (answers.filterMap id) := by
            have hsub := (take_sublist (l.length + 1) answers).filterMap id
            rw [← htake, filterMap_map] at hsub
            have hid : (b :: l).reverse.filterMap (id ∘ some) = (b :: l).reverse := filterMap_some
            rwa [hid] at hsub
          have hnd' : (b :: l).Nodup := nodup_reverse.mp (hnd.sublist hprefix)
          have hround := h.round (nodup_cons.mp hnd').1 (by simp [hash])
          have hmem' : c.hash = true → ∀ x ∈ b :: l, x ∈ answers.filterMap id :=
            fun _ x hx => hprefix.subset (mem_reverse.mpr hx)
          have hih := ih hround (fun _ => htake) (by rw [length_cons, hlen]; exact hfit)
            (by rw [length_cons]; exact hfuel) hmem'
          rw [length_cons, hlen, hash] at hih
          exact hih
    · next hfit =>
      refine ⟨f, l, true, rfl, h, hmem, fun _ => rfl, fun _ => ⟨hle, ?_⟩⟩
      rw [succ_mul]
      omega

/-- A walk along a list frees its bufctls. -/
theorem freeBufctls_spec {next : Nat → Option Nat} {n : Nat} {start : Option Nat}
    {l : List Nat} (bufctls : List Nat) (h : Threaded (links start next) l) (hn : l.length < n) :
    freeBufctls next n start bufctls = some (bufctls.filter (· ∉ l)) := by
  induction l generalizing start n bufctls with
  | nil =>
    cases n with
    | zero => omega
    | succ n =>
      rw [h.head_links]
      simp [freeBufctls]
  | cons b l ih =>
    cases n with
    | zero => omega
    | succ n =>
      rw [length_cons] at hn
      rw [h.head_links, head?_cons, freeBufctls, ih _ h.tail_links (by omega), filter_filter]
      congr 1
      refine filter_congr fun x _ => ?_
      by_cases hx : x = b
      all_goals simp [hx]

/-! ### A new slab -/

namespace Arena

variable {f0 f : Fill} {l : List Nat}

/-- A page that is apart from all others is no page of a slab. -/
theorem page_ne (h : Arena c st held paged cells)
    (hfresh : ∀ q ∈ st.pages, page + c.slabsize ≤ q ∨ q + c.slabsize ≤ page) (hsp : sp ∈ paged) :
    c.pageBase (st.base sp) ≠ page := by
  intro heq
  have hpos := c.slabsize_pos
  rcases hfresh _ (h.page sp hsp) with hlt | hlt
  all_goals omega

/-- The structure of a new slab is not in use. -/
theorem fresh (h : Arena c st held paged cells)
    (hfresh : ∀ q ∈ st.pages, page + c.slabsize ≤ q ∨ q + c.slabsize ≤ page)
    (hsp : c.hash = true → sp ∉ st.slabs)
    (hraw : c.hash = false → sp = page + c.slabsize - c.sizeofSlab) : sp ∉ held := by
  intro hmem
  cases hash : c.hash with
  | true => exact hsp hash (h.slabs hash sp hmem)
  | false =>
    have hne := h.page_ne hfresh (h.raw hash hmem)
    have heq := h.struct hash sp hmem
    have heq' := hraw hash
    have hfits := c.raw_fits hash
    omega

/-- What holds of a new slab and of the others holds of all of them. -/
theorem forall_mem_cons_update {α : Type} {P : Nat → α → Prop} {g : Nat → α} {v : α} (hsp : sp ∉ held)
    (hnew : P sp v) (hold : ∀ s ∈ held, P s (g s)) : ∀ s ∈ sp :: held, P s (update g sp v s) := by
  refine forall_mem_cons.mpr ⟨by rwa [update_self], fun s hs => ?_⟩
  rw [update_of_ne (ne_of_mem_of_not_mem hs hsp)]
  exact hold s hs

/-- The slab structure of a raw slab is found from every chunk. -/
theorem rawSlab_of_mem (hash : c.hash = false) (hp : c.pagesize ∣ page) (hcolor : color ≤ c.maxcolor)
    (ha : a ∈ c.chunksAt (page + color)) : c.rawSlab a = page + c.slabsize - c.sizeofSlab := by
  have hbase : c.pageBase (page + color) = page :=
    Config.pageBase_add hp (lt_of_le_of_lt hcolor c.maxcolor_lt)
  have hbnd := Config.chunksAt_bounds (by rw [hbase]; omega) ha
  have hsize := c.raw_pagesize hash
  have hfits := c.raw_fits hash
  have hpos := c.chunksize_pos
  have hroom := c.room_le
  have hsplit : a = page + (a - page) := by omega
  unfold Config.rawSlab
  rw [hsplit, Config.pageBase_add hp (by omega)]
  omega

theorem create (h : Arena c st held paged cells) (hf : Filled c sp (page + color) f0 l f)
    (haddr : f0.addr = st.addr) (hslab : f0.slab = st.slab) (hbufctls : f0.bufctls = st.bufctls)
    (hlen : l.length = c.perSlab) (hcolor : color ≤ c.maxcolor) (hp : c.pagesize ∣ page)
    (hfresh : ∀ q ∈ st.pages, page + c.slabsize ≤ q ∨ q + c.slabsize ≤ page)
    (hsp : c.hash = true → sp ≠ 0 ∧ sp ∉ st.slabs)
    (hraw : c.hash = false → sp = page + c.slabsize - c.sizeofSlab)
    (hnew : c.hash = true → ∀ b ∈ l, b ∉ st.bufctls) : Arena c {
      cache := update st.cache sp true
      base := update st.base sp (page + color)
      chunks := update st.chunks sp l.length
      addr := f.addr
      slab := f.slab
      pages := page :: st.pages
      slabs := if c.hash then sp :: st.slabs else st.slabs
      bufctls := f.bufctls } (sp :: held) (sp :: paged) (update cells sp l) := by
  have hsp' : sp ∉ held := h.fresh hfresh (fun hash => (hsp hash).2) hraw
  have hne : ∀ s ∈ held, s ≠ sp := fun s hs heq => hsp' (heq ▸ hs)
  have hbase : c.pageBase (page + color) = page :=
    Config.pageBase_add hp (lt_of_le_of_lt hcolor c.maxcolor_lt)
  -- Bufctls of other slabs are not written.
  have hold : c.hash = true → ∀ s ∈ held, ∀ b ∈ cells s, b ∉ l :=
    fun hash s hs b hb hbl => hnew hash b hbl (h.bufctls hash s hs b hb)
  have hbufs : (l.map fun b => if c.hash then f.addr b else b - c.offset).Perm
      (c.chunksAt (page + color)) := by
    have heq := hf.bufs
    rw [hlen, map_reverse] at heq
    unfold Config.chunksAt
    rw [← heq]
    exact (reverse_perm _).symm
  constructor
  · refine forall_mem_cons.mpr ⟨?_, h.ne⟩
    cases hash : c.hash with
    | true => exact (hsp hash).1
    | false =>
      have heq := hraw hash
      have hfits := c.raw_fits hash
      have hpos := c.chunksize_pos
      omega
  · exact forall_mem_cons_update (P := fun _ b => b = true) hsp' rfl h.cache
  · exact forall_mem_cons_update (P := fun _ n => n = c.perSlab) hsp' hlen h.chunks
  · intro s hs
    rcases mem_cons.mp hs with rfl | hs
    · dsimp only
      rw [update_self, update_self]
      exact hbufs
    dsimp only
    rw [update_of_ne (hne s hs), update_of_ne (hne s hs)]
    have hsame : ∀ b ∈ cells s, (if c.hash then f.addr b else b - c.offset) = st.bufOf c b := by
      intro b hb
      unfold Store.bufOf
      split
      · next hash => exact (hf.addr_of b (hold hash s hs b hb)).trans (by rw [haddr])
      · rfl
    have hmap := h.bufs s hs
    rw [← map_congr_left hsame] at hmap
    exact hmap
  · intro s hs b hb
    rcases mem_cons.mp hs with rfl | hs
    · rw [update_self] at hb
      unfold Store.slabOf
      split
      · next hash => exact hf.slab hash b hb
      next hash =>
      have hraw' : c.hash = false := by simpa using hash
      have hmem := hbufs.mem_iff.mp (mem_map_of_mem hb)
      simp only [hraw', Bool.false_eq_true, if_false] at hmem
      rw [rawSlab_of_mem hraw' hp hcolor hmem, hraw hraw']
    · rw [update_of_ne (hne s hs)] at hb
      rw [← h.place s hs b hb]
      unfold Store.slabOf
      split
      · next hash => exact (hf.slab_of b (hold hash s hs b hb)).trans (by rw [hslab])
      · rfl
  · exact fun hash => forall_mem_cons_update (P := fun _ l => ∀ b ∈ l, c.offset ≤ b) hsp'
      (hf.cell hash) (h.cell hash)
  · exact forall_mem_cons_update (P := fun _ p => p ≤ c.pageBase p + c.maxcolor) hsp'
      (by rw [hbase]; omega) h.color
  · exact fun hash => forall_mem_cons_update
      (P := fun s p => s = c.pageBase p + c.slabsize - c.sizeofSlab) hsp'
      (by rw [hbase]; exact hraw hash) (h.struct hash)
  · exact cons_subset_cons sp h.sub
  · exact fun hash => cons_subset_cons sp (h.raw hash)
  · exact forall_mem_cons_update (P := fun _ p => c.pageBase p ∈ page :: st.pages)
      (fun hs => hsp' (h.sub hs)) (by rw [hbase]; exact mem_cons_self)
      fun s hs => mem_cons_of_mem _ (h.page s hs)
  · intro s hs s' hs' heq
    dsimp only at heq
    rcases mem_cons.mp hs with rfl | hs
    · rcases mem_cons.mp hs' with rfl | hs'
      · rfl
      · rw [update_self, hbase, update_of_ne (hne s' (h.sub hs'))] at heq
        exact absurd heq.symm (h.page_ne hfresh hs')
    · rcases mem_cons.mp hs' with hnew' | hs'
      · rw [hnew', update_self, hbase, update_of_ne (hne s (h.sub hs))] at heq
        exact absurd heq (h.page_ne hfresh hs)
      · rw [update_of_ne (hne s (h.sub hs)), update_of_ne (hne s' (h.sub hs'))] at heq
        exact h.page_inj s hs s' hs' heq
  · refine forall_mem_cons.mpr ⟨forall_mem_cons.mpr ⟨absurd rfl, fun q hq _ => ?_⟩,
      fun p hp' => forall_mem_cons.mpr ⟨fun _ => ?_, h.apart p hp'⟩⟩
    · exact hfresh q hq
    · exact (hfresh p hp').symm
  · intro hash s hs
    rw [if_pos hash]
    exact cons_subset_cons sp (h.slabs hash) hs
  · intro hash
    dsimp only
    rw [hf.bufctls, if_pos hash, hbufctls]
    exact forall_mem_cons_update (P := fun _ l' => ∀ b ∈ l', b ∈ l ++ st.bufctls) hsp'
      (fun b => mem_append_left _) fun s hs b hb => mem_append_right _ (h.bufctls hash s hs b hb)

end Arena

end Sol7.Kmem
