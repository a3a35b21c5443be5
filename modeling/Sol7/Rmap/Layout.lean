import Sol7.Rmap.Model

/-!
# The Layout of a Resource Map

What the routines do to the array, for an array that is laid out as it should
be: the entries, and zero sizes behind them. Each routine is taken apart into
its loops, and what it returns is again laid out, with the range taken out of
the free units or put back into them.

## Main definitions

* `Rmap.Laid`: The array of a map, taken apart.
* `Rmap.entries`: The entries, up to the size of zero.
* `Rmap.Takes`, `Rmap.Gives`: A range leaves the free units, or joins them.

## Theorems

* `Rmap.Laid.rmallocLocked`: `rmalloc` takes from the first entry that is large
  enough.
* `Rmap.Laid.rmget`: `rmget` takes the range that is asked for, if it can.
* `Rmap.Laid.rmfreePass`: A pass of `rmfree` returns the range, or loses an
  entry.
* `Rmap.rmfree_overflow_iff`: What is lost when the map is full.
-/

namespace Sol7.Rmap

open List

open Extent (stop)

/-- All sizes are zero. -/
def Blank (zs : List Extent) : Prop := ∀ z ∈ zs, z.size = 0

/-- The entries of a map, up to the size of zero. -/
def entries (mp : Rmap) : List Extent := mp.map.takeWhile fun e => e.size ≠ 0

/-- The array of a map is made of its entries and of zero sizes, of which there
    are two more than free entries. -/
structure Laid (mp : Rmap) (es zs : List Extent) : Prop where
  map : mp.map = es ++ zs
  apart : Apart es
  blank : Blank zs
  count : es.length + mp.free = mp.cap
  spare : zs.length = mp.free + 2

section
variable {es zs pre post : List Extent} {e z : Extent} {size addr : Nat}

theorem blank_cons (hz : z.size = 0) (hzs : Blank zs) : Blank (z :: zs) :=
  fun _ h => (mem_cons.mp h).elim (fun h => h ▸ hz) (hzs _)

theorem Blank.head (h : Blank (z :: zs)) : z.size = 0 := h z mem_cons_self

theorem Blank.tail (h : Blank (z :: zs)) : Blank zs := (forall_mem_cons.mp h).2

theorem shiftLeft_laid (hes : Apart es) (hz : z.size = 0) :
    shiftLeft (e :: (es ++ z :: zs)) = some (es ++ z :: z :: zs) := by
  induction es generalizing e with
  | nil => simp only [nil_append, shiftLeft, hz, if_true]
  | cons d ds ih =>
    obtain ⟨hd, hds, -⟩ := apart_cons.mp hes
    simp only [cons_append, shiftLeft, if_neg (ne_of_gt hd), ih hds, Option.map_some]

theorem pushUp_laid (hes : Apart es) (hz : z.size = 0) :
    pushUp e (es ++ z :: zs) = some (e :: (es ++ zs)) := by
  induction es generalizing e with
  | nil => simp only [nil_append, pushUp, hz, if_true]
  | cons d ds ih =>
    obtain ⟨hd, hds, -⟩ := apart_cons.mp hes
    simp only [cons_append, pushUp, if_neg (ne_of_gt hd), ih hds, Option.map_some]

theorem shiftUp_laid {w : Extent} (hes : Apart es) (hz : z.size = 0) :
    shiftUp e (es ++ z :: w :: zs) = some (e :: (es ++ { w with size := 0 } :: zs)) := by
  induction es generalizing e with
  | nil => simp only [nil_append, shiftUp, hz, if_true]
  | cons d ds ih =>
    obtain ⟨hd, hds, -⟩ := apart_cons.mp hes
    simp only [cons_append, shiftUp, if_neg (ne_of_gt hd), ih hds, Option.map_some]

/-- The search of `rmalloc` goes past the entries that are too small. -/
theorem allocFrom_append (hpre : ∀ d ∈ pre, 0 < d.size ∧ d.size < size) :
    allocFrom size (pre ++ post) = (allocFrom size post).map fun r => (pre ++ r.1, r.2) := by
  induction pre with
  | nil => cases h : allocFrom size post <;> simp [h]
  | cons d ds ih =>
    have hd := hpre d mem_cons_self
    rw [cons_append, allocFrom, if_neg (by omega), if_neg (by omega),
      ih (forall_mem_cons.mp hpre).2, Option.map_map]
    rfl

/-- The search of `rmget` goes past the entries that do not have the
    address. -/
theorem getFrom_append {free : Nat}
    (hpre : ∀ d ∈ pre, 0 < d.size ∧ ¬(d.addr ≤ addr ∧ addr < d.stop)) :
    getFrom free size addr (pre ++ post) =
      (getFrom free size addr post).map fun r => (pre ++ r.1, r.2) := by
  induction pre with
  | nil => cases h : getFrom free size addr post <;> simp [h]
  | cons d ds ih =>
    have hd := hpre d mem_cons_self
    have hno : ¬(d.addr ≤ addr ∧ d.addr + d.size > addr) := hd.2
    rw [cons_append, getFrom, if_neg (by omega), if_neg hno,
      ih (forall_mem_cons.mp hpre).2, Option.map_map]
    rfl

/-- Where a returned range belongs. -/
theorem locate_laid (addr : Nat) (zs : List Extent) (hes : Apart es) (hz : z.size = 0) : ∃ pre post,
    es = pre ++ post ∧ locate addr (es ++ z :: zs) = (pre, post ++ z :: zs) ∧
    (∀ d ∈ pre, d.addr ≤ addr) ∧ ∀ d ∈ post, addr < d.addr := by
  induction es with
  | nil =>
    refine ⟨[], [], rfl, ?_, nofun, nofun⟩
    rw [nil_append, locate, if_neg fun h => h.2 hz]
  | cons d ds ih =>
    obtain ⟨hd, hds, hlt⟩ := apart_cons.mp hes
    by_cases hle : d.addr ≤ addr
    · obtain ⟨pre, post, rfl, hloc, hpre, hpost⟩ := ih hds
      refine ⟨d :: pre, post, rfl, ?_, ?_, hpost⟩
      · rw [cons_append, locate, if_pos ⟨hle, ne_of_gt hd⟩, hloc]
      · exact fun x hx => (mem_cons.mp hx).elim (fun h => h ▸ hle) (hpre x)
    refine ⟨[], d :: ds, rfl, ?_, nofun, ?_⟩
    · rw [cons_append, locate, if_neg fun h => hle h.1]
    intro x hx
    rcases mem_cons.mp hx with rfl | hx
    · omega
    · have := hlt x hx
      unfold stop at this
      omega

/-- The entry that is discarded: the smaller of the last two. -/
def Smaller (es : List Extent) (e : Extent) : Prop :=
  ∃ front x y, es = front ++ [x, y] ∧ e = if y.size > x.size then x else y

/-- The smaller of the last two entries is discarded, and the array is still
    ended. -/
theorem discard_laid (hes : Apart es) (htwo : 2 ≤ es.length) (hz : z.size = 0) :
    ∃ pre e post z1 z2, es = pre ++ e :: post ∧ Smaller es e ∧ z1.size = 0 ∧ z2.size = 0 ∧
      ∀ zs, discard (es ++ z :: zs) = some (e, pre ++ (post ++ z1 :: z2 :: zs)) := by
  induction es with
  | nil => cases htwo
  | cons d ds ih =>
    obtain ⟨hd, hds, -⟩ := apart_cons.mp hes
    match ds, hds, htwo, ih with
    | [e], hds, _, _ =>
      have he := hds.pos e mem_cons_self
      have hne : ¬(d.size = 0 ∨ e.size = 0) := by omega
      by_cases hlt : e.size > d.size
      · -- The entry before the last one goes, and the last one moves down.
        refine ⟨[], d, [e], { e with size := 0 }, z, rfl, ⟨[], d, e, rfl, (if_pos hlt).symm⟩,
          rfl, hz, fun zs => ?_⟩
        simp only [cons_append, nil_append, discard, if_neg hne, hz, if_true, if_pos hlt]
      · refine ⟨[d], e, [], z, { z with size := 0 }, rfl, ⟨[], d, e, rfl, (if_neg hlt).symm⟩,
          hz, rfl, fun zs => ?_⟩
        simp only [cons_append, nil_append, discard, if_neg hne, hz, if_true, if_neg hlt]
    | e :: f :: fs, hds, _, ih =>
      obtain ⟨pre, g, post, z1, z2, heq, ⟨front, x, y, hfront, hg⟩, hz1, hz2, hdis⟩ :=
          ih hds (by simp only [length_cons]; omega)
      have he := hds.pos e mem_cons_self
      have hf := hds.pos f (mem_cons_of_mem _ mem_cons_self)
      have hne : ¬(d.size = 0 ∨ e.size = 0) := by omega
      refine ⟨d :: pre, g, post, z1, z2, by rw [heq]; rfl,
        ⟨d :: front, x, y, by rw [hfront]; rfl, hg⟩, hz1, hz2, fun zs => ?_⟩
      have := hdis zs
      simp only [cons_append] at this ⊢
      rw [discard, if_neg hne, if_neg (ne_of_gt hf), this]
      rfl

end

/-! ### Ranges that are taken and given -/

/-- A range of free units is taken. -/
structure Takes (es es' : List Extent) (size addr : Nat) : Prop where
  held : ∀ u, addr ≤ u → u < addr + size → Holds es u
  left : ∀ u, Holds es' u ↔ Holds es u ∧ ¬(addr ≤ u ∧ u < addr + size)

/-- A range of units is made free. -/
def Gives (es es' : List Extent) (size addr : Nat) : Prop :=
  ∀ u, Holds es' u ↔ Holds es u ∨ (addr ≤ u ∧ u < addr + size)

section
variable {pre post m : List Extent} {e : Extent} {size addr : Nat}

/-- An entry is replaced by what is left of it. -/
theorem carve (h : Apart (pre ++ e :: post)) (hm : Apart m)
    (hin : ∀ d ∈ m, e.addr ≤ d.addr ∧ d.stop ≤ e.stop)
    (hlo : e.addr ≤ addr) (hhi : addr + size ≤ e.stop)
    (hleft : ∀ u, Holds m u ↔ (e.addr ≤ u ∧ u < e.stop) ∧ ¬(addr ≤ u ∧ u < addr + size)) :
    Apart (pre ++ (m ++ post)) ∧ Takes (pre ++ e :: post) (pre ++ (m ++ post)) size addr := by
  have hb := h.between
  obtain ⟨hpre, hpost, -⟩ := apart_append.mp h
  refine ⟨Apart.fill hpre (apart_cons.mp hpost).2.1 hm hin hb (by unfold stop; omega),
    fun u ha hu => ?_, fun u => ?_⟩
  · exact holds_append.mpr (.inr (holds_cons.mpr (.inl ⟨by omega, by omega⟩)))
  -- The other entries have nothing of the range.
  have hno : (addr ≤ u ∧ u < addr + size) → ¬Holds pre u ∧ ¬Holds post u :=
    fun hu => hb.not_holds (by omega) (by omega)
  rw [holds_append, holds_append, holds_append, holds_cons, hleft]
  by_cases hu : addr ≤ u ∧ u < addr + size
  · simp only [hu, hno hu, and_self, not_true_eq_false, and_false, or_self]
  · simp only [hu, not_false_eq_true, and_true]

/-- A range joins the free units, as part of an extent that may swallow its
    neighbours. -/
theorem fuse {m : List Extent} (hpre : Apart pre) (hpost : Apart post)
    (hpos : 0 < e.size) (hb : Between pre e.addr e.stop post)
    (hold : ∀ u, (e.addr ≤ u ∧ u < e.stop) ↔ Holds m u ∨ (addr ≤ u ∧ u < addr + size)) :
    Apart (pre ++ e :: post) ∧ Gives (pre ++ (m ++ post)) (pre ++ e :: post) size addr := by
  refine ⟨Apart.fill hpre hpost (apart_singleton hpos) ?_ hb ?_, fun u => ?_⟩
  · exact fun d hd => mem_singleton.mp hd ▸ ⟨le_rfl, le_rfl⟩
  · unfold stop
    omega
  · rw [holds_append, holds_append, holds_append, holds_cons]
    grind

end

/-! ### The routines -/

variable {mp : Rmap} {es zs : List Extent} {size addr : Nat}

theorem Laid.entries (h : Laid mp es zs) : mp.entries = es := by
  have hne : zs ≠ [] := ne_nil_of_length_pos (by rw [h.spare]; omega)
  obtain ⟨z, zs', rfl⟩ := exists_cons_of_ne_nil hne
  unfold Rmap.entries
  rw [h.map, takeWhile_append_of_pos fun e he => by
    simpa using ne_of_gt (h.apart.pos e he)]
  simp [h.blank.head]

/-- There are two zero sizes at least. -/
theorem Laid.two (h : Laid mp es zs) : ∃ z w zs', zs = z :: w :: zs' ∧ z.size = 0 ∧
    w.size = 0 ∧ Blank zs' ∧ zs'.length = mp.free := by
  match zs, h.spare, h.blank with
  | z :: w :: zs', hlen, hblank =>
    refine ⟨z, w, zs', rfl, hblank.head, hblank.tail.head, hblank.tail.tail, ?_⟩
    simp only [length_cons] at hlen
    omega

variable {pre post m zs' : List Extent} {e d : Extent} {mp' : Rmap}

section
variable (h : Laid mp (pre ++ e :: post) zs)
include h

/-- An entry of the array is replaced by what is left of it. -/
theorem Laid.carve (hmap : mp'.map = pre ++ (m ++ (post ++ zs'))) (hblank : Blank zs')
    (hlen : zs'.length = mp'.free + 2) (hfree : mp'.free + m.length = mp.free + 1)
    (hcap : mp'.cap = mp.cap) (hm : Apart m) (hin : ∀ d ∈ m, e.addr ≤ d.addr ∧ d.stop ≤ e.stop)
    (hlo : e.addr ≤ addr) (hhi : addr + size ≤ e.stop)
    (hleft : ∀ u, Holds m u ↔ (e.addr ≤ u ∧ u < e.stop) ∧ ¬(addr ≤ u ∧ u < addr + size)) :
    Laid mp' (pre ++ (m ++ post)) zs' ∧
      Takes (pre ++ e :: post) (pre ++ (m ++ post)) size addr := by
  obtain ⟨hapart, htakes⟩ := Rmap.carve h.apart hm hin hlo hhi hleft
  have hcount := h.count
  refine ⟨⟨?_, hapart, hblank, ?_, hlen⟩, htakes⟩
  · rw [hmap]
    simp only [append_assoc]
  · simp only [length_append, length_cons] at hcount ⊢
    omega

/-- An entry is dropped from the array. -/
theorem Laid.drop (hmap : mp'.map = pre ++ (post ++ zs'))
    (hblank : Blank zs') (hlen : zs'.length = mp'.free + 2) (hfree : mp'.free = mp.free + 1)
    (hcap : mp'.cap = mp.cap) :
    Laid mp' (pre ++ post) zs' ∧ Takes (pre ++ e :: post) (pre ++ post) e.size e.addr := by
  refine h.carve hmap hblank hlen (by simpa using hfree) hcap apart_nil
    nofun le_rfl le_rfl fun u => ?_
  exact ⟨fun hu => absurd hu not_holds_nil, fun ⟨hu, hno⟩ => absurd hu hno⟩

/-- What is left of an entry is one piece. -/
theorem Laid.trim (hmap : mp'.map = pre ++ d :: (post ++ zs))
    (hfree : mp'.free = mp.free) (hcap : mp'.cap = mp.cap) (hd : 0 < d.size)
    (hin : e.addr ≤ d.addr ∧ d.stop ≤ e.stop) (hlo : e.addr ≤ addr) (hhi : addr + size ≤ e.stop)
    (hleft : ∀ u, (d.addr ≤ u ∧ u < d.stop) ↔
      (e.addr ≤ u ∧ u < e.stop) ∧ ¬(addr ≤ u ∧ u < addr + size)) :
    Laid mp' (pre ++ d :: post) zs ∧ Takes (pre ++ e :: post) (pre ++ d :: post) size addr := by
  refine h.carve hmap h.blank (hfree ▸ h.spare) (by simp [hfree]) hcap
    (apart_singleton hd) (fun x hx => mem_singleton.mp hx ▸ hin) hlo hhi fun u => ?_
  rw [holds_singleton]
  exact hleft u

end

/-- `rmalloc` takes from the first entry that is large enough. -/
theorem Laid.rmallocLocked (h : Laid mp es zs) (hsize : ¬BadSize size) :
    ((∀ e ∈ es, e.size < size) ∧ mp.rmallocLocked size = some (mp, 0)) ∨
    ∃ pre e post, es = pre ++ e :: post ∧ (∀ d ∈ pre, d.size < size) ∧ size ≤ e.size ∧
      ∃ mp' es' zs', mp.rmallocLocked size = some (mp', e.addr) ∧ mp'.cap = mp.cap ∧
        Laid mp' es' zs' ∧ Takes es es' size e.addr := by
  obtain ⟨z, w, zs', rfl, hz, hw, hblank, hlen⟩ := h.two
  have hsmall : ∀ pre ⊆ es, (∀ d ∈ pre, d.size < size) → ∀ d ∈ pre, 0 < d.size ∧ d.size < size :=
    fun pre hsub hlt d hd => ⟨h.apart.pos d (hsub hd), hlt d hd⟩
  unfold Rmap.rmallocLocked
  rw [if_neg hsize, h.map]
  cases hfind : es.find? fun e => size ≤ e.size with
  | none =>
    have hlt : ∀ e ∈ es, e.size < size := by simpa using hfind
    refine .inl ⟨hlt, ?_⟩
    rw [allocFrom_append (hsmall es (List.Subset.refl _) hlt), allocFrom, if_pos hz]
    simp only [Option.map_some, ← h.map]
  | some e =>
    obtain ⟨hle, pre, post, rfl, hpre⟩ := find?_eq_some_iff_append.mp hfind
    have hle : size ≤ e.size := of_decide_eq_true hle
    have hlt : ∀ d ∈ pre, d.size < size := by simpa using hpre
    have hepos := h.apart.pos e (by simp)
    refine .inr ⟨pre, e, post, rfl, hlt, hle, ?_⟩
    rw [append_assoc, allocFrom_append (hsmall pre (by simp) hlt), cons_append,
      allocFrom, if_neg (ne_of_gt hepos), if_pos hle]
    by_cases hall : e.size - size = 0
    · -- The entry is used up.
      have hsz : size = e.size := by omega
      subst hsz
      rw [if_pos hall, shiftLeft_laid (apart_cons.mp (apart_append.mp h.apart).2.1).2.1 hz]
      refine ⟨_, _, z :: z :: w :: zs', rfl, rfl, h.drop rfl ?_ ?_ rfl rfl⟩
      · exact blank_cons hz h.blank
      · simp only [length_cons, if_true, hlen]
    · rw [if_neg hall]
      refine ⟨_, _, z :: w :: zs', rfl, rfl, h.trim rfl rfl rfl (pos_of_ne_zero hall) ?_
        le_rfl ?_ fun u => ?_⟩
      all_goals simp only [stop]; omega

/-- `rmget` can take a range: all of it is free, and there is an entry left if
    an entry has to be split. -/
def CanGet (mp : Rmap) (size addr : Nat) : Prop :=
  (∀ u, addr ≤ u → u < addr + size → Holds mp.entries u) ∧
    ((∃ e ∈ mp.entries, e.addr < addr ∧ addr + size < e.stop) → mp.free ≠ 0)

/-- `rmget` takes the range that is asked for, if it can. -/
theorem Laid.rmget (h : Laid mp es zs) (hsize : ¬BadSize size) :
    (¬CanGet mp size addr ∧ mp.rmget size addr = some (mp, 0)) ∨
    (CanGet mp size addr ∧ ∃ mp' es' zs', mp.rmget size addr = some (mp', addr) ∧
      mp'.cap = mp.cap ∧ Laid mp' es' zs' ∧ Takes es es' size addr) := by
  obtain ⟨z, w, zs', rfl, hz, hw, hblank, hlen⟩ := h.two
  have hpos : 0 < size := pos_of_ne_zero fun h => hsize (.inl h)
  have hnone : ∀ pre ⊆ es, (∀ d ∈ pre, ¬(d.addr ≤ addr ∧ addr < d.stop)) →
      ∀ d ∈ pre, 0 < d.size ∧ ¬(d.addr ≤ addr ∧ addr < d.stop) :=
    fun pre hsub hno d hd => ⟨h.apart.pos d (hsub hd), hno d hd⟩
  unfold Rmap.rmget CanGet
  rw [if_neg hsize, h.map, h.entries]
  cases hfind : es.find? fun e => e.addr ≤ addr ∧ addr < e.stop with
  | none =>
    have hno : ∀ e ∈ es, ¬(e.addr ≤ addr ∧ addr < e.stop) := by simpa using hfind
    refine .inl ⟨fun hcan => ?_, ?_⟩
    · obtain ⟨e, he, hu⟩ := hcan.1 addr le_rfl (by omega)
      exact hno e he hu
    · rw [getFrom_append (hnone es (List.Subset.refl _) hno), getFrom, if_pos hz]
      simp only [Option.map_some, ← h.map]
  | some e =>
    obtain ⟨hmem, pre, post, rfl, hpre⟩ := find?_eq_some_iff_append.mp hfind
    have hmem : e.addr ≤ addr ∧ addr < e.stop := of_decide_eq_true hmem
    have hno : ∀ d ∈ pre, ¬(d.addr ≤ addr ∧ addr < d.stop) :=
      fun d hd => by simpa only [Bool.not_eq_true', decide_eq_false_iff_not] using hpre d hd
    have hepos := h.apart.pos e (by simp)
    have hpost := (apart_cons.mp (apart_append.mp h.apart).2.1).2.1
    have hin : e ∈ pre ++ e :: post := by simp
    rw [h.apart.range_held hin hpos hmem, h.apart.range_inside hin hmem, append_assoc,
      getFrom_append (hnone pre (by simp) hno), cons_append, getFrom, if_neg (ne_of_gt hepos),
      if_pos (show e.addr ≤ addr ∧ e.addr + e.size > addr from hmem)]
    have hback : pre ++ e :: (post ++ z :: w :: zs') = mp.map := by
      rw [h.map, append_assoc, cons_append]
    by_cases hshort : e.addr + e.size < addr + size
    · refine .inl ⟨fun hcan => ?_, ?_⟩
      · have := hcan.1
        unfold stop at this
        omega
      · rw [if_pos hshort]
        simp only [Option.map_some, hback]
    rw [if_neg hshort]
    by_cases hfirst : e.addr = addr
    · rw [if_pos hfirst]
      refine .inr ⟨⟨by unfold stop; omega, fun hs => by omega⟩, ?_⟩
      subst hfirst
      by_cases hall : e.size = size
      · subst hall
        rw [if_pos rfl, shiftLeft_laid hpost hz]
        refine ⟨_, _, z :: z :: w :: zs', rfl, rfl, h.drop rfl ?_ ?_ rfl rfl⟩
        · exact blank_cons hz h.blank
        · simp only [length_cons, hlen]
      · rw [if_neg hall]
        refine ⟨_, _, z :: w :: zs', rfl, rfl, h.trim rfl rfl rfl ?_ ?_ le_rfl ?_
          fun u => ?_⟩
        all_goals simp only [stop]; omega
    rw [if_neg hfirst]
    by_cases hlast : e.addr + e.size = addr + size
    · rw [if_pos hlast]
      refine .inr ⟨⟨by unfold stop; omega, fun hs => ?_⟩,
        _, _, z :: w :: zs', rfl, rfl, h.trim rfl rfl rfl ?_ ?_ hmem.1 ?_ fun u => ?_⟩
      · unfold stop at hs
        omega
      all_goals simp only [stop]; omega
    rw [if_neg hlast]
    by_cases hfree : mp.free = 0
    · refine .inl ⟨fun hcan => hcan.2 ⟨by omega, by unfold stop; omega⟩ hfree, ?_⟩
      rw [if_pos hfree]
      simp only [Option.map_some, hback]
    -- The entry is split in two.
    rw [if_neg hfree, shiftUp_laid hpost hz]
    refine .inr ⟨⟨by unfold stop; omega, fun _ => hfree⟩, _, _,
      { w with size := 0 } :: zs', rfl, rfl, h.carve (m := [⟨addr - e.addr, e.addr⟩,
        ⟨e.addr + e.size - (addr + size), addr + size⟩]) rfl ?_ ?_ ?_ rfl ?_ ?_ ?_ ?_
        fun u => ?_⟩
    · exact blank_cons rfl hblank
    · simp only [length_cons, hlen]
      omega
    · simp only [length_cons, length_nil]
      omega
    · refine apart_cons.mpr ⟨?_, apart_singleton ?_, fun y hy => ?_⟩
      · simp only
        omega
      · simp only
        omega
      · rw [mem_singleton.mp hy]
        simp only [stop]
        omega
    · intro d hd
      rcases mem_cons.mp hd with rfl | hd
      · simp only [stop]
        omega
      · rw [mem_singleton.mp hd]
        simp only [stop]
        omega
    · omega
    · simp only [stop]
      omega
    · rw [holds_cons, holds_singleton]
      simp only [stop]
      omega

/-- An entry of the array swallows a range, with the entries that it abuts. -/
theorem Laid.fuse (h : Laid mp (pre ++ (m ++ post)) zs) (hmap : mp'.map = pre ++ e :: (post ++ zs'))
    (hblank : Blank zs') (hlen : zs'.length = mp'.free + 2)
    (hfree : mp'.free + 1 = mp.free + m.length) (hcap : mp'.cap = mp.cap) (hpos : 0 < e.size)
    (hb : Between pre e.addr e.stop post)
    (hold : ∀ u, (e.addr ≤ u ∧ u < e.stop) ↔ Holds m u ∨ (addr ≤ u ∧ u < addr + size)) :
    Laid mp' (pre ++ e :: post) zs' ∧ Gives (pre ++ (m ++ post)) (pre ++ e :: post) size addr := by
  obtain ⟨hpre, hrest, -⟩ := apart_append.mp h.apart
  obtain ⟨hapart, hgives⟩ := Rmap.fuse hpre (apart_append.mp hrest).2.1 hpos hb hold
  have hcount := h.count
  refine ⟨⟨?_, hapart, hblank, ?_, hlen⟩, hgives⟩
  · rw [hmap]
    simp only [append_assoc, cons_append]
  · simp only [length_append, length_cons] at hcount ⊢
    omega

/-- A pass of `rmfree` that returns the range. -/
def Returns (mp : Rmap) (es : List Extent) (size addr : Nat)
    (r : Option (Rmap × Option Extent)) : Prop :=
  ∃ mp' es' zs', r = some (mp', none) ∧ mp'.cap = mp.cap ∧ Laid mp' es' zs' ∧ Gives es es' size addr

/-- A pass of `rmfree` that loses an entry. -/
def Loses (mp : Rmap) (es : List Extent) (r : Option (Rmap × Option Extent)) : Prop :=
  ∃ mp' e es' zs', r = some (mp', some e) ∧ mp'.cap = mp.cap ∧ mp'.free = mp.free + 1 ∧
    Laid mp' es' zs' ∧ Takes es es' e.size e.addr

variable {pre post : List Extent} {left : Extent}

/-- Entries that do not start before a place, none of which abuts it. -/
theorem clear_of_not_abut {a : Nat} (hpost : Apart post) (hle : ∀ d ∈ post, a ≤ d.addr)
    (hno : ¬∃ p ps, post = p :: ps ∧ a = p.addr) : ∀ d ∈ post, a < d.addr := by
  intro d hd
  match post, hpost, hno, hle with
  | p :: ps, hpost, hno, hle =>
    have hp := hle p mem_cons_self
    have hne : a ≠ p.addr := fun hp => hno ⟨p, ps, rfl, hp⟩
    rcases mem_cons.mp hd with rfl | hd
    · omega
    · have := (apart_cons.mp hpost).2.2 d hd
      simp only [stop] at this
      omega

/-- The next entry of the array does not abut the range. -/
theorem next_clear {a : Nat} {z bp : Extent} {rest : List Extent} (hz : z.size = 0)
    (hlt : ∀ d ∈ post, a < d.addr) (heq : post ++ z :: zs = bp :: rest) :
    ¬(a ≥ bp.addr ∧ bp.size ≠ 0) := by
  rintro ⟨hge, hne⟩
  cases post with
  | nil =>
    cases heq
    exact hne hz
  | cons p ps =>
    cases heq
    exact absurd (hlt bp mem_cons_self) (not_lt.mpr hge)

theorem Laid.joinLeft (h : Laid mp (pre ++ left :: post) zs) (hsize : 0 < size)
    (hleft : left.stop = addr) (hpost : ∀ d ∈ post, addr + size ≤ d.addr) :
    Returns mp (pre ++ left :: post) size addr
      ((mp.joinLeft size addr pre left (post ++ zs)).map fun mp => (mp, none)) := by
  obtain ⟨z, w, zs', rfl, hz, hw, hblank, hlen⟩ := h.two
  have hb := h.apart.between
  have hrest := (apart_cons.mp (apart_append.mp h.apart).2.1).2.1
  subst hleft
  simp only [stop] at hpost hb
  simp only [stop, Rmap.joinLeft, lt_irrefl, gt_iff_lt, if_false]
  by_cases habut : ∃ p ps, post = p :: ps ∧ left.addr + left.size + size = p.addr
  · -- The range closes the gap between two entries.
    obtain ⟨p, ps, rfl, hp⟩ := habut
    obtain ⟨hppos, hps, hplt⟩ := apart_cons.mp hrest
    simp only [cons_append]
    rw [if_pos ⟨ne_of_gt hppos, by omega⟩, if_neg (by omega), shiftLeft_laid hps hz]
    refine ⟨_, _, z :: z :: w :: zs', rfl, rfl, h.fuse (m := [left, p]) rfl
      (blank_cons hz h.blank)
      (by simp only [length_cons, hlen]) rfl rfl ?_ ?_ fun u => ?_⟩
    · simp only
      omega
    · refine ⟨hb.left, fun y hy => ?_⟩
      have := hplt y hy
      simp only [stop] at this ⊢
      omega
    · rw [holds_cons, holds_singleton]
      simp only [stop]
      omega
  · have hlt := clear_of_not_abut hrest hpost habut
    split
    · next heq => simp at heq
    next bp rest heq =>
    rw [if_neg fun hc => next_clear hz hlt heq hc.symm, ← heq]
    refine ⟨_, _, z :: w :: zs', rfl, rfl, h.fuse (m := [left]) rfl h.blank h.spare rfl rfl
      ?_ ?_ fun u => ?_⟩
    · simp only
      omega
    · refine ⟨hb.left, fun y hy => ?_⟩
      simp only [stop]
      have := hlt y hy
      omega
    · rw [holds_singleton]
      simp only [stop]
      omega

/-- A range that abuts nothing becomes an entry, if the map is not full. -/
theorem joinRight_apart {z : Extent} (hpost : Apart post) (hz : z.size = 0)
    (hlt : ∀ d ∈ post, addr + size < d.addr) : mp.joinRight size addr pre (post ++ z :: zs) =
      if mp.free = 0 then
        (discard mp.map).map fun r => ({ mp with map := r.2, free := mp.free + 1 }, some r.1)
      else
        some ({ mp with map := pre ++ ⟨size, addr⟩ :: (post ++ zs), free := mp.free - 1 }, none) := by
  have hpush : pushUp ⟨size, addr⟩ (post ++ z :: zs) = _ := pushUp_laid hpost hz
  unfold Rmap.joinRight
  split
  · next heq => simp at heq
  · next bp rest heq =>
    rw [heq] at hpush
    rw [if_neg (next_clear hz hlt heq), hpush]
    rfl

theorem Laid.joinRight (h : Laid mp (pre ++ post) zs) (hcap : 2 ≤ mp.cap) (hsize : 0 < size)
    (hpre : ∀ d ∈ pre, d.stop < addr) (hpost : ∀ d ∈ post, addr + size ≤ d.addr) :
    Returns mp (pre ++ post) size addr (mp.joinRight size addr pre (post ++ zs)) ∨
      (mp.free = 0 ∧ Loses mp (pre ++ post) (mp.joinRight size addr pre (post ++ zs))) := by
  obtain ⟨z, w, zs', rfl, hz, hw, hblank, hlen⟩ := h.two
  have hrest := (apart_append.mp h.apart).2.1
  by_cases habut : ∃ p ps, post = p :: ps ∧ addr + size = p.addr
  · obtain ⟨p, ps, rfl, hp⟩ := habut
    obtain ⟨hppos, hps, hplt⟩ := apart_cons.mp hrest
    simp only [cons_append, Rmap.joinRight]
    rw [if_pos ⟨by omega, ne_of_gt hppos⟩, if_neg (by omega)]
    refine .inl ⟨_, _, z :: w :: zs', rfl, rfl, h.fuse (m := [p]) rfl h.blank h.spare rfl rfl
      ?_ ?_ fun u => ?_⟩
    · simp only
      omega
    · refine ⟨fun x hx => ?_, fun y hy => ?_⟩
      · have := hpre x hx
        simp only
        omega
      · have := hplt y hy
        simp only [stop] at this ⊢
        omega
    · rw [holds_singleton]
      simp only [stop]
      omega
  -- The range abuts nothing.
  have hpost := clear_of_not_abut hrest hpost habut
  rw [joinRight_apart hrest hz hpost]
  by_cases hfree : mp.free = 0
  · have hcount := h.count
    obtain ⟨pre', e, post', z1, z2, hes, -, hz1, hz2, hdis⟩ := discard_laid h.apart (by omega) hz
    rw [if_pos hfree, h.map, hdis, hes]
    refine .inr ⟨hfree, _, e, _, z1 :: z2 :: w :: zs', rfl, rfl, rfl, (hes ▸ h).drop rfl
      (blank_cons hz1 (blank_cons hz2 (blank_cons hw hblank))) ?_ rfl rfl⟩
    simp only [length_cons, hlen]
  · rw [if_neg hfree]
    refine .inl ⟨_, _, w :: zs', rfl, rfl, h.fuse (m := []) rfl (blank_cons hw hblank) ?_ ?_
      rfl hsize ⟨hpre, hpost⟩ fun u => ?_⟩
    · simp only [length_cons, hlen]
      omega
    · simp only [length_nil]
      omega
    · simp only [not_holds_nil, false_or, stop]

/-- A pass of `rmfree` returns the range, or loses an entry of a full map. -/
theorem Laid.rmfreePass (h : Laid mp es zs) (hcap : 2 ≤ mp.cap) (hsize : ¬BadSize size)
    (haddr : addr ≠ 0) (hout : ∀ u, addr ≤ u → u < addr + size → ¬Holds es u) :
    Returns mp es size addr (mp.rmfreePass size addr) ∨
      (mp.free = 0 ∧ Loses mp es (mp.rmfreePass size addr)) := by
  have hpos : 0 < size := pos_of_ne_zero fun h => hsize (.inl h)
  obtain ⟨z, w, zs', rfl, hz, -⟩ := h.two
  obtain ⟨pre, post, rfl, hloc, hpre, hpost⟩ := locate_laid addr (w :: zs') h.apart hz
  -- What is returned is not free, so the entries around it keep clear of it.
  have hstop : ∀ d ∈ pre, d.stop ≤ addr := by
    intro d hd
    by_contra hlt
    exact hout addr le_rfl (by omega)
      ⟨d, mem_append_left _ hd, hpre d hd, by omega⟩
  have hstart : ∀ d ∈ post, addr + size ≤ d.addr := by
    intro d hd
    by_contra hlt
    have hdpos := h.apart.pos d (mem_append_right _ hd)
    have := hpost d hd
    exact hout d.addr (by omega) (by omega)
      ⟨d, mem_append_right _ hd, le_rfl, by unfold stop; omega⟩
  unfold Rmap.rmfreePass
  rw [if_neg (not_or.mpr ⟨haddr, hsize⟩), h.map, hloc]
  rcases eq_nil_or_concat' pre with rfl | ⟨ds, left, rfl⟩
  · exact h.joinRight hcap hpos nofun hstart
  have hle := hstop left (by simp)
  have heq : ds ++ [left] ++ post = ds ++ left :: post := by simp
  have hlt := (heq ▸ h.apart).between.left
  simp only [getLast?_concat, dropLast_concat]
  by_cases habut : left.addr + left.size ≥ addr
  · rw [if_pos habut, heq]
    refine .inl ((heq ▸ h).joinLeft hpos ?_ hstart)
    unfold stop at hle ⊢
    omega
  rw [if_neg habut]
  refine h.joinRight hcap hpos (fun d hd => ?_) hstart
  rcases mem_append.mp hd with hd | hd
  · have := hlt d hd
    omega
  · rw [mem_singleton.mp hd]
    unfold stop
    omega

/-- A pass of `rmfree` for a range that abuts nothing. -/
theorem rmfreePass_apart {z : Extent} (free cap : Nat) (zs : List Extent) (hes : Apart es)
    (hz : z.size = 0) (hsize : ¬BadSize size) (haddr : addr ≠ 0)
    (hnew : ∀ d ∈ es, d.stop < addr ∨ addr + size < d.addr) :
    ∃ pre post, es = pre ++ post ∧ Between pre addr (addr + size) post ∧
      rmfreePass ⟨free, cap, es ++ z :: zs⟩ size addr = if free = 0 then
          (discard (es ++ z :: zs)).map fun r => (⟨free + 1, cap, r.2⟩, some r.1)
        else some (⟨free - 1, cap, pre ++ ⟨size, addr⟩ :: (post ++ zs)⟩, none) := by
  obtain ⟨pre, post, rfl, hloc, hpre, hpost⟩ := locate_laid addr zs hes hz
  have hlt : ∀ d ∈ pre, d.stop < addr := fun d hd =>
    (hnew d (mem_append_left _ hd)).resolve_right fun h => by have := hpre d hd; omega
  have hgt : ∀ d ∈ post, addr + size < d.addr := fun d hd =>
    (hnew d (mem_append_right _ hd)).resolve_left fun h => by
      have := hpost d hd
      unfold stop at h
      omega
  refine ⟨pre, post, rfl, ⟨hlt, hgt⟩, ?_⟩
  have hjoin : joinRight ⟨free, cap, pre ++ post ++ z :: zs⟩ size addr pre (post ++ z :: zs) = _ :=
    joinRight_apart (apart_append.mp hes).2.1 hz hgt
  refine Eq.trans ?_ hjoin
  unfold Rmap.rmfreePass
  rw [if_neg (not_or.mpr ⟨haddr, hsize⟩), hloc]
  split
  · rfl
  · next left hleft =>
    have := hlt left (mem_of_getLast? hleft)
    unfold stop at this
    rw [if_neg (by omega)]

/-- A range that needs an entry of a full map gets it, whatever is behind the
    size of zero that ends the map, and the smaller of the last two entries is
    lost. -/
def Overflows (es : List Extent) (z : Extent) (rest : List Extent) (size addr : Nat) : Prop :=
  ∃ lost es1 es2 z2, Smaller es lost ∧ Takes es es1 lost.size lost.addr ∧ Gives es1 es2 size addr ∧
    Apart es2 ∧ es2.length = es.length ∧ z2.size = 0 ∧
    rmfree 2 ⟨0, es.length, es ++ z :: rest⟩ size addr =
      some (⟨0, es.length, es2 ++ z2 :: rest⟩, [lost])

/-- The overflow of a map stays inside the map if and only if the map has two
    entries at least. -/
theorem rmfree_overflow_iff (es : List Extent) (z : Extent) (rest : List Extent) (size addr : Nat)
    (hes : Apart es) (hz : z.size = 0) (hsize : ¬BadSize size) (haddr : addr ≠ 0)
    (hnew : ∀ d ∈ es, d.stop < addr ∨ addr + size < d.addr) :
    Overflows es z rest size addr ↔ 2 ≤ es.length := by
  constructor
  · rintro ⟨_, _, _, _, ⟨front, x, y, rfl, _⟩, _⟩
    simp
  intro htwo
  obtain ⟨pre, e, post, z1, z2, rfl, hsmall, hz1, hz2, hdis⟩ := discard_laid hes htwo hz
  obtain ⟨hes1, htakes⟩ := carve hes apart_nil nofun le_rfl
    le_rfl fun u => ⟨fun hu => absurd hu not_holds_nil, fun ⟨hu, hno⟩ => absurd hu hno⟩
   
  rw [nil_append] at hes1 htakes
  have hnew1 : ∀ d ∈ pre ++ post, d.stop < addr ∨ addr + size < d.addr := fun d hd =>
    hnew d (((sublist_cons_self e post).append_left pre).subset hd)
  obtain ⟨_, _, _, _, hfirst⟩ :=
      rmfreePass_apart 0 (pre ++ e :: post).length rest hes hz hsize haddr hnew
  -- The second pass has room for an entry.
  obtain ⟨a, b, hab, hbet, hsecond⟩ :=
      rmfreePass_apart 1 (pre ++ e :: post).length (z2 :: rest) hes1 hz1 hsize haddr hnew1
  rw [hab, apart_append] at hes1
  obtain ⟨hes2, hgives⟩ := fuse (e := ⟨size, addr⟩) hes1.1 hes1.2.1
    (pos_of_ne_zero fun h => hsize (.inl h)) hbet
    (fun u => (or_iff_right not_holds_nil).symm)
  refine ⟨e, pre ++ post, a ++ ⟨size, addr⟩ :: b, z2, hsmall, htakes, hab ▸ hgives, hes2, ?_, hz2, ?_⟩
  · have := congrArg length hab
    simp only [length_append, length_cons] at this ⊢
    omega
  · rw [rmfree, hfirst, if_pos rfl, hdis]
    simp only [Option.map_some, Option.bind_some, rmfree, ← append_assoc, hsecond]
    simp

/-- A map of two entries, and two units in front of them. -/
theorem rmfree_overflow_iff_two :
    Overflows [⟨2, 102⟩, ⟨4, 106⟩] ⟨0, 0⟩ [] 2 50 ↔ 2 ≤ [(⟨2, 102⟩ : Extent), ⟨4, 106⟩].length :=
  rmfree_overflow_iff _ _ _ _ _ ⟨by decide, by decide⟩ rfl (by decide) (by decide) (by decide)

/-- A map of one entry is full, and an entry in front of the array is read. -/
theorem rmfree_overflow_one : mapinit 1 5 100 = ⟨0, 1, [⟨5, 100⟩, ⟨0, 0⟩, ⟨0, 0⟩]⟩ ∧
    rmfreePass (mapinit 1 5 100) 2 50 = none ∧ ¬Overflows [⟨5, 100⟩] ⟨0, 0⟩ [⟨0, 0⟩] 2 50 := by
  refine ⟨rfl, by decide, ?_⟩
  rintro ⟨_, _, _, _, ⟨front, x, y, heq, _⟩, _⟩
  simpa using congrArg length heq

end Sol7.Rmap
