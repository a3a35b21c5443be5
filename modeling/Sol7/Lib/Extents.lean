import Mathlib

/-!
# Lists of Extents

An extent is a range of units, given by its size and the address of its first
unit. A list of extents is apart if none of them is empty and each ends before
the next one begins, with something in between: it is the one list of this kind
for the set of units it holds.

## Main definitions

* `Extent`, `Extent.stop`: A range of units and its end.
* `Apart`: Extents in order, with gaps in between.
* `Holds`: The units of a list of extents.
* `Between`: A range that is clear of the extents around it.

## Theorems

* `apart_append`: Lists of extents side by side.
* `holds_append`: Their units.
* `Apart.fill`: Extents may be put into a clear range.
* `Apart.range_in_one`: A range of units that are all held lies in one extent.
-/

namespace Sol7

open List Option

/-- A range of units. -/
structure Extent where
  size : Nat
  addr : Nat
deriving DecidableEq

/-- The end of an extent. -/
def Extent.stop (e : Extent) : Nat := e.addr + e.size

/-- Extents that are not empty, in order, and with gaps in between. -/
structure Apart (es : List Extent) : Prop where
  pos : ∀ e ∈ es, 0 < e.size
  gaps : es.Pairwise fun d e => d.stop < e.addr

/-- A unit that is in one of the extents. -/
def Holds (es : List Extent) (u : Nat) : Prop := ∃ e ∈ es, e.addr ≤ u ∧ u < e.stop

variable {xs ys es : List Extent} {e : Extent} {u : Nat}

theorem apart_nil : Apart [] := ⟨nofun, .nil⟩

theorem apart_singleton (h : 0 < e.size) : Apart [e] :=
  ⟨fun _ he => mem_singleton.mp he ▸ h, pairwise_singleton _ _⟩

/-- Lists of extents side by side. -/
theorem apart_append : Apart (xs ++ ys) ↔
    Apart xs ∧ Apart ys ∧ ∀ x ∈ xs, ∀ y ∈ ys, x.stop < y.addr := by
  constructor
  · intro h
    have hgaps := pairwise_append.mp h.gaps
    exact ⟨⟨fun e he => h.pos e (mem_append_left _ he), hgaps.1⟩,
      ⟨fun e he => h.pos e (mem_append_right _ he), hgaps.2.1⟩, hgaps.2.2⟩
  · rintro ⟨hx, hy, hxy⟩
    refine ⟨fun e he => ?_, pairwise_append.mpr ⟨hx.gaps, hy.gaps, hxy⟩⟩
    exact (mem_append.mp he).elim (hx.pos e) (hy.pos e)

theorem apart_cons : Apart (e :: es) ↔ 0 < e.size ∧ Apart es ∧ ∀ y ∈ es, e.stop < y.addr := by
  rw [← singleton_append, apart_append]
  constructor
  · rintro ⟨h, hes, hlt⟩
    exact ⟨h.pos e mem_cons_self, hes, hlt e mem_cons_self⟩
  · rintro ⟨h, hes, hlt⟩
    exact ⟨apart_singleton h, hes, fun x hx => mem_singleton.mp hx ▸ hlt⟩

theorem holds_append : Holds (xs ++ ys) u ↔ Holds xs u ∨ Holds ys u := by
  simp only [Holds, mem_append, or_and_right, exists_or]

theorem holds_cons : Holds (e :: es) u ↔ (e.addr ≤ u ∧ u < e.stop) ∨ Holds es u :=
  exists_mem_cons_iff _ _ _

theorem holds_singleton : Holds [e] u ↔ e.addr ≤ u ∧ u < e.stop := by
  simp only [Holds, mem_singleton, exists_eq_left]

theorem not_holds_nil : ¬Holds [] u := nofun

/-- A range that keeps clear of the extents before it and behind it. -/
structure Between (xs : List Extent) (a b : Nat) (ys : List Extent) : Prop where
  left : ∀ x ∈ xs, x.stop < a
  right : ∀ y ∈ ys, b < y.addr

theorem Between.not_holds {a b : Nat} (h : Between xs a b ys) (ha : a ≤ u) (hb : u < b) :
    ¬Holds xs u ∧ ¬Holds ys u := by
  constructor
  · rintro ⟨x, hx, -, hu⟩
    have := h.left x hx
    omega
  · rintro ⟨y, hy, hu, -⟩
    have := h.right y hy
    omega

/-- What is around an extent. -/
theorem Apart.between (h : Apart (xs ++ e :: ys)) : Between xs e.addr e.stop ys := by
  obtain ⟨-, hys, hxy⟩ := apart_append.mp h
  exact ⟨fun x hx => hxy x hx e mem_cons_self, (apart_cons.mp hys).2.2⟩

/-- Other extents may be put where a range keeps clear of the rest. -/
theorem Apart.fill {m : List Extent} {a b : Nat} (hxs : Apart xs) (hys : Apart ys)
    (hm : Apart m) (hin : ∀ e ∈ m, a ≤ e.addr ∧ e.stop ≤ b) (hb : Between xs a b ys)
    (hab : a ≤ b) : Apart (xs ++ (m ++ ys)) := by
  refine apart_append.mpr ⟨hxs, apart_append.mpr ⟨hm, hys, fun e he y hy => ?_⟩, ?_⟩
  · have := hin e he
    have := hb.right y hy
    omega
  intro x hx y hy
  have hx := hb.left x hx
  rcases mem_append.mp hy with hy | hy
  · have := hin y hy
    omega
  · have := hb.right y hy
    omega

/-- Of two extents of a list, one ends before the other begins. -/
theorem Apart.lt_or_lt {d : Extent} (h : Apart es) (hd : d ∈ es) (he : e ∈ es) :
    d = e ∨ d.stop < e.addr ∨ e.stop < d.addr := by
  obtain ⟨i, hi, rfl⟩ := getElem_of_mem hd
  obtain ⟨j, hj, rfl⟩ := getElem_of_mem he
  have hgaps := pairwise_iff_getElem.mp h.gaps
  rcases lt_trichotomy i j with hij | rfl | hij
  · exact .inr (.inl (hgaps i j hi hj hij))
  · exact .inl rfl
  · exact .inr (.inr (hgaps j i hj hi hij))

/-- A unit is in at most one extent. -/
theorem Apart.eq_of_holds {d : Extent} (h : Apart es) (hd : d ∈ es) (he : e ∈ es)
    (hud : d.addr ≤ u ∧ u < d.stop) (hue : e.addr ≤ u ∧ u < e.stop) : d = e := by
  rcases h.lt_or_lt hd he with heq | hlt | hlt
  · exact heq
  · omega
  · omega

variable {a n : Nat}

/-- A range of units that are all held lies in one extent. -/
theorem Apart.range_in_one (h : Apart es) (hn : 0 < n)
    (hall : ∀ u, a ≤ u → u < a + n → Holds es u) : ∃ e ∈ es, e.addr ≤ a ∧ a + n ≤ e.stop := by
  obtain ⟨e, he, hlo, hhi⟩ := hall a le_rfl (by omega)
  refine ⟨e, he, hlo, ?_⟩
  by_contra hlt
  -- The unit behind the extent is in another one, which is too close.
  obtain ⟨d, hd, hdlo, hdhi⟩ := hall e.stop (by omega) (by omega)
  rcases h.lt_or_lt hd he with rfl | hgap | hgap
  · omega
  · omega
  · omega

/-- A range that begins in an extent is held if the extent has all of it. -/
theorem Apart.range_held (h : Apart es) (he : e ∈ es) (hn : 0 < n)
    (hmem : e.addr ≤ a ∧ a < e.stop) : (∀ u, a ≤ u → u < a + n → Holds es u) ↔ a + n ≤ e.stop := by
  constructor
  · intro hall
    obtain ⟨d, hd, hlo, hhi⟩ := h.range_in_one hn hall
    exact h.eq_of_holds hd he ⟨hlo, by omega⟩ hmem ▸ hhi
  · exact fun hle u hu hu' => ⟨e, he, by omega, by omega⟩

theorem Apart.range_inside (h : Apart es) (he : e ∈ es) (hmem : e.addr ≤ a ∧ a < e.stop) :
    (∃ d ∈ es, d.addr < a ∧ a + n < d.stop) ↔ e.addr < a ∧ a + n < e.stop := by
  constructor
  · rintro ⟨d, hd, hlo, hhi⟩
    exact h.eq_of_holds hd he ⟨by omega, by omega⟩ hmem ▸ ⟨hlo, hhi⟩
  · exact fun hs => ⟨e, he, hs⟩

end Sol7
