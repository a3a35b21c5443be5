import Sol7.Vm.As

/-!
# A Plain List of Segments

What the calls on an address space are for, without a representation: the
segments are a list, in the order of their addresses and apart from each other.
A search looks through the list from the start, a segment is added where its
base address puts it unless it overlaps one that is there, and a segment is
removed by its base address.

The calls on a representation all begin with a search, which cuts the list in
two: the segments that end at or before the address, and the others. What a
plain call does is said in terms of this cut.

## Main definitions

* `InOrder`: The segments are in order and apart.
* `plainFind`, `plainAdd`, `plainRemove`: The calls.
* `Cut`: The two parts of a list.

## Theorems

* `InOrder.exists_cut`: A list in order can be cut at any address.
* `Cut.find`: The segment that is found.
* `Cut.add`, `Cut.add_overlap`: Adding a segment.
* `Cut.remove`, `Cut.remove_none`: Removing a segment.
-/

namespace Sol7.Vm

open List Option

/-- Two segments have an address in common. -/
def Seg.Overlaps (a b : Seg) : Prop := a.base < b.stop ∧ b.base < a.stop

instance (a b : Seg) : Decidable (a.Overlaps b) := inferInstanceAs (Decidable (_ ∧ _))

/-- Each segment ends before the next one begins. -/
def InOrder (l : List Seg) : Prop := l.Pairwise fun a b => a.stop ≤ b.base

/-- The first segment that ends after an address. If there is none, the last
    one if `tail` is set. -/
def plainFind (l : List Seg) (addr : Nat) (tail : Bool) : Option Seg :=
  match l.find? fun seg => addr < seg.stop with
  | some seg => some seg
  | none => if tail then l.getLast? else none

/-- Add a segment, unless it overlaps another one. -/
def plainAdd (l : List Seg) (seg : Seg) : List Seg × Bool :=
  if ∃ t ∈ l, seg.Overlaps t then (l, false)
  else (l.orderedInsert (fun a b => a.base ≤ b.base) seg, true)

/-- Remove the segment with a base address. -/
def plainRemove (l : List Seg) (addr : Nat) : List Seg × Option Seg :=
  (l.filter fun seg => seg.base ≠ addr, l.find? fun seg => seg.base = addr)

theorem Seg.base_lt_stop (seg : Seg) : seg.base < seg.stop := Nat.lt_add_of_pos_right seg.size_pos

variable {l a b : List Seg} {seg t : Seg} {addr : Nat} {tail : Bool}

theorem inOrder_append : InOrder (a ++ b) ↔
    InOrder a ∧ InOrder b ∧ ∀ x ∈ a, ∀ y ∈ b, x.stop ≤ y.base :=
  pairwise_append

theorem inOrder_cons : InOrder (seg :: l) ↔ (∀ y ∈ l, seg.stop ≤ y.base) ∧ InOrder l :=
  pairwise_cons

theorem InOrder.nodup (h : InOrder l) : l.Nodup := by
  refine h.imp fun {a b} hab heq => ?_
  have := b.base_lt_stop
  rw [heq] at hab
  omega

/-- Taking a segment out keeps the order. -/
theorem InOrder.remove (h : InOrder (a ++ seg :: b)) : InOrder (a ++ b) :=
  h.sublist ((List.Sublist.refl a).append (sublist_cons_self seg b))

/-- The segments before an address and those that end after it. -/
structure Cut (addr : Nat) (a b : List Seg) : Prop where
  before : ∀ x ∈ a, x.stop ≤ addr
  after : ∀ x ∈ b, addr < x.stop

/-- In order, it is enough to look at the two segments at the cut. -/
theorem InOrder.cut (h : InOrder (a ++ b)) (ha : ∀ x ∈ a.getLast?, x.stop ≤ addr)
    (hb : ∀ x ∈ b.head?, addr < x.stop) : Cut addr a b := by
  obtain ⟨hoa, hob, -⟩ := inOrder_append.mp h
  constructor
  · intro x hx
    rcases eq_nil_or_concat' a with rfl | ⟨a', z, rfl⟩
    · cases hx
    have hz := ha z (by simp)
    rcases mem_append.mp hx with hx | hx
    · have := (inOrder_append.mp hoa).2.2 x hx z (by simp)
      have := z.base_lt_stop
      omega
    · rwa [mem_singleton.mp hx]
  · intro x hx
    cases b with
    | nil => cases hx
    | cons z b' =>
      have hz := hb z (by simp)
      rcases mem_cons.mp hx with rfl | hx
      · exact hz
      · have := (inOrder_cons.mp hob).1 x hx
        have := x.base_lt_stop
        omega

/-- A list in order can be cut at any address. -/
theorem InOrder.exists_cut (h : InOrder l) (addr : Nat) : ∃ a b, l = a ++ b ∧ Cut addr a b := by
  induction l with
  | nil => exact ⟨[], [], rfl, by simp, by simp⟩
  | cons x l ih =>
    obtain ⟨hx, hl⟩ := inOrder_cons.mp h
    by_cases hle : x.stop ≤ addr
    · obtain ⟨a, b, rfl, hcut⟩ := ih hl
      exact ⟨x :: a, b, rfl, forall_mem_cons.mpr ⟨hle, hcut.before⟩, hcut.after⟩
    refine ⟨[], x :: l, rfl, by simp, fun y hy => ?_⟩
    rcases mem_cons.mp hy with rfl | hy
    · exact not_le.mp hle
    · have := hx y hy
      have := y.base_lt_stop
      omega

/-- The segment that is found is the first one after the cut. -/
theorem Cut.find (h : Cut addr a b) :
    plainFind (a ++ b) addr tail = b.head?.or (if tail then a.getLast? else none) := by
  unfold plainFind
  have hnone : a.find? (fun seg => addr < seg.stop) = none := by
    rw [find?_eq_none]
    intro x hx
    have := h.before x hx
    simpa using this
  rw [find?_append, hnone, none_or]
  cases b with
  | nil => rw [find?_nil, append_nil, head?_nil, none_or]
  | cons x b =>
    rw [find?_cons_of_pos (by simpa using h.after x mem_cons_self), head?_cons, some_or]

/-- A segment that overlaps the first one after the cut is not added. -/
theorem Cut.add_overlap (h : Cut seg.base a (t :: b)) (ht : t.base < seg.stop) :
    plainAdd (a ++ t :: b) seg = (a ++ t :: b, false) :=
  if_pos ⟨t, mem_append_right _ mem_cons_self, h.after t mem_cons_self, ht⟩

/-- A segment that ends before the first one after the cut is added there. -/
theorem Cut.add (h : Cut seg.base a b) (hord : InOrder (a ++ b))
    (hb : ∀ x ∈ b.head?, seg.stop ≤ x.base) :
    plainAdd (a ++ b) seg = (a ++ seg :: b, true) ∧ InOrder (a ++ seg :: b) := by
  have hpos := seg.base_lt_stop
  obtain ⟨hoa, hob, hab⟩ := inOrder_append.mp hord
  have hafter : ∀ x ∈ b, seg.stop ≤ x.base := by
    intro x hx
    cases b with
    | nil => cases hx
    | cons z b =>
      have hz := hb z (by simp)
      rcases mem_cons.mp hx with rfl | hx
      · exact hz
      · have := (inOrder_cons.mp hob).1 x hx
        have := z.base_lt_stop
        omega
  constructor
  · have hnone : ¬∃ t ∈ a ++ b, seg.Overlaps t := by
      rintro ⟨t, ht, h1, h2⟩
      rcases mem_append.mp ht with ht | ht
      · have := h.before t ht
        omega
      · have := hafter t ht
        omega
    unfold plainAdd
    rw [if_neg hnone, orderedInsert_eq_take_drop]
    have ha : ∀ x ∈ a, decide ¬seg.base ≤ x.base = true := by
      intro x hx
      have := h.before x hx
      have := x.base_lt_stop
      simp only [decide_eq_true_eq]
      omega
    have hb' : b.takeWhile (fun x => decide ¬seg.base ≤ x.base) = [] ∧
        b.dropWhile (fun x => decide ¬seg.base ≤ x.base) = b := by
      cases b with
      | nil => exact ⟨rfl, rfl⟩
      | cons x b =>
        have := hafter x mem_cons_self
        have hx : ¬decide (¬seg.base ≤ x.base) = true := by
          simp only [decide_eq_true_eq]
          omega
        exact ⟨takeWhile_cons_of_neg hx, dropWhile_cons_of_neg hx⟩
    rw [takeWhile_append_of_pos ha, dropWhile_append_of_pos ha, hb'.1, hb'.2, append_nil]
  · exact inOrder_append.mpr ⟨hoa, inOrder_cons.mpr ⟨hafter, hob⟩, fun x hx =>
      forall_mem_cons.mpr ⟨h.before x hx, hab x hx⟩⟩

/-- The segment with the address as its base is the first one after the cut. -/
theorem Cut.remove (h : Cut t.base a (t :: b)) (hord : InOrder (a ++ t :: b)) :
    plainRemove (a ++ t :: b) t.base = (a ++ b, some t) := by
  have ha : ∀ x ∈ a, x.base ≠ t.base := by
    intro x hx
    have := h.before x hx
    have := x.base_lt_stop
    omega
  have hb : ∀ x ∈ b, x.base ≠ t.base := by
    intro x hx
    have := (inOrder_cons.mp (inOrder_append.mp hord).2.1).1 x hx
    have := t.base_lt_stop
    omega
  unfold plainRemove
  congr 1
  · rw [filter_append, filter_cons_of_neg (by simp),
      filter_eq_self.mpr (by simpa using ha), filter_eq_self.mpr (by simpa using hb)]
  · rw [find?_append, find?_eq_none.mpr (by simpa using ha), none_or, find?_cons_of_pos (by simp)]

/-- Without a segment there, nothing is removed. -/
theorem Cut.remove_none (h : Cut addr a b) (hord : InOrder (a ++ b))
    (hb : ∀ x ∈ b.head?, x.base ≠ addr) : plainRemove (a ++ b) addr = (a ++ b, none) := by
  have hall : ∀ x ∈ a ++ b, x.base ≠ addr := by
    intro x hx
    rcases mem_append.mp hx with hx | hx
    · have := h.before x hx
      have := x.base_lt_stop
      omega
    cases b with
    | nil => cases hx
    | cons z b =>
      rcases mem_cons.mp hx with rfl | hx
      · exact hb x (by simp)
      · have := (inOrder_cons.mp (inOrder_append.mp hord).2.1).1 x hx
        have := h.after z mem_cons_self
        omega
  unfold plainRemove
  rw [filter_eq_self.mpr (by simpa using hall), find?_eq_none.mpr (by simpa using hall)]

end Sol7.Vm
