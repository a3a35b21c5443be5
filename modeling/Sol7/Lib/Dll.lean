import Sol7.Lib.SkipList

/-!
# Doubly Linked Lists

A list that is linked in both directions, with a pointer to each end. All ways to
put a cell in are one: the cell goes between two neighbours, either of which may
be missing. Taking a cell out joins its neighbours.

## Main definitions

* `Dll`: The pointers of the list.
* `Dll.link`, `Dll.unlink`: Put a cell between two neighbours and take one out.
* `Dll.Holds`: The pointers are those of a given list.
* `scan`: Go along the links as long as a test holds.
* `findBy`: Go along the links up to a cell that passes a test.
* `Steady`: A larger bound does not change a result.

## Theorems

* `Dll.Holds.link`, `Dll.Holds.unlink`: What the operations do to the list.
* `Dll.link_next_of_ne`, `Dll.unlink_next_of_ne`: Other cells keep their links.
* `scan_spec`: Going along the links finds the first cell that fails the test.
* `findBy_spec`: The search finds the first cell that passes the test.
* `scan_mono`, `scan_mem`: The bound does not matter once there is a result, and
  the result is on the list.
* `Threaded.unique`: There is one list that the links lead along.
-/

namespace Sol7

open List Option Function Threaded

variable {ι : Type*}

/-- The pointers of a list that is linked in both directions. -/
structure Dll (ι : Type*) where
  first : Option ι
  last : Option ι
  next : ι → Option ι
  prev : ι → Option ι

/-- Go along the links as long as a test holds. The result is the cell where it
    fails or the end of the list, and there is none if the bound is reached. -/
def scan (next : ι → Option ι) (p : ι → Bool) : Nat → Option ι → Option (Option ι)
  | 0, _ => none
  | _ + 1, none => some none
  | n + 1, some c => if p c then scan next p n (next c) else some (some c)

/-- Go along the links up to the first cell that passes a test. The result is the cell
    and the one before it. -/
def findBy (next : ι → Option ι) (p : ι → Bool) : Nat → Option ι → Option ι → Option (Option ι × ι)
  | 0, _, _ => none
  | _ + 1, _, none => none
  | n + 1, prev, some c => if p c then some (prev, c) else findBy next p n (some c) (next c)

/-- A larger bound does not change a result. -/
def Steady {α : Type*} (f : Nat → Option α) : Prop := ∀ ⦃m n r⦄, f m = some r → m ≤ n → f n = some r

namespace Steady

variable {α β : Type*} {f g : Nat → Option α}

theorem const (e : Option α) : Steady fun _ => e := fun _ _ _ h _ => h

theorem ite {c : Prop} [Decidable c] (hf : Steady f) (hg : Steady g) :
    Steady fun n => if c then f n else g n := by
  split
  · exact hf
  · exact hg

theorem map (hf : Steady f) (k : α → β) : Steady fun n => (f n).map k := by
  intro m n r h hle
  obtain ⟨a, ha, heq⟩ := map_eq_some_iff.mp h
  exact map_eq_some_iff.mpr ⟨a, hf ha hle, heq⟩

/-- What holds of the results with large bounds holds of every result. -/
theorem spec (hf : Steady f) {P : α → Prop} {m k : Nat} {r : α} (hr : f m = some r)
    (h : ∀ n, k < n → ∃ r, f n = some r ∧ P r) : P r := by
  obtain ⟨r', hr', hp⟩ := h (m + (k + 1)) (by omega)
  obtain rfl := some.inj ((hf hr (Nat.le_add_right ..)).symm.trans hr')
  exact hp

end Steady

section
variable {next : ι → Option ι} {start : Option ι} {a b : List ι} {c : ι}

theorem Threaded.head_links (h : Threaded (links start next) b) : start = b.head? := some.inj h.head

/-- The part of a list from a place on. -/
theorem Threaded.drop (h : Threaded (links start next) (a ++ b)) :
    Threaded (links b.head? next) b := by
  refine of_cells rfl fun x d y hb => ?_
  subst hb
  rw [← append_assoc] at h
  exact h.cell

theorem Threaded.tail_links (h : Threaded (links start next) (c :: b)) :
    Threaded (links (next c) next) b := by
  have hnext : next c = b.head? := some.inj (cell (a := []) h)
  rw [hnext]
  exact drop (a := [c]) h

variable {p : ι → Bool} {fuel n : Nat}

/-- The scan ends at the first cell that fails the test. -/
theorem scan_spec (h : Threaded (links start next) b) (hfuel : b.length < fuel) :
    scan next p fuel start = some (b.find? fun x => !p x) := by
  induction b generalizing start fuel with
  | nil =>
    cases fuel with
    | zero => omega
    | succ n =>
      rw [h.head_links]
      rfl
  | cons c b ih =>
    cases fuel with
    | zero => omega
    | succ n =>
      rw [h.head_links, head?_cons, scan]
      rw [length_cons] at hfuel
      cases hp : p c with
      | true => rw [if_pos rfl, ih h.tail_links (by omega), find?_cons_of_neg (by simp [hp])]
      | false => rw [if_neg (by simp), find?_cons_of_pos (by simp [hp])]

/-- The search finds the first cell that passes the test. -/
theorem findBy_spec (prev : Option ι) (h : Threaded (links start next) (a ++ c :: b))
    (ha : ∀ y ∈ a, p y = false) (hc : p c = true) (hn : a.length < n) :
    findBy next p n prev start = some (a.getLast?.or prev, c) := by
  induction a generalizing start n prev with
  | nil =>
    cases n with
    | zero => omega
    | succ n =>
      rw [h.head_links]
      exact if_pos hc
  | cons d a ih =>
    cases n with
    | zero => omega
    | succ n =>
      rw [length_cons] at hn
      rw [h.head_links, cons_append, head?_cons, findBy, if_neg (by simp [ha d mem_cons_self]),
        ih _ h.tail_links (fun y hy => ha y (mem_cons_of_mem d hy)) (by omega)]
      rcases eq_nil_or_concat' a with rfl | ⟨a, e, rfl⟩
      · rfl
      · rw [← cons_append, getLast?_concat, getLast?_concat]
        rfl

/-- A larger bound does not change the result. -/
theorem scan_mono {r : Option ι} (h : scan next p fuel start = some r) (hle : fuel ≤ n) :
    scan next p n start = some r := by
  induction fuel generalizing start n with
  | zero => cases h
  | succ fuel ih =>
    obtain ⟨n, rfl⟩ : ∃ m, n = m + 1 := ⟨n - 1, by omega⟩
    cases start with
    | none => exact h
    | some c =>
      unfold scan at h ⊢
      split
      · next hp =>
        rw [if_pos hp] at h
        exact ih h (by omega)
      · next hp =>
        rw [if_neg hp] at h
        exact h

/-- A cell where the scan ends is on the list. -/
theorem scan_mem (h : Threaded (links start next) b)
    (hscan : scan next p fuel start = some (some c)) : c ∈ b := by
  have hmono := scan_mono hscan (Nat.le_add_right fuel (b.length + 1))
  rw [scan_spec h (by omega)] at hmono
  exact mem_of_find?_eq_some (some.inj hmono)

/-- There is one list that the links lead along. -/
theorem Threaded.unique (ha : Threaded (links start next) a) (hb : Threaded (links start next) b) :
    a = b := by
  induction a generalizing start b with
  | nil =>
    have hhead : b.head? = none := hb.head_links.symm.trans ha.head_links
    exact (head?_eq_none_iff.mp hhead).symm
  | cons c a ih =>
    have hhead : b.head? = some c := hb.head_links.symm.trans ha.head_links
    obtain ⟨b', rfl⟩ := head?_eq_some_iff.mp hhead
    rw [ih ha.tail_links hb.tail_links]

end

namespace Dll

/-- The pointers are those of a list. -/
structure Holds (d : Dll ι) (l : List ι) : Prop where
  nodup : l.Nodup
  fwd : Threaded (links d.first d.next) l
  bwd : Threaded (links d.last d.prev) l.reverse

variable {d : Dll ι} {l a b : List ι} {x : ι}

theorem Holds.first_eq (h : d.Holds l) : d.first = l.head? := h.fwd.head_links

theorem Holds.last_eq (h : d.Holds l) : d.last = l.getLast? := by
  rw [h.bwd.head_links, head?_reverse]

theorem Holds.next_eq (h : d.Holds (a ++ x :: b)) : d.next x = b.head? := some.inj h.fwd.cell

theorem Holds.prev_eq (h : d.Holds (a ++ x :: b)) : d.prev x = a.getLast? :=
  some.inj (back (b := x :: b) h.bwd)

/-- A list without cells. The links of the cells do not matter. -/
theorem holds_nil (next prev : ι → Option ι) : Holds ⟨none, none, next, prev⟩ [] :=
  ⟨nodup_nil, threaded_nil rfl, threaded_nil rfl⟩

end Dll

variable [DecidableEq ι]

/-- Set the link of a cell, or the pointer to the first one if there is no
    cell. -/
def setLink (p v : Option ι) (first : Option ι) (next : ι → Option ι) : Option ι × (ι → Option ι) :=
  match p with
  | none => (v, next)
  | some c => (first, update next c v)

theorem links_setLink (p v first : Option ι) (next : ι → Option ι) :
    links (setLink p v first next).1 (setLink p v first next).2 =
      update (links first next) p (some v) := by
  cases p with
  | none => exact links_head
  | some c => exact links_cell

namespace Dll

/-- Put a cell between two neighbours. -/
def link (d : Dll ι) (p : Option ι) (x : ι) (n : Option ι) : Dll ι :=
  let fwd := setLink p (some x) d.first (update d.next x n)
  let bwd := setLink n (some x) d.last (update d.prev x p)
  ⟨fwd.1, bwd.1, fwd.2, bwd.2⟩

/-- Join the neighbours of a cell, and clear its links. -/
def unlink (d : Dll ι) (x : ι) : Dll ι :=
  let fwd := setLink (d.prev x) (d.next x) d.first d.next
  let bwd := setLink (d.next x) (d.prev x) d.last d.prev
  ⟨fwd.1, bwd.1, update fwd.2 x none, update bwd.2 x none⟩

variable {d : Dll ι} {a b : List ι} {x y : ι}

/-- A cell that is put between two neighbours is between them. -/
theorem Holds.link (h : d.Holds (a ++ b)) (hx : x ∉ a ++ b) :
    (d.link a.getLast? x b.head?).Holds (a ++ x :: b) := by
  refine ⟨?_, ?_, ?_⟩
  · exact nodup_middle.mpr (nodup_cons.mpr ⟨hx, h.nodup⟩)
  · have hi := h.fwd.insert h.nodup hx
    rw [h.fwd a b rfl, ← links_cell, ← links_setLink] at hi
    exact hi
  · have hi := h.bwd.reverse_insert h.nodup hx
    rw [← links_cell, ← links_setLink] at hi
    exact hi

/-- A cell that is taken out joins its neighbours. -/
theorem Holds.unlink (h : d.Holds (a ++ x :: b)) : (d.unlink x).Holds (a ++ b) := by
  have hnd := nodup_middle.mp h.nodup
  have hx : x ∉ a ++ b := (nodup_cons.mp hnd).1
  refine ⟨(nodup_cons.mp hnd).2, ?_, ?_⟩
  · have hr := h.fwd.remove h.nodup
    rw [show links d.first d.next (some x) = some (d.next x) from rfl, ← links_setLink,
      ← h.prev_eq] at hr
    -- The links of the cell itself no longer matter.
    refine hr.congr rfl fun c hc => ?_
    have hne : c ≠ x := fun heq => hx (heq ▸ hc)
    exact congrArg some (update_of_ne hne ..)
  · have hr := h.bwd.reverse_remove h.nodup
    rw [show links d.last d.prev (some x) = some (d.prev x) from rfl, ← links_setLink,
      ← h.next_eq] at hr
    refine hr.congr rfl fun c hc => ?_
    have hne : c ≠ x := fun heq => hx (heq ▸ mem_reverse.mp hc)
    exact congrArg some (update_of_ne hne ..)

/-- The links of cells other than the new one and its neighbour stay. -/
theorem link_next_of_ne {p n : Option ι} (hx : y ≠ x) (hp : p ≠ some y) :
    (d.link p x n).next y = d.next y := by
  cases p with
  | none => exact update_of_ne hx ..
  | some c =>
    have hc : y ≠ c := fun heq => hp (heq ▸ rfl)
    change update (update d.next x n) c (some x) y = d.next y
    rw [update_of_ne hc, update_of_ne hx]

/-- The links of cells other than the one taken out and its neighbour stay. -/
theorem unlink_next_of_ne (hx : y ≠ x) (hp : d.prev x ≠ some y) :
    (d.unlink x).next y = d.next y := by
  change update (setLink (d.prev x) (d.next x) d.first d.next).2 x none y = d.next y
  rw [update_of_ne hx]
  rcases hprev : d.prev x with _ | c
  · rfl
  · have hc : y ≠ c := fun heq => hp (by rw [hprev, heq])
    exact update_of_ne hc ..

end Dll

end Sol7
