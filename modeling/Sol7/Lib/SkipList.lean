import Mathlib

/-!
# Threads and Skip Lists

A list is threaded through memory by a link in each of its cells and one in a
head, which is no cell. What a link says is best put in terms of the places in
the list: the link of the last cell before a place names the first cell after
it, and before the first cell there is only the head.

A skip list has several threads. Each cell has a height, and the thread of a
level passes through the cells that are at least that high.

A link may also hold something that is no link at all, in a cell that a thread
does not pass through.

## Main definitions

* `Threaded`: The links of a list.
* `links`: The links of a list that has nothing else.
* `lastAt`: The cell before a place on the thread of a level.
* `Layered`: The links of a skip list.

## Theorems

* `Threaded.insert`, `Threaded.remove`: Putting a cell in and taking one out.
* `Threaded.congr`: Links of other cells do not matter.
* `Threaded.back_insert`, `Threaded.back_remove`: A list that is linked
  backwards.
* `Layered.insert`, `Layered.remove`: The same on every level.
-/

namespace Sol7

open List Option Function

variable {ι : Type*} {l a b : List ι} {c : ι}

section

/-- The links through a list: at every place, the link before it names the
    cell after it. The link of `none` is the head. -/
def Threaded (next : Option ι → Option (Option ι)) (l : List ι) : Prop :=
  ∀ a b, l = a ++ b → next a.getLast? = some b.head?

variable {next next' : Option ι → Option (Option ι)}

theorem Threaded.head (h : Threaded next l) : next none = some l.head? := h [] l rfl

theorem Threaded.cell (h : Threaded next (a ++ c :: b)) : next (some c) = some b.head? := by
  have hc := h (a ++ [c]) b (by rw [append_assoc, singleton_append])
  rwa [getLast?_concat] at hc

theorem threaded_nil (h : next none = some none) : Threaded next [] := by
  intro a b hab
  obtain ⟨rfl, rfl⟩ := nil_eq_append_iff.mp hab
  exact h

/-- The head and the cells are all that matters. -/
theorem Threaded.of_cells (hhead : next none = some l.head?)
    (hcell : ∀ a c b, l = a ++ c :: b → next (some c) = some b.head?) : Threaded next l := by
  intro a b hab
  rcases eq_nil_or_concat' a with rfl | ⟨x, c, rfl⟩
  · rw [nil_append] at hab
    rw [getLast?_nil, hhead, hab]
  · rw [getLast?_concat]
    refine hcell x c b ?_
    rw [hab, append_assoc, singleton_append]

/-- Links of cells that are not on the list do not matter. -/
theorem Threaded.congr (h : Threaded next l) (hhead : next' none = next none)
    (hcell : ∀ c ∈ l, next' (some c) = next (some c)) : Threaded next' l := by
  refine .of_cells (hhead.trans h.head) fun a c b hl => ?_
  subst hl
  exact (hcell c (mem_append_right _ mem_cons_self)).trans h.cell

/-- The cell before a place is one of the cells before it. -/
theorem mem_of_getLast?_append {x : List ι} {e : ι} (hx : x ≠ []) (h : (a ++ x).getLast? = some e) :
    e ∈ x := by
  rw [getLast?_append_of_ne_nil _ hx] at h
  exact mem_of_getLast? h

/-- Backwards, the link after a place names the cell before it. -/
theorem Threaded.back (h : Threaded next (a ++ b).reverse) : next b.head? = some a.getLast? := by
  have := h b.reverse a.reverse reverse_append
  rwa [getLast?_reverse, head?_reverse] at this

variable [DecidableEq ι]

/-- A new cell takes over the link before it. -/
theorem Threaded.insert (h : Threaded next (a ++ b)) (hnd : (a ++ b).Nodup) (hc : c ∉ a ++ b) :
    Threaded (update (update next (some c) (next a.getLast?)) a.getLast?
      (some (some c))) (a ++ c :: b) := by
  have hca : some c ≠ a.getLast? := fun heq =>
    hc (mem_append_left _ (mem_of_getLast? heq.symm))
  -- A cell other than the one before the place keeps its link.
  have hkeep : ∀ d, d ≠ c → some d ≠ a.getLast? →
      update (update next (some c) (next a.getLast?)) a.getLast?
        (some (some c)) (some d) = next (some d) := by
    intro d hd hda
    rw [update_of_ne hda, update_of_ne (by simpa using hd)]
  refine .of_cells ?_ fun x d y hxy => ?_
  · cases a with
    | nil => rw [getLast?_nil, update_self, nil_append, head?_cons]
    | cons e a =>
      have hne : none ≠ (e :: a).getLast? := fun heq => by
        cases heq
      rw [update_of_ne hne, update_of_ne (by simp), h.head]
      rfl
  · rcases append_eq_append_iff.mp hxy with ⟨t, rfl, hy⟩ | ⟨t, rfl, hy⟩
    · cases t with
      | nil =>
        -- The new cell itself.
        cases hy
        rw [update_of_ne hca, update_self]
        exact h a b rfl
      | cons e t =>
        rw [cons_append] at hy
        cases hy
        have hdb : d ∈ t ++ d :: y := mem_append_right _ mem_cons_self
        have hda : d ∉ a := fun hd => (nodup_append.mp hnd).2.2 d hd d hdb rfl
        rw [hkeep d (fun heq => hc (heq ▸ mem_append_right _ hdb)) fun heq =>
          hda (mem_of_getLast? heq.symm)]
        rw [← append_assoc] at h
        exact h.cell
    · cases t with
      | nil =>
        obtain ⟨rfl, rfl⟩ := cons.inj hy
        rw [append_nil] at hca h ⊢
        rw [update_of_ne hca, update_self]
        exact h x y rfl
      | cons e t =>
        cases hy
        have hdc : d ≠ c := fun heq => hc (by simp [heq])
        cases t with
        | nil =>
          rw [getLast?_concat, update_self]
          rfl
        | cons e t =>
          rw [hkeep d hdc]
          · rw [append_assoc] at h
            have := h.cell
            simpa using this
          intro heq
          have hmem : d ∈ e :: t :=
            mem_of_getLast?_append (a := x ++ [d]) (by simp) (by simpa using heq.symm)
          rw [append_assoc] at hnd
          have := (nodup_cons.mp (nodup_append.mp hnd).2.1).1
          exact this (mem_append_left _ hmem)

/-- The link before a cell is moved past it. -/
theorem Threaded.remove (h : Threaded next (a ++ c :: b)) (hnd : (a ++ c :: b).Nodup) :
    Threaded (update next a.getLast? (next (some c))) (a ++ b) := by
  have hcell := h.cell
  intro x y hxy
  rcases append_eq_append_iff.mp hxy with ⟨t, rfl, rfl⟩ | ⟨t, rfl, rfl⟩
  · cases t with
    | nil => rw [append_nil, update_self, hcell, nil_append]
    | cons e t =>
      have hne : (a ++ e :: t).getLast? ≠ a.getLast? := by
        intro heq
        rcases hlast : (a ++ e :: t).getLast? with _ | d
        · simp at hlast
        have hd : d ∈ e :: t := mem_of_getLast?_append (by simp) hlast
        rw [hlast] at heq
        have hda : d ∈ a := mem_of_getLast? heq.symm
        refine (nodup_append.mp hnd).2.2 d hda d ?_ rfl
        exact mem_cons_of_mem _ (mem_append_left _ hd)
      rw [update_of_ne hne]
      have := h (a ++ c :: e :: t) y (by simp)
      simpa using this
  · cases t with
    | nil => rw [append_nil, update_self, hcell, nil_append]
    | cons e t =>
      have hne : x.getLast? ≠ (x ++ e :: t).getLast? := by
        intro heq
        rcases hlast : (x ++ e :: t).getLast? with _ | d
        · simp at hlast
        have hd : d ∈ e :: t := mem_of_getLast?_append (by simp) hlast
        rw [hlast] at heq
        rw [append_assoc] at hnd
        refine (nodup_append.mp hnd).2.2 d (mem_of_getLast? heq) d ?_ rfl
        exact mem_append_left _ hd
      rw [update_of_ne hne]
      have := h x (e :: t ++ c :: b) (by simp)
      simpa using this

/-- A new cell of a list that is linked backwards. -/
theorem Threaded.reverse_insert (h : Threaded next (a ++ b).reverse) (hnd : (a ++ b).Nodup)
    (hc : c ∉ a ++ b) : Threaded (update (update next (some c) (some a.getLast?)) b.head?
      (some (some c))) (a ++ c :: b).reverse := by
  have hback := h.back
  have hrev : (a ++ b).reverse = b.reverse ++ a.reverse := reverse_append
  rw [hrev] at h
  have hi := h.insert (by rw [← hrev]; exact nodup_reverse.mpr hnd)
    (by rw [← hrev, mem_reverse]; exact hc)
  rw [getLast?_reverse, hback] at hi
  rw [reverse_append, reverse_cons, append_assoc]
  exact hi

/-- A cell is taken out of a list that is linked backwards. -/
theorem Threaded.reverse_remove (h : Threaded next (a ++ c :: b).reverse)
    (hnd : (a ++ c :: b).Nodup) :
    Threaded (update next b.head? (next (some c))) (a ++ b).reverse := by
  have hrev : (a ++ c :: b).reverse = b.reverse ++ c :: a.reverse := by simp
  rw [hrev] at h
  have hr := h.remove (by rw [← hrev]; exact nodup_reverse.mpr hnd)
  rw [getLast?_reverse, ← reverse_append] at hr
  exact hr

/-- The links of a list that has only links, in a head and in cells. -/
def links (first : Option ι) (next : ι → Option ι) : Option ι → Option (Option ι) :=
  fun n => some (n.elim first next)

variable {first v : Option ι} {nx : ι → Option ι}

theorem links_cell : links first (update nx c v) = update (links first nx) (some c) (some v) := by
  funext n
  cases n with
  | none => rw [update_of_ne (by simp)]; rfl
  | some d =>
    unfold links
    by_cases hd : d = c
    · subst hd
      rw [update_self, elim_some, update_self]
    · rw [update_of_ne (by simpa using hd), elim_some, update_of_ne hd]
      rfl

theorem links_head : links v nx = update (links first nx) none (some v) := by
  funext n
  cases n with
  | none => rw [update_self]; rfl
  | some d => rw [update_of_ne (by simp)]; rfl

/-- A new first cell. -/
theorem Threaded.insert_front (h : Threaded (links first nx) b) (hnd : b.Nodup) (hc : c ∉ b) :
    Threaded (links (some c) (update nx c b.head?)) (c :: b) := by
  have hi := h.insert (a := []) hnd hc
  rw [getLast?_nil, h.head, ← links_cell, ← links_head] at hi
  exact hi

/-- A new cell after another one. -/
theorem Threaded.insert_after {p : ι} (h : Threaded (links first nx) (a ++ p :: b))
    (hnd : (a ++ p :: b).Nodup) (hc : c ∉ a ++ p :: b) :
    Threaded (links first (update (update nx c b.head?) p (some c)))
      (a ++ p :: c :: b) := by
  have hcell := h.cell
  have hsplit : ∀ d, a ++ p :: d = (a ++ [p]) ++ d := by simp
  rw [hsplit] at h hnd hc ⊢
  have hi := h.insert hnd hc
  rw [getLast?_concat, hcell, ← links_cell, ← links_cell] at hi
  exact hi

/-- The first cell is taken out. -/
theorem Threaded.remove_front (h : Threaded (links first nx) (c :: b)) (hnd : (c :: b).Nodup) :
    Threaded (links (nx c) nx) b := by
  have hr := h.remove (a := []) hnd
  rw [getLast?_nil, show links first nx (some c) = some (nx c) from rfl, ← links_head] at hr
  exact hr

/-- The cell after another one is taken out. -/
theorem Threaded.remove_after {p : ι} (h : Threaded (links first nx) (a ++ p :: c :: b))
    (hnd : (a ++ p :: c :: b).Nodup) :
    Threaded (links first (update nx p (nx c))) (a ++ p :: b) := by
  have hsplit : ∀ d, a ++ p :: d = (a ++ [p]) ++ d := by simp
  rw [hsplit] at h hnd ⊢
  have hr := h.remove hnd
  rw [getLast?_concat, show links first nx (some c) = some (nx c) from rfl, ← links_cell] at hr
  exact hr

/-- A new last cell of a list that is linked backwards. -/
theorem Threaded.back_concat (h : Threaded (links first nx) a.reverse) (hnd : a.Nodup)
    (hc : c ∉ a) : Threaded (links (some c) (update nx c a.getLast?)) (a ++ [c]).reverse := by
  have hi := h.insert_front (nodup_reverse.mpr hnd) (by simpa using hc)
  rw [head?_reverse] at hi
  rw [reverse_append]
  exact hi

/-- A new cell before another one in a list that is linked backwards. -/
theorem Threaded.back_insert {t : ι} (h : Threaded (links first nx) (a ++ t :: b).reverse)
    (hnd : (a ++ t :: b).Nodup) (hc : c ∉ a ++ t :: b) :
    Threaded (links first (update (update nx c (nx t)) t (some c)))
      (a ++ c :: t :: b).reverse := by
  have hprev : nx t = a.getLast? := some.inj h.back
  have hi := h.reverse_insert hnd hc
  rw [head?_cons, ← links_cell, ← links_cell, ← hprev] at hi
  exact hi

/-- The last cell is taken out of a list that is linked backwards. -/
theorem Threaded.back_dropLast (h : Threaded (links first nx) (a ++ [c]).reverse)
    (hnd : (a ++ [c]).Nodup) : Threaded (links (nx c) nx) a.reverse := by
  have hrev : (a ++ [c]).reverse = c :: a.reverse := by simp
  rw [hrev] at h
  exact h.remove_front (by rw [← hrev]; exact nodup_reverse.mpr hnd)

/-- The cell before another one is taken out of a list that is linked
    backwards. -/
theorem Threaded.back_remove {t : ι} (h : Threaded (links first nx) (a ++ c :: t :: b).reverse)
    (hnd : (a ++ c :: t :: b).Nodup) :
    Threaded (links first (update nx t (nx c))) (a ++ t :: b).reverse := by
  rw [links_cell]
  exact h.reverse_remove hnd

end

/-- The cells of a list that are on the thread of a level. -/
def layer (height : ι → Nat) (i : Nat) (l : List ι) : List ι := l.filter fun c => i ≤ height c

/-- The last cell on the thread of a level. -/
def lastAt (height : ι → Nat) (i : Nat) (a : List ι) : Option ι := (layer height i a).getLast?

/-- The links of a skip list with the given number of levels. A cell has no
    link above its height. -/
structure Layered (next : Nat → Option ι → Option (Option ι)) (height : ι → Nat) (levels : Nat)
    (l : List ι) : Prop where
  thread : ∀ i < levels, Threaded (next i) (layer height i l)
  unused : ∀ i < levels, ∀ c ∈ l, height c < i → next i (some c) = none

variable {next next' : Nat → Option ι → Option (Option ι)} {height : ι → Nat} {levels i k : Nat}

theorem mem_layer : c ∈ layer height i l ↔ c ∈ l ∧ i ≤ height c := by simp [layer]

theorem layer_append : layer height i (a ++ b) = layer height i a ++ layer height i b :=
  filter_append ..

theorem layer_cons : layer height i (c :: l) =
    if i ≤ height c then c :: layer height i l else layer height i l := by
  simp [layer, filter_cons]

theorem layer_zero : layer height 0 l = l := by simp [layer]

theorem lastAt_mem (h : lastAt height i a = some c) : c ∈ a ∧ i ≤ height c :=
  mem_layer.mp (mem_of_getLast? h)

/-- After one more cell, it is the last one on the levels it reaches. -/
theorem lastAt_concat : lastAt height i (a ++ [c]) =
    if i ≤ height c then some c else lastAt height i a := by
  unfold lastAt
  rw [layer_append, layer_cons]
  split
  · exact getLast?_concat ..
  · rw [show layer height i ([] : List ι) = [] from rfl, append_nil]

/-- The cell before a place on one level is a cell of the level below. -/
theorem lastAt_prefix (height : ι → Nat) (i : Nat) (a : List ι) :
    ∃ x y, layer height i a = x ++ y ∧ lastAt height (i + 1) a = x.getLast? := by
  rcases hlast : lastAt height (i + 1) a with _ | c
  · exact ⟨[], _, rfl, rfl⟩
  obtain ⟨hmem, hle⟩ := lastAt_mem hlast
  have hc : c ∈ layer height i a := mem_layer.mpr ⟨hmem, by omega⟩
  obtain ⟨x, y, hxy⟩ := append_of_mem hc
  refine ⟨x ++ [c], y, ?_, (getLast?_concat ..).symm⟩
  rw [hxy, append_assoc, singleton_append]

theorem Layered.next_lastAt (h : Layered next height levels (a ++ b)) (hi : i < levels) :
    next i (lastAt height i a) = some (layer height i b).head? :=
  h.thread i hi _ _ layer_append

theorem Layered.cell (h : Layered next height levels (a ++ c :: b)) (hi : i < levels)
    (hc : i ≤ height c) : next i (some c) = some (layer height i b).head? := by
  have ht := h.thread i hi
  rw [layer_append, layer_cons, if_pos hc] at ht
  exact ht.cell

/-- Which cells have a link at a level. -/
theorem Layered.eq_none_iff (h : Layered next height levels l) (hi : i < levels) (hc : c ∈ l) :
    next i (some c) = none ↔ height c < i := by
  constructor
  · intro hnone
    by_contra hle
    obtain ⟨a, b, rfl⟩ := append_of_mem hc
    rw [h.cell hi (not_lt.mp hle)] at hnone
    cases hnone
  · exact h.unused i hi c hc

/-- Links of cells that are not in the list do not matter. -/
theorem Layered.congr (h : Layered next height levels l) (hhead : ∀ i, next' i none = next i none)
    (hcell : ∀ i, ∀ c ∈ l, next' i (some c) = next i (some c)) : Layered next' height levels l := by
  refine ⟨fun i hi => ?_, fun i hi c hc hlt => ?_⟩
  · exact (h.thread i hi).congr (hhead i) fun c hc => hcell i c (mem_layer.mp hc).1
  · rw [hcell i c hc]
    exact h.unused i hi c hc hlt

variable [DecidableEq ι]

theorem layer_update (hc : c ∉ l) : layer (update height c k) i l = layer height i l := by
  refine filter_congr fun d hd => ?_
  have hne : d ≠ c := fun heq => hc (heq ▸ hd)
  rw [update_of_ne hne]

theorem lastAt_update (hc : c ∉ a) : lastAt (update height c k) i a = lastAt height i a := by
  rw [lastAt, layer_update hc, lastAt]

/-- A new cell of height `k` takes over the links before it on the levels up
    to `k`. -/
theorem Layered.insert (h : Layered next height levels (a ++ b)) (hnd : (a ++ b).Nodup)
    (hc : c ∉ a ++ b) (hlow : ∀ i < levels, i ≤ k → next' i =
      update (update (next i) (some c) (next i (lastAt height i a)))
        (lastAt height i a) (some (some c)))
    (hhigh : ∀ i < levels, k < i → next' i = update (next i) (some c) none) :
    Layered next' (update height c k) levels (a ++ c :: b) := by
  have hca : c ∉ a := fun hm => hc (mem_append_left _ hm)
  have hcb : c ∉ b := fun hm => hc (mem_append_right _ hm)
  have hsub : ∀ i, (layer height i (a ++ b)).Nodup := fun i => hnd.filter _
  constructor
  · intro i hi
    rw [layer_append, layer_cons, layer_update hca, layer_update hcb, update_self]
    have ht := h.thread i hi
    have hndi := hsub i
    rw [layer_append] at ht hndi
    have hci : c ∉ layer height i a ++ layer height i b := by
      rw [← layer_append]
      exact fun hm => hc (mem_layer.mp hm).1
    by_cases hle : i ≤ k
    · rw [if_pos hle, hlow i hi hle]
      exact ht.insert hndi hci
    · rw [if_neg hle, hhigh i hi (not_le.mp hle)]
      refine ht.congr (update_of_ne (by simp) ..) fun d hd => ?_
      have hne : d ≠ c := fun heq => hci (heq ▸ hd)
      exact update_of_ne (by simpa using hne) ..
  · intro i hi d hd hlt
    by_cases hdc : d = c
    · subst hdc
      rw [update_self] at hlt
      rw [hhigh i hi hlt, update_self]
    rw [update_of_ne hdc] at hlt
    have hdab : d ∈ a ++ b := by
      rcases mem_append.mp hd with hd | hd
      · exact mem_append_left _ hd
      · exact mem_append_right _ ((mem_cons.mp hd).resolve_left hdc)
    have hsd : some d ≠ some c := by simpa using hdc
    have hlast : some d ≠ lastAt height i a := fun heq => by
      have := (lastAt_mem heq.symm).2
      omega
    by_cases hle : i ≤ k
    · rw [hlow i hi hle, update_of_ne hlast, update_of_ne hsd]
      exact h.unused i hi d hdab hlt
    · rw [hhigh i hi (not_le.mp hle), update_of_ne hsd]
      exact h.unused i hi d hdab hlt

/-- On the levels a cell reaches, the links before it are moved past it. -/
theorem Layered.remove (h : Layered next height levels (a ++ c :: b)) (hnd : (a ++ c :: b).Nodup)
    (hlow : ∀ i < levels, i ≤ height c → next' i =
      update (next i) (lastAt height i a) (next i (some c)))
    (hhigh : ∀ i < levels, height c < i → next' i = next i) :
    Layered next' height levels (a ++ b) := by
  constructor
  · intro i hi
    have ht := h.thread i hi
    have hndi : (layer height i (a ++ c :: b)).Nodup := hnd.filter _
    rw [layer_append, layer_cons] at ht hndi
    rw [layer_append]
    by_cases hle : i ≤ height c
    · rw [if_pos hle] at ht hndi
      rw [hlow i hi hle]
      exact ht.remove hndi
    · rw [if_neg hle] at ht
      rw [hhigh i hi (not_le.mp hle)]
      exact ht
  · intro i hi d hd hlt
    have hdab : d ∈ a ++ c :: b := by
      rcases mem_append.mp hd with hd | hd
      · exact mem_append_left _ hd
      · exact mem_append_right _ (mem_cons_of_mem _ hd)
    by_cases hle : i ≤ height c
    · have hlast : some d ≠ lastAt height i a := fun heq => by
        have := (lastAt_mem heq.symm).2
        omega
      rw [hlow i hi hle, update_of_ne hlast]
      exact h.unused i hi d hdab hlt
    · rw [hhigh i hi (not_le.mp hle)]
      exact h.unused i hi d hdab hlt

end Sol7
