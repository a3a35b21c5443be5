import Sol7.Lib.Dll

/-!
# Hash Chains

A hash table with a chain of cells in every bucket. The chains are linked in one
direction, end in a null link and share the links. A cell is found by a search from
the front, which remembers where the link to it is, and taken out there. The table
is replaced by moving the cells one by one to the front of their new chains.

The second kind of list here is delimited by a pointer to its last cell. The link of
the last cell means nothing, and neither does the pointer to the first one when the
list is empty.

## Main definitions

* `Chains`: The table and the links are those of given chains.
* `rehashChain`, `rehash`: Moving the cells of a chain and of a table.
* `Tailed`: The pointers and the links are those of a list with a last cell.

## Theorems

* `Chains.push`, `Chains.unlink`: Putting a cell in and taking one out.
* `rehash_spec`: The new table has the same cells.
* `Tailed.pop`, `Tailed.push`: Taking the first cell and putting one at the end.
* `Tailed.of_threaded`, `Tailed.threaded`: Lists that also end in a null link.
-/

namespace Sol7

open List Function

variable {ι : Type*}

/-- The table and the links are those of given chains, and every cell is in the
    bucket that its hash selects. -/
structure Chains (table : Nat → Option ι) (next : ι → Option ι) (f : ι → Nat)
    (hs : Nat → List ι) : Prop where
  fwd : ∀ i, Threaded (links (table i) next) (hs i)
  nodup : ∀ i, (hs i).Nodup
  home : ∀ i, ∀ x ∈ hs i, f x = i

variable {next next' : ι → Option ι} {f : ι → Nat} {hs : Nat → List ι} {x y : ι}

namespace Chains

variable {table : Nat → Option ι} {a b : List ι} {i : Nat}

/-- Only the links of the cells matter. -/
theorem congr (h : Chains table next f hs) (heq : ∀ i, ∀ x ∈ hs i, next' x = next x) :
    Chains table next' f hs :=
  ⟨fun i => (h.fwd i).congr rfl fun x hx => congrArg some (heq i x hx), h.nodup, h.home⟩

/-- Only the hashes of the cells matter. -/
theorem congr_hash {f' : ι → Nat} (h : Chains table next f hs) (heq : ∀ i, ∀ x ∈ hs i, f' x = f x) :
    Chains table next f' hs :=
  ⟨h.fwd, h.nodup, fun i x hx => (heq i x hx).trans (h.home i x hx)⟩

/-- A table without cells. -/
theorem nil (next : ι → Option ι) (f : ι → Nat) : Chains (fun _ => none) next f fun _ => [] :=
  ⟨fun _ => threaded_nil rfl, fun _ => nodup_nil, by simp⟩

variable [DecidableEq ι]

/-- A cell is put at the front of its chain. -/
theorem push (h : Chains table next f hs) (hx : x ∉ hs (f x)) :
    Chains (update table (f x) (some x)) (update next x (table (f x))) f
      (update hs (f x) (x :: hs (f x))) := by
  have hne : ∀ i, ∀ y ∈ hs i, y ≠ x := by
    rintro i y hy rfl
    exact hx (h.home i y hy ▸ hy)
  refine ⟨fun i => ?_, fun i => ?_, fun i y hy => ?_⟩
  · by_cases hi : i = f x
    · subst hi
      rw [update_self, update_self, (h.fwd (f x)).head_links]
      exact (h.fwd (f x)).insert_front (h.nodup _) hx
    · rw [update_of_ne hi, update_of_ne hi]
      refine (h.fwd i).congr rfl fun y hy => congrArg some ?_
      exact update_of_ne (hne i y hy) ..
  · rw [update_apply]
    split
    · exact nodup_cons.mpr ⟨hx, h.nodup _⟩
    · exact h.nodup i
  · by_cases hi : i = f x
    · subst hi
      rw [update_self] at hy
      rcases mem_cons.mp hy with rfl | hy
      · rfl
      · exact h.home _ y hy
    · rw [update_of_ne hi] at hy
      exact h.home i y hy

/-- A cell is taken out of its chain, where the link to it is. -/
theorem unlink (h : Chains table next f hs) (hl : hs i = a ++ x :: b) :
    Chains (update table i (setLink a.getLast? (next x) (table i) next).1)
      (setLink a.getLast? (next x) (table i) next).2 f (update hs i (a ++ b)) := by
  have hfwd := h.fwd i
  have hnd := h.nodup i
  rw [hl] at hfwd hnd
  -- The link that changes belongs to a cell of this chain.
  have hframe : ∀ j, j ≠ i → ∀ y ∈ hs j, (setLink a.getLast? (next x) (table i) next).2 y = next y := by
    intro j hj y hy
    rcases hlast : a.getLast? with _ | c
    · rfl
    · refine update_of_ne ?_ _ _
      rintro rfl
      have hmem : y ∈ hs i := hl ▸ mem_append_left _ (mem_of_getLast? hlast)
      exact hj ((h.home j y hy).symm.trans (h.home i y hmem))
  refine ⟨fun j => ?_, fun j => ?_, fun j y hy => ?_⟩
  · by_cases hj : j = i
    · subst hj
      rw [update_self, update_self, links_setLink]
      exact hfwd.remove hnd
    · rw [update_of_ne hj, update_of_ne hj]
      exact (h.fwd j).congr rfl fun y hy => congrArg some (hframe j hj y hy)
  · rw [update_apply]
    split
    · exact (nodup_cons.mp (nodup_middle.mp hnd)).2
    · exact h.nodup j
  · by_cases hj : j = i
    · subst hj
      rw [update_self] at hy
      refine h.home j y (hl ▸ ?_)
      simp only [mem_append, mem_cons] at hy ⊢
      tauto
    · rw [update_of_ne hj] at hy
      exact h.home j y hy

end Chains

/-! ### Moving the cells to another table -/

section
variable [DecidableEq ι]

/-- Move the cells of a chain to the front of their new chains. -/
def rehashChain (f : ι → Nat) :
    Nat → (Nat → Option ι) × (ι → Option ι) → Option ι → Option ((Nat → Option ι) × (ι → Option ι))
  | 0, _, _ => none
  | _ + 1, t, none => some t
  | n + 1, t, some c =>
    rehashChain f n (update t.1 (f c) (some c), update t.2 c (t.1 (f c))) (t.2 c)

/-- Move the cells of the first chains of a table. -/
def rehash (f : ι → Nat) (fuel : Nat) (old : Nat → Option ι) :
    Nat → (Nat → Option ι) × (ι → Option ι) → Option ((Nat → Option ι) × (ι → Option ι))
  | 0, t => some t
  | n + 1, t => (rehash f fuel old n t).bind fun t => rehashChain f fuel t (old n)

variable {t : (Nat → Option ι) × (ι → Option ι)}

theorem rehashChain_spec {n : Nat} {start : Option ι} {c : List ι} (h : Chains t.1 t.2 f hs)
    (hc : Threaded (links start t.2) c) (hnd : c.Nodup) (hdisj : ∀ x ∈ c, x ∉ hs (f x))
    (hn : c.length < n) : ∃ t' hs', rehashChain f n t start = some t' ∧ Chains t'.1 t'.2 f hs' ∧
      (∀ x, x ∈ hs' (f x) ↔ x ∈ hs (f x) ∨ x ∈ c) ∧ ∀ x, x ∉ c → t'.2 x = t.2 x := by
  induction c generalizing n start t hs with
  | nil =>
    cases n with
    | zero => omega
    | succ n =>
      rw [hc.head_links]
      exact ⟨t, hs, rfl, h, by simp, fun _ _ => rfl⟩
  | cons e c ih =>
    cases n with
    | zero => omega
    | succ n =>
      rw [length_cons] at hn
      obtain ⟨he, hnd'⟩ := nodup_cons.mp hnd
      have hpush := h.push (hdisj e mem_cons_self)
      -- The rest of the old chain does not go through the cell that has been moved.
      have hrest : Threaded (links (t.2 e) (update t.2 e (t.1 (f e)))) c := by
        refine hc.tail_links.congr rfl fun x hx => congrArg some ?_
        exact update_of_ne (fun heq : x = e => he (heq ▸ hx)) _ _
      have hmem : ∀ x, x ∈ update hs (f e) (e :: hs (f e)) (f x) ↔ x ∈ hs (f x) ∨ x = e := by
        intro x
        by_cases hf : f x = f e
        · rw [hf, update_self, mem_cons, or_comm]
        · rw [update_of_ne hf]
          refine (or_iff_left ?_).symm
          rintro rfl
          exact hf rfl
      have hdisj' : ∀ x ∈ c, x ∉ update hs (f e) (e :: hs (f e)) (f x) := by
        intro x hx hx'
        rcases (hmem x).mp hx' with hx' | rfl
        · exact hdisj x (mem_cons_of_mem e hx) hx'
        · exact he hx
      have hlen : c.length < n := by omega
      rcases ih (t := (update t.1 (f e) (some e), update t.2 e (t.1 (f e)))) hpush
        hrest hnd' hdisj' hlen with ⟨t', hs', heq, hchains, hiff, hframe⟩
      refine ⟨t', hs', ?_, hchains, fun x => ?_, fun x hx => ?_⟩
      · rw [hc.head_links]
        exact heq
      · rw [hiff, hmem, mem_cons, or_assoc]
      · have hxe : x ≠ e := fun heq => hx (heq ▸ mem_cons_self)
        rw [hframe x fun hxc => hx (mem_cons_of_mem e hxc)]
        exact update_of_ne hxe ..

/-- The new table has the cells of the first chains of the old one. -/
theorem rehash_spec {g : ι → Nat} {fuel n : Nat} {old : Nat → Option ι} {next : ι → Option ι}
    {os : Nat → List ι} (h : Chains old next g os) (hfuel : ∀ i, (os i).length < fuel) :
    ∃ t hs', rehash f fuel old n (fun _ => none, next) = some t ∧ Chains t.1 t.2 f hs' ∧
      (∀ x, x ∈ hs' (f x) ↔ x ∈ os (g x) ∧ g x < n) ∧
      ∀ x, ¬(x ∈ os (g x) ∧ g x < n) → t.2 x = next x := by
  induction n with
  | zero => exact ⟨_, fun _ => [], rfl, Chains.nil next f, by simp, fun _ _ => rfl⟩
  | succ n ih =>
    obtain ⟨t, hs', heq, hchains, hiff, hframe⟩ := ih
    have hhome : ∀ x ∈ os n, g x = n := h.home n
    have hchain : Threaded (links (old n) t.2) (os n) := by
      refine (h.fwd n).congr rfl fun x hx => congrArg some (hframe x fun hlt => ?_)
      rw [hhome x hx] at hlt
      exact lt_irrefl n hlt.2
    have hdisj : ∀ x ∈ os n, x ∉ hs' (f x) := by
      intro x hx hx'
      have hlt := ((hiff x).mp hx').2
      rw [hhome x hx] at hlt
      exact lt_irrefl n hlt
    obtain ⟨t', hs'', heq', hchains', hiff', hframe'⟩ :=
        rehashChain_spec hchains hchain (h.nodup n) hdisj (hfuel n)
    have hstep : ∀ x, x ∈ os (g x) ∧ g x < n + 1 ↔ (x ∈ os (g x) ∧ g x < n) ∨ x ∈ os n := by
      intro x
      constructor
      · rintro ⟨hx, hlt⟩
        rcases Nat.lt_succ_iff_lt_or_eq.mp hlt with hlt | hgx
        · exact .inl ⟨hx, hlt⟩
        · exact .inr (hgx ▸ hx)
      · rintro (⟨hx, hlt⟩ | hx)
        · exact ⟨hx, by omega⟩
        · rw [hhome x hx]
          exact ⟨hx, by omega⟩
    refine ⟨t', hs'', ?_, hchains', fun x => ?_, fun x hx => ?_⟩
    · rw [rehash, heq]
      exact heq'
    · rw [hiff', hiff, hstep]
    · rw [hstep, not_or] at hx
      rw [hframe' x hx.2, hframe x hx.1]

end

/-! ### Lists with a last cell -/

/-- The pointers and the links are those of a list with a last cell. -/
structure Tailed (head tail : Option ι) (next : ι → Option ι) (l : List ι) : Prop where
  nodup : l.Nodup
  tail : tail = l.getLast?
  head : l ≠ [] → head = l.head?
  links : ∀ a x y b, l = a ++ x :: y :: b → next x = some y

namespace Tailed

variable {head tail v : Option ι} {l : List ι} {t : ι}

theorem congr (h : Tailed head tail next l) (heq : ∀ x ∈ l, next' x = next x) :
    Tailed head tail next' l := by
  refine ⟨h.nodup, h.tail, h.head, fun a x y b hl => ?_⟩
  rw [heq x (by simp [hl])]
  exact h.links a x y b hl

theorem singleton (next : ι → Option ι) (x : ι) : Tailed (some x) (some x) next [x] := by
  refine ⟨nodup_singleton x, rfl, fun _ => rfl, fun a y z b hl => ?_⟩
  have hlen := congrArg List.length hl
  simp only [length_append, length_cons, length_nil] at hlen
  omega

/-- A list without cells. The pointer to the first one does not matter. -/
theorem nil (head : Option ι) (next : ι → Option ι) : Tailed head none next [] :=
  ⟨nodup_nil, rfl, by simp, by simp⟩

/-- The first cell is taken, and its link changes. -/
theorem pop (h : Tailed head tail next (x :: l)) (hnext : ∀ y ∈ l, next' y = next y) (hl : l ≠ []) :
    Tailed (next x) tail next' l := by
  refine ⟨(nodup_cons.mp h.nodup).2, ?_, fun _ => ?_, fun a y z b heq => ?_⟩
  · rw [h.tail, getLast?_cons_of_ne_nil hl]
  · obtain ⟨y, b, rfl⟩ := exists_cons_of_ne_nil hl
    exact h.links [] x y b rfl
  · rw [hnext y (by simp [heq])]
    exact h.links (x :: a) y z b (by rw [heq]; rfl)

/-- A list that ends in a null link, with a pointer to its last cell. -/
theorem of_threaded (h : Threaded (Sol7.links head next) l) (hnd : l.Nodup) :
    Tailed head l.getLast? next l := by
  refine ⟨hnd, rfl, fun _ => h.head_links, fun a x y b hl => ?_⟩
  subst hl
  have hcell := h.cell
  exact Option.some.inj hcell

variable [DecidableEq ι]

/-- With a null link in the last cell the list ends there. -/
theorem threaded (h : Tailed head (some t) next l) :
    Threaded (Sol7.links head (update next t none)) l := by
  obtain ⟨l, rfl⟩ := getLast?_eq_some_iff.mp h.tail.symm
  have ht : t ∉ l := fun hmem =>
    (nodup_append.mp h.nodup).2.2 t hmem t (mem_singleton_self t) rfl
  refine Threaded.of_cells (congrArg some (h.head (by simp))) fun a x b hl => congrArg some ?_
  rcases eq_nil_or_concat' b with rfl | ⟨b, e, rfl⟩
  · -- The last cell.
    obtain ⟨-, htx⟩ := append_inj' hl rfl
    obtain rfl : t = x := by simpa using htx
    exact update_self ..
  · have hsplit : l ++ [t] = (a ++ x :: b) ++ [e] := by rw [hl]; simp
    obtain ⟨rfl, -⟩ := append_inj' hsplit rfl
    have hxt : x ≠ t := fun heq => ht (by simp [← heq])
    rw [Option.elim_some, update_of_ne hxt]
    cases b with
    | nil => exact h.links a x e [] hl
    | cons d b => exact h.links a x d (b ++ [e]) hl

/-- A cell is put behind the last one. -/
theorem push (h : Tailed head (some t) next l) (hx : x ∉ l) :
    Tailed head (some x) (update next t (some x)) (l ++ [x]) := by
  obtain ⟨l, rfl⟩ := getLast?_eq_some_iff.mp h.tail.symm
  refine ⟨?_, getLast?_concat.symm, fun _ => ?_, fun a y z b heq => ?_⟩
  · rw [nodup_append]
    refine ⟨h.nodup, nodup_singleton x, fun y hy w hw => ?_⟩
    obtain rfl := mem_singleton.mp hw
    exact fun heq => hx (heq ▸ hy)
  · rw [h.head (by simp)]
    cases l with
    | nil => rfl
    | cons c l => rfl
  · rcases eq_nil_or_concat' b with rfl | ⟨b, w, rfl⟩
    · -- The last two cells.
      have hsplit : l ++ [t] ++ [x] = a ++ [y] ++ [z] := by rw [heq]; simp
      obtain ⟨hl, hxz⟩ := append_inj' hsplit rfl
      obtain rfl : x = z := by simpa using hxz
      obtain ⟨-, hty⟩ := append_inj' hl rfl
      obtain rfl : t = y := by simpa using hty
      exact update_self ..
    · have hsplit : l ++ [t] ++ [x] = (a ++ y :: z :: b) ++ [w] := by rw [heq]; simp
      obtain ⟨hl, -⟩ := append_inj' hsplit rfl
      have hyt : y ≠ t := by
        rintro rfl
        have hnd := h.nodup
        have hlast : (a ++ y :: z :: b).getLast? = some y := by rw [← hl, getLast?_concat]
        rw [getLast?_append_of_ne_nil _ (by simp)]
          at hlast
        rw [hl] at hnd
        exact (nodup_cons.mp (nodup_append.mp hnd).2.1).1 (mem_of_getLast? hlast)
      rw [update_of_ne hyt]
      exact h.links a y z b hl

end Tailed

end Sol7
