import Sol7.Lib.SkipList
import Sol7.Vm.Plain

/-!
# The Linked List of Segments

While an address space has few segments they are in a doubly linked list. A
search begins at the segment that was found last, at the first or at the last
one, and goes forward or in reverse, whichever is likely to be shorter. All of
these find the same segment.

## Main definitions

* `ListRep`: A linked list of the given segments.

## Theorems

* `asForward_spec`, `asReverse_spec`: The two loops of a search.
* `asFindsegList_spec`: A search.
* `asAddsegList_spec`, `asRemovesegList_spec`: Adding and removing a segment.
-/

namespace Sol7.Vm

open List Option Function

/-- The address space has a linked list of the given segments. The last
    segment found may be any one of them. -/
structure ListRep (s : As) (l : List Seg) : Prop where
  lrep : s.lrep = .linkedlist
  order : InOrder l
  forward : Threaded (links s.list s.next) l
  back : Threaded (links s.tail s.prev) l.reverse
  seglast : ∀ seg ∈ s.seglast, seg ∈ l
  nsegs : s.nsegs = l.length
  hilevel : s.hilevel = 0

section
variable {s : As} {l a b x : List Seg} {c t z : Seg} {addr : Nat}

/-- Going forward from a segment ends at the first one that ends after the
    address. -/
theorem asForward_spec {fuel : Nat} (h : Threaded (links s.list s.next) (a ++ x ++ t :: b))
    (hx : ∀ e ∈ x, e.stop ≤ addr) (ht : addr < t.stop) (hfuel : x.length < fuel)
    (hc : (x ++ t :: b).head? = some c) : asForward s addr fuel c = some t := by
  -- The segments that are still to be passed.
  induction x generalizing a c fuel with
  | nil =>
    cases hc
    cases fuel with
    | zero => omega
    | succ fuel => rw [asForward, if_neg (by omega)]
  | cons e x ih =>
    cases hc
    cases fuel with
    | zero => cases hfuel
    | succ fuel =>
      rw [asForward, if_pos (hx e mem_cons_self)]
      have hnext : links s.list s.next (some e) = some (x ++ t :: b).head? := by
        refine Threaded.cell (a := a) ?_
        simpa using h
      have hnext' : s.next e = (x ++ t :: b).head? := some.inj hnext
      rcases hd : (x ++ t :: b).head? with _ | d
      · simp at hd
      rw [hnext', hd, bind_some]
      refine ih (a := a ++ [e]) (by simpa using h) ?_ ?_ hd
      · exact (forall_mem_cons.mp hx).2
      · rw [length_cons] at hfuel
        omega

/-- Going in reverse from a segment ends at the last one that begins at or
    before the address. -/
theorem asReverse_spec {fuel : Nat} {p : Option Seg}
    (h : Threaded (links s.tail s.prev) (a ++ z :: x ++ b).reverse) (hz : z.base ≤ addr)
    (hx : ∀ e ∈ x, addr < e.base) (hfuel : x.length < fuel) (hc : (a ++ z :: x).getLast? = some c) :
    asReverse s addr fuel c p = some (z, x.head?.or p) := by
  induction x using List.reverseRecOn generalizing b c fuel p with
  | nil =>
    rw [getLast?_concat] at hc
    cases hc
    cases fuel with
    | zero => omega
    | succ fuel => rw [asReverse, if_neg (by omega), head?_nil, none_or]
  | append_singleton x e ih =>
    rw [← cons_append, ← append_assoc, getLast?_concat] at hc
    cases hc
    cases fuel with
    | zero => omega
    | succ fuel =>
      rw [asReverse, if_pos (hx e (by simp))]
      have hsplit : a ++ z :: (x ++ [e]) ++ b = (a ++ z :: x) ++ (e :: b) := by simp
      rw [hsplit] at h
      have hprev : s.prev e = (a ++ z :: x).getLast? := some.inj h.back
      rcases hd : (a ++ z :: x).getLast? with _ | d
      · simp at hd
      rw [hprev, hd, bind_some]
      rw [ih h (fun y hy => hx y (mem_append_left _ hy)) (by simp at hfuel; omega) hd]
      cases x with
      | nil => rfl
      | cons y x => rfl

variable {tail : Bool}

/-- The segment that is found, with what is known before and after it. -/
theorem plainFind_eq (h : InOrder (a ++ t :: b)) (ha : ∀ y ∈ a, y.stop ≤ addr) (ht : addr < t.stop)
     : plainFind (a ++ t :: b) addr tail = some t := by
  have hcut : Cut addr a (t :: b) :=
    h.cut (fun y hy => ha y (mem_of_getLast? hy)) (by simpa using ht)
  rw [hcut.find, head?_cons, some_or]

/-- A search finds what a plain search does and may change the cache. -/
def Finds (s : As) (l : List Seg) (addr : Nat) (tail : Bool) (r : Option (As × Option Seg)) :
    Prop :=
  ∃ seglast, r = some ({ s with seglast := seglast }, plainFind l addr tail) ∧
    ∀ seg ∈ seglast, seg ∈ l

theorem ListRep.finds (h : ListRep s l) {f : Option Seg} (hf : plainFind l addr tail = f) :
    Finds s l addr tail (some (s, f)) :=
  ⟨s.seglast, by rw [hf], h.seglast⟩

/-- A search forward, from a segment before which all end at or before the
    address. -/
theorem asFindForward_spec (h : ListRep s (a ++ x ++ t :: b)) (hx : ∀ e ∈ x, e.stop ≤ addr)
    (ht : addr < t.stop) (ha : ∀ e ∈ a, e.stop ≤ addr) (hc : (x ++ t :: b).head? = some c) :
    Finds s (a ++ x ++ t :: b) addr tail (asFindForward s addr c) := by
  unfold asFindForward
  have hlen : x.length < s.nsegs + 1 := by
    rw [h.nsegs]
    simp only [length_append]
    omega
  rw [asForward_spec h.forward hx ht hlen hc, map_some]
  have hfind : plainFind (a ++ x ++ t :: b) addr tail = some t :=
    plainFind_eq h.order (forall_mem_append.mpr ⟨ha, hx⟩) ht
  split
  · refine ⟨some t, by rw [hfind], fun y hy => ?_⟩
    cases hy
    simp
  · exact h.finds hfind

/-- A search in reverse, from a segment that ends after the address. -/
theorem asFindReverse_spec (h : ListRep s (a ++ z :: x ++ b)) (hz : z.base ≤ addr)
    (hx : ∀ e ∈ x, addr < e.base) (hc : (a ++ z :: x).getLast? = some c) (hstop : addr < c.stop) :
    Finds s (a ++ z :: x ++ b) addr tail (asFindReverse s addr c) := by
  unfold asFindReverse
  have hlen : x.length < s.nsegs + 1 := by
    rw [h.nsegs]
    simp only [length_append, length_cons]
    omega
  rw [asReverse_spec h.back hz hx hlen hc, bind_some]
  dsimp only
  have hord := h.order
  -- What is before `z` ends before `z` begins.
  have ha : ∀ y ∈ a, y.stop ≤ addr := by
    intro y hy
    rw [append_assoc] at hord
    have := (inOrder_append.mp hord).2.2 y hy z (by simp)
    omega
  split
  · next hlt =>
    have hfind : plainFind (a ++ z :: x ++ b) addr tail = some z := by
      rw [append_assoc] at hord ⊢
      exact plainFind_eq hord ha hlt
    refine ⟨some z, by rw [hfind], fun y hy => ?_⟩
    cases hy
    simp
  · next hge =>
    cases x with
    | nil =>
      rw [getLast?_concat] at hc
      cases hc
      omega
    | cons y x =>
      have hfind : plainFind (a ++ z :: (y :: x) ++ b) addr tail = some y := by
        have hsplit : a ++ z :: (y :: x) ++ b = (a ++ [z]) ++ y :: (x ++ b) := by simp
        rw [hsplit] at hord ⊢
        have hz : z.stop ≤ addr := by omega
        refine plainFind_eq hord (forall_mem_append.mpr ⟨ha, forall_mem_singleton.mpr hz⟩) ?_
        have := hx y mem_cons_self
        have := y.base_lt_stop
        omega
      exact h.finds hfind

/-- The segments up to one that begins at or before an address, split at the
    last one that does. -/
theorem exists_last_le (l : List Seg) (h : ∃ e ∈ l.head?, e.base ≤ addr) (hord : InOrder l) :
    ∃ a z x, l = a ++ z :: x ∧ z.base ≤ addr ∧ ∀ e ∈ x, addr < e.base := by
  induction l using List.reverseRecOn with
  | nil =>
    obtain ⟨e, he, -⟩ := h
    cases he
  | append_singleton l e ih =>
    by_cases he : e.base ≤ addr
    · exact ⟨l, e, [], rfl, he, by simp⟩
    cases l with
    | nil =>
      obtain ⟨d, hd, hle⟩ := h
      cases hd
      exact absurd hle he
    | cons d l =>
      obtain ⟨a, z, x, hl, hz, hx⟩ := ih h (inOrder_append.mp hord).1
      refine ⟨a, z, x ++ [e], ?_, hz, forall_mem_append.mpr ⟨hx, by simpa using he⟩⟩
      rw [hl, append_assoc, cons_append]

/-- A search in reverse from any segment that ends after the address, if the
    first one does not begin after it. -/
theorem ListRep.reverse (h : ListRep s (a ++ c :: b)) (hstop : addr < c.stop)
    (hlo : ∃ e ∈ s.list, e.base ≤ addr) :
    Finds s (a ++ c :: b) addr tail (asFindReverse s addr c) := by
  have hlist : s.list = (a ++ [c]).head? := by
    have := some.inj h.forward.head
    rw [elim_none] at this
    rw [this]
    cases a <;> rfl
  have hsplit : a ++ c :: b = (a ++ [c]) ++ b := by simp
  rw [hsplit] at h ⊢
  have hord := (inOrder_append.mp h.order).1
  rw [hlist] at hlo
  obtain ⟨a', z, x, hl, hz, hx⟩ := exists_last_le _ hlo hord
  have hlast : (a' ++ z :: x).getLast? = some c := by rw [← hl, getLast?_concat]
  rw [hl] at h ⊢
  exact asFindReverse_spec h hz hx hlast hstop

/-- A search forward from any segment, if none before it ends after the
    address but a later one does. -/
theorem ListRep.search_forward (h : ListRep s (a ++ b)) (hc : b.head? = some c)
    (ha : ∀ e ∈ a, e.stop ≤ addr) (hb : ∃ e ∈ b, addr < e.stop) :
    Finds s (a ++ b) addr tail (asFindForward s addr c) := by
  obtain ⟨x, y, rfl, hcut⟩ := (inOrder_append.mp h.order).2.1.exists_cut addr
  cases y with
  | nil =>
    obtain ⟨e, he, hlt⟩ := hb
    rw [append_nil] at he
    have := hcut.before e he
    omega
  | cons t y =>
    rw [← append_assoc] at h ⊢
    exact asFindForward_spec h hcut.before (hcut.after t mem_cons_self) ha hc

theorem ListRep.list_eq (h : ListRep s l) : s.list = l.head? := some.inj h.forward.head

theorem ListRep.tail_eq (h : ListRep s l) : s.tail = l.getLast? := by
  have := some.inj h.back.head
  rwa [head?_reverse] at this

theorem ListRep.next_eq (h : ListRep s (a ++ c :: b)) : s.next c = b.head? :=
  some.inj h.forward.cell

theorem ListRep.prev_eq (h : ListRep s (a ++ c :: b)) : s.prev c = a.getLast? :=
  some.inj h.back.back

/-- A search of the linked list. -/
theorem asFindsegList_spec (h : ListRep s l) (addr : Nat) (tail : Bool) :
    Finds s l addr tail (asFindsegList s addr tail) := by
  unfold asFindsegList
  have hlist := h.list_eq
  cases l with
  | nil =>
    rw [hlist]
    exact h.finds (by cases tail <;> rfl)
  | cons loseg l' =>
    rw [hlist]
    dsimp only [head?_cons]
    -- The search begins at some segment of the list.
    have hseg : s.seglast.getD loseg ∈ loseg :: l' := by
      rcases hl : s.seglast with _ | seg
      · exact mem_cons_self
      · exact h.seglast seg hl
    generalize s.seglast.getD loseg = seg at *
    obtain ⟨a, b, hl⟩ := append_of_mem hseg
    have hlo : ∀ {a b seg}, loseg :: l' = a ++ seg :: b → loseg.base ≤ seg.base := by
      intro a b seg hl
      cases a with
      | nil => rw [(cons.inj hl).1]
      | cons d a =>
        have hord := h.order
        rw [hl] at hord
        have := (inOrder_append.mp hord).2.2 d mem_cons_self seg mem_cons_self
        have := d.base_lt_stop
        rw [(cons.inj hl).1]
        omega
    have hhead : ∀ e, loseg.base ≤ e → ∃ d ∈ s.list, d.base ≤ e := fun e he => ⟨loseg, hlist, he⟩
    have hle := hlo hl
    rw [hl] at h ⊢
    have hord := h.order
    split
    · next hbase =>
      have ha : ∀ y ∈ a, y.stop ≤ addr := fun y hy => by
        have := (inOrder_append.mp hord).2.2 y hy seg mem_cons_self
        omega
      split
      · next hstop => exact h.finds (plainFind_eq hord ha hstop)
      next hstop =>
      -- The address is after the segment.
      have htail := h.tail_eq
      rcases eq_nil_or_concat' (seg :: b) with hnil | ⟨b', hiseg, hb⟩
      · cases hnil
      have hlast : (a ++ seg :: b).getLast? = some hiseg := by
        rw [hb, ← append_assoc, getLast?_concat]
      rw [htail, hlast, bind_some]
      split
      · next hout =>
        refine h.finds ?_
        have hcut : Cut addr (a ++ seg :: b) [] := by
          refine InOrder.cut (by rwa [append_nil]) (fun y hy => ?_) (by simp)
          rw [hlast] at hy
          cases hy
          exact hout
        have hfind : plainFind (a ++ seg :: b ++ []) addr tail = _ := hcut.find
        rw [append_nil] at hfind
        rw [hfind, head?_nil, none_or, hlast]
      · next hout =>
        split
        · have hsplit : a ++ seg :: b = (a ++ b') ++ hiseg :: [] := by rw [hb, append_assoc]
          rw [hsplit] at h ⊢
          exact h.reverse (by omega) (hhead _ (by omega))
        have hsplit : a ++ seg :: b = (a ++ [seg]) ++ b := by simp
        have hnext := h.next_eq
        cases b with
        | nil =>
          rw [getLast?_concat] at hlast
          cases hlast
          omega
        | cons d b =>
          rw [hnext, head?_cons, bind_some]
          rw [hsplit] at h ⊢
          have hall := forall_mem_append.mpr ⟨ha, forall_mem_singleton.mpr (not_lt.mp hstop)⟩
          refine h.search_forward rfl hall ⟨hiseg, ?_, by omega⟩
          have hmem : hiseg ∈ seg :: d :: b := by rw [hb]; simp
          refine (mem_cons.mp hmem).resolve_left fun heq => ?_
          rw [heq] at hout
          omega
    · next hbase =>
      split
      · next hlow =>
        rw [← hl] at h ⊢
        refine h.finds (plainFind_eq (a := []) h.order (by simp) ?_)
        have := loseg.base_lt_stop
        omega
      · split
        · rw [← hl] at h ⊢
          refine h.search_forward (a := []) rfl (by simp) ⟨seg, by rw [hl]; simp, ?_⟩
          have := seg.base_lt_stop
          omega
        · refine h.reverse ?_ (hhead _ (by omega))
          have := seg.base_lt_stop
          omega

end

variable {s : As} {l a b : List Seg} {seg t : Seg}

/-- Only the cache changes. -/
theorem ListRep.cache (h : ListRep s l) {seglast : Option Seg} (hc : ∀ seg ∈ seglast, seg ∈ l) :
    ListRep { s with seglast := seglast } l :=
  { h with seglast := hc }

/-- Adding a segment to the linked list. -/
theorem asAddsegList_spec (h : ListRep s l) (newseg : Seg) :
    ∃ s', asAddsegList s newseg = some (s', (plainAdd l newseg).2) ∧
      ListRep s' (plainAdd l newseg).1 := by
  obtain ⟨seglast, hfind, hmem⟩ := asFindsegList_spec h newseg.base true
  obtain ⟨a, b, rfl, hcut⟩ := h.order.exists_cut newseg.base
  rw [hcut.find, if_pos rfl] at hfind
  unfold asAddsegList asFindseg
  rw [h.lrep]
  rw [hfind, bind_some]
  cases b with
  | nil =>
    obtain ⟨hadd, hord⟩ := hcut.add h.order (by simp)
    have hnd := hord.nodup
    have hc : newseg ∉ a := fun hm => (nodup_append.mp hnd).2.2 _ hm _ (by simp) rfl
    have hb := h.back
    have hf := h.forward
    have hlen := h.nsegs
    rw [append_nil] at hb hf hlen
    rcases eq_nil_or_concat' a with rfl | ⟨a', z, rfl⟩
    · -- The list is empty.
      rw [hadd]
      refine ⟨_, rfl, h.lrep, hord, hf.insert_front (by simp) (by simp),
        hb.back_concat (by simp) hc, ?_, congrArg (· + 1) hlen, h.hilevel⟩
      intro seg hseg
      cases hseg
      simp
    · -- The new segment is the last one.
      rw [hadd]
      have hz : z.stop ≤ newseg.base := hcut.before z (by simp)
      simp only [head?_nil, none_or, getLast?_concat, if_pos hz]
      have hforward := hf.insert_after (c := newseg) (nodup_append.mp hnd).1 hc
      have hback := hb.back_concat (nodup_append.mp hnd).1 hc
      rw [getLast?_concat] at hback
      refine ⟨_, rfl, h.lrep, hord, ?_, hback, ?_, ?_, h.hilevel⟩
      · simpa using hforward
      · intro seg hseg
        cases hseg
        simp
      · simp [hlen]
  | cons t b =>
    have ht := hcut.after t mem_cons_self
    have hpos := newseg.base_lt_stop
    simp only [head?_cons, some_or]
    rw [if_neg (not_le.mpr ht)]
    split
    · next hover =>
      rw [hcut.add_overlap (by omega)]
      exact ⟨_, rfl, h.cache hmem⟩
    next hover =>
    obtain ⟨hadd, hord⟩ := hcut.add h.order (fun x hx => by cases hx; omega)
    rw [hadd]
    have hnd := h.order.nodup
    have hc : newseg ∉ a ++ t :: b := by
      have := nodup_middle.mp hord.nodup
      exact (nodup_cons.mp this).1
    have hback := h.back.back_insert hnd hc
    have hlast : ∀ seg ∈ some newseg, seg ∈ a ++ newseg :: t :: b := by
      intro seg hseg
      cases hseg
      simp
    have hlen : s.nsegs + 1 = (a ++ newseg :: t :: b).length := by
      rw [h.nsegs]
      simp only [length_append, length_cons]
      omega
    rcases eq_nil_or_concat' a with rfl | ⟨a', p, rfl⟩
    · -- It becomes the first one.
      rw [if_pos (by exact h.list_eq)]
      exact ⟨_, rfl, h.lrep, hord, h.forward.insert_front hnd hc, hback, hlast, hlen, h.hilevel⟩
    have hne : s.list ≠ some t := by
      rw [h.list_eq]
      intro heq
      have hmem : t ∈ a' ++ [p] := by
        refine mem_of_mem_head? ?_
        cases a' <;> simpa using heq
      exact (nodup_append.mp hnd).2.2 t hmem t mem_cons_self rfl
    have hprev : s.prev t = some p := by rw [h.prev_eq, getLast?_concat]
    have htc : newseg ≠ t := fun heq => hc (by rw [heq]; simp)
    rw [if_neg (by exact hne), update_of_ne htc, update_self, hprev]
    have hf := h.forward
    have hsplit : ∀ d, a' ++ [p] ++ d = a' ++ p :: d := by simp
    rw [hsplit] at hf hnd hc
    refine ⟨_, rfl, h.lrep, hord, ?_, ?_, hlast, hlen, h.hilevel⟩
    · rw [hsplit]
      exact hf.insert_after hnd hc
    · rw [hprev] at hback
      exact hback

/-- Removing a segment from the linked list. -/
theorem asRemovesegList_spec (h : ListRep s l) (addr : Nat) :
    ∃ s', asRemovesegList s addr = some (s', (plainRemove l addr).2) ∧
      ListRep s' (plainRemove l addr).1 := by
  obtain ⟨seglast, hfind, hmem⟩ := asFindsegList_spec h addr false
  obtain ⟨a, b, rfl, hcut⟩ := h.order.exists_cut addr
  rw [hcut.find, if_neg (by simp), or_none] at hfind
  unfold asRemovesegList asFindseg
  rw [h.lrep]
  rw [hfind, bind_some]
  cases b with
  | nil =>
    rw [hcut.remove_none h.order (by simp)]
    exact ⟨_, rfl, h.cache hmem⟩
  | cons seg b =>
    dsimp only [head?_cons]
    split
    · next hne =>
      rw [hcut.remove_none h.order (fun x hx => by cases hx; exact hne)]
      exact ⟨_, rfl, h.cache hmem⟩
    next heq =>
    obtain rfl : seg.base = addr := not_not.mp heq
    rw [hcut.remove h.order]
    have hnd := h.order.nodup
    have hord := h.order.remove
    have hlen : s.nsegs - 1 = (a ++ b).length := by
      rw [h.nsegs]
      simp only [length_append, length_cons]
      omega
    have hlast : ∀ t ∈ s.next seg, t ∈ a ++ b := by
      rw [h.next_eq]
      exact fun t ht => mem_append_right _ (mem_of_mem_head? ht)
    have hne : ∀ t ∈ a ++ b, t ≠ seg := by
      intro t ht heq
      rw [nodup_middle, nodup_cons] at hnd
      exact hnd.1 (heq ▸ ht)
    -- The link after the segment is moved to the one before it.
    have hback : ∃ tail prev, (if some seg = s.tail then
        some { s with seglast := seglast, tail := s.prev seg }
        else (s.next seg).map fun n =>
          { s with seglast := seglast, prev := update s.prev n (s.prev seg) }) =
        some { s with seglast := seglast, tail := tail, prev := prev } ∧
        Threaded (links tail prev) (a ++ b).reverse ∧ prev seg = a.getLast? := by
      have hb := h.back
      cases b with
      | nil =>
        rw [if_pos (by rw [h.tail_eq, getLast?_concat])]
        refine ⟨_, _, rfl, ?_, h.prev_eq⟩
        rw [append_nil]
        exact hb.back_dropLast hnd
      | cons t b =>
        have htail : some seg ≠ s.tail := by
          rw [h.tail_eq, show a ++ seg :: t :: b = (a ++ [seg]) ++ t :: b by simp,
            getLast?_append_of_ne_nil _ (by simp)]
          intro heq
          exact hne seg (mem_append_right _ (mem_of_getLast? heq.symm)) rfl
        rw [if_neg htail, h.next_eq]
        refine ⟨_, _, rfl, hb.back_remove hnd, ?_⟩
        rw [update_of_ne (hne t (by simp)).symm, h.prev_eq]
    -- The link before it is moved to the one after it.
    have hforward : ∀ tail prev, prev seg = a.getLast? → ∃ list next, (if some seg = s.list then
        some { s with seglast := seglast, tail := tail, prev := prev, list := s.next seg }
        else (prev seg).map fun p =>
          { s with
            seglast := seglast
            tail := tail
            prev := prev
            next := update s.next p (s.next seg) }) = some { s with
          seglast := seglast
          tail := tail
          prev := prev
          list := list
          next := next } ∧ Threaded (links list next) (a ++ b) := by
      intro tail prev hprev
      have hf := h.forward
      rcases eq_nil_or_concat' a with rfl | ⟨a', p, rfl⟩
      · rw [if_pos (by rw [h.list_eq]; rfl)]
        exact ⟨_, _, rfl, hf.remove_front hnd⟩
      have hlist : some seg ≠ s.list := by
        rw [h.list_eq]
        intro heq
        refine hne seg (mem_append_left _ (mem_of_mem_head? ?_)) rfl
        cases a' <;> simpa using heq.symm
      rw [if_neg hlist, hprev, getLast?_concat]
      have hsplit : ∀ d, a' ++ [p] ++ d = a' ++ p :: d := by simp
      rw [hsplit] at hf hnd ⊢
      exact ⟨_, _, rfl, hf.remove_after hnd⟩
    obtain ⟨tail, prev, heq1, hb, hprev⟩ := hback
    obtain ⟨list, next, heq2, hf⟩ := hforward tail prev hprev
    rw [heq1, bind_some]
    rw [heq2]
    exact ⟨_, rfl, h.lrep, hord, hf, hb, hlast, hlen, h.hilevel⟩

end Sol7.Vm
