import Sol7.Vm.AsList
import Sol7.Vm.AsSkip

/-!
# The Calls Refine the Plain List

Whatever its representation and whatever is in its cache, an address space
gives the results of a plain list. The change from a linked list to a skip list
does not show, and it is made in one direction only.

## Main definitions

* `Rep`: An address space with the given segments, in either representation.
* `Call`, `Result`: The calls and what they return.
* `asRun`, `plainRun`: A sequence of calls on an address space and on a list.

## Theorems

* `asMutateSeglist_spec`: The change of representation keeps the segments.
* `asCall_refines`: One call gives the result of the plain list.
* `asIterate_spec`: A loop over all segments meets them in order.
* `segs_refine_plain`: Every sequence of calls does.
-/

namespace Sol7.Vm

open List Option

/-- The address space has the given segments. -/
def Rep (s : As) (l : List Seg) : Prop := ListRep s l ∨ SkipRep s l

/-- A call on an address space. Adding a segment comes with the random numbers
    that are drawn if the segments are in a skip list. -/
inductive Call
  | findseg (addr : Nat) (tail : Bool)
  | addseg (seg : Seg) (rand : Nat → Nat)
  | removeseg (addr : Nat)

/-- What a call returns. -/
inductive Result
  | found (seg : Option Seg)
  | added (ok : Bool)
  | removed (seg : Option Seg)
deriving DecidableEq

/-- A call on an address space. -/
def asCall (thresh : Nat) (kas : Bool) (s : As) : Call → Option (As × Result)
  | .findseg addr tail => (asFindseg s addr tail).map fun r => (r.1, .found r.2)
  | .addseg seg rand => (asAddseg thresh kas rand s seg).map fun r => (r.1, .added r.2)
  | .removeseg addr => (asRemoveseg s addr).map fun r => (r.1, .removed r.2)

/-- The same call on a plain list. -/
def plainCall (l : List Seg) : Call → List Seg × Result
  | .findseg addr tail => (l, .found (plainFind l addr tail))
  | .addseg seg _ => ((plainAdd l seg).1, .added (plainAdd l seg).2)
  | .removeseg addr => ((plainRemove l addr).1, .removed (plainRemove l addr).2)

/-- A sequence of calls and what they return. -/
def asRun (thresh : Nat) (kas : Bool) : As → List Call → Option (As × List Result)
  | s, [] => some (s, [])
  | s, c :: cs =>
    (asCall thresh kas s c).bind fun r =>
      (asRun thresh kas r.1 cs).map fun r' => (r'.1, r.2 :: r'.2)

/-- The same sequence on a plain list. -/
def plainRun : List Seg → List Call → List Seg × List Result
  | l, [] => (l, [])
  | l, c :: cs =>
    let r := plainCall l c
    let r' := plainRun r.1 cs
    (r'.1, r.2 :: r'.2)

section
variable {s : As} {l a b : List Seg}

/-- A segment before all others is added in front. -/
theorem plainAdd_front {c : Seg} (h : InOrder (c :: b)) : plainAdd b c = (c :: b, true) := by
  obtain ⟨hc, hb⟩ := inOrder_cons.mp h
  have hcut : Cut c.base [] b := by
    refine ⟨by simp, fun x hx => ?_⟩
    have := hc x hx
    have := c.base_lt_stop
    have := x.base_lt_stop
    omega
  exact (hcut.add hb fun x hx => hc x (mem_of_mem_head? hx)).1

/-- The segments that are not in the skip list yet are still linked back. -/
theorem asMutateLoop_spec (rand : Nat → Nat) {fuel j : Nat} (hrep : SkipRep s b)
    (hord : InOrder (a ++ b)) (hprev : ∀ x c y, a = x ++ c :: y → s.prev c = x.getLast?)
    (hfuel : a.length < fuel) :
    ∃ s' j', asMutateLoop rand fuel j s a.getLast? = some (s', j') ∧ SkipRep s' (a ++ b) := by
  induction a using List.reverseRecOn generalizing s b fuel j with
  | nil =>
    cases fuel with
    | zero => cases hfuel
    | succ fuel => exact ⟨s, j, rfl, hrep⟩
  | append_singleton a c ih =>
    cases fuel with
    | zero => cases hfuel
    | succ fuel =>
      rw [getLast?_concat, asMutateLoop]
      have hsplit : a ++ [c] ++ b = a ++ c :: b := by simp
      rw [hsplit] at hord ⊢
      obtain ⟨-, hcb, -⟩ := inOrder_append.mp hord
      obtain ⟨s', heq, hrep', hframe⟩ := sslInsert_spec hrep c (rand j)
      rw [plainAdd_front hcb] at hrep' heq
      rw [heq, hprev a c [] rfl]
      have hnd := hord.nodup
      refine ih hrep' hord (fun x d y hxy => ?_) (by simp at hfuel; omega)
      -- The links back of the others are those of the linked list.
      have hda : d ∈ a := by rw [hxy]; simp
      have hdc : d ∉ c :: b := fun hm => (nodup_append.mp hnd).2.2 d hda d hm rfl
      rw [mem_cons, not_or] at hdc
      rw [hframe d hdc.1 hdc.2]
      exact hprev x d (y ++ [c]) (by rw [hxy]; simp)

/-- The change of representation keeps the segments. -/
theorem asMutateSeglist_spec (h : ListRep s l) (rand : Nat → Nat) :
    ∃ s' j, asMutateSeglist s rand = some (s', j) ∧ SkipRep s' l := by
  unfold asMutateSeglist
  rw [h.tail_eq]
  have hempty : SkipRep
      { s with
        tail := none
        segs := fun _ ssl => if ssl = none then some none else none
        spath := fun _ => none
        lrep := .skiplist
        nsegs := 0 } [] := by
    refine ⟨fun _ => 0, rfl, .nil, ⟨fun i _ => ?_, fun i _ c hc => ?_⟩, ?_,
      fun c hc => ?_, ?_, rfl, .inl rfl⟩
    · exact threaded_nil rfl
    · cases hc
    · exact threaded_nil rfl
    · cases hc
    · rw [h.hilevel]
      decide
  have hlen : l.length < s.nsegs + 1 := by
    rw [h.nsegs]
    omega
  have hloop := asMutateLoop_spec (j := 0) rand hempty (by rw [append_nil]; exact h.order)
    (fun x c y hl => by subst hl; exact h.prev_eq) hlen
  rwa [append_nil] at hloop

end

variable {s : As} {l a b : List Seg}

/-- The threshold and the random numbers do not show in what is added. -/
theorem asAddseg_spec (h : Rep s l) (thresh : Nat) (kas : Bool) (rand : Nat → Nat) (seg : Seg) :
    ∃ s', asAddseg thresh kas rand s seg = some (s', (plainAdd l seg).2) ∧
      Rep s' (plainAdd l seg).1 ∧ (s.lrep = .skiplist → s'.lrep = .skiplist) := by
  -- Adding to a skip list leaves a skip list.
  have hskip : ∀ {s1 : As} (r : Nat), SkipRep s1 l →
      ∃ s', sslInsert s1 seg r = some (s', (plainAdd l seg).2) ∧
        Rep s' (plainAdd l seg).1 ∧ s'.lrep = .skiplist := by
    intro s1 r hrep
    obtain ⟨s', heq, hrep', -⟩ := sslInsert_spec hrep seg r
    refine ⟨s', heq, .inr hrep', ?_⟩
    obtain ⟨height, hok⟩ := hrep'
    exact hok.lrep
  unfold asAddseg
  rcases h with h | h
  · split
    · obtain ⟨s1, j, heq, hrep⟩ := asMutateSeglist_spec h rand
      obtain ⟨s', heq', hrep', hl⟩ := hskip (rand j) hrep
      have hlrep : s1.lrep = .skiplist := by
        obtain ⟨height, hok⟩ := hrep
        exact hok.lrep
      refine ⟨s', ?_, hrep', fun _ => hl⟩
      rw [heq, bind_some]
      rw [hlrep]
      exact heq'
    · obtain ⟨s', heq, hrep⟩ := asAddsegList_spec h seg
      refine ⟨s', ?_, .inl hrep, fun hl => ?_⟩
      · rw [bind_some]
        rw [h.lrep]
        exact heq
      · rw [h.lrep] at hl
        cases hl
  · have hlrep : s.lrep = .skiplist := by
      obtain ⟨height, hok⟩ := h
      exact hok.lrep
    rw [if_neg (by simp [hlrep]), bind_some]
    rw [hlrep]
    obtain ⟨s', heq, hrep, hl⟩ := hskip (rand 0) h
    exact ⟨s', heq, hrep, fun _ => hl⟩

theorem asFindseg_spec (h : Rep s l) (addr : Nat) (tail : Bool) :
    ∃ s', asFindseg s addr tail = some (s', plainFind l addr tail) ∧ Rep s' l ∧
      s'.lrep = s.lrep := by
  unfold asFindseg
  rcases h with h | ⟨height, h⟩
  · obtain ⟨seglast, heq, hmem⟩ := asFindsegList_spec h addr tail
    rw [h.lrep]
    exact ⟨_, heq, .inl (h.cache hmem), h.lrep⟩
  · obtain ⟨a, b, rfl, hcut⟩ := h.order.exists_cut addr
    have hsearch : Leads s height a b addr tail (sslSearch s addr tail) := sslSearch_spec h hcut
    obtain ⟨spath, heq, hp⟩ := hsearch
    rw [h.lrep]
    exact ⟨_, heq, .inr ⟨height, h.cache hp⟩, h.lrep⟩

theorem asRemoveseg_spec (h : Rep s l) (addr : Nat) :
    ∃ s', asRemoveseg s addr = some (s', (plainRemove l addr).2) ∧
      Rep s' (plainRemove l addr).1 ∧ s'.lrep = s.lrep := by
  unfold asRemoveseg
  rcases h with h | h
  · obtain ⟨s', heq, hrep⟩ := asRemovesegList_spec h addr
    rw [h.lrep]
    exact ⟨s', heq, .inl hrep, hrep.lrep⟩
  obtain ⟨s', heq, hrep⟩ := sslRemove_spec h addr
  obtain ⟨height, h⟩ := h
  rw [h.lrep]
  refine ⟨s', heq, .inr hrep, ?_⟩
  obtain ⟨height', hok⟩ := hrep
  exact hok.lrep

/-- One call gives the result of the plain list. -/
theorem asCall_refines (thresh : Nat) (kas : Bool) (h : Rep s l) (c : Call) :
    ∃ s', asCall thresh kas s c = some (s', (plainCall l c).2) ∧ Rep s' (plainCall l c).1 ∧
      (s.lrep = .skiplist → s'.lrep = .skiplist) := by
  cases c with
  | findseg addr tail =>
    obtain ⟨s', heq, hrep, hl⟩ := asFindseg_spec h addr tail
    exact ⟨s', by rw [asCall, heq]; rfl, hrep, hl.trans⟩
  | addseg seg rand =>
    obtain ⟨s', heq, hrep, hl⟩ := asAddseg_spec h thresh kas rand seg
    exact ⟨s', by rw [asCall, heq]; rfl, hrep, hl⟩
  | removeseg addr =>
    obtain ⟨s', heq, hrep, hl⟩ := asRemoveseg_spec h addr
    exact ⟨s', by rw [asCall, heq]; rfl, hrep, hl.trans⟩

theorem Rep.order (h : Rep s l) : InOrder l := by
  rcases h with h | ⟨height, h⟩
  · exact h.order
  · exact h.order

/-- In both representations the segments are threaded. -/
theorem Rep.threaded (h : Rep s l) : Threaded (asSegp s) l := by
  rcases h with h | ⟨height, h⟩
  · have hsegp : asSegp s = links s.list s.next := by
      funext n
      unfold asSegp
      rw [h.lrep]
      cases n <;> rfl
    rw [hsegp]
    exact h.forward
  · have hsegp : asSegp s = s.segs 0 := by
      funext n
      unfold asSegp
      rw [h.lrep]
    have hthread := h.layered.thread 0 (by decide)
    rwa [layer_zero, ← hsegp] at hthread

/-- A loop from a place on meets the segments after it. -/
theorem asIterate_from {fuel : Nat} (h : Threaded (asSegp s) (a ++ b)) (hfuel : b.length < fuel) :
    asIterate s fuel a.getLast? = some b := by
  induction b generalizing a fuel with
  | nil =>
    cases fuel with
    | zero => cases hfuel
    | succ fuel =>
      rw [asIterate, h a [] rfl]
      rfl
  | cons c b ih =>
    cases fuel with
    | zero => cases hfuel
    | succ fuel =>
      rw [asIterate, h a (c :: b) rfl]
      have hlen : b.length < fuel := by
        rw [length_cons] at hfuel
        omega
      have hrest := ih (a := a ++ [c]) (by simpa using h) hlen
      rw [getLast?_concat] at hrest
      rw [head?_cons, bind_some]
      dsimp only
      rw [hrest]
      rfl

/-- A loop over all segments meets them in order. -/
theorem asIterate_spec (h : Rep s l) : asIterate s (s.nsegs + 1) none = some l := by
  have hlen : s.nsegs = l.length := by
    rcases h with h | ⟨height, h⟩
    · exact h.nsegs
    · exact h.nsegs
  exact asIterate_from (a := []) h.threaded (by omega)

/-- A segment that contains the address is the one that is found. -/
theorem InOrder.find_containing {seg : Seg} {addr : Nat} (h : InOrder l) (hseg : seg ∈ l)
    (hbase : seg.base ≤ addr) (hstop : addr < seg.stop) (tail : Bool) :
    plainFind l addr tail = some seg := by
  obtain ⟨a, b, rfl⟩ := append_of_mem hseg
  refine plainFind_eq h (fun y hy => ?_) hstop
  have := (inOrder_append.mp h).2.2 y hy seg mem_cons_self
  omega

/-- A new address space has no segments. -/
theorem rep_asAlloc : Rep asAlloc [] := by
  refine .inl ⟨rfl, .nil, threaded_nil rfl, threaded_nil rfl, fun seg hseg => ?_,
    rfl, rfl⟩
  cases hseg

/-- From any address space, with any cache that fits its segments, every
    sequence of calls gives the results of the plain list. After it a loop
    meets the segments of the plain list, in order, a search finds the segment
    that contains the address if there is one, and a skip list is still one. -/
theorem segs_refine_plain (thresh : Nat) (kas : Bool) (h : Rep s l) (calls : List Call) :
    ∃ s', asRun thresh kas s calls = some (s', (plainRun l calls).2) ∧
      Rep s' (plainRun l calls).1 ∧
      InOrder (plainRun l calls).1 ∧
      asIterate s' (s'.nsegs + 1) none = some (plainRun l calls).1 ∧
      (∀ addr tail, ∀ seg ∈ (plainRun l calls).1, seg.base ≤ addr → addr < seg.stop →
        plainFind (plainRun l calls).1 addr tail = some seg) ∧
      (s.lrep = .skiplist → s'.lrep = .skiplist) := by
  induction calls generalizing s l with
  | nil =>
    refine ⟨s, rfl, h, h.order, asIterate_spec h, fun addr tail seg hseg hbase hstop => ?_, id⟩
    exact h.order.find_containing hseg hbase hstop tail
  | cons c cs ih =>
    obtain ⟨s1, heq, hrep, hl⟩ := asCall_refines thresh kas h c
    obtain ⟨s', heq', hrep', hord, hiter, hfind, hl'⟩ := ih hrep
    refine ⟨s', ?_, hrep', hord, hiter, hfind, fun hs => hl' (hl hs)⟩
    rw [asRun, heq, bind_some, heq']
    rfl

/-- Four segments, of which the last overlaps the second, with a list that
    becomes a skip list when the third is added. -/
def fourCalls : List Call :=
  [.addseg ⟨0, 40, 10, by decide⟩ fun _ => 0, .addseg ⟨1, 10, 10, by decide⟩ fun _ => 0,
   .findseg 45 false, .addseg ⟨2, 20, 20, by decide⟩ fun j => 4 ^ j,
   .addseg ⟨3, 15, 10, by decide⟩ fun _ => 1, .findseg 30 false, .removeseg 20, .findseg 30 false,
   .findseg 60 true]

theorem segs_refine_plain_four : Rep asAlloc [] ∧ ∃ s', asRun 2 false asAlloc fourCalls = some (s',
      [.added true, .added true, .found (some ⟨0, 40, 10, by decide⟩), .added true, .added false,
       .found (some ⟨2, 20, 20, by decide⟩), .removed (some ⟨2, 20, 20, by decide⟩),
       .found (some ⟨0, 40, 10, by decide⟩), .found (some ⟨0, 40, 10, by decide⟩)]) ∧
      asIterate s' (s'.nsegs + 1) none = some [⟨1, 10, 10, by decide⟩, ⟨0, 40, 10, by decide⟩] := by
  refine ⟨rep_asAlloc, ?_⟩
  obtain ⟨s', heq, -, -, hiter, -⟩ := segs_refine_plain 2 false rep_asAlloc fourCalls
  exact ⟨s', heq, hiter⟩

/-- With `tail` clear a segment may be found that does not contain the address,
    and with `tail` set one that does not end after it. -/
theorem findseg_not_containing : ∃ s, asAddseg 225 false (fun _ => 0) asAlloc
      ⟨0, 10, 10, by decide⟩ = some (s, true) ∧
    (asFindseg s 5 false).map Prod.snd = some (some ⟨0, 10, 10, by decide⟩) ∧
    ¬(⟨0, 10, 10, by decide⟩ : Seg).base ≤ 5 ∧
    (asFindseg s 30 true).map Prod.snd = some (some ⟨0, 10, 10, by decide⟩) ∧
    ¬30 < (⟨0, 10, 10, by decide⟩ : Seg).stop :=
  ⟨_, rfl, rfl, by decide, rfl, by decide⟩

end Sol7.Vm
