import Sol7.Lib.SkipList
import Sol7.Vm.Plain

/-!
# The Skip List of Segments

When an address space has many segments they are in a skip list. A search
leaves a path behind, the last node on each level before the place that was
looked for. A path is good for any place in the list, not only for the place
of the last search, since it says which links an insertion or a removal there
has to change.

## Main definitions

* `OnPath`: A path to a place in the list.
* `SkipOk`: A skip list with the given segments and heights.
* `SkipRep`: A skip list with the given segments.

## Theorems

* `sslWalk_spec`, `sslDescend_spec`: The loops of a search.
* `sslSearch_spec`: A search leaves a path to the place it looked for.
* `sslInsert_spec`, `sslRemove_spec`: Inserting and removing a segment.
-/

namespace Sol7.Vm

open List Option Function

/-- On each level in use, the path has the last node before a place. -/
def OnPath (height : Seg → Nat) (hilevel : Nat) (spath : Nat → Option Ssl) (a : List Seg) : Prop :=
  ∀ i ≤ hilevel, spath i = some (lastAt height i a)

/-- A skip list of the given segments. The path in the cache may lead to any
    place, or there may be none. -/
structure SkipOk (s : As) (height : Seg → Nat) (l : List Seg) : Prop where
  lrep : s.lrep = .skiplist
  order : InOrder l
  layered : Layered s.segs height sslNlevels l
  back : Threaded (links s.tail s.prev) l.reverse
  low : ∀ c ∈ l, height c ≤ s.hilevel
  hilevel : s.hilevel < sslNlevels
  nsegs : s.nsegs = l.length
  spath : s.spath 0 = none ∨ ∃ a b, l = a ++ b ∧ OnPath height s.hilevel s.spath a

/-- The address space has a skip list of the given segments. -/
def SkipRep (s : As) (l : List Seg) : Prop := ∃ height, SkipOk s height l

variable {s : As} {height : Seg → Nat} {l a b : List Seg} {seg : Seg}

section
variable {x y : List Seg} {c : Seg} {addr : Nat} {tail : Bool}

/-- Following a level passes the segments that end at or before the address. -/
theorem sslWalk_spec {i fuel : Nat} (h : Threaded (s.segs i) (a ++ x ++ y))
    (hx : ∀ e ∈ x, e.stop ≤ addr) (hy : ∀ e ∈ y.head?, addr < e.stop) (hfuel : x.length < fuel) :
    sslWalk s addr i fuel a.getLast? = some ((a ++ x).getLast?, y.head?) := by
  -- The segments that are still to be passed.
  induction x generalizing a fuel with
  | nil =>
    cases fuel with
    | zero => cases hfuel
    | succ fuel =>
      rw [append_nil] at h ⊢
      rw [sslWalk, h a y rfl]
      rcases hd : y.head? with _ | d
      · rfl
      · dsimp only
        rw [if_neg (not_le.mpr (hy d hd))]
  | cons e x ih =>
    cases fuel with
    | zero => cases hfuel
    | succ fuel =>
      have hlink := h a (e :: x ++ y) (by simp)
      rw [sslWalk, hlink]
      dsimp only [cons_append, head?_cons]
      rw [if_pos (hx e mem_cons_self)]
      have hlen : x.length < fuel := by
        rw [length_cons] at hfuel
        omega
      have hrest := ih (a := a ++ [e]) (by simpa using h)
        ((forall_mem_cons.mp hx).2) hlen
      simpa using hrest

/-- A level of a list that is cut at an address. -/
theorem Cut.layer (h : Cut addr a b) (i : Nat) : Cut addr (layer height i a) (layer height i b) :=
  ⟨fun e he => h.before e (mem_layer.mp he).1, fun e he => h.after e (mem_layer.mp he).1⟩

/-- Searching from a level down, from a node of that level before the place. -/
theorem sslDescend_spec (h : Layered s.segs height sslNlevels (a ++ b)) (hcut : Cut addr a b)
    (hlen : a.length ≤ s.nsegs) {i : Nat} (hi : i < sslNlevels) (spath : Nat → Option Ssl)
    (hxy : layer height i a = x ++ y) : sslDescend s addr i x.getLast? spath =
      some (b.head?, fun j => if j ≤ i then some (lastAt height j a) else spath j) := by
  -- One level is followed to the last node before the place.
  have hwalk : ∀ {j x y}, j < sslNlevels → layer height j a = x ++ y →
      sslWalk s addr j (s.nsegs + 1) x.getLast? =
        some (lastAt height j a, (layer height j b).head?) := by
    intro j x y hj hxy
    have hth := h.thread j hj
    have hcutj : Cut addr (layer height j a) (layer height j b) := hcut.layer j
    have hle : (layer height j a).length ≤ a.length := length_filter_le ..
    rw [layer_append] at hth
    rw [lastAt]
    rw [hxy] at hth hcutj hle ⊢
    rw [length_append] at hle
    exact sslWalk_spec hth (fun e he => hcutj.before e (mem_append_right _ he))
      (fun e he => hcutj.after e (mem_of_mem_head? he)) (by omega)
  induction i generalizing x y spath with
  | zero =>
    rw [sslDescend, hwalk hi hxy, map_some, layer_zero]
    congr 2
    funext j
    cases j with
    | zero => rw [update_self, if_pos le_rfl]
    | succ j => rw [update_of_ne (by omega), if_neg (by omega)]
  | succ i ih =>
    rw [sslDescend, hwalk hi hxy, bind_some]
    obtain ⟨x', y', hxy', hlast⟩ := lastAt_prefix height i a
    rw [hlast, ih (by omega) _ hxy']
    congr 2
    funext j
    by_cases hj : j ≤ i
    · rw [if_pos hj, if_pos (by omega)]
    · rw [if_neg hj]
      by_cases hji : j = i + 1
      · rw [hji, update_self, if_pos le_rfl, hlast]
      · rw [update_of_ne hji, if_neg (by omega)]

/-- A search finds what a plain search does and leaves a path to the place. -/
def Leads (s : As) (height : Seg → Nat) (a b : List Seg) (addr : Nat) (tail : Bool)
    (r : Option (As × Option Seg)) : Prop :=
  ∃ spath, r = some ({ s with spath := spath }, plainFind (a ++ b) addr tail) ∧
    OnPath height s.hilevel spath a

theorem SkipOk.tail_eq (h : SkipOk s height l) : s.tail = l.getLast? := by
  have := some.inj h.back.head
  rwa [head?_reverse] at this

theorem SkipOk.prev_eq (h : SkipOk s height (a ++ c :: b)) : s.prev c = a.getLast? :=
  some.inj h.back.back

/-- A search from the head. -/
theorem sslSearchHead_spec (h : SkipOk s height (a ++ b)) (hcut : Cut addr a b) :
    Leads s height a b addr tail (sslSearchHead s addr tail) := by
  unfold sslSearchHead
  have hlen : a.length ≤ s.nsegs := by
    rw [h.nsegs, length_append]
    omega
  have hdesc := sslDescend_spec h.layered hcut hlen h.hilevel s.spath
    (nil_append (layer height s.hilevel a)).symm
  rw [getLast?_nil] at hdesc
  unfold Leads
  rw [hdesc, map_some, hcut.find]
  refine ⟨fun j => if j ≤ s.hilevel then some (lastAt height j a) else s.spath j, ?_,
    fun i hi => if_pos hi⟩
  congr 2
  cases b with
  | nil =>
    rw [h.tail_eq, head?_nil, none_or, append_nil]
    simp only [and_true]
  | cons t b => rw [head?_cons, if_neg (by simp), some_or]

/-- Moving a path on past one segment. -/
theorem sslFollow_spec (h : Layered s.segs height sslNlevels l) (hc : c ∈ l)
    (n i : Nat) (hn : i + n = sslNlevels) (spath : Nat → Option Ssl) (j : Nat) (hj : j < sslNlevels) :
    sslFollow s (some c) n i spath j = if i ≤ j ∧ j ≤ height c then some (some c) else spath j := by
  induction n generalizing i spath with
  | zero => rw [sslFollow, if_neg (by omega)]
  | succ n ih =>
    have hiff := h.eq_none_iff (i := i) (by omega) hc
    rw [sslFollow]
    split
    · next hnone => rw [if_neg (by have := hiff.mp hnone; omega)]
    next hsome =>
    have hle : i ≤ height c := not_lt.mp fun hlt => hsome (hiff.mpr hlt)
    rw [ih (i + 1) (by omega)]
    by_cases hij : j = i
    · rw [hij, if_neg (by omega), update_self, if_pos ⟨le_rfl, hle⟩]
    · rw [update_of_ne hij]
      have : (i + 1 ≤ j ∧ j ≤ height c) ↔ (i ≤ j ∧ j ≤ height c) := by omega
      simp only [this]

/-- A path to a place, moved on past the next segment. -/
theorem OnPath.follow (hp : OnPath height s.hilevel s.spath a) (h : SkipOk s height (a ++ c :: b)) :
    OnPath height s.hilevel (sslFollow s (some c) sslNlevels 0 s.spath) (a ++ [c]) := by
  intro i hi
  have hlev := h.hilevel
  rw [sslFollow_spec h.layered (by simp) _ _ (zero_add _) _ _ (by omega), lastAt_concat, hp i hi]
  simp only [zero_le, true_and]
  split <;> rfl

/-- A search of the skip list, whatever path is in the cache. -/
theorem sslSearch_spec (h : SkipOk s height (a ++ b)) (hcut : Cut addr a b) :
    Leads s height a b addr tail (sslSearch s addr tail) := by
  have hfull : Leads s height a b addr tail (sslSearchHead s addr tail) := sslSearchHead_spec h hcut
  unfold sslSearch
  rcases h.spath with hnone | ⟨a0, b0, hl, hp⟩
  · rw [hnone]
    exact hfull
  rw [hp 0 zero_le]
  dsimp only
  have hlink := h.layered
  rw [hl] at hlink
  rw [hlink.next_lastAt (by decide), layer_zero]
  cases b0 with
  | nil => exact hfull
  | cons seg b0 =>
    dsimp only [head?_cons]
    have hh := h
    have hord := h.order
    rw [hl] at hh hord
    -- Where the list is cut at a place, that is the place of the address.
    have hplace : ∀ {a' b'}, a ++ b = a' ++ b' → Cut addr a' b' → a = a' ∧ b = b' := by
      intro a' b' heq hcut'
      rcases append_eq_append_iff.mp heq with ⟨t, rfl, rfl⟩ | ⟨t, rfl, rfl⟩
      · cases t with
        | nil => simp
        | cons e t =>
          have := hcut'.before e (by simp)
          have := hcut.after e (by simp)
          omega
      · cases t with
        | nil => simp
        | cons e t =>
          have := hcut.before e (by simp)
          have := hcut'.after e (by simp)
          omega
    split
    · next hhit =>
      -- The cached path already leads to the place.
      rw [hh.prev_eq] at hhit
      have hcut0 : Cut addr a0 (seg :: b0) := hord.cut hhit.2 (by simpa using hhit.1)
      obtain ⟨rfl, rfl⟩ := hplace hl hcut0
      refine ⟨s.spath, ?_, hp⟩
      rw [hcut.find, head?_cons, some_or]
    · unfold sslSearchNext
      rw [hh.layered.cell (by decide) zero_le, layer_zero]
      cases b0 with
      | nil => exact hfull
      | cons t b0 =>
        dsimp only [head?_cons]
        split
        · next hnext =>
          -- The place is one segment further on.
          have hsplit : a0 ++ seg :: t :: b0 = (a0 ++ [seg]) ++ t :: b0 := by simp
          rw [hsplit] at hord
          have hcut0 : Cut addr (a0 ++ [seg]) (t :: b0) :=
            hord.cut (fun e he => by
              rw [getLast?_concat] at he
              cases he
              exact hnext.1) (by simpa using hnext.2)
          obtain ⟨rfl, rfl⟩ := hplace (hl.trans hsplit) hcut0
          refine ⟨_, ?_, hp.follow hh⟩
          rw [hcut.find, head?_cons, some_or]
        · exact hfull

end

section
variable {newseg : Seg}

theorem sslNewlevelLoop_le (fuel r : Nat) {newlev : Nat} (h : newlev ≤ sslNlevels) :
    sslNewlevelLoop fuel r newlev ≤ sslNlevels := by
  induction fuel generalizing r newlev with
  | zero => exact h
  | succ fuel ih =>
    rw [sslNewlevelLoop]
    split
    · next hlt => exact ih _ hlt.2
    · exact h

/-- Every random number gives a level that exists. -/
theorem sslNewlevel_lt (r : Nat) : sslNewlevel r < sslNlevels := by
  have := sslNewlevelLoop_le sslNlevels r (by decide : 1 ≤ sslNlevels)
  unfold sslNewlevel
  unfold sslNlevels at *
  omega

variable {spath : Nat → Option Ssl}

/-- The links that the loop of an insertion changes. -/
theorem sslLink_spec {p : Nat → Ssl} {n : Nat}
    (hp : ∀ i < n, spath i = some (p i)) (segs : Nat → Ssl → Option (Option Seg)) :
    sslLink spath newseg n segs = some fun i =>
      if i < n then update (update (segs i) (some newseg) (segs i (p i))) (p i)
        (some (some newseg))
      else segs i := by
  induction n with
  | zero => simp [sslLink]
  | succ n ih =>
    rw [sslLink, ih fun i hi => hp i (by omega), bind_some, hp n (Nat.lt_succ_self n), map_some]
    congr 1
    funext i
    by_cases hi : i = n
    · subst hi
      rw [update_self, if_pos (Nat.lt_succ_self _)]
      dsimp only
      rw [if_neg (lt_irrefl _)]
    · rw [update_of_ne hi]
      have : i < n ↔ i < n + 1 := by omega
      simp only [this]

/-- Above the heights of all segments there is only the head. -/
theorem lastAt_high {i : Nat} (h : ∀ c ∈ a, height c < i) : lastAt height i a = none := by
  rcases hlast : lastAt height i a with _ | c
  · rfl
  · obtain ⟨hc, hle⟩ := lastAt_mem hlast
    have := h c hc
    omega

/-- A node is put in at the place where the path leads. The links back have
    been changed before. -/
theorem sslInsertNode_spec (hlrep : s.lrep = .skiplist)
    (hlayer : Layered s.segs height sslNlevels (a ++ b)) (hlow : ∀ c ∈ a ++ b, height c ≤ s.hilevel)
    (hhi : s.hilevel < sslNlevels) (hp : OnPath height s.hilevel s.spath a)
    (hlen : s.nsegs = (a ++ b).length) (hord : InOrder (a ++ newseg :: b))
    (hback : Threaded (links s.tail s.prev) (a ++ newseg :: b).reverse) {newlev : Nat}
    (hlev : newlev < sslNlevels) :
    ∃ s', sslInsertNode s newseg newlev = some s' ∧ SkipRep s' (a ++ newseg :: b) ∧
      s'.prev = s.prev := by
  have hnd := hord.nodup
  have hnd' := hord.remove.nodup
  have hc : newseg ∉ a ++ b := (nodup_cons.mp (nodup_middle.mp hnd)).1
  have hca : newseg ∉ a := fun hm => hc (mem_append_left _ hm)
  -- The path with the head on the new levels.
  have hpath : ∀ i, i ≤ s.hilevel ∨ i ≤ newlev →
      (if s.hilevel < i ∧ i ≤ newlev then some none else s.spath i) = some (lastAt height i a) := by
    intro i hi
    split
    · next hnew =>
      rw [lastAt_high fun c hc => ?_]
      have := hlow c (mem_append_left _ hc)
      omega
    · exact hp i (by omega)
  unfold sslInsertNode
  dsimp only
  rw [sslLink_spec (p := fun i => lastAt height i a) (fun i hi => hpath i (.inr (by omega)))]
  refine ⟨_, rfl, ⟨update height newseg newlev, hlrep, hord, ?_, hback, ?_, ?_, ?_, ?_⟩, rfl⟩
  · refine hlayer.insert hnd' hc (fun i _ hle => ?_) fun i hi hlt => ?_
    · dsimp only
      rw [if_neg (by omega), if_pos (by omega)]
    · dsimp only
      rw [if_pos ⟨hlt, hi⟩, if_neg (by omega)]
  · intro c hmem
    dsimp only
    by_cases hcn : c = newseg
    · rw [hcn, update_self]
      split <;> omega
    rw [update_of_ne hcn]
    have hcab : c ∈ a ++ b := by
      have := perm_middle.mem_iff.mp hmem
      exact (mem_cons.mp this).resolve_left hcn
    have := hlow c hcab
    split <;> omega
  · split <;> omega
  · rw [hlen]
    simp only [length_append, length_cons]
    omega
  · refine .inr ⟨a, newseg :: b, rfl, fun i hi => ?_⟩
    rw [lastAt_update hca]
    refine hpath i ?_
    dsimp only at hi
    split at hi <;> omega

/-- Only the path in the cache changes. -/
theorem SkipOk.cache (h : SkipOk s height (a ++ b))
    (hp : OnPath height s.hilevel spath a) : SkipOk { s with spath := spath } height (a ++ b) :=
  { h with spath := .inr ⟨a, b, rfl, hp⟩ }

/-- Inserting a segment into the skip list. Only segments of the list have
    their link back changed. -/
theorem sslInsert_spec (h : SkipRep s l) (newseg : Seg) (r : Nat) :
    ∃ s', sslInsert s newseg r = some (s', (plainAdd l newseg).2) ∧
      SkipRep s' (plainAdd l newseg).1 ∧ ∀ c, c ≠ newseg → c ∉ l → s'.prev c = s.prev c := by
  obtain ⟨height, h⟩ := h
  obtain ⟨a, b, rfl, hcut⟩ := h.order.exists_cut newseg.base
  have hsearch : Leads s height a b newseg.base true (sslSearch s newseg.base true) :=
    sslSearch_spec h hcut
  obtain ⟨spath, hfind, hp⟩ := hsearch
  rw [hcut.find, if_pos rfl] at hfind
  unfold sslInsert
  rw [hfind, bind_some]
  -- What is left to do when there is room.
  have hnode : ∀ tail prev, InOrder (a ++ newseg :: b) →
      Threaded (links tail prev) (a ++ newseg :: b).reverse →
      ∃ s', sslInsertNode { s with spath := spath, tail := tail, prev := prev } newseg
        (sslNewlevel r) = some s' ∧ SkipRep s' (a ++ newseg :: b) ∧ s'.prev = prev :=
    fun tail prev hord hback =>
      sslInsertNode_spec (s := { s with spath := spath, tail := tail, prev := prev }) h.lrep
        h.layered h.low h.hilevel hp h.nsegs hord hback (sslNewlevel_lt r)
  cases b with
  | nil =>
    obtain ⟨hadd, hord⟩ := hcut.add h.order (by simp)
    rw [hadd]
    have hnd := h.order.nodup
    have hb := h.back
    rw [append_nil] at hb hnd
    have hc : newseg ∉ a := fun hm => (nodup_append.mp hord.nodup).2.2 _ hm _ (by simp) rfl
    have hback := hb.back_concat hnd hc
    obtain ⟨s', heq, hrep, hprev⟩ := hnode _ _ hord hback
    have hframe : ∀ c, c ≠ newseg → s'.prev c = s.prev c := by
      intro c hc
      rw [hprev, update_of_ne hc]
    rcases eq_nil_or_concat' a with rfl | ⟨a', z, rfl⟩
    · refine ⟨s', ?_, hrep, fun c hc _ => hframe c hc⟩
      rw [getLast?_nil] at heq
      simp only [head?_nil, getLast?_nil, none_or]
      rw [heq, map_some]
    · have hz : z.stop ≤ newseg.base := hcut.before z (by simp)
      refine ⟨s', ?_, hrep, fun c hc _ => hframe c hc⟩
      rw [getLast?_concat] at heq
      simp only [head?_nil, none_or, getLast?_concat, if_pos hz]
      rw [heq, map_some]
  | cons t b =>
    have ht := hcut.after t mem_cons_self
    have hpos := newseg.base_lt_stop
    simp only [head?_cons, some_or]
    rw [if_neg (not_le.mpr ht)]
    split
    · next hover =>
      rw [hcut.add_overlap (by omega)]
      exact ⟨_, rfl, ⟨height, h.cache hp⟩, fun _ _ _ => rfl⟩
    next hover =>
    obtain ⟨hadd, hord⟩ := hcut.add h.order (fun x hx => by cases hx; omega)
    rw [hadd]
    have hc : newseg ∉ a ++ t :: b := (nodup_cons.mp (nodup_middle.mp hord.nodup)).1
    obtain ⟨s', heq, hrep, hprev⟩ := hnode _ _ hord (h.back.back_insert h.order.nodup hc)
    refine ⟨s', ?_, hrep, fun c hcn hcl => ?_⟩
    · rw [heq, map_some]
    · have hct : c ≠ t := fun heq => hcl (by rw [heq]; simp)
      rw [hprev, update_of_ne hct, update_of_ne hcn]

end

/-- The links that the loop of a removal changes. -/
theorem sslUnlink_spec {spath : Nat → Option Ssl} {p : Nat → Ssl} {k : Nat} :
    ∀ (n i : Nat) (segs : Nat → Ssl → Option (Option Seg)), (∀ j < i + n, spath j = some (p j)) →
    (∀ j, i ≤ j → j < i + n → (segs j (p j) = some (some seg) ↔ j ≤ k)) →
    sslUnlink spath seg n i segs = some fun j =>
      if i ≤ j ∧ j < i + n ∧ j ≤ k then update (segs j) (p j) (segs j (some seg))
      else segs j := by
  intro n
  induction n with
  | zero =>
    intro i segs _ _
    rw [sslUnlink]
    congr 1
    funext j
    rw [if_neg (by omega)]
  | succ n ih =>
    intro i segs hp hk
    rw [sslUnlink, hp i (by omega), bind_some]
    split
    · next heq =>
      have hik := (hk i le_rfl (by omega)).mp heq
      rw [ih (i + 1) _ (fun j hj => hp j (by omega)) fun j hj hlt => by
        rw [update_of_ne (by omega)]
        exact hk j (by omega) (by omega)]
      congr 1
      funext j
      by_cases hji : j = i
      · subst hji
        rw [if_neg (by omega), update_self, if_pos (by omega)]
      · rw [update_of_ne hji]
        have : (i + 1 ≤ j ∧ j < i + 1 + n ∧ j ≤ k) ↔ (i ≤ j ∧ j < i + (n + 1) ∧ j ≤ k) := by omega
        simp only [this]
    · next hne =>
      have hik : k < i := not_le.mp fun hle => hne ((hk i le_rfl (by omega)).mpr hle)
      congr 1
      funext j
      rw [if_neg (by omega)]

/-- Empty levels are given up, and no others. -/
theorem sslHilevel_spec {segs : Nat → Ssl → Option (Option Seg)} {hilev : Nat}
    (h : Layered segs height sslNlevels l) (hlow : ∀ c ∈ l, height c ≤ hilev)
    (hlt : hilev < sslNlevels) :
    (∀ c ∈ l, height c ≤ sslHilevel segs hilev) ∧ sslHilevel segs hilev ≤ hilev := by
  induction hilev with
  | zero => exact ⟨hlow, le_rfl⟩
  | succ hilev ih =>
    rw [sslHilevel]
    split
    · next hempty =>
      have hlow' : ∀ c ∈ l, height c ≤ hilev := by
        intro c hc
        rw [(h.thread _ hlt).head, some.injEq, head?_eq_none_iff] at hempty
        by_contra hgt
        have hmem : c ∈ layer height (hilev + 1) l := mem_layer.mpr ⟨hc, by omega⟩
        rw [hempty] at hmem
        cases hmem
      obtain ⟨h1, h2⟩ := ih hlow' (by omega)
      exact ⟨h1, by omega⟩
    · exact ⟨hlow, le_rfl⟩

/-- The links back after the segment at a place is taken out. -/
theorem SkipOk.back_remove (h : SkipOk s height (a ++ seg :: b)) :
    Threaded (links (if b.head? = none then s.prev seg else s.tail)
      (match b.head? with
        | none => s.prev
        | some n => update s.prev n (s.prev seg))) (a ++ b).reverse := by
  have hnd := h.order.nodup
  cases b with
  | nil =>
    rw [append_nil]
    exact h.back.back_dropLast hnd
  | cons t b => exact h.back.back_remove hnd

/-- Removing a segment from the skip list. -/
theorem sslRemove_spec (h : SkipRep s l) (addr : Nat) :
    ∃ s', sslRemove s addr = some (s', (plainRemove l addr).2) ∧
      SkipRep s' (plainRemove l addr).1 := by
  obtain ⟨height, h⟩ := h
  obtain ⟨a, b, rfl, hcut⟩ := h.order.exists_cut addr
  have hsearch : Leads s height a b addr false (sslSearch s addr false) := sslSearch_spec h hcut
  obtain ⟨spath, hfind, hp⟩ := hsearch
  rw [hcut.find, if_neg (by simp), or_none] at hfind
  unfold sslRemove
  rw [hfind, bind_some]
  cases b with
  | nil =>
    rw [hcut.remove_none h.order (by simp)]
    exact ⟨_, rfl, height, h.cache hp⟩
  | cons seg b =>
    dsimp only [head?_cons]
    split
    · next hne =>
      rw [hcut.remove_none h.order (fun x hx => by cases hx; exact hne)]
      exact ⟨_, rfl, height, h.cache hp⟩
    next heq =>
    obtain rfl : seg.base = addr := not_not.mp heq
    rw [hcut.remove h.order]
    have hnd := h.order.nodup
    have hc : seg ∉ a ++ b := (nodup_cons.mp (nodup_middle.mp hnd)).1
    have hlevels := h.hilevel
    have hseg := h.low seg (by simp)
    have hmem : ∀ {c}, c ∈ a ++ b → c ∈ a ++ seg :: b := fun hm =>
      perm_middle.mem_iff.mpr (mem_cons_of_mem _ hm)
    -- The levels on which the path leads to the segment are those it has.
    have hk : ∀ j, 0 ≤ j → j < 0 + (s.hilevel + 1) →
        (s.segs j (lastAt height j a) = some (some seg) ↔ j ≤ height seg) := by
      intro j _ hj
      rw [h.layered.next_lastAt (by omega), layer_cons]
      split
      · next hle => simp [hle]
      · next hle =>
        refine iff_of_false (fun heq => hc ?_) hle
        have := mem_of_mem_head? (some.inj heq)
        exact mem_append_right _ (mem_layer.mp this).1
    have hunlink := sslUnlink_spec (s.hilevel + 1) 0 s.segs (fun j hj => hp j (by omega)) hk
    rw [hunlink, bind_some]
    -- The node of the segment itself is not changed.
    have hnext : ∀ segs : Nat → Ssl → Option (Option Seg), segs = (fun j =>
        if 0 ≤ j ∧ j < 0 + (s.hilevel + 1) ∧ j ≤ height seg then
          update (s.segs j) (lastAt height j a) (s.segs j (some seg))
        else s.segs j) →
        segs 0 (some seg) = some b.head? ∧ Layered segs height sslNlevels (a ++ b) := by
      intro segs hsegs
      constructor
      · have hne : some seg ≠ lastAt height 0 a := fun heq =>
          hc (mem_append_left _ (lastAt_mem heq.symm).1)
        rw [hsegs]
        dsimp only
        rw [if_pos (by omega), update_of_ne hne, h.layered.cell (by decide) (by omega), layer_zero]
      · refine h.layered.remove hnd (fun i hi hle => ?_) fun i hi hlt => ?_
        · rw [hsegs]
          dsimp only
          rw [if_pos (by omega)]
        · rw [hsegs]
          dsimp only
          rw [if_neg (by omega)]
    generalize hsegs : (fun j =>
        if 0 ≤ j ∧ j < 0 + (s.hilevel + 1) ∧ j ≤ height seg then
          update (s.segs j) (lastAt height j a) (s.segs j (some seg))
        else s.segs j) = segs
    obtain ⟨hlink, hlayer⟩ := hnext segs hsegs.symm
    rw [hlink, map_some]
    have hlow : ∀ c ∈ a ++ b, height c ≤ s.hilevel := fun c hm => h.low c (hmem hm)
    obtain ⟨hlow', hle⟩ := sslHilevel_spec hlayer hlow hlevels
    refine ⟨_, rfl, height, h.lrep, h.order.remove, ?_, h.back_remove, hlow',
      hle.trans_lt hlevels, ?_, .inr ⟨a, b, rfl, fun i hi => hp i (hi.trans hle)⟩⟩
    · refine hlayer.congr (fun i => ?_) fun i c hm => ?_
      · dsimp only
        rw [update_of_ne (some_ne_none seg).symm]
      · have hne : some c ≠ some seg := fun heq => hc (some.inj heq ▸ hm)
        dsimp only
        rw [update_of_ne hne]
    · rw [h.nsegs]
      simp only [length_append, length_cons]
      omega

end Sol7.Vm
