import Mathlib

/-!
# The Segments of an Address Space

An address space keeps its segments in address order. While there are few of
them they form a doubly linked list, and `a_cache` remembers the segment that
was found last. When there are too many, the next segment to be added first
turns the list into a skip list, and from then on `a_cache` remembers the path
of the last search: the skip list node at which the search left each level.

A segment is a range of addresses that is not empty and does not wrap, so
addresses are numbers. Memory is modelled by the links in it. A skip list node
belongs to a segment, or it is the head of the list. A link of a node is either
a pointer to a segment, which may be null, or it is `SSL_UNUSED`. Following a
pointer that cannot be followed gives `none`, and so does a loop that goes
round more often than there are segments.

Locks are left out, and so is what is compiled for `__sparcv9cpu` only. The
random numbers are an argument of the functions that draw them.

## Main definitions

* `Seg`, `As`: A segment, and the list of an address space.
* `sslSearch`, `sslInsert`, `sslRemove`: The skip list.
* `asMutateSeglist`: The change from a linked list to a skip list.
* `asFindseg`, `asAddseg`, `asRemoveseg`: The three calls.
-/

namespace Sol7.Vm

open Function

/-- A segment, with its address in memory. -/
structure Seg where
  id : Nat
  base : Nat
  size : Nat
  size_pos : 0 < size
deriving DecidableEq

/-- The address after the last one of a segment. -/
def Seg.stop (seg : Seg) : Nat := seg.base + seg.size

/-- The representation of the list. -/
inductive Lrep
  | linkedlist
  | skiplist
deriving DecidableEq

/-- A skip list node: the one of a segment, or the head. -/
abbrev Ssl := Option Seg

/-- The number of levels of a skip list. -/
def sslNlevels : Nat := 4

/-- The list of an address space and the memory it is in. -/
structure As where
  /-- The first segment of the linked list. -/
  list : Option Seg
  /-- `s_next.list` of each segment. -/
  next : Seg → Option Seg
  /-- `s_prev` of each segment, in both representations. -/
  prev : Seg → Option Seg
  tail : Option Seg
  nsegs : Nat
  lrep : Lrep
  /-- The cache of the linked list. -/
  seglast : Option Seg
  /-- The links of the nodes on each level. `SSL_UNUSED` is `none`. -/
  segs : Nat → Ssl → Option (Option Seg)
  /-- The cache of the skip list. A pointer to no node is `none`. -/
  spath : Nat → Option Ssl
  hilevel : Nat

/-- An address space without segments. -/
def asAlloc : As where
  list := none
  next := fun _ => none
  prev := fun _ => none
  tail := none
  nsegs := 0
  lrep := .linkedlist
  seglast := none
  segs := fun _ _ => none
  spath := fun _ => none
  hilevel := 0

/-! ### The skip list -/

/-- The loop of `ssl_newlevel`. -/
def sslNewlevelLoop : Nat → Nat → Nat → Nat
  | 0, _, newlev => newlev
  | fuel + 1, r, newlev =>
    if r &&& 3 = 0 ∧ newlev < sslNlevels then sslNewlevelLoop fuel (r >>> 2) (newlev + 1)
    else newlev

/-- The level of a new node, from a random number. -/
def sslNewlevel (r : Nat) : Nat := sslNewlevelLoop sslNlevels r 1 - 1

/-- Follow the links of one level as long as the segments end at or before an
    address. Returns the node where this stops and the segment after it. -/
def sslWalk (s : As) (addr i : Nat) : Nat → Ssl → Option (Ssl × Option Seg)
  | 0, _ => none
  | fuel + 1, ssl =>
    match s.segs i ssl with
    | none => none
    | some none => some (ssl, none)
    | some (some seg) =>
      if seg.stop ≤ addr then sslWalk s addr i fuel (some seg) else some (ssl, some seg)

/-- Search from a level down, recording the path. -/
def sslDescend (s : As) (addr : Nat) : Nat → Ssl → (Nat → Option Ssl) →
    Option (Option Seg × (Nat → Option Ssl))
  | 0, ssl, spath =>
    (sslWalk s addr 0 (s.nsegs + 1) ssl).map fun r => (r.2, update spath 0 (some r.1))
  | i + 1, ssl, spath =>
    (sslWalk s addr (i + 1) (s.nsegs + 1) ssl).bind fun r =>
      sslDescend s addr i r.1 (update spath (i + 1) (some r.1))

variable (s : As)

/-- A search from the head of the skip list. -/
def sslSearchHead (addr : Nat) (tail : Bool) : Option (As × Option Seg) :=
  (sslDescend s addr s.hilevel none s.spath).map fun r =>
    ({ s with spath := r.2 }, if tail ∧ r.1 = none then s.tail else r.1)

/-- Move the cached path on to a node, on the levels the node has. -/
def sslFollow (s : As) (ssl : Ssl) : Nat → Nat → (Nat → Option Ssl) → Nat → Option Ssl
  | 0, _, spath => spath
  | n + 1, i, spath =>
    if s.segs i ssl = none then spath
    else sslFollow s ssl n (i + 1) (update spath i (some ssl))

/-- Try the successor of the cached segment. -/
def sslSearchNext (addr : Nat) (tail : Bool) (prev : Seg) : Option (As × Option Seg) :=
  match s.segs 0 (some prev) with
  | none => none
  | some none => sslSearchHead s addr tail
  | some (some seg) =>
    if prev.stop ≤ addr ∧ addr < seg.stop then
      some ({ s with spath := sslFollow s (some prev) sslNlevels 0 s.spath }, some seg)
    else sslSearchHead s addr tail

/-- The first segment that ends after an address. If there is none, the last
    one if `tail` is set. -/
def sslSearch (addr : Nat) (tail : Bool) : Option (As × Option Seg) :=
  match s.spath 0 with
  | none => sslSearchHead s addr tail
  | some cssl =>
    match s.segs 0 cssl with
    | none => none
    | some none => sslSearchHead s addr tail
    | some (some seg) =>
      if addr < seg.stop ∧ ∀ prev ∈ s.prev seg, prev.stop ≤ addr then some (s, some seg)
      else sslSearchNext s addr tail seg

/-- Put a segment into the first levels, at the cached path. -/
def sslLink (spath : Nat → Option Ssl) (newseg : Seg) : Nat → (Nat → Ssl → Option (Option Seg)) →
    Option (Nat → Ssl → Option (Option Seg))
  | 0, segs => some segs
  | i + 1, segs =>
    (sslLink spath newseg i segs).bind fun segs =>
      (spath i).map fun ssl =>
        update segs i (update
          (update (segs i) (some newseg) (segs i ssl)) ssl (some (some newseg)))

/-- The second half of `ssl_insert`: make a node of the level `newlev`. -/
def sslInsertNode (newseg : Seg) (newlev : Nat) : Option As :=
  let spath := fun i => if s.hilevel < i ∧ i ≤ newlev then some none else s.spath i
  (sslLink spath newseg (newlev + 1) s.segs).map fun segs =>
    { s with
      spath := spath
      hilevel := if s.hilevel < newlev then newlev else s.hilevel
      segs := fun i =>
        if newlev < i ∧ i < sslNlevels then update (segs i) (some newseg) none
        else segs i
      nsegs := s.nsegs + 1 }

/-- Insert a segment. Returns whether there was room for it. -/
def sslInsert (newseg : Seg) (r : Nat) : Option (As × Bool) :=
  (sslSearch s newseg.base true).bind fun found =>
    let s := found.1
    match found.2 with
    | none =>
      (sslInsertNode
        { s with tail := some newseg, prev := update s.prev newseg none } newseg
        (sslNewlevel r)).map fun s => (s, true)
    | some seg =>
      if seg.stop ≤ newseg.base then
        -- The insertion point is at the end.
        (sslInsertNode
          { s with
            prev := update s.prev newseg (some seg)
            tail := some newseg } newseg (sslNewlevel r)).map fun s => (s, true)
      else if seg.base ≤ newseg.base ∨ seg.base < newseg.stop then some (s, false)
      else
        (sslInsertNode
          { s with
            prev := update (update s.prev newseg (s.prev seg)) seg
              (some newseg) }
          newseg (sslNewlevel r)).map fun s => (s, true)

/-- Take a segment out of the levels, from the lowest one up to the first one
    that does not have it. -/
def sslUnlink (spath : Nat → Option Ssl) (seg : Seg) : Nat → Nat →
    (Nat → Ssl → Option (Option Seg)) → Option (Nat → Ssl → Option (Option Seg))
  | 0, _, segs => some segs
  | n + 1, i, segs =>
    (spath i).bind fun ssl =>
      if segs i ssl = some (some seg) then
        sslUnlink spath seg n (i + 1)
          (update segs i (update (segs i) ssl (segs i (some seg))))
      else some segs

/-- The highest level that is not empty. -/
def sslHilevel (segs : Nat → Ssl → Option (Option Seg)) : Nat → Nat
  | 0 => 0
  | hilev + 1 => if segs (hilev + 1) none = some none then sslHilevel segs hilev else hilev + 1

/-- Remove the segment at an address and return it. Its node is freed. -/
def sslRemove (addr : Nat) : Option (As × Option Seg) :=
  (sslSearch s addr false).bind fun found =>
    let s := found.1
    match found.2 with
    | none => some (s, none)
    | some seg =>
      if seg.base ≠ addr then some (s, none)
      else
        (sslUnlink s.spath seg (s.hilevel + 1) 0 s.segs).bind fun segs =>
          (segs 0 (some seg)).map fun next =>
            ({ s with
              tail := if next = none then s.prev seg else s.tail
              prev := match next with
                | none => s.prev
                | some n => update s.prev n (s.prev seg)
              hilevel := sslHilevel segs s.hilevel
              segs := fun i => update (segs i) (some seg) none
              nsegs := s.nsegs - 1 }, some seg)

/-! ### The change of representation -/

/-- Insert segments from the top down. The `j`th random number is drawn for
    the `j`th of them. Returns how many were drawn. -/
def asMutateLoop (rand : Nat → Nat) : Nat → Nat → As → Option Seg → Option (As × Nat)
  | 0, _, _, _ => none
  | _ + 1, j, s, none => some (s, j)
  | fuel + 1, j, s, some car =>
    (sslInsert s car (rand j)).bind fun r => asMutateLoop rand fuel (j + 1) r.1 (s.prev car)

/-- Change the linked list into a skip list. -/
def asMutateSeglist (rand : Nat → Nat) : Option (As × Nat) :=
  asMutateLoop rand (s.nsegs + 1) 0
    { s with
      tail := none
      segs := fun _ ssl => if ssl = none then some none else none
      spath := fun _ => none
      lrep := .skiplist
      nsegs := 0 } s.tail

/-! ### The calls -/

/-- The loop of a search forward. -/
def asForward (s : As) (addr : Nat) : Nat → Seg → Option Seg
  | 0, _ => none
  | fuel + 1, seg => if seg.stop ≤ addr then (s.next seg).bind (asForward s addr fuel) else some seg

/-- The loop of a search in reverse. Returns the segment where it ends and the
    one before that in the search. -/
def asReverse (s : As) (addr : Nat) : Nat → Seg → Option Seg → Option (Seg × Option Seg)
  | 0, _, _ => none
  | fuel + 1, seg, prev =>
    if addr < seg.base then (s.prev seg).bind fun p => asReverse s addr fuel p (some seg)
    else some (seg, prev)

/-- A search forward from a segment. -/
def asFindForward (addr : Nat) (seg : Seg) : Option (As × Option Seg) :=
  (asForward s addr (s.nsegs + 1) seg).map fun seg =>
    (if seg.base ≤ addr then { s with seglast := some seg } else s, some seg)

/-- A search in reverse from a segment. -/
def asFindReverse (addr : Nat) (seg : Seg) : Option (As × Option Seg) :=
  (asReverse s addr (s.nsegs + 1) seg none).bind fun r =>
    if addr < r.1.stop then some ({ s with seglast := some r.1 }, some r.1)
    else r.2.map fun prev => (s, some prev)

/-- Find a segment in the linked list, from where the search is shortest. -/
def asFindsegList (addr : Nat) (tail : Bool) : Option (As × Option Seg) :=
  match s.list with
  | none => some (s, none)
  | some loseg =>
    let seg := s.seglast.getD loseg
    if seg.base ≤ addr then
      if addr < seg.stop then some (s, some seg)
      else
        s.tail.bind fun hiseg =>
          if hiseg.stop ≤ addr then some (s, if tail then some hiseg else none)
          else if hiseg.stop - addr < addr - seg.base then asFindReverse s addr hiseg
          else (s.next seg).bind (asFindForward s addr)
    else if addr < loseg.base then some (s, some loseg)
    else if addr - loseg.base < seg.base - addr then asFindForward s addr loseg
    else asFindReverse s addr seg

/-- Find a segment by an address. -/
def asFindseg (addr : Nat) (tail : Bool) : Option (As × Option Seg) :=
  match s.lrep with
  | .skiplist => sslSearch s addr tail
  | .linkedlist => asFindsegList s addr tail

/-- Add a segment to the linked list. -/
def asAddsegList (newseg : Seg) : Option (As × Bool) :=
  (asFindseg s newseg.base true).bind fun found =>
    let s := { found.1 with seglast := some newseg, nsegs := found.1.nsegs + 1 }
    match found.2 with
    | none =>
      some ({ s with
        list := some newseg
        tail := some newseg
        next := update s.next newseg none
        prev := update s.prev newseg none }, true)
    | some seg =>
      if seg.stop ≤ newseg.base then
        -- The insertion point is at the end.
        some ({ s with
          prev := update s.prev newseg (some seg)
          next := update (update s.next newseg none) seg (some newseg)
          tail := some newseg }, true)
      else if seg.base ≤ newseg.base ∨ seg.base < newseg.stop then some (found.1, false)
      else
        let prev := update (update s.prev newseg (s.prev seg)) seg (some newseg)
        let next := update s.next newseg (some seg)
        if s.list = some seg then
          some ({ s with prev := prev, next := next, list := some newseg }, true)
        else
          (prev newseg).map fun p =>
            ({ s with prev := prev, next := update next p (some newseg) }, true)

/-- Add a segment. The list is changed to a skip list first if it has become
    too long, but never that of the kernel. Returns whether there was room. -/
def asAddseg (thresh : Nat) (kas : Bool) (rand : Nat → Nat) (s : As) (newseg : Seg) :
    Option (As × Bool) :=
  (if thresh ≤ s.nsegs ∧ s.lrep ≠ .skiplist ∧ kas = false then asMutateSeglist s rand
    else some (s, 0)).bind fun r =>
    match r.1.lrep with
    | .skiplist => sslInsert r.1 newseg (rand r.2)
    | .linkedlist => asAddsegList r.1 newseg

/-- Remove a segment from the linked list. -/
def asRemovesegList (addr : Nat) : Option (As × Option Seg) :=
  (asFindseg s addr false).bind fun found =>
    let s := found.1
    match found.2 with
    | none => some (s, none)
    | some seg =>
      if seg.base ≠ addr then some (s, none)
      else
        (if some seg = s.tail then some { s with tail := s.prev seg }
          else (s.next seg).map fun n =>
            { s with prev := update s.prev n (s.prev seg) }).bind fun s =>
          (if some seg = s.list then some { s with list := s.next seg }
            else (s.prev seg).map fun p =>
              { s with next := update s.next p (s.next seg) }).map fun s' =>
            ({ s' with seglast := s.next seg, nsegs := s.nsegs - 1 }, some seg)

/-- Remove the segment at an address and return it. -/
def asRemoveseg (addr : Nat) : Option (As × Option Seg) :=
  match s.lrep with
  | .skiplist => sslRemove s addr
  | .linkedlist => asRemovesegList s addr

/-- The next segment in a loop over all of them, after one or from the start. -/
def asSegp (n : Option Seg) : Option (Option Seg) :=
  match s.lrep with
  | .skiplist => s.segs 0 n
  | .linkedlist =>
    match n with
    | none => some s.list
    | some seg => some (s.next seg)

/-- A loop over all segments. -/
def asIterate (s : As) : Nat → Option Seg → Option (List Seg)
  | 0, _ => none
  | fuel + 1, n =>
    (asSegp s n).bind fun
      | none => some []
      | some seg => (asIterate s fuel (some seg)).map fun l => seg :: l

end Sol7.Vm
