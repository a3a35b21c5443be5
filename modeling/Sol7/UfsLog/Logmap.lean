import Sol7.UfsLog.Ldl

/-!
# The Logmap

Model of the logmap of `lufs_map.c`: the deltas that are in the log and not
yet on the master device. The entries are kept in the order in which they were
added. A hash chain holds the entries of the list whose offset has the index
of the chain, and the cancel list is made of the entries that carry
`ME_CANCEL`; an entry that has left the hash is of no concern to anyone.

What an entry says about its data is left open: it is `me_lof` where the log
is scanned, and the data itself where the file system is looked at through
the logmap. Transaction ids and ages are not bounded.

## Main definitions

* `Me`: An entry of the logmap.
* `Mtm`: The logmap.
* `Mtm.supersede`, `Mtm.put`: The two halves of `logmap_add`.
* `Mtm.freeCancel`: `logmap_free_cancel`.
* `Mtm.abort`: `logmap_abort`.
-/

namespace Sol7.UfsLog

/-- A `mapentry_t` on the logmap, with its flags `ME_ROLL`, `ME_CANCEL` and
    `ME_AGE`. -/
structure Me (δ : Type) where
  mof : Nat
  nb : Nat
  dt : DeltaType
  src : δ
  tid : Nat
  age : Nat
  roll : Bool
  cancel : Bool
  aged : Bool

namespace Me

variable {δ : Type}

/-- `MEwithinDATA`. -/
def within (me : Me δ) (mof nb : Nat) : Bool := mof ≤ me.mof && me.mof + me.nb ≤ mof + nb

/-- `DATAoverlapME`. -/
def overlaps (me : Me δ) (mof nb : Nat) : Bool :=
  (me.mof ≤ mof && mof < me.mof + me.nb) || (mof ≤ me.mof && me.mof < mof + nb)

end Me

def mapBlockSize : Nat := 8192

/-- The logmap. -/
structure Mtm (δ : Type) where
  entries : List (Me δ)
  nhash : Nat
  tid : Nat
  committid : Nat
  age : Nat
  dirty : Nat

def mapIndex (nhash mof : Nat) : Nat := mof / mapBlockSize &&& (nhash - 1)

namespace Mtm

variable {δ : Type} (m : Mtm δ)

/-- New data consumes an old entry if it covers it and the entry is neither
    being rolled nor cancelled. -/
def consumes (mof nb : Nat) (me : Me δ) : Bool :=
  mapIndex m.nhash me.mof == mapIndex m.nhash mof && me.within mof nb && !me.roll && !me.cancel

/-- What becomes of an entry when new data arrives: it is freed if it belongs
    to the same transaction and nobody is reading it, and else cancelled. -/
def superseded (mof nb : Nat) (me : Me δ) : Option (Me δ) :=
  if m.consumes mof nb me then
    if m.tid = me.tid ∧ me.aged = false then none else some { me with cancel := true }
  else some me

/-- The search for overlapping entries in `logmap_add`. -/
def supersede (mof nb : Nat) : Mtm δ :=
  { m with entries := m.entries.filterMap (m.superseded mof nb) }

/-- Put an entry on the hash. -/
def put (me : Me δ) : Mtm δ :=
  { m with
    entries := m.entries ++ [{ me with tid := m.tid, age := m.age }]
    age := m.age + 1 }

/-- What `logmap_free_cancel` does to an entry: those being rolled stay, and
    are removed at the end of the roll. -/
def cancelled (me : Me δ) : Option (Me δ) :=
  if me.cancel then
    if me.roll then some { me with cancel := false } else none
  else some me

def freeCancel : Mtm δ := { m with entries := m.entries.filterMap cancelled }

/-- Take everything off the cancel list, and drop the current transaction. -/
def abort : Mtm δ :=
  { m with
    entries := (m.entries.map fun me => { me with cancel := false }).filter
      fun me => me.tid ≠ m.tid }

end Mtm

end Sol7.UfsLog
