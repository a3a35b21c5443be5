import Sol7.Lib.System
import Sol7.UfsLog.LdlSpace
import Sol7.UfsLog.LogscanMap

/-!
# Runs of the Log

The log as it is used: deltas are written, transactions are committed (a
commit record, rounded up to a sector, after which the transaction id goes up),
commits are pushed, and the head is moved up to a delta that is still needed.
A run keeps, beside the log itself, the records that are in the log from the
head on, each with the tail that it left behind.

In every reachable state the records are laid out one after the other in the
stream, from the position of the head to that of the tail, and the tail never
gets to the sector before the head's.

## Main definitions

* `Item`: A record that is in the log.
* `Journal`: The log and its records.
* `LogOp`: The operations on the log.
* `journal`: The system of all runs.
* `Written`: The records are laid out in the stream.
* `Journal.Inv`, `Journal.On`: The invariant of the runs.

## Theorems

* `Written.append`, `Written.drop`: Adding and dropping records.
* `headerLof_lof`: The head is set to the header of a delta.
* `journal_inv`: The invariant holds in every reachable state.
-/

namespace Sol7.UfsLog

open List

open Prod (ext fst snd)

open Option Bool MlUnit

/-- A record in the log, and the tail of the log after it. -/
structure Item where
  me : MapEntry
  tailLof : Nat
  tailIdent : UInt32

/-- The log, and its records from the head on. -/
structure Journal where
  ul : MlUnit
  items : List Item

/-- What is done to the log. The head is moved to a record by number, or to
    the tail if there are not that many. -/
inductive LogOp where
  | delta (bufp : Nat → UInt8) (bufmof : Nat) (me : MapEntry)
  | commit
  | push
  | sethead (i : Nat)

/-- A delta that may be logged: `ldl_write` asserts that there is data, and an
    entry lies within a map block. -/
def MapEntry.loggable (me : MapEntry) : Bool :=
  me.mof < 2 ^ 63 && me.nb ≤ mapBlockSize && me.dt ≠ .none && me.dt ≠ .commit &&
    (me.dt.headerOnly || 0 < me.nb)

/-- The commit record of a transaction. -/
def commitRecord (tid : UInt32) : MapEntry where
  mof := tid.toNat
  nb := 0
  dt := .commit
  lof := 0

namespace MlUnit

/-- The bytes of the log in use, from the start of the head's sector to the
    tail. -/
def used (s : MlUnit) : Nat :=
  if 512 * (s.head / 512) ≤ s.tail then s.tail - 512 * (s.head / 512)
  else s.eol - s.bol - (512 * (s.head / 512) - s.tail)

/-- A write does not make the log overfull: the sector before the head's stays
    free. -/
def fits (s s' : MlUnit) : Bool := s.used + (s'.moved - s.moved) + 512 ≤ s.eol - s.bol

end MlUnit

namespace Journal

variable (j : Journal)

/-- Write a delta. -/
def delta (bufp : Nat → UInt8) (bufmof : Nat) (me : MapEntry) : Option Journal :=
  let w := j.ul.ldlWrite bufp bufmof me
  if me.loggable && j.ul.fits w.1 then
    some { ul := w.1, items := j.items ++ [⟨w.2, w.1.tail, w.1.tailIdent⟩] }
  else none

/-- Commit the transaction. -/
def commit : Option Journal :=
  let w := j.ul.ldlWrite (fun _ => 0) 0 (commitRecord j.ul.tid)
  let s := w.1.ldlRoundCommit
  if j.ul.fits s then
    some
      { ul := { s with tid := s.tid + 1 }
        items := j.items ++ [⟨w.2, s.tail, s.tailIdent⟩] }
  else none

/-- Push the commit. A buf that is pushed ends with a sector. -/
def push : Option Journal :=
  if j.ul.dirty && j.ul.bp.bcount % 512 ≠ 0 then none
  else some { j with ul := j.ul.ldlPushCommit }

/-- Move the head to a delta, or to the tail. -/
def sethead (i : Nat) : Option Journal :=
  match j.items.drop i with
  | [] => some { ul := j.ul.ldlSethead none, items := [] }
  | it :: its =>
    if it.me.dt = .commit then none
    else some { ul := j.ul.ldlSethead (some it.me.lof), items := it :: its }

def step : LogOp → Option Journal
  | .delta bufp bufmof me => j.delta bufp bufmof me
  | .commit => j.commit
  | .push => j.push
  | .sethead i => j.sethead i

/-- An empty log of at least two sectors, whose head may be anywhere. -/
structure Init : Prop where
  ready : Ready j.ul
  error : j.ul.error = false
  items : j.items = []
  head : j.ul.head = j.ul.tail
  ident : j.ul.headIdent = j.ul.tailIdent
  filled : j.ul.dirty = true → 0 < j.ul.bp.bcount
  size : j.ul.bol + 1024 ≤ j.ul.eol
  small : (j.ul.eol - j.ul.bol) / 512 < 2 ^ 32

end Journal

/-- The runs of the log. -/
def journal : System Journal LogOp where
  init := Journal.Init
  step := Journal.step

/-! ### Records in the stream -/

namespace Item

/-- A record that a scan accepts. -/
def Valid (it : Item) : Prop :=
  if it.me.dt = .commit then it.me.mof < 2 ^ 63 ∧ it.me.nb = 0 else it.me.Valid

/-- Where the record after one at `q` starts. -/
def next (it : Item) (q : Nat) : Nat :=
  if it.me.dt = .commit then roundUp (q + 16) else q + 16 + it.me.dataNb

theorem le_next (it : Item) (q : Nat) : q + 16 ≤ it.next q := by
  unfold next roundUp
  split <;> omega

end Item

/-- The records are in the stream from position `q` to position `p`. -/
def Written (r : Ring) (stream : Nat → UInt8) : Nat → List Item → Nat → Prop
  | q, [], p => q = p
  | q, it :: its, p =>
    (readAt stream q 16 = it.me.header ∧ it.me.lof = r.lof (q + 16) ∧ it.Valid ∧
      it.tailLof = r.lof (it.next q) ∧ it.tailIdent = r.identOf (it.next q / 504)) ∧
    Written r stream (it.next q) its p

namespace Written

variable {r : Ring} {stream : Nat → UInt8} {q p : Nat} {its : List Item}
  (h : Written r stream q its p)
include h

theorem le : q ≤ p := by
  induction its generalizing q with
  | nil => exact le_of_eq h
  | cons it its ih =>
    have := it.le_next q
    have := ih h.2
    omega

/-- Records depend on the bytes before their end only. -/
theorem congr {t : Nat → UInt8} (heq : ∀ i, i < p → t i = stream i) : Written r t q its p := by
  induction its generalizing q with
  | nil => exact h
  | cons it its ih =>
    have hle := it.le_next q
    have hend := h.2.le
    refine ⟨⟨?_, h.1.2⟩, ih h.2⟩
    rw [← h.1.1]
    exact readAt_congr _ fun i hi => heq _ (by omega)

/-- One more record at the end. -/
theorem append {it : Item} {p' : Nat} (hnext : it.next p = p')
    (hhdr : readAt stream p 16 = it.me.header) (hlof : it.me.lof = r.lof (p + 16))
    (hvalid : it.Valid) (htail : it.tailLof = r.lof p')
    (hident : it.tailIdent = r.identOf (p' / 504)) : Written r stream q (its ++ [it]) p' := by
  subst hnext
  induction its generalizing q with
  | nil =>
    have hq : q = p := h
    rw [hq]
    exact ⟨⟨hhdr, hlof, hvalid, htail, hident⟩, rfl⟩
  | cons it' its ih => exact ⟨h.1, ih h.2⟩

/-- Without the first records, the others are still there. -/
theorem drop (i : Nat) : ∃ q', q ≤ q' ∧ q' ≤ p ∧ Written r stream q' (its.drop i) p := by
  induction i generalizing q its with
  | zero => exact ⟨q, le_rfl, h.le, h⟩
  | succ i ih =>
    cases its with
    | nil => exact ⟨q, le_rfl, h.le, h⟩
    | cons it its =>
      obtain ⟨q', hle, hle', hw⟩ := ih h.2
      have := it.le_next q
      exact ⟨q', by omega, hle', hw⟩

/-- Where one of the records is. -/
theorem lof_of_mem {it : Item} (hit : it ∈ its) :
    ∃ q', q ≤ q' ∧ q' ≤ p ∧ it.me.lof = r.lof (q' + 16) := by
  obtain ⟨before, after, rfl⟩ := mem_iff_append.mp hit
  obtain ⟨q', hle, hle', hw⟩ := h.drop before.length
  rw [drop_left] at hw
  exact ⟨q', hle, hle', hw.1.2.1⟩

end Written

/-! ### The invariant -/

/-- The records lie between the head and the tail, and the tail is not in the
    sector before the head's or further. -/
structure Journal.Holds (j : Journal) (r : Ring) (base : Int) (stream : Nat → UInt8)
    (hpos pos : Nat) : Prop where
  streams : Streams r base j.ul pos stream
  head : j.ul.head = r.lof hpos
  ident : j.ul.headIdent = r.identOf (hpos / 504)
  room : pos + 504 ≤ 504 * (hpos / 504 + r.sectors)
  first : r.first ≤ hpos / 504
  written : Written r stream hpos j.items pos
  filled : j.ul.dirty = true → 0 < j.ul.bp.bcount
  size : 2 ≤ r.sectors ∧ r.sectors < 2 ^ 32

/-- The invariant of the runs of the log. -/
def Journal.Inv (j : Journal) : Prop := ∃ r base stream hpos pos, j.Holds r base stream hpos pos

/-- The same for the runs on a given ring. -/
def Journal.On (j : Journal) (r : Ring) (base : Int) : Prop :=
  ∃ stream hpos pos, j.Holds r base stream hpos pos

namespace Journal.Holds

variable {j : Journal} {r : Ring} {base : Int} {stream : Nat → UInt8} {hpos pos : Nat}
  (h : j.Holds r base stream hpos pos)
include h

/-- The bytes in use, counted in the stream. -/
theorem used_eq : j.ul.used + 512 * (hpos / 504) = span pos := by
  have hle := h.written.le
  have hroom := h.room
  have hmod := r.mod_cases (h := hpos / 504) (k := pos / 504) (by omega) (by omega)
  unfold used span
  rw [h.head, r.sector_lof, h.streams.tail, h.streams.bol, h.streams.eol]
  unfold Ring.lof Ring.sectorLof Ring.eol
  split <;> omega

/-- A write fits if it leaves the sector before the head's free. -/
theorem fits_iff {s' : MlUnit} {pos' : Nat}
    (hmoved : (s'.moved : Int) = span pos' + base) (hle : pos ≤ pos') :
    j.ul.fits s' = true ↔ pos' + 504 ≤ 504 * (hpos / 504 + r.sectors) := by
  have hused := h.used_eq
  have hold := h.streams.moved
  have hspan : span pos ≤ span pos' := by
    unfold span
    omega
  unfold fits
  rw [decide_eq_true_eq, h.streams.eol, h.streams.bol]
  unfold Ring.eol
  unfold span at hmoved hold hused hspan
  omega

/-- A delta that may be logged can be. -/
theorem write (bufp : Nat → UInt8) (bufmof : Nat) {me : MapEntry} (hlog : me.loggable = true) :
    ∃ s', j.ul.ldlWrite bufp bufmof me = (s', { me with lof := r.lof (pos + 16) }) ∧
      (j.ul.fits s' = true ↔
        pos + (16 + me.dataNb) + 504 ≤ 504 * (hpos / 504 + r.sectors)) ∧
      (pos + (16 + me.dataNb) + 504 ≤ 504 * (hpos / 504 + r.sectors) → ∃ t, Journal.Holds
          { ul := s'
            items := j.items ++ [⟨{ me with lof := r.lof (pos + 16) }, s'.tail, s'.tailIdent⟩] }
          r base t hpos (pos + (16 + me.dataNb))) := by
  unfold MapEntry.loggable at hlog
  simp only [and_eq_true, or_eq_true, decide_eq_true_eq] at hlog
  obtain ⟨⟨⟨⟨hmof, hnb⟩, hnone⟩, hcommit⟩, hdata⟩ := hlog
  obtain ⟨hw, hhead, hme, hfilled⟩ := h.streams.ldlWrite bufp bufmof me
  rw [me.length_logged bufp bufmof] at hw
  refine ⟨_, ext rfl hme, h.fits_iff hw.moved (Nat.le_add_right _ _), fun hroom => ?_⟩
  refine ⟨_, hw, ?_, ?_, hroom, h.first, ?_, hfilled hdata, h.size⟩
  · exact (congrArg fst hhead).trans h.head
  · exact (congrArg snd hhead).trans h.ident
  -- The old records are where they were, and the new one follows.
  have hold := h.written.congr (t := writeAt stream pos (me.logged bufp bufmof))
    fun i hi => writeAt_of_not_mem _ (.inl hi)
  have hhdr := readAt_writeAt_append stream pos me.header
    (readAt bufp (me.mof - bufmof) me.dataNb)
  refine hold.append ?_ hhdr rfl ?_ hw.tail hw.ident
  · unfold Item.next
    rw [if_neg hcommit]
    exact add_assoc _ _ _
  · unfold Item.Valid
    rw [if_neg hcommit]
    exact ⟨hmof, hnb, hnone, hcommit⟩

omit h in
/-- The id of the transaction is no part of what the log holds. -/
theorem streams_tid {s : MlUnit} (h : Streams r base s pos stream) (tid : UInt32) :
    Streams r base { s with tid := tid } pos stream :=
  { h with }

/-- A commit record can be logged, and ends with its sector. -/
theorem round : ∃ s' s'', j.ul.ldlWrite (fun _ => 0) 0 (commitRecord j.ul.tid) =
        (s', { commitRecord j.ul.tid with lof := r.lof (pos + 16) }) ∧
      s'.ldlRoundCommit = s'' ∧
      (j.ul.fits s'' = true ↔ roundUp (pos + 16) + 504 ≤ 504 * (hpos / 504 + r.sectors)) ∧
      (roundUp (pos + 16) + 504 ≤ 504 * (hpos / 504 + r.sectors) → ∃ t, Journal.Holds
          { ul := { s'' with tid := s''.tid + 1 }
            items := j.items ++ [⟨{ commitRecord j.ul.tid with lof := r.lof (pos + 16) },
              s''.tail, s''.tailIdent⟩] }
          r base t hpos (roundUp (pos + 16))) := by
  generalize hrec : commitRecord j.ul.tid = me
  have hdt : me.dt = .commit := by rw [← hrec]; rfl
  have honly : me.dt.headerOnly = true := by rw [hdt]; rfl
  have hnb : me.nb = 0 := by rw [← hrec]; rfl
  have hmof : me.mof < 2 ^ 63 := by
    have htid := j.ul.tid.toNat_lt
    rw [← hrec]
    change j.ul.tid.toNat < _
    omega
  obtain ⟨hw, hhead, hme, hfilled⟩ := h.streams.ldlWrite (fun _ => 0) 0 me
  have hlogged : me.logged (fun _ => 0) 0 = me.header := by
    unfold MapEntry.logged MapEntry.dataNb
    rw [if_pos honly]
    exact append_nil _
  rw [hlogged] at hw
  obtain ⟨pad, hpad, hst⟩ := hw.ldlRoundCommit (hfilled (.inl honly))
  have hround := hst.streams
  rw [hpad] at hround
  refine ⟨_, _, ext rfl hme, rfl, h.fits_iff hround.moved (by unfold roundUp; omega),
    fun hroom => ⟨_, streams_tid hround _, ?_, ?_, hroom, h.first, ?_, hst.filled, h.size⟩⟩
  · exact (congrArg fst (hst.head.trans hhead)).trans h.head
  · exact (congrArg snd (hst.head.trans hhead)).trans h.ident
  have hold := h.written.congr
    (t := writeAt (writeAt stream pos me.header) (pos + 16) pad) fun i hi => by
      rw [writeAt_of_not_mem _ (.inl (by omega)), writeAt_of_not_mem _ (.inl hi)]
  have hhdr : readAt (writeAt (writeAt stream pos me.header) (pos + 16) pad) pos 16 =
      me.header := by
    have hread := readAt_writeAt_append stream pos me.header pad
    rw [← writeAt_append] at hread
    exact hread
  refine hold.append ?_ hhdr rfl ?_ hround.tail hround.ident
  · unfold Item.next
    rw [if_pos hdt]
  · unfold Item.Valid
    rw [if_pos hdt]
    exact ⟨hmof, hnb⟩

variable {j' : Journal}

/-- Writing a delta. -/
theorem delta {bufp : Nat → UInt8} {bufmof : Nat}
    {me : MapEntry} (hs : j.delta bufp bufmof me = some j') : j'.On r base := by
  unfold Journal.delta at hs
  simp only [ite_none_right_eq_some, and_eq_true, some.injEq] at hs
  obtain ⟨⟨hlog, hfits⟩, rfl⟩ := hs
  obtain ⟨s', hw, hiff, hholds⟩ := h.write bufp bufmof hlog
  rw [hw] at hfits ⊢
  obtain ⟨t, ht⟩ := hholds (hiff.mp hfits)
  exact ⟨t, hpos, _, ht⟩

/-- Committing a transaction. -/
theorem commit (hs : j.commit = some j') : j'.On r base := by
  obtain ⟨hfits, heq⟩ := ite_none_right_eq_some.mp hs
  cases heq
  obtain ⟨s', s'', hw, hr, hiff, hholds⟩ := h.round
  rw [hw] at hfits ⊢
  simp only [hr] at hfits ⊢
  obtain ⟨t, ht⟩ := hholds (hiff.mp hfits)
  exact ⟨t, hpos, _, ht⟩

/-- Pushing a commit. -/
theorem push (hs : j.push = some j') : j'.On r base := by
  obtain ⟨hrounded, heq⟩ := ite_none_left_eq_some.mp hs
  cases heq
  have hpos : pos % 504 = 0 := by
    cases hd : j.ul.dirty with
    | false => exact h.streams.clean hd
    | true =>
      rw [hd] at hrounded
      simp only [Bool.true_and, ne_eq, decide_eq_true_eq, Decidable.not_not] at hrounded
      rw [← h.streams.bcount_mod hd, hrounded]
  obtain ⟨hw, hhead, hclean⟩ := h.streams.ldlPushCommit hpos h.filled
  exact ⟨stream, _, pos, hw, (congrArg fst hhead).trans h.head,
    (congrArg snd hhead).trans h.ident, h.room, h.first, h.written,
    (fun hd => nomatch hclean.symm.trans hd), h.size⟩

end Journal.Holds

/-! ### Moving the head -/

section
variable {r : Ring} {s : MlUnit}

/-- The head is set to the header of a delta, wherever the header is broken by
    a trailer or by the end of the log. -/
theorem headerLof_lof (hbol : s.bol = r.bol) (heol : s.eol = r.eol) (q : Nat) :
    s.headerLof (r.lof (q + 16)) = r.lof q := by
  have hak := r.sectorLof_mod (q / 504)
  have hbk : r.bol ≤ r.sectorLof (q / 504) := Nat.le_add_right _ _
  have hab := r.aligned
  unfold headerLof
  by_cases hin : q % 504 + 16 < 504
  · rw [r.lof_add hin]
    unfold Ring.lof
    simp only []
    omega
  -- The header ends in the next sector.
  have hdiv : (q + 16) / 504 = q / 504 + 1 := by omega
  have hmod : (q + 16) % 504 = q % 504 - 488 := by omega
  have hlof : r.lof (q + 16) = r.sectorLof (q / 504 + 1) + (q % 504 - 488) := by
    rw [Ring.lof, hdiv, hmod]
  rw [hlof]
  unfold Ring.lof
  by_cases hend : r.sectorLof (q / 504) + 512 = r.eol
  · rw [r.sectorLof_wrap hend]
    simp only []
    omega
  · rw [r.sectorLof_succ hend]
    simp only []
    omega

/-- Positions of one turn around the ring have places of their own. -/
theorem lof_inj {p q : Nat} (hle : p ≤ q) (hturn : q / 504 < p / 504 + r.sectors)
    (h : r.lof p = r.lof q) : p = q := by
  have hap := r.sectorLof_mod (p / 504)
  have haq := r.sectorLof_mod (q / 504)
  unfold Ring.lof at h
  have hsec := r.sectorLof_inj (Nat.div_le_div_right hle) hturn (by omega)
  omega

/-- The head and its ident after a move to a position further on. -/
theorem ldlSethead_head {base : Int} {stream : Nat → UInt8} {hpos pos q : Nat}
    (hs : Streams r base s pos stream) (hhead : s.head = r.lof hpos)
    (hident : s.headIdent = r.identOf (hpos / 504)) {dataLof : Option Nat}
    (hnew : s.newHead dataLof = r.lof q) (hle : hpos ≤ q)
    (hturn : q / 504 < hpos / 504 + r.sectors) : (s.ldlSethead dataLof).head = r.lof q ∧
      (s.ldlSethead dataLof).headIdent = r.identOf (q / 504) := by
  unfold ldlSethead
  rw [hnew, hhead]
  have hdiv : hpos / 504 ≤ q / 504 := Nat.div_le_div_right hle
  split
  · next heq =>
      have hq := lof_inj hle hturn heq.symm
      rw [← hq]
      exact ⟨hhead, hident⟩
  next hne =>
    rw [if_neg (by simp [hs.error])]
    refine ⟨rfl, ?_⟩
    unfold sectorsFromHead
    rw [hhead, hident, hs.eol, hs.bol, r.lof_div, r.lof_div]
    have hah := r.sectorLof_mod (hpos / 504)
    have haq := r.sectorLof_mod (q / 504)
    split
    · next hlt =>
        refine r.identOf_forward hdiv hturn ?_
        unfold Ring.lof at hlt
        omega
    next hge =>
      have hlt : r.sectorLof (q / 504) < r.sectorLof (hpos / 504) := by
        by_contra hc
        have hsame : r.sectorLof (hpos / 504) = r.sectorLof (q / 504) := by
          unfold Ring.lof at hge
          omega
        -- Within the head's own sector the head would have moved back.
        have hk := r.sectorLof_inj hdiv hturn hsame
        unfold Ring.lof at hge hne
        omega
      rw [← UInt32.add_assoc]
      exact r.identOf_wrapped hdiv hturn hlt

/-- The buf being filled is not discarded. -/
theorem ldlSethead_dirty (dataLof : Option Nat) (hd : (s.ldlSethead dataLof).dirty = true) :
    s.dirty = true ∧ (s.ldlSethead dataLof).bp = s.bp := by
  have hinval : ∀ lof, (s.invalTo lof).dirty = s.dirty ∧
      (s.dirty = true → (s.invalTo lof).bp = s.bp) := by
    intro lof
    unfold invalTo invalRange
    split
    · exact ⟨rfl, fun hd => if_pos hd⟩
    · refine ⟨rfl, fun hd => ?_⟩
      simp only [hd, if_true]
  unfold ldlSethead at hd ⊢
  split
  · next heq =>
      rw [if_pos heq] at hd
      exact ⟨hd, rfl⟩
  next heq =>
    rw [if_neg heq] at hd
    have hdirty : s.dirty = true := by
      rw [← (hinval (s.newHead dataLof)).1]
      split at hd <;> exact hd
    refine ⟨hdirty, ?_⟩
    split <;> exact (hinval _).2 hdirty

end

variable {base : Int}

/-- Moving the head. -/
theorem Journal.Holds.sethead {j : Journal} {r : Ring} {stream : Nat → UInt8}
    {hpos pos : Nat} (h : j.Holds r base stream hpos pos) {i : Nat} {j' : Journal}
    (hs : j.sethead i = some j') : j'.On r base := by
  have hroom := h.room
  -- It is enough to know which position the head goes to.
  have hmove : ∀ q its dataLof, hpos ≤ q → q ≤ pos → Written r stream q its pos →
      j.ul.newHead dataLof = r.lof q →
      Journal.On { ul := j.ul.ldlSethead dataLof, items := its } r base := by
    intro q its dataLof hle hle' hw hnew
    obtain ⟨hh, hi⟩ := ldlSethead_head h.streams h.head h.ident hnew hle (by omega)
    refine ⟨stream, q, pos, h.streams.ldlSethead dataLof, hh, hi, by omega, ?_, hw,
      fun hd => ?_, h.size⟩
    · have := h.first
      omega
    · obtain ⟨hd', hbp⟩ := ldlSethead_dirty dataLof hd
      rw [hbp]
      exact h.filled hd'
  obtain ⟨q, hle, hle', hw⟩ := h.written.drop i
  unfold Journal.sethead at hs
  split at hs
  · cases hs
    exact hmove pos [] none h.written.le le_rfl rfl h.streams.tail
  next it its hdrop =>
    rw [hdrop] at hw
    split at hs
    · cases hs
    cases hs
    refine hmove q (it :: its) _ hle hle' hw ?_
    show (j.ul.headerLof it.me.lof).toNat = r.lof q
    rw [hw.1.2.1, headerLof_lof h.streams.bol h.streams.eol]
    rfl

/-- The invariant holds at first. -/
theorem Journal.Init.inv {j : Journal} (h : j.Init) : j.Inv := by
  have hsize := h.size
  refine ⟨h.ready.ring, _, _, Ready.pos j.ul, Ready.pos j.ul, h.ready.streams h.error, ?_, ?_, ?_,
    le_rfl, ?_, h.filled, ?_, h.small⟩
  · rw [h.head, h.ready.lof_pos]
  · rw [h.ident, (h.ready.streams h.error).ident]
  · show Ready.pos j.ul + 504 ≤ 504 * (Ready.pos j.ul / 504 + (j.ul.eol - j.ul.bol) / 512)
    omega
  · rw [h.items]
    rfl
  · show 2 ≤ (j.ul.eol - j.ul.bol) / 512
    omega

/-- Every operation keeps the invariant, and the ring. -/
theorem Journal.On.step {j j' : Journal} {r : Ring} (h : j.On r base) {op : LogOp}
    (hs : j.step op = some j') : j'.On r base := by
  obtain ⟨stream, hpos, pos, h⟩ := h
  cases op with
  | delta bufp bufmof me => exact h.delta hs
  | commit => exact h.commit hs
  | push => exact h.push hs
  | sethead i => exact h.sethead hs

/-- So does a run. -/
theorem Journal.On.exec {r : Ring} (ops : List LogOp) {j j' : Journal}
    (h : j.On r base) (hs : journal.exec j ops = some j') : j'.On r base := by
  induction ops generalizing j with
  | nil =>
    cases hs
    exact h
  | cons op ops ih =>
    obtain ⟨j1, hstep, hrest⟩ := bind_eq_some_iff.mp hs
    exact ih (h.step hstep) hrest

/-- The invariant holds in every state of every run. -/
theorem journal_inv (j : Journal) (hr : journal.Reachable j) : j.Inv := by
  refine System.Reachable.invariant journal Journal.Inv (fun _ h => Journal.Init.inv h) ?_ j hr
  rintro j j' op ⟨r, base, h⟩ hs
  exact ⟨r, base, Journal.On.step h hs⟩

end Sol7.UfsLog
