import Sol7.Lib.System
import Sol7.UfsLog.Logmap

/-!
# The Deltamap

Model of `deltamap_add` and `deltamap_remove`. A range is cut at the borders of
map blocks, and each piece is looked up on the hash chain of its block, which it
may share with other blocks. A piece that lies within an entry is not added, and
an entry that lies within a piece is removed.

An entry never crosses the border of a block, so it lies within a range if and
only if it lies within one of the pieces.

## Main definitions

* `pieces`: A range, cut into pieces.
* `Deltamap.deltamapAdd`, `Deltamap.deltamapRemove`: The two functions.
* `Deltamap.Placed`: Every entry is in one block, and on its chain.

## Theorems

* `within_pieces`: What lies within a range lies within a piece.
* `deltamap_coverage`: What the functions do in every reachable state.
-/

namespace Sol7.UfsLog

open List Function

variable {δ : Type}

/-- `DATAwithinME`. -/
def Me.spans (me : Me δ) (mof nb : Nat) : Bool := me.mof ≤ mof && mof + nb ≤ me.mof + me.nb

/-- The pieces that the loops go through. -/
def pieces (mof nb : Nat) : List (Nat × Nat) :=
  if nb = 0 then []
  else
    let hnb := min (mapBlockSize - mof % mapBlockSize) nb
    (mof, hnb) :: pieces (mof + hnb) (nb - hnb)
termination_by nb
decreasing_by
  unfold mapBlockSize
  omega

/-- A range inside one block. -/
def InBlock (p : Nat × Nat) : Prop := 0 < p.2 ∧ p.1 % mapBlockSize + p.2 ≤ mapBlockSize

/-- The hash chains of a deltamap, and its transaction. -/
structure Deltamap (δ : Type) where
  nhash : Nat
  tid : Nat
  hash : Nat → List (Me δ)

namespace Deltamap

variable (m : Deltamap δ)

/-- Put a chain under the hash of an offset. -/
def setChain (mof : Nat) (c : List (Me δ)) : Deltamap δ :=
  { m with hash := update m.hash (mapIndex m.nhash mof) c }

/-- A turn of the loop of `deltamap_add`. -/
def addPiece (dt : DeltaType) (src : δ) (m : Deltamap δ) (p : Nat × Nat) : Deltamap δ :=
  let c := m.hash (mapIndex m.nhash p.1)
  -- Already in the map.
  if c.any (·.spans p.1 p.2) then m
  else m.setChain p.1 (⟨p.1, p.2, dt, src, m.tid, 0, false, false, false⟩ :: c)

def deltamapAdd (mof nb : Nat) (dt : DeltaType) (src : δ) : Deltamap δ :=
  (pieces mof nb).foldl (addPiece dt src) m

/-- Move the entries within a piece from a chain to the front of a list. -/
def unhash (p : Nat × Nat) : List (Me δ) → List (Me δ) → List (Me δ) × List (Me δ)
  | [], mer => ([], mer)
  | me :: mes, mer =>
    if me.within p.1 p.2 then unhash p mes (me :: mer)
    else ((me :: (unhash p mes mer).1), (unhash p mes mer).2)

/-- A turn of the loop of `deltamap_remove`. -/
def removePiece (s : Deltamap δ × List (Me δ)) (p : Nat × Nat) : Deltamap δ × List (Me δ) :=
  let r := unhash p (s.1.hash (mapIndex s.1.nhash p.1)) s.2
  (s.1.setChain p.1 r.1, r.2)

def deltamapRemove (mof nb : Nat) : Deltamap δ × List (Me δ) :=
  (pieces mof nb).foldl removePiece (m, [])

/-- Every entry lies inside one block, and is hashed once, under it. -/
def Placed : Prop :=
  ∀ i, (m.hash i).Nodup ∧ ∀ e ∈ m.hash i, InBlock (e.mof, e.nb) ∧ mapIndex m.nhash e.mof = i

def Has (e : Me δ) : Prop := ∃ i, e ∈ m.hash i

/-- A byte is covered by some entry. -/
def Covers (x : Nat) : Prop := ∃ e, m.Has e ∧ e.mof ≤ x ∧ x < e.mof + e.nb

/-- The entries that are asked for are removed and returned, each once, and the
    others are left in place. -/
structure Removes (asked : Me δ → Bool) (r : Deltamap δ × List (Me δ)) : Prop where
  placed : r.1.Placed
  kept : ∀ i, r.1.hash i = (m.hash i).filter fun e => !asked e
  nodup : r.2.Nodup
  mem : ∀ e, e ∈ r.2 ↔ m.Has e ∧ asked e = true

end Deltamap

/-- The calls: an addition, or a removal. -/
inductive DeltaOp (δ : Type) where
  | add (mof nb : Nat) (dt : DeltaType) (src : δ)
  | remove (mof nb : Nat)

/-- A deltamap, from empty on. -/
def deltamaps (δ : Type) : System (Deltamap δ) (DeltaOp δ) where
  init m := ∀ i, m.hash i = []
  step m
    | .add mof nb dt src => some (m.deltamapAdd mof nb dt src)
    | .remove mof nb => some (m.deltamapRemove mof nb).1

/-! ### Pieces -/

theorem pieces_inBlock (mof nb : Nat) : ∀ p ∈ pieces mof nb, InBlock p := by
  fun_induction pieces mof nb with
  | case1 => simp
  | case2 mof nb hnb h ih =>
    refine forall_mem_cons.mpr ⟨?_, ih⟩
    unfold InBlock
    grind [mapBlockSize]

/-- What is inside one block lies within a range if it lies within a piece. -/
theorem within_pieces {a n : Nat} (h : InBlock (a, n)) (mof nb : Nat) :
    (mof ≤ a ∧ a + n ≤ mof + nb) ↔ ∃ p ∈ pieces mof nb, p.1 ≤ a ∧ a + n ≤ p.1 + p.2 := by
  unfold InBlock mapBlockSize at h
  fun_induction pieces mof nb with
  | case1 =>
    simp only [not_mem_nil, false_and, exists_false, iff_false]
    omega
  | case2 mof nb hne hnb ih =>
    rw [exists_mem_cons_iff, ← ih]
    have hcut : hnb = min (8192 - mof % 8192) nb := rfl
    omega

/-- Ranges that share a byte in one block have one hash. -/
theorem mapIndex_eq {p : Nat × Nat} (hp : InBlock p) {e : Me δ} (he : InBlock (e.mof, e.nb))
    (hw : e.within p.1 p.2 = true) (nhash : Nat) : mapIndex nhash e.mof = mapIndex nhash p.1 := by
  have hdiv : e.mof / 8192 = p.1 / 8192 := by grind [Me.within, InBlock, mapBlockSize]
  unfold mapIndex mapBlockSize
  rw [hdiv]

namespace Deltamap

variable {m : Deltamap δ} {p : Nat × Nat} {ps : List (Nat × Nat)}

theorem has_setChain (mof : Nat) (n e : Me δ) :
    (m.setChain mof (n :: m.hash (mapIndex m.nhash mof))).Has e ↔ e = n ∨ m.Has e := by
  simp only [Has, setChain, update_apply]
  constructor
  · rintro ⟨i, he⟩
    split at he <;> grind
  · rintro (rfl | ⟨i, he⟩)
    · exact ⟨_, by rw [if_pos rfl]; exact mem_cons_self⟩
    · exact ⟨i, by split <;> grind⟩

theorem addPiece_spec (hm : m.Placed) (hp : InBlock p) (dt : DeltaType) (src : δ) :
    (addPiece dt src m p).Placed ∧
      ∀ x, (addPiece dt src m p).Covers x ↔ m.Covers x ∨ p.1 ≤ x ∧ x < p.1 + p.2 := by
  unfold addPiece
  dsimp only
  split
  · next hany =>
    obtain ⟨e, he, hs⟩ := any_eq_true.mp hany
    refine ⟨hm, fun x => ⟨.inl, fun h => h.elim id fun hx => ⟨e, ⟨_, he⟩, ?_⟩⟩⟩
    grind [Me.spans]
  next hany =>
  refine ⟨fun i => ?_, fun x => ?_⟩
  · have := hm i
    simp only [setChain, update_apply]
    split <;> grind [Me.spans, InBlock]
  · simp only [Covers, has_setChain, or_and_right, exists_or, exists_eq_left]
    exact or_comm

/-- Every piece is covered, and nothing else. -/
theorem Placed.deltamapAdd (hm : m.Placed) (mof nb : Nat) (dt : DeltaType) (src : δ) :
    (m.deltamapAdd mof nb dt src).Placed ∧
      ∀ x, (m.deltamapAdd mof nb dt src).Covers x ↔ m.Covers x ∨ mof ≤ x ∧ x < mof + nb := by
  have hfold : ∀ ps : List (Nat × Nat), (∀ p ∈ ps, InBlock p) → ∀ m : Deltamap δ, m.Placed →
      (ps.foldl (addPiece dt src) m).Placed ∧ ∀ x, (ps.foldl (addPiece dt src) m).Covers x ↔
        m.Covers x ∨ ∃ p ∈ ps, p.1 ≤ x ∧ x + 1 ≤ p.1 + p.2 := by
    intro ps hps
    induction ps with
    | nil => simp
    | cons p ps ih =>
      rw [forall_mem_cons] at hps
      intro m hm
      obtain ⟨hplaced, hcov⟩ := addPiece_spec hm hps.1 dt src
      refine ⟨(ih hps.2 _ hplaced).1, fun x => ((ih hps.2 _ hplaced).2 x).trans ?_⟩
      rw [hcov, exists_mem_cons_iff, or_assoc]
      rfl
  refine ⟨(hfold _ (pieces_inBlock mof nb) m hm).1, fun x => ?_⟩
  have hx : InBlock (x, 1) := ⟨Nat.one_pos, Nat.mod_lt x (by decide)⟩
  exact ((hfold _ (pieces_inBlock mof nb) m hm).2 x).trans
    (or_congr_right (within_pieces hx mof nb).symm)

theorem unhash_eq (c mer : List (Me δ)) : unhash p c mer = (c.filter fun e => !e.within p.1 p.2,
      (c.filter fun e => e.within p.1 p.2).reverse ++ mer) := by
  induction c generalizing mer with
  | nil => rfl
  | cons e c ih =>
    rw [unhash]
    split <;> simp_all

variable {s : Deltamap δ × List (Me δ)} {asked : Me δ → Bool}

/-- A turn of the loop takes the entries within its piece, which are all on its
    chain. -/
theorem Removes.piece (h : m.Removes asked s) (hp : InBlock p) :
    m.Removes (fun e => asked e || e.within p.1 p.2) (removePiece s p) := by
  obtain ⟨m', mer⟩ := s
  obtain ⟨hplaced, hkept, hnodup, hmem⟩ := h
  have hchain : ∀ i, ∀ e ∈ m'.hash i, e.within p.1 p.2 = true → mapIndex m'.nhash p.1 = i :=
    fun i e he hw => (mapIndex_eq hp ((hplaced i).2 e he).1 hw _).symm.trans ((hplaced i).2 e he).2
  have hhash : ∀ i, (removePiece (m', mer) p).1.hash i =
      (m'.hash i).filter fun e => !e.within p.1 p.2 := by
    intro i
    unfold removePiece setChain
    dsimp only
    rw [unhash_eq, update_apply]
    split
    · next hi => rw [hi]
    · next hi => exact (filter_eq_self.mpr fun e he => by grind).symm
  have htaken : (removePiece (m', mer) p).2 =
      ((m'.hash (mapIndex m'.nhash p.1)).filter fun e => e.within p.1 p.2).reverse ++ mer := by
    rw [removePiece, unhash_eq]
  refine ⟨fun i => ?_, fun i => ?_, ?_, fun e => ?_⟩
  · rw [hhash]
    exact ⟨(hplaced i).1.filter _, fun e he => (hplaced i).2 e (mem_of_mem_filter he)⟩
  · rw [hhash, hkept, filter_filter]
    grind
  · rw [htaken]
    refine nodup_append.mpr ⟨nodup_reverse.mpr ((hplaced _).1.filter _), hnodup, ?_⟩
    grind
  · rw [htaken]
    unfold Has at hmem ⊢
    grind

theorem Removes.fold (h : m.Removes asked s) (hps : ∀ p ∈ ps, InBlock p) :
    m.Removes (fun e => asked e || ps.any fun p => e.within p.1 p.2) (ps.foldl removePiece s) := by
  induction ps generalizing s asked with
  | nil => simpa using h
  | cons p ps ih =>
    rw [forall_mem_cons] at hps
    simpa [Bool.or_assoc] using ih (h.piece hps.1) hps.2

theorem Placed.deltamapRemove (hm : m.Placed) (mof nb : Nat) :
    m.Removes (fun e => e.within mof nb) (m.deltamapRemove mof nb) := by
  have hwithin : ∀ e, m.Has e →
      ((pieces mof nb).any fun p => e.within p.1 p.2) = e.within mof nb := by
    rintro e ⟨i, he⟩
    rw [Bool.eq_iff_iff]
    simpa [Me.within] using (within_pieces ((hm i).2 e he).1 mof nb).symm
  have hnone : m.Removes (fun _ => false) (m, []) := ⟨hm, by simp, nodup_nil, by simp⟩
  obtain ⟨hplaced, hkept, hnodup, hmem⟩ := hnone.fold (pieces_inBlock mof nb)
  refine ⟨hplaced, fun i => (hkept i).trans (filter_congr fun e he => ?_), hnodup, fun e => ?_⟩
  · rw [Bool.false_or, hwithin e ⟨i, he⟩]
  · exact (hmem e).trans (and_congr_right fun he => by rw [Bool.false_or, hwithin e he])

end Deltamap

theorem deltamaps_placed (m : Deltamap δ) (hr : (deltamaps δ).Reachable m) : m.Placed := by
  refine System.Reachable.invariant _ Deltamap.Placed (fun m h i => ?_) ?_ m hr
  · rw [h i]
    simp
  · intro m m' op hm hs
    cases op <;> cases hs
    · exact (hm.deltamapAdd ..).1
    · exact (hm.deltamapRemove ..).placed

/-- In every state of every run each entry is in one block and on its chain.
    Adding a range covers it and nothing else. Removing a range takes and
    returns the entries within it, each once, and leaves the others as they are. -/
theorem deltamap_coverage (m : Deltamap δ) (hr : (deltamaps δ).Reachable m) : m.Placed ∧
      (∀ mof nb dt src x, (m.deltamapAdd mof nb dt src).Covers x ↔
        m.Covers x ∨ mof ≤ x ∧ x < mof + nb) ∧
      ∀ mof nb, m.Removes (fun e => e.within mof nb) (m.deltamapRemove mof nb) := by
  have hm := deltamaps_placed m hr
  exact ⟨hm, fun mof nb dt src => (hm.deltamapAdd mof nb dt src).2, hm.deltamapRemove⟩

/-- A range over the border of a block, next to one in the second block, which is then
    removed with the part that the first one has there. -/
theorem deltamap_coverage_border : ∃ m : Deltamap Unit, m.Placed ∧ (m.hash 1).length = 1 ∧
    (∀ x, (m.deltamapAdd 8190 4 .dir ()).Covers x ↔ m.Covers x ∨ 8190 ≤ x ∧ x < 8190 + 4) ∧
    ∃ m' : Deltamap Unit, (m'.hash 1).length = 2 ∧
      m'.Removes (fun e => e.within 8192 512) (m'.deltamapRemove 8192 512) := by
  have h0 : (deltamaps Unit).Reachable ⟨64, 0, fun _ => []⟩ := .init _ fun _ => rfl
  have h1 := System.Reachable.of_step _ _ _ (.add 8200 8 .dir ()) h0 rfl
  have h2 := System.Reachable.of_step _ _ _ (.add 8190 4 .dir ()) h1 rfl
  have hm := deltamap_coverage _ h1
  exact ⟨_, hm.1, by decide +kernel, hm.2.1 8190 4 .dir (), _, by decide +kernel,
    (deltamap_coverage _ h2).2.2 8192 512⟩

end Sol7.UfsLog
