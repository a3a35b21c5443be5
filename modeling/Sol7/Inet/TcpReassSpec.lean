import Sol7.Inet.TcpReass
import Sol7.Lib.Serial
import Sol7.Lib.Spans

/-!
# The TCP Reassembly Queue Delivers the Stream

Within the window every sequence number stands for one position of the stream
(`serialPos`), and the comparisons of the source compare positions. The queue
is a sorted chain of ranges of the stream (`ChainOk`). Putting an mblk on it
adds its range to what is covered, and what is eaten off the queue is the
covered range at its front.

Pieces may become empty: an mblk that starts where another one starts is
trimmed to nothing, or trims the other one to nothing. They stay on the queue
and do no harm.

## Main definitions

* `PieceOk`, `ChainOk`: Ranges of the stream on the queue.
* `Covers`: The positions that a chain covers.
* `lastAddr`: Where the tail should point.
* `TcpStream.Ok`: What holds after every call.

## Theorems

* `elimOverlap_spec`: Trimming keeps what is covered.
* `insertSlot_spec`, `TcpReass.insert_spec`: A piece is put on the queue.
* `insertAll_spec`: So are all pieces of a segment.
* `eat_spec`: What is eaten off the queue.
* `arrive_ok`: A segment arrives.
* `tcpReass_delivers`: The stream is delivered.
-/

namespace Sol7.Inet

open List ReassMblk TcpReass

section
variable (stream : Nat → UInt8) (R : Nat)

/-- A piece is a range of the stream within the window from `R` on. -/
structure PieceOk (p : ReassMblk) : Prop where
  le : serialPos R p.seq ≤ serialPos R p.endSeq
  window : serialPos R p.endSeq < R + 2 ^ 31
  data : p.data = readAt stream (serialPos R p.seq) (serialPos R p.endSeq - serialPos R p.seq)

/-- The pieces are sorted and do not overlap. -/
structure ChainOk (ps : List ReassMblk) : Prop where
  pieces : ∀ p ∈ ps, PieceOk stream R p
  sorted : ps.Pairwise fun p q => serialPos R p.endSeq ≤ serialPos R q.seq

/-- A position is covered by one of the pieces. -/
def Covers (ps : List ReassMblk) (n : Nat) : Prop :=
  ∃ p ∈ ps, serialPos R p.seq ≤ n ∧ n < serialPos R p.endSeq

/-- The address of the last piece. -/
def lastAddr (ps : List ReassMblk) : Option Nat := ps.getLast?.map addr

end

variable {stream : Nat → UInt8} {R : Nat}

section
variable {x y : BitVec 32} (hx : serialPos R x < R + 2 ^ 31)
  (hy : serialPos R y < R + 2 ^ 31)
include hx hy

theorem toInt_seq_sub : (x - y).toInt = (serialPos R x : Int) - serialPos R y :=
  toInt_serial_sub (by omega) (by omega)

theorem seqLt_iff : seqLt x y = true ↔ serialPos R x < serialPos R y := by
  rw [seqLt, decide_eq_true_eq, toInt_seq_sub hx hy]
  omega

theorem seqLeq_iff : seqLeq x y = true ↔ serialPos R x ≤ serialPos R y := by
  rw [seqLeq, decide_eq_true_eq, toInt_seq_sub hx hy]
  omega

theorem seqGt_iff : seqGt x y = true ↔ serialPos R y < serialPos R x := by
  rw [seqGt, decide_eq_true_eq, toInt_seq_sub hx hy]
  omega

theorem seqGeq_iff : seqGeq x y = true ↔ serialPos R y ≤ serialPos R x := by
  rw [seqGeq, decide_eq_true_eq, toInt_seq_sub hx hy]
  omega

end

section
variable {p q : ReassMblk} {ps : List ReassMblk}

theorem PieceOk.start_window (h : PieceOk stream R p) : serialPos R p.seq < R + 2 ^ 31 :=
  h.le.trans_lt h.window

theorem ChainOk.nil : ChainOk stream R [] := ⟨nofun, .nil⟩

theorem ChainOk.singleton (h : PieceOk stream R p) : ChainOk stream R [p] :=
  ⟨fun _ hq => mem_singleton.mp hq ▸ h, pairwise_singleton _ _⟩

theorem ChainOk.head (h : ChainOk stream R (p :: ps)) : PieceOk stream R p :=
  h.pieces p mem_cons_self

theorem ChainOk.tail (h : ChainOk stream R (p :: ps)) : ChainOk stream R ps :=
  ⟨(forall_mem_cons.mp h.pieces).2, (pairwise_cons.mp h.sorted).2⟩

theorem ChainOk.head_le (h : ChainOk stream R (p :: ps)) :
    ∀ q ∈ p :: ps, serialPos R p.seq ≤ serialPos R q.seq :=
  forall_mem_cons.mpr ⟨le_rfl, fun q hq =>
    h.head.le.trans ((pairwise_cons.mp h.sorted).1 q hq)⟩

theorem ChainOk.cons (h : ChainOk stream R (q :: ps)) (hp : PieceOk stream R p)
    (hle : serialPos R p.endSeq ≤ serialPos R q.seq) : ChainOk stream R (p :: q :: ps) := by
  constructor
  · exact forall_mem_cons.mpr ⟨hp, h.pieces⟩
  · exact pairwise_cons.mpr ⟨fun a ha => hle.trans (h.head_le a ha), h.sorted⟩

theorem covers_cons {n : Nat} : Covers R (p :: ps) n ↔
    (serialPos R p.seq ≤ n ∧ n < serialPos R p.endSeq) ∨ Covers R ps n := by
  exact exists_mem_cons_iff _ _ _

theorem lastAddr_cons_cons : lastAddr (p :: q :: ps) = lastAddr (q :: ps) := by
  unfold lastAddr
  rw [getLast?_cons_cons]

/-- Cut a piece at a position within it. -/
theorem PieceOk.trim (h : PieceOk stream R p) {x : BitVec 32}
    (hlo : serialPos R p.seq ≤ serialPos R x) (hhi : serialPos R x ≤ serialPos R p.endSeq) :
    PieceOk stream R
      { p with data := p.data.take (p.data.length - (p.endSeq - x).toNat), endSeq := x } := by
  refine ⟨hlo, hhi.trans_lt h.window, ?_⟩
  change p.data.take _ = _
  rw [toNat_serial_sub hhi, h.data, length_readAt, take_readAt]
  congr 1
  change _ = serialPos R x - serialPos R p.seq
  omega

end

/-! ### Trimming -/

/-- The mblk and what is left behind it, after the overlap has been trimmed. -/
structure Trimmed (stream : Nat → UInt8) (R : Nat) (mp : ReassMblk) (mps : List ReassMblk)
    (r : ReassMblk × List ReassMblk × Bool) : Prop where
  addr : r.1.addr = mp.addr
  seq : r.1.seq = mp.seq
  chain : ChainOk stream R (r.1 :: r.2.1)
  covers : ∀ n, Covers R (r.1 :: r.2.1) n ↔ Covers R (mp :: mps) n
  suffix : r.2.1 <:+ mps
  tail : ∀ tail, (mps ≠ [] → tail = lastAddr mps) →
    (if r.2.2 then some mp.addr else tail) = lastAddr (r.1 :: r.2.1)

variable {mps : List ReassMblk}

/-- Trimming an mblk against what follows keeps what is covered. -/
theorem elimOverlap_spec {mp : ReassMblk} (hmp : PieceOk stream R mp)
    (hmps : ChainOk stream R mps) (hle : ∀ q ∈ mps, serialPos R mp.seq ≤ serialPos R q.seq) :
    Trimmed stream R mp mps (elimOverlap mp mps) := by
  induction mps with
  | nil => exact ⟨rfl, rfl, .singleton hmp, fun _ => Iff.rfl, suffix_rfl, fun _ _ => rfl⟩
  | cons mp1 mps ih =>
    have h1 := hmps.head
    have hmp1 := hle mp1 mem_cons_self
    unfold elimOverlap
    split
    · next hgt =>
        -- No overlap: the mblk ends before the next one starts.
        rw [Bool.not_eq_true', Bool.eq_false_iff, ne_eq,
          seqGt_iff hmp.window h1.start_window, not_lt] at hgt
        refine ⟨rfl, rfl, hmps.cons hmp hgt, fun _ => Iff.rfl, suffix_rfl, ?_⟩
        intro tail htail
        exact htail (cons_ne_nil _ _)
    · next hgt =>
        rw [Bool.not_eq_true', Bool.not_eq_false, seqGt_iff hmp.window h1.start_window] at hgt
        split
        · next hgeq =>
            -- The next mblk reaches further: the mblk is cut where that starts.
            rw [Bool.not_eq_true', Bool.eq_false_iff, ne_eq, seqGeq_iff hmp.window h1.window] at hgeq
            refine ⟨rfl, rfl, hmps.cons (hmp.trim hmp1 hgt.le) le_rfl, fun n => ?_, suffix_rfl, ?_⟩
            · simp only [covers_cons, ← or_assoc]
              refine or_congr_left ?_
              omega
            · intro tail htail
              exact htail (cons_ne_nil _ _)
        · next hgeq =>
            -- The next mblk is covered, and is freed.
            rw [Bool.not_eq_true', Bool.not_eq_false, seqGeq_iff hmp.window h1.window] at hgeq
            have hrest := ih hmps.tail (forall_mem_cons.mp hle).2
            refine ⟨hrest.addr, hrest.seq, hrest.chain, fun n => ?_,
              hrest.suffix.trans (suffix_cons _ _), ?_⟩
            · rw [hrest.covers]
              simp only [covers_cons, ← or_assoc]
              refine or_congr_left ?_
              omega
            · intro tail htail
              refine hrest.tail tail fun hne => ?_
              obtain ⟨a, l, rfl⟩ := exists_cons_of_ne_nil hne
              rw [htail (cons_ne_nil _ _), lastAddr_cons_cons]

/-! ### Inserting -/

section

/-- What is asked of a chain into which an mblk has been put: the first mblk
    starts where it did, and the tail is where it should be. -/
structure Inserted (stream : Nat → UInt8) (R : Nat) (mp : ReassMblk) (ps : List ReassMblk)
    (start : BitVec 32) (r : List ReassMblk × Option Nat) : Prop where
  chain : ChainOk stream R r.1
  first : ∃ p mps, r.1 = p :: mps ∧ p.seq = start
  covers : ∀ n, Covers R r.1 n ↔ Covers R (mp :: ps) n
  tail : r.2 = lastAddr r.1
  addrs : (r.1.map addr).Subperm (mp.addr :: ps.map addr)

variable {ps mp2 mps qs : List ReassMblk} {p q mp mp1 : ReassMblk}

theorem covers_swap {n : Nat} : Covers R (p :: q :: ps) n ↔ Covers R (q :: p :: ps) n := by
  rw [covers_cons, covers_cons, covers_cons, covers_cons]
  exact or_left_comm

theorem linkBetween_spec (hmp : PieceOk stream R mp) (h : ChainOk stream R (mp1 :: mp2))
    (hlo : serialPos R mp1.seq ≤ serialPos R mp.seq)
    (hhi : ∀ q ∈ mp2, serialPos R mp.seq ≤ serialPos R q.seq) :
    Inserted stream R mp (mp1 :: mp2) mp1.seq
      (linkBetween (lastAddr (mp1 :: mp2)) mp mp1 mp2) := by
  obtain ⟨haddr, hseq, hok, hcov, hsuf, htail⟩ := elimOverlap_spec hmp h.tail hhi
  unfold linkBetween
  generalize elimOverlap mp mp2 = next at *
  have hle : ∀ q ∈ next.1 :: next.2.1, serialPos R mp1.seq ≤ serialPos R q.seq := by
    intro q hq
    refine le_trans ?_ (hok.head_le q hq)
    rw [hseq]
    exact hlo
  obtain ⟨haddr', hseq', hok', hcov', hsuf', htail'⟩ := elimOverlap_spec h.head hok hle
  refine ⟨hok', ⟨_, _, rfl, hseq'⟩, fun n => ?_, ?_, ?_⟩
  · rw [hcov', covers_cons, hcov, ← covers_cons, covers_swap]
  · refine htail' _ fun _ => htail _ fun hne => ?_
    obtain ⟨a, l, rfl⟩ := exists_cons_of_ne_nil hne
    exact lastAddr_cons_cons
  · have hsub : (mp1.addr :: mp.addr :: next.2.1.map addr).Sublist
        (mp1.addr :: mp.addr :: mp2.map addr) :=
      ((hsuf.sublist.map _).cons_cons _).cons_cons _
    have hsub' := (hsuf'.sublist.map addr).cons_cons mp1.addr
    rw [map_cons, haddr] at hsub'
    rw [map_cons, haddr']
    exact (hsub'.trans hsub).subperm.trans (List.Perm.swap _ _ _).subperm

theorem insertSlot_spec (hmp : PieceOk stream R mp) (h : ChainOk stream R (mp1 :: mps))
    (hlo : serialPos R mp1.seq ≤ serialPos R mp.seq) :
    Inserted stream R mp (mp1 :: mps) mp1.seq (insertSlot (lastAddr (mp1 :: mps)) mp mp1 mps) := by
  induction mps generalizing mp1 with
  | nil => exact linkBetween_spec hmp h hlo nofun
  | cons mp2 mps ih =>
    have h2 := h.tail.head
    unfold insertSlot
    split
    · next hleq =>
        rw [seqLeq_iff hmp.start_window h2.start_window] at hleq
        exact linkBetween_spec hmp h hlo fun q hq => hleq.trans (h.tail.head_le q hq)
    next hleq =>
      rw [seqLeq_iff hmp.start_window h2.start_window, not_le] at hleq
      rw [lastAddr_cons_cons]
      have hrest := ih h.tail hleq.le
      obtain ⟨p, ps, heq, hseq⟩ := hrest.first
      have hend : serialPos R mp1.endSeq ≤ serialPos R p.seq := by
        rw [hseq]
        exact (pairwise_cons.mp h.sorted).1 mp2 mem_cons_self
      refine ⟨?_, ⟨_, _, rfl, rfl⟩, fun n => ?_, ?_, ?_⟩
      · have hchain := hrest.chain
        rw [heq] at hchain
        rw [heq]
        exact hchain.cons h.head hend
      · rw [covers_cons, hrest.covers, ← covers_cons, covers_swap]
      · rw [hrest.tail, heq, lastAddr_cons_cons]
      · exact ((subperm_cons _).mpr hrest.addrs).trans (List.Perm.swap _ _ _).subperm

/-- With distinct addresses, the tail pointer finds the last mblk. -/
theorem endSeqAt_last (hnodup : ((ps ++ [p]).map addr).Nodup) :
    endSeqAt p.addr (ps ++ [p]) = p.endSeq ∧
      ∀ mp, linkAfter p.addr mp (ps ++ [p]) = ps ++ [p, mp] := by
  induction ps with
  | nil => exact ⟨if_pos rfl, fun _ => if_pos rfl⟩
  | cons q ps ih =>
    rw [cons_append, map_cons, nodup_cons] at hnodup
    have hne : q.addr ≠ p.addr := by
      intro heq
      refine hnodup.1 (mem_map.mpr ⟨p, ?_, heq.symm⟩)
      exact mem_append_right _ mem_cons_self
    obtain ⟨hend, hlink⟩ := ih hnodup.2
    refine ⟨?_, fun mp => ?_⟩
    · rw [cons_append, endSeqAt, if_neg hne, hend]
    · rw [cons_append, linkAfter, if_neg hne, hlink, cons_append]

/-- The queue of a connection. -/
structure QueueOk (stream : Nat → UInt8) (R : Nat) (s : TcpReass) : Prop where
  chain : ChainOk stream R s.head
  tail : s.tail = lastAddr s.head
  addrs : (s.head.map addr).Nodup

theorem ChainOk.concat (h : ChainOk stream R (ps ++ [p])) (hmp : PieceOk stream R mp)
    (hle : serialPos R p.endSeq ≤ serialPos R mp.seq) : ChainOk stream R (ps ++ [p, mp]) := by
  rw [append_cons]
  constructor
  · exact forall_mem_append.mpr ⟨h.pieces, forall_mem_singleton.mpr hmp⟩
  refine pairwise_append.mpr ⟨h.sorted, pairwise_singleton _ _, fun a ha b hb => ?_⟩
  rw [mem_singleton.mp hb]
  refine le_trans ?_ hle
  rcases mem_append.mp ha with ha' | ha'
  · refine le_trans ?_ (h.pieces p (mem_append_right _ mem_cons_self)).le
    exact (pairwise_append.mp h.sorted).2.2 a ha' p mem_cons_self
  · exact mem_singleton.mp ha' ▸ le_rfl

theorem covers_append {n : Nat} : Covers R (ps ++ qs) n ↔ Covers R ps n ∨ Covers R qs n := by
  unfold Covers
  simp only [mem_append, or_and_right, exists_or]

theorem insert_spec {s : TcpReass} (h : QueueOk stream R s) (hmp : PieceOk stream R mp)
    (hnew : mp.addr ∉ s.head.map addr) :
    QueueOk stream R (s.insert mp) ∧ (s.insert mp).rnxt = s.rnxt ∧ (s.insert mp).head ≠ [] ∧
      (∀ n, Covers R (s.insert mp).head n ↔ Covers R (mp :: s.head) n) ∧
      (s.insert mp).head.map addr ⊆ mp.addr :: s.head.map addr := by
  have hnodup : (mp.addr :: s.head.map addr).Nodup := nodup_cons.mpr ⟨hnew, h.addrs⟩
  have htail := h.tail
  unfold TcpReass.insert
  split
  · next hnone =>
      -- The first mblk of all.
      have hnil : s.head = [] := by
        rw [hnone] at htail
        exact getLast?_eq_none_iff.mp (Option.map_eq_none_iff.mp htail.symm)
      refine ⟨⟨.singleton hmp, rfl, nodup_singleton _⟩, rfl, cons_ne_nil _ _, fun n => ?_, ?_⟩
      · rw [hnil]
      · rw [hnil]
        exact fun _ ha => ha
  · next t hsome =>
      rcases eq_nil_or_concat' s.head with hnil | ⟨ps, p, hconcat⟩
      · rw [hnil, hsome] at htail
        cases htail
      have hchain := h.chain
      have haddrs := h.addrs
      rw [hconcat] at hchain haddrs
      have hp := hchain.pieces p (mem_append_right _ mem_cons_self)
      have ht : t = p.addr := by
        rw [hsome, hconcat, lastAddr, getLast?_concat, Option.map_some] at htail
        exact Option.some.inj htail
      obtain ⟨hend, hlink⟩ := endSeqAt_last haddrs
      split
      · next hgeq =>
          -- Completely beyond the tail.
          rw [hconcat, ht, hend, seqGeq_iff hmp.start_window hp.window] at hgeq
          rw [hconcat, ht, hlink]
          have hperm : ((ps ++ [p, mp]).map addr).Perm
              (mp.addr :: (ps ++ [p]).map addr) := by
            rw [append_cons, map_append]
            exact perm_append_singleton _ _
          rw [hconcat] at hnodup
          refine ⟨⟨hchain.concat hmp hgeq, ?_, hperm.nodup_iff.mpr hnodup⟩, rfl, ?_, fun n => ?_,
            hperm.subset⟩
          · rw [lastAddr, append_cons, getLast?_concat]
            rfl
          · exact append_ne_nil_of_right_ne_nil _ (cons_ne_nil _ _)
          · rw [append_cons, covers_append, or_comm, covers_cons, covers_cons]
            simp only [Covers, not_mem_nil, false_and, exists_false, or_false]
      · have hordered := h.chain
        split
        · next hnil =>
            exact absurd (hnil.symm.trans hconcat)
              (append_ne_nil_of_right_ne_nil _ (cons_ne_nil _ _)).symm
        next mp1 mps hcons =>
          rw [hcons] at hordered htail hnodup
          rw [hcons]
          split
          · next hlt =>
              -- At the front.
              rw [seqLt_iff hmp.start_window hordered.head.start_window] at hlt
              have hle : ∀ q ∈ mp1 :: mps, serialPos R mp.seq ≤ serialPos R q.seq := fun q hq =>
                (le_of_lt hlt).trans (hordered.head_le q hq)
              obtain ⟨haddr, _, hok, hcov, hsuf, htl⟩ := elimOverlap_spec hmp hordered hle
              have hsub : (((elimOverlap mp (mp1 :: mps)).1 ::
                  (elimOverlap mp (mp1 :: mps)).2.1).map addr).Sublist
                    (mp.addr :: (mp1 :: mps).map addr) := by
                rw [map_cons, haddr]
                exact (hsuf.sublist.map _).cons_cons _
              exact ⟨⟨hok, htl _ fun _ => htail, hsub.nodup hnodup⟩, rfl, cons_ne_nil _ _,
                hcov, hsub.subset⟩
          · next hlt =>
              rw [seqLt_iff hmp.start_window hordered.head.start_window, not_lt] at hlt
              have hins := insertSlot_spec hmp hordered hlt
              rw [← htail] at hins
              refine ⟨⟨hins.chain, hins.tail, Spans.nodup_of_subperm hins.addrs hnodup⟩, rfl, ?_,
                hins.covers, hins.addrs.subset⟩
              obtain ⟨p, ps, heq, _⟩ := hins.first
              rw [heq]
              exact cons_ne_nil _ _

/-- All pieces of a segment are put on the queue. -/
theorem insertAll_spec {s : TcpReass} (h : QueueOk stream R s) {mps : List Mblk} {a : Nat}
    (hlo : R ≤ a) (hhi : a + msgdsize mps < R + 2 ^ 31)
    (hdata : msgData mps = readAt stream a (msgdsize mps)) (hnodup : (mps.map Mblk.addr).Nodup)
    (hnew : ∀ mp ∈ mps, mp.addr ∉ s.head.map addr) :
    QueueOk stream R (s.insertAll mps (BitVec.ofNat 32 a)).1 ∧
      (s.insertAll mps (BitVec.ofNat 32 a)).1.rnxt = s.rnxt ∧
      (s.head ≠ [] ∨ 0 < msgdsize mps → (s.insertAll mps (BitVec.ofNat 32 a)).1.head ≠ []) ∧
      ∀ n, Covers R (s.insertAll mps (BitVec.ofNat 32 a)).1.head n ↔
        Covers R s.head n ∨ a ≤ n ∧ n < a + msgdsize mps := by
  induction mps generalizing s a with
  | nil =>
    refine ⟨h, rfl, fun hor => hor.elim id fun hpos => absurd hpos (lt_irrefl 0), fun n => ?_⟩
    change Covers R s.head n ↔ Covers R s.head n ∨ a ≤ n ∧ n < a + 0
    exact ⟨.inl, fun hor => hor.elim id fun hn => absurd hn.1 (by omega)⟩
  | cons mp mps ih =>
    rw [msgdsize_cons] at hhi hdata ⊢
    rw [map_cons, nodup_cons] at hnodup
    rw [readAt_add] at hdata
    obtain ⟨hfst, hsnd⟩ := append_inj hdata (length_readAt _ _ _).symm
    have hend : BitVec.ofNat 32 a + BitVec.ofNat 32 mp.data.length =
        BitVec.ofNat 32 (a + mp.data.length) := (BitVec.ofNat_add _ _).symm
    have hpa : serialPos R (BitVec.ofNat 32 a) = a := serialPos_ofNat hlo (by omega)
    have hpe : serialPos R (BitVec.ofNat 32 (a + mp.data.length)) = a + mp.data.length :=
      serialPos_ofNat (by omega) (by omega)
    unfold insertAll
    simp only [hend]
    split
    · next heq =>
        -- An empty mblk is freed.
        have hzero : mp.data.length = 0 := by
          have := congrArg (serialPos R) heq
          omega
        rw [hzero, add_zero] at hsnd ⊢
        rw [zero_add]
        exact ih h hlo (by omega) hsnd hnodup.2 (forall_mem_cons.mp hnew).2
    · next hne =>
        have hpiece : PieceOk stream R
            ⟨mp.addr, BitVec.ofNat 32 a, BitVec.ofNat 32 (a + mp.data.length), mp.data⟩ := by
          refine ⟨?_, ?_, ?_⟩
          · rw [hpa, hpe]
            omega
          · rw [hpe]
            omega
          · rw [hpa, hpe, Nat.add_sub_cancel_left]
            exact hfst
        obtain ⟨hok, hrnxt, hhead, hcov, hsub⟩ := insert_spec h hpiece (hnew mp mem_cons_self)
        have hnew' : ∀ mp' ∈ mps, mp'.addr ∉ (s.insert ⟨mp.addr, BitVec.ofNat 32 a,
            BitVec.ofNat 32 (a + mp.data.length), mp.data⟩).head.map addr := by
          intro mp' hmp' hmem
          rcases mem_cons.mp (hsub hmem) with heq | hold
          · exact hnodup.1 (mem_map.mpr ⟨mp', hmp', heq⟩)
          · exact hnew mp' (mem_cons_of_mem _ hmp') hold
        obtain ⟨hok', hrnxt', hhead', hcov'⟩ := ih hok (by omega) (by omega) hsnd hnodup.2 hnew'
        refine ⟨hok', hrnxt'.trans hrnxt, fun _ => hhead' (.inl hhead), fun n => ?_⟩
        rw [hcov', hcov, covers_cons, hpa, hpe]
        by_cases hold : Covers R s.head n
        · simp only [hold, or_true, true_or]
        · simp only [hold, or_false, false_or]
          omega

end

/-! ### Eating -/

/-- What is eaten is the covered range at the front, up to the first gap. -/
theorem eat_spec {mp1 : ReassMblk} (h : ChainOk stream R (mp1 :: mps)) :
    ∃ hi, serialPos R mp1.seq ≤ hi ∧ hi < R + 2 ^ 31 ∧ (eat mp1 mps).1.flatMap data =
        readAt stream (serialPos R mp1.seq) (hi - serialPos R mp1.seq) ∧
      (∀ p ∈ (eat mp1 mps).2, hi < serialPos R p.seq) ∧
      (∀ n, Covers R (mp1 :: mps) n ↔
        serialPos R mp1.seq ≤ n ∧ n < hi ∨ Covers R (eat mp1 mps).2 n) ∧
      (eat mp1 mps).2 <:+ mps := by
  induction mps generalizing mp1 with
  | nil =>
    refine ⟨serialPos R mp1.endSeq, h.head.le, h.head.window, ?_, ?_, fun n => covers_cons,
      suffix_rfl⟩
    · change [mp1].flatMap data = _
      rw [flatMap_singleton]
      exact h.head.data
    · exact nofun
  | cons mp mps ih =>
    have hle := (pairwise_cons.mp h.sorted).1 mp mem_cons_self
    unfold eat
    split
    · next hne =>
        refine ⟨serialPos R mp1.endSeq, h.head.le, h.head.window, ?_, fun p hp => ?_,
          fun n => covers_cons, suffix_rfl⟩
        · rw [flatMap_singleton]
          exact h.head.data
        · have hlt : serialPos R mp1.endSeq < serialPos R mp.seq :=
            lt_of_le_of_ne hle fun heq => hne (serialPos_inj heq)
          exact hlt.trans_le (h.tail.head_le p hp)
    · next heq =>
        rw [Decidable.not_not] at heq
        obtain ⟨hi, hlo, hhi, hdata, hgap, hcov, hsuf⟩ := ih h.tail
        have hle1 := h.head.le
        rw [← heq] at hlo hdata hcov
        refine ⟨hi, by omega, hhi, ?_, hgap, fun n => ?_, hsuf.trans (suffix_cons _ _)⟩
        · rw [flatMap_cons, hdata, h.head.data]
          conv_lhs =>
            rw [show serialPos R mp1.endSeq = serialPos R mp1.seq +
              (serialPos R mp1.endSeq - serialPos R mp1.seq) by omega]
          rw [Nat.add_sub_cancel_left, ← readAt_add]
          congr 1
          omega
        · rw [covers_cons, hcov, ← or_assoc]
          refine or_congr_left ?_
          omega

/-- The window moves on to a later base. -/
theorem ChainOk.rebase {R' : Nat} {ps : List ReassMblk} (h : ChainOk stream R ps) (hle : R ≤ R')
    (hps : ∀ p ∈ ps, R' ≤ serialPos R p.seq) :
    ChainOk stream R' ps ∧ ∀ n, Covers R' ps n ↔ Covers R ps n := by
  have hseq : ∀ p ∈ ps, serialPos R' p.seq = serialPos R p.seq := fun p hp =>
    serialPos_rebase hle (hps p hp)
  have hend : ∀ p ∈ ps, serialPos R' p.endSeq = serialPos R p.endSeq := fun p hp =>
    serialPos_rebase hle ((hps p hp).trans (h.pieces p hp).le)
  refine ⟨⟨fun p hp => ?_, ?_⟩, fun n => ?_⟩
  · have hp' := h.pieces p hp
    refine ⟨?_, ?_, ?_⟩
    · rw [hseq p hp, hend p hp]
      exact hp'.le
    · rw [hend p hp]
      exact hp'.window.trans_le (Nat.add_le_add_right hle _)
    · rw [hseq p hp, hend p hp]
      exact hp'.data
  · refine h.sorted.imp_of_mem fun {p q} hp hq hpq => ?_
    rw [hend p hp, hseq q hq]
    exact hpq
  · refine exists_congr fun p => and_congr_right fun hp => ?_
    rw [hseq p hp, hend p hp]

theorem msgData_map (ps : List ReassMblk) :
    msgData (ps.map fun p => ⟨p.addr, p.data⟩) = ps.flatMap data := by
  rw [msgData, flatMap_map]

theorem length_msgData (mps : List Mblk) : (msgData mps).length = msgdsize mps := by
  rw [msgData, length_flatMap, msgdsize]

/-! ### Runs -/

namespace TcpStream

variable {s s' : TcpStream}

/-- What holds after every call: what was returned is the beginning of the
    stream, up to the first byte that was not received, and the queue covers
    what was received beyond that. -/
structure Ok (stream : Nat → UInt8) (s : TcpStream) : Prop where
  rnxt : s.reass.rnxt = BitVec.ofNat 32 s.nxt
  queue : QueueOk stream s.nxt s.reass
  out : s.out = readAt stream s.first s.out.length
  prior : ∀ n, s.first ≤ n → n < s.nxt → s.Received n
  gap : ¬s.Received s.nxt
  kept : ∀ n, s.nxt ≤ n → (Covers s.nxt s.reass.head n ↔ s.Received n)

theorem Init.ok (h : s.Init) : s.Ok stream := by
  have hnxt : s.nxt = s.first := by rw [nxt, h.out]; rfl
  have hgot : ∀ n, ¬s.Received n := by
    rintro n ⟨seg, hseg, _⟩
    rw [h.got] at hseg
    cases hseg
  refine ⟨hnxt ▸ h.rnxt, ⟨?_, ?_, ?_⟩, ?_, fun n hlo hhi => ?_, hgot _, fun n _ => ?_⟩
  · rw [h.head]
    exact .nil
  · rw [h.head, h.tail]
    rfl
  · rw [h.head]
    exact nodup_nil
  · rw [h.out]
    rfl
  · omega
  · rw [h.head]
    exact ⟨nofun, fun hn => absurd hn (hgot n)⟩

variable {seg : Segment}

theorem received_cons {reass : TcpReass} {first n : Nat} {got : List Segment}
    {out : List UInt8} : Received ⟨reass, first, seg :: got, out⟩ n ↔
      Received ⟨reass, first, got, out⟩ n ∨ seg.pos ≤ n ∧ n < seg.pos + msgdsize seg.mps := by
  rw [or_comm]
  exact exists_mem_cons_iff _ _ _

/-- What a call leaves, if it has returned what was received up to `hi`. -/
theorem Ok.advance (h : s.Ok stream) {reass : TcpReass} {bytes : List UInt8}
    {hi : Nat} (hlo : s.nxt ≤ hi) (hbytes : bytes = readAt stream s.nxt (hi - s.nxt))
    (hrnxt : reass.rnxt = BitVec.ofNat 32 hi) (hqueue : QueueOk stream hi reass)
    (hprior : ∀ n, s.nxt ≤ n → n < hi → s.Received n ∨ seg.pos ≤ n ∧ n < seg.pos + msgdsize seg.mps)
    (hgap : ¬Covers hi reass.head hi) (hkept : ∀ n, hi ≤ n → (Covers hi reass.head n ↔
      s.Received n ∨ seg.pos ≤ n ∧ n < seg.pos + msgdsize seg.mps)) :
    Ok stream ⟨reass, s.first, seg :: s.got, s.out ++ bytes⟩ := by
  have hnxt : (TcpStream.mk reass s.first (seg :: s.got) (s.out ++ bytes)).nxt = hi := by
    rw [nxt, length_append, hbytes, length_readAt, ← add_assoc]
    exact Nat.add_sub_cancel' hlo
  have hrec : ∀ n, hi ≤ n → (Covers hi reass.head n ↔
      Received ⟨reass, s.first, seg :: s.got, s.out ++ bytes⟩ n) := fun n hn =>
    (hkept n hn).trans received_cons.symm
  refine ⟨hnxt ▸ hrnxt, hnxt ▸ hqueue, ?_, fun n hn hn' => ?_, ?_, hnxt ▸ hrec⟩
  · rw [length_append, hbytes, length_readAt, readAt_add, ← h.out]
    rfl
  · rw [hnxt] at hn'
    refine received_cons.mpr ?_
    by_cases hold : n < s.nxt
    · exact .inl (h.prior n hn hold)
    · exact hprior n (le_of_not_gt hold) hn'
  · rw [hnxt]
    exact fun hr => hgap ((hrec hi le_rfl).mpr hr)

/-- A segment arrives: no nil pointer is followed, and all is well again. -/
theorem arrive_ok (h : s.Ok stream) (hfits : s.Fits stream seg) :
    ∃ s', s.arrive seg = some s' ∧ s'.Ok stream := by
  obtain ⟨hpos, hdata, hlo, hhi, hnodup, hnew⟩ := hfits
  have hfresh : ∀ mp ∈ seg.mps, mp.addr ∉ s.reass.head.map addr := by
    intro mp hmp hmem
    obtain ⟨p, hp, heq⟩ := mem_map.mp hmem
    exact hnew mp hmp p hp heq.symm
  obtain ⟨hok, hrnxt, hne, hcov⟩ := insertAll_spec h.queue hlo hhi hdata hnodup hfresh
  -- What is on the queue now is what has been received beyond `tcp_rnxt`.
  have hkept : ∀ n, s.nxt ≤ n →
      (Covers s.nxt (s.reass.insertAll seg.mps (BitVec.ofNat 32 seg.pos)).1.head n ↔
        s.Received n ∨ seg.pos ≤ n ∧ n < seg.pos + msgdsize seg.mps) := fun n hn => by
    rw [hcov, h.kept n hn]
  unfold arrive tcpReass
  generalize s.reass.insertAll seg.mps (BitVec.ofNat 32 seg.pos) = t at *
  obtain ⟨mp1, rest, hcons⟩ := exists_cons_of_ne_nil (hne (.inr hpos))
  have hchain := hok.chain
  rw [hcons] at hchain
  have hbase : serialPos s.nxt t.1.rnxt = s.nxt := by
    rw [hrnxt, h.rnxt]
    exact serialPos_ofNat le_rfl (by omega)
  simp only [hcons]
  by_cases hseq : mp1.seq ≠ t.1.rnxt
  · -- The hole at the front is still there.
    rw [if_pos hseq]
    refine ⟨_, rfl, h.advance le_rfl ?_ ?_ { hok with }
      (fun n hn hn' => absurd hn (not_le.mpr hn')) ?_ hkept⟩
    · rw [Nat.sub_self]
      rfl
    · rw [← h.rnxt, ← hrnxt]
      exact BitVec.add_zero _
    · rintro ⟨p, hp, hle, _⟩
      rw [hcons] at hp
      have hhead := (hchain.head_le p hp).trans hle
      have heq : serialPos s.nxt mp1.seq = serialPos s.nxt t.1.rnxt := by
        rw [hbase]
        exact le_antisymm hhead (le_serialPos _ _)
      exact hseq (serialPos_inj heq)
  · -- The front of the queue is returned.
    rw [if_neg hseq]
    rw [ne_eq, Decidable.not_not] at hseq
    obtain ⟨hi, hlo', hhi', hbytes, hgap, hcov', hsuf⟩ := eat_spec hchain
    rw [hseq, hbase] at hlo' hbytes hcov'
    rw [hcons] at hkept
    generalize eat mp1 rest = r at *
    have hout : msgData (r.1.map fun mp => (⟨mp.addr, mp.data⟩ : Mblk)) =
        readAt stream s.nxt (hi - s.nxt) := by
      rw [msgData_map]
      exact hbytes
    have hlen : msgdsize (r.1.map fun mp => (⟨mp.addr, mp.data⟩ : Mblk)) = hi - s.nxt := by
      rw [← length_msgData, hout, length_readAt]
    have hsufl : r.2.Sublist t.1.head := by
      rw [hcons]
      exact (hsuf.trans (suffix_cons _ _)).sublist
    have hrest : ChainOk stream s.nxt r.2 :=
      ⟨fun p hp => hok.chain.pieces p (hsufl.subset hp), hok.chain.sorted.sublist hsufl⟩
    obtain ⟨hchain', hcovers⟩ := hrest.rebase hlo' fun p hp => le_of_lt (hgap p hp)
    refine ⟨_, rfl, h.advance hlo' hout ?_ ⟨hchain', ?_, (hsufl.map _).nodup hok.addrs⟩
      (fun n hn hn' => (hkept n hn).mp ((hcov' n).mpr (.inl ⟨hn, hn'⟩))) ?_ fun n hn => ?_⟩
    · rw [hlen, hrnxt, h.rnxt, ← BitVec.ofNat_add, Nat.add_sub_cancel' hlo']
    · cases hr : r.2 with
      | nil => rfl
      | cons p ps =>
        rw [hok.tail, hcons]
        obtain ⟨pre, hpre⟩ := hsuf.trans (suffix_cons mp1 rest)
        rw [← hpre, hr]
        unfold lastAddr
        rw [getLast?_append_of_ne_nil _ (cons_ne_nil _ _)]
        rfl
    · rintro ⟨p, hp, hle, _⟩
      have hlt := hgap p hp
      rw [serialPos_rebase hlo' hlt.le] at hle
      omega
    · -- Beyond the bytes that are returned, what was received is left.
      rw [hcovers, ← hkept n (by omega), hcov']
      exact ⟨.inr, fun hor => hor.elim (fun hin => absurd hin.2 (by omega)) id⟩

end TcpStream

theorem tcpStream_ok (stream : Nat → UInt8) (s : TcpStream)
    (hr : (tcpStream stream).Reachable s) : s.Ok stream := by
  refine System.Reachable.invariant (tcpStream stream) (TcpStream.Ok stream)
    (fun _ h => TcpStream.Init.ok h) (fun s s' seg h hs => ?_) s hr
  change (if s.Fits stream seg then s.arrive seg else none) = some s' at hs
  rw [Option.ite_none_right_eq_some] at hs
  obtain ⟨t, ht, hok⟩ := TcpStream.arrive_ok h hs.1
  rw [ht] at hs
  exact Option.some.inj hs.2 ▸ hok

/-- After every call the queue is sorted, its pieces do not overlap and the
    tail is its last element; no byte that was received and not returned is
    lost; and what was returned is the stream from its start, up to the first
    byte that was not received. And every call comes to an end. -/
theorem tcpReass_delivers (stream : Nat → UInt8) (s : TcpStream)
    (hr : (tcpStream stream).Reachable s) : ((∀ p ∈ s.reass.head, seqLeq p.seq p.endSeq = true) ∧
      (s.reass.head.Pairwise fun p q => seqLeq p.endSeq q.seq = true) ∧
      s.reass.tail = s.reass.head.getLast?.map addr) ∧
    (∀ n, s.first + s.out.length ≤ n → s.Received n →
      ∃ p ∈ s.reass.head, serialPos s.nxt p.seq ≤ n ∧
        p.data[n - serialPos s.nxt p.seq]? = some (stream n)) ∧
    (s.out = readAt stream s.first s.out.length ∧
      (∀ n, s.first ≤ n → n < s.first + s.out.length → s.Received n) ∧
      ¬s.Received (s.first + s.out.length)) ∧
    ∀ seg, s.Fits stream seg → ((tcpStream stream).step s seg).isSome = true := by
  have h := tcpStream_ok stream s hr
  have hpieces := h.queue.chain.pieces
  refine ⟨⟨fun p hp => ?_, ?_, h.queue.tail⟩, fun n hn hrec => ?_, ⟨h.out, h.prior, h.gap⟩,
    fun seg hfits => ?_⟩
  · rw [seqLeq_iff (hpieces p hp).start_window (hpieces p hp).window]
    exact (hpieces p hp).le
  · refine h.queue.chain.sorted.imp_of_mem fun {p q} hp hq hpq => ?_
    rw [seqLeq_iff (hpieces p hp).window (hpieces q hq).start_window]
    exact hpq
  · obtain ⟨p, hp, hlo, hhi⟩ := (h.kept n hn).mpr hrec
    refine ⟨p, hp, hlo, ?_⟩
    rw [(hpieces p hp).data, readAt, getElem?_map, getElem?_range (by omega),
      Option.map_some, Nat.add_sub_cancel' hlo]
  · obtain ⟨s', hs', _⟩ := TcpStream.arrive_ok h hfits
    change (if s.Fits stream seg then s.arrive seg else none).isSome = true
    rw [if_pos hfits, hs']
    rfl

/-- A connection whose sequence numbers are about to wrap. -/
def wrapStart : TcpStream where
  reass := { head := [], tail := none, rnxt := BitVec.ofNat 32 4294967292 }
  first := 4294967292
  got := []
  out := []

/-- A segment out of order, in two mblks, and one that overlaps it. -/
def wrapSegments : List Segment :=
  [⟨4294967296, [⟨0, [0, 1]⟩, ⟨1, [2, 3]⟩]⟩, ⟨4294967292, [⟨2, [252, 253, 254, 255, 0, 1, 2]⟩]⟩]

/-- All eight bytes are returned. -/
theorem tcpReass_delivers_wrap :
    ∃ s, (tcpStream UInt8.ofNat).exec wrapStart wrapSegments = some s ∧ s.out.length = 8 ∧
      s.out = readAt UInt8.ofNat 4294967292 8 := by
  have hrun : ((tcpStream UInt8.ofNat).exec wrapStart wrapSegments).any (fun s =>
      s.out.length == 8 && s.first == 4294967292) = true := by
    decide +kernel
  cases hs : (tcpStream UInt8.ofNat).exec wrapStart wrapSegments with
  | none =>
    rw [hs] at hrun
    cases hrun
  | some s =>
    rw [hs, Option.any_some, Bool.and_eq_true, beq_iff_eq, beq_iff_eq] at hrun
    have hr := System.reachable_of_exec (tcpStream UInt8.ofNat) wrapSegments wrapStart s
      ⟨rfl, rfl, rfl, rfl, rfl⟩ hs
    have hout := (tcpReass_delivers UInt8.ofNat s hr).2.2.1.1
    rw [hrun.1, hrun.2] at hout
    exact ⟨s, rfl, hrun.1, hout⟩

end Sol7.Inet
