import Sol7.Lib.Blocks
import Sol7.Rpc.Xdr

/-!
# What a Handle Reads

Both kinds of handle read a message that is divided into blocks, where a buffer
of memory is one block. As long as the count of a read is at most `2 ^ 31` they
read it right, and `x_handy` stays the number of bytes that are left in the
current block. Larger counts become negative and go wrong.

## Main definitions

* `Reads`: What is known about the operations of a handle.
* `XdrMem.Valid`, `XdrMblk.Valid`: The handle counts its current block right.
* `XdrMem.view`, `XdrMblk.view`: The bytes to be read, in blocks.
* `XdrMem.Ahead`, `XdrMblk.Ahead`: The read position has not moved backwards.

## Theorems

* `xdrmem_reads`, `xdrmblk_reads`: Both kinds of handle read a message.
-/

namespace Sol7.Rpc

open List Option Mblk XdrMem Int

/-- The operations of a handle read a message in blocks. -/
structure Reads {σ : Type} (ops : XdrOps σ) (Valid : σ → Prop) (view : σ → List (List UInt8))
    (Ahead : σ → σ → Prop) : Prop where
  refl : ∀ s, Ahead s s
  trans : ∀ {s1 s2 s3}, Ahead s1 s2 → Ahead s2 s3 → Ahead s1 s3
  getint32 : ∀ {s}, Valid s → ∀ {x r}, takeWhole 4 (view s) = some (x, r) →
    ∃ s', ops.getint32 s = (s', some (bigEndianValue x)) ∧ Valid s' ∧ view s' = r ∧ Ahead s s'
  getint32_fails : ∀ {s}, Valid s → takeWhole 4 (view s) = none →
    ∃ s', ops.getint32 s = (s', none) ∧ Ahead s s'
  getbytes : ∀ {s}, Valid s → ∀ {n : Nat}, n ≤ 2 ^ 31 → ∀ {x r},
    takeAcross n (view s) = some (x, r) →
    ∃ s', ops.getbytes s (int32 n) = (s', some (.bytes x)) ∧ Valid s' ∧ view s' = r ∧ Ahead s s'
  getbytes_fails : ∀ {s}, Valid s → ∀ {n : Nat}, n ≤ 2 ^ 31 → takeAcross n (view s) = none →
    ∃ s', ops.getbytes s (int32 n) = (s', none) ∧ Ahead s s'
  /-- At the end of a block a negative count goes wrong, and the bytes before
      the end can then be read again. -/
  getbytes_wild : ∀ {s}, Valid s → (view s).head? = some [] → ∀ {k : Int}, -2 ^ 31 < k → k < 0 →
    ∃ s', ops.getbytes s k = (s', some .wild) ∧ ¬Ahead s s' ∧
      ∀ p : Nat, (p : Int) ≤ -k → ∃ s'' got, ops.getbytes s' (int32 p) = (s'', some got)
  skipbytes : ∀ s n, ops.skipbytes s n =
    ((ops.getbytes s (rndup n)).1, (ops.getbytes s (rndup n)).2.isSome)
  /-- Any message in one block can be read. -/
  exists_view : ∀ b : List UInt8, b.length < 2 ^ 31 → ∃ s, Valid s ∧ view s = [b]

theorem int32_eq {x : Int} (hlo : -2 ^ 31 ≤ x) (hhi : x < 2 ^ 31) : int32 x = x := by
  unfold int32
  omega

/-! ### A buffer of memory -/

namespace XdrMem

/-- `x_handy` is the number of bytes that are left. -/
structure Valid (s : XdrMem) : Prop where
  lo : 0 ≤ s.xPrivate
  hi : s.xPrivate ≤ s.size
  handy : s.xHandy = s.size - s.xPrivate
  lt : s.xHandy < 2 ^ 31

/-- The bytes that are left. -/
def view (s : XdrMem) : List (List UInt8) :=
  [readAt s.mem s.xPrivate.toNat (s.size - s.xPrivate).toNat]

def Ahead (s s' : XdrMem) : Prop := s.xPrivate ≤ s'.xPrivate

variable {s : XdrMem} {n : Nat}

/-- The buffer after some bytes have been read. -/
theorem Valid.advance (h : Valid s) (hn : (n : Int) ≤ s.xHandy) :
    Valid { s with xHandy := s.xHandy - n, xPrivate := s.xPrivate + n } ∧
      view { s with xHandy := s.xHandy - n, xPrivate := s.xPrivate + n } =
        [(readAt s.mem s.xPrivate.toNat (s.size - s.xPrivate).toNat).drop n] := by
  obtain ⟨hlo, hhi, hhandy, hlt⟩ := h
  refine ⟨⟨?_, ?_, ?_, ?_⟩, ?_⟩
  · dsimp only
    omega
  · dsimp only
    omega
  · dsimp only
    omega
  · dsimp only
    omega
  · unfold view
    rw [drop_readAt, show (s.xPrivate + n).toNat = s.xPrivate.toNat + n by omega,
      show (s.size - (s.xPrivate + n)).toNat = (s.size - s.xPrivate).toNat - n by omega]

/-- A count that can be held is handled right, and so is `2 ^ 31`. -/
theorem getbytes_spec (h : Valid s) (hn : n ≤ 2 ^ 31) : if (n : Int) ≤ s.xHandy then
      s.getbytes (int32 n) = ({ s with xHandy := s.xHandy - n, xPrivate := s.xPrivate + n },
        some (.bytes (readAt s.mem s.xPrivate.toNat n)))
    else ∃ handy, s.getbytes (int32 n) = ({ s with xHandy := handy }, none) := by
  have hlo : 0 ≤ s.xHandy := by
    have := h.hi
    rw [h.handy]
    omega
  have hlt := h.lt
  unfold getbytes
  split
  · next hle =>
    have hint : int32 n = n := int32_eq (by omega) (by omega)
    rw [hint, int32_eq (by omega) (by omega)]
    rw [if_neg (by omega), if_neg (by omega), toNat_natCast]
  · next hgt =>
    have hneg : int32 (s.xHandy - int32 n) < 0 := by
      unfold int32
      omega
    rw [if_pos hneg]
    exact ⟨_, rfl⟩

end XdrMem

theorem xdrmem_reads : Reads xdrmemOps XdrMem.Valid view XdrMem.Ahead where
  refl s := le_rfl
  trans h1 h2 := le_trans h1 h2
  getint32 := by
    intro s h x r htake
    have hhandy := h.handy
    rw [view, takeWhole] at htake
    split at htake
    · next hle =>
      rw [length_readAt] at hle
      cases htake
      obtain ⟨hvalid, hview⟩ := h.advance (n := 4) (by omega)
      refine ⟨_, ?_, hvalid, hview, ?_⟩
      · change s.getint32 = _
        have hlt := h.lt
        unfold getint32
        rw [int32_eq (by omega) (by omega)]
        rw [if_neg (by omega), take_readAt, show min 4 (s.size - s.xPrivate).toNat = 4 by omega]
        rfl
      · change s.xPrivate ≤ s.xPrivate + 4
        omega
    · next hlt => split at htake <;> cases htake
  getint32_fails := by
    intro s h htake
    have hhandy := h.handy
    have hhi := h.hi
    have hshort : s.xHandy < 4 := by
      by_contra hge
      rw [view, takeWhole, if_pos (by rw [length_readAt]; omega)] at htake
      cases htake
    refine ⟨{ s with xHandy := int32 (s.xHandy - 4) }, ?_, le_rfl⟩
    change s.getint32 = _
    unfold getint32
    rw [int32_eq (by omega) (by omega)]
    rw [if_pos (by omega)]
  getbytes := by
    intro s h n hn x r htake
    have hhandy := h.handy
    have hhi := h.hi
    have hspec := getbytes_spec h hn
    rw [view, takeAcross] at htake
    split at htake
    · next hle =>
      rw [length_readAt] at hle
      cases htake
      rw [if_pos (by omega)] at hspec
      obtain ⟨hvalid, hview⟩ := h.advance (n := n) (by omega)
      refine ⟨_, ?_, hvalid, hview, ?_⟩
      · rw [take_readAt, show min n (s.size - s.xPrivate).toNat = n by omega]
        exact hspec
      · change s.xPrivate ≤ s.xPrivate + n
        omega
    · cases htake
  getbytes_fails := by
    intro s h n hn htake
    have hhandy := h.handy
    have hspec := getbytes_spec h hn
    have hshort : ¬(n : Int) ≤ s.xHandy := by
      intro hle
      rw [view, takeAcross, if_pos (by rw [length_readAt]; omega)] at htake
      cases htake
    rw [if_neg hshort] at hspec
    obtain ⟨handy, hspec⟩ := hspec
    exact ⟨_, hspec, le_rfl⟩
  getbytes_wild := by
    intro s h hview k hlo hneg
    have hhandy : s.xHandy = 0 := by
      have hlen := congrArg List.length (some.inj hview)
      rw [length_readAt, length_nil] at hlen
      have := h.handy
      have := h.hi
      omega
    refine ⟨{ s with xHandy := s.xHandy - k, xPrivate := s.xPrivate + k }, ?_, ?_, ?_⟩
    · change s.getbytes k = _
      unfold getbytes
      rw [int32_eq (by omega) (by omega)]
      rw [if_neg (by omega), if_pos hneg]
    · change ¬s.xPrivate ≤ s.xPrivate + k
      omega
    · intro p hp
      have hint : int32 p = p := int32_eq (by omega) (by omega)
      rw [hint]
      change ∃ s'' got, getbytes _ p = (s'', some got)
      unfold getbytes
      dsimp only
      rw [int32_eq (by omega) (by omega), if_neg (by omega)]
      exact ⟨_, _, rfl⟩
  skipbytes s n := rfl
  exists_view := by
    intro b hb
    have hint : int32 b.length = b.length := int32_eq (by omega) (by omega)
    refine ⟨create (fun i => b.getD i 0) b.length, ⟨?_, ?_, ?_, ?_⟩, ?_⟩
    · exact le_rfl
    · exact natCast_nonneg _
    · change int32 b.length = b.length - 0
      rw [hint, sub_zero]
    · change int32 b.length < 2 ^ 31
      omega
    · change [readAt (fun i => b.getD i 0) 0 (b.length - (0 : Int)).toNat] = [b]
      refine congrArg (· :: []) ?_
      refine ext_getElem (length_readAt _ _ _) fun i h1 h2 => ?_
      simp [readAt, h2]

/-! ### A chain of message blocks -/

/-- The pointers of a block are in order, and an `int` can hold the number of
    bytes between them. -/
structure Mblk.Ok (m : Mblk) : Prop where
  lo : 0 ≤ m.rptr
  hi : m.rptr ≤ m.wptr
  lt : m.left < 2 ^ 31

/-- The bytes of a block that are to be read. -/
def Mblk.content (m : Mblk) : List UInt8 := readAt m.mem m.rptr.toNat m.left.toNat

theorem Mblk.length_content (m : Mblk) : m.content.length = m.left.toNat := length_readAt _ _ _

section
variable {m : Mblk} {n : Nat}

theorem Mblk.Ok.left_nonneg (h : m.Ok) : 0 ≤ m.left := by
  have := h.hi
  unfold left
  omega

/-- A block after some of its bytes have been read. -/
theorem Mblk.Ok.advance (h : m.Ok) (hn : (n : Int) ≤ m.left) :
    Mblk.Ok { m with rptr := m.rptr + n } ∧
      left { m with rptr := m.rptr + n } = m.left - n ∧
      content { m with rptr := m.rptr + n } = m.content.drop n := by
  obtain ⟨hlo, hhi, hlt⟩ := h
  have hleft : left { m with rptr := m.rptr + n } = m.left - n := by
    unfold left
    dsimp only
    omega
  refine ⟨⟨?_, ?_, ?_⟩, hleft, ?_⟩
  · dsimp only
    omega
  · unfold left at hn
    dsimp only
    omega
  · omega
  · unfold content
    rw [hleft, drop_readAt]
    rw [show (m.rptr + n).toNat = m.rptr.toNat + n by omega,
      show (m.left - n).toNat = m.left.toNat - n by omega]

theorem Mblk.take_content (hn : (n : Int) ≤ m.left) :
    m.content.take n = readAt m.mem m.rptr.toNat n := by
  rw [content, take_readAt, show min n m.left.toNat = n by omega]

end

namespace XdrMblk

/-- `x_handy` is the number of bytes that are left in the current block. -/
structure Valid (s : XdrMblk) : Prop where
  blocks : ∀ m ∈ s.chain, m.Ok
  handy : s.xHandy = match s.chain with
    | [] => 0
    | m :: _ => m.left

/-- The bytes that are left in the current block and the later ones. -/
def view (s : XdrMblk) : List (List UInt8) := s.chain.map content

/-- The read pointer of the current block. -/
def rptr (s : XdrMblk) : Int :=
  match s.chain with
  | [] => 0
  | m :: _ => m.rptr

/-- The read position is in a later block, or not before an offset in the same
    block. -/
def After (passed : Nat) (off : Int) (s : XdrMblk) : Prop :=
  passed < s.passed.length ∨ passed = s.passed.length ∧ off ≤ s.rptr

def Ahead (s s' : XdrMblk) : Prop := After s.passed.length s.rptr s'

variable {s : XdrMblk}

theorem After.of_lt {p q : Nat} {off off' : Int} (h : After q off' s) (hpq : p < q) :
    After p off s := by
  rcases h with h | ⟨h, -⟩
  · exact .inl (by omega)
  · exact .inl (by omega)

variable {sz : Nat} {passed cont : List Mblk} {m : Mblk}

/-- The handle after `n` bytes of the current block have been read. -/
theorem advance_spec {n : Nat} (hm : m.Ok) (hcont : ∀ b ∈ cont, b.Ok) (hn : (n : Int) ≤ m.left) :
    Valid ⟨passed, { m with rptr := m.rptr + n } :: cont, m.left - n, sz⟩ ∧
      view ⟨passed, { m with rptr := m.rptr + n } :: cont, m.left - n, sz⟩ =
        m.content.drop n :: cont.map content ∧ After passed.length m.rptr
        ⟨passed, { m with rptr := m.rptr + n } :: cont, m.left - n, sz⟩ := by
  obtain ⟨hok, hleft, hcontent⟩ := hm.advance hn
  refine ⟨⟨forall_mem_cons.mpr ⟨hok, hcont⟩, hleft.symm⟩, ?_, .inr ⟨rfl, ?_⟩⟩
  · exact congrArg (· :: cont.map content) hcontent
  · change m.rptr ≤ m.rptr + n
    omega

/-- What a routine that reads gives for the bytes that are there, from a position on. -/
def Answers {α : Type} (res : XdrMblk × Option α) (f : List UInt8 → α)
    (take : Option (List UInt8 × List (List UInt8))) (passed : Nat) (off : Int) : Prop :=
  (∀ x r, take = some (x, r) →
    ∃ s', res = (s', some (f x)) ∧ Valid s' ∧ view s' = r ∧ After passed off s') ∧
  (take = none → ∃ s', res = (s', none) ∧ After passed off s')

variable {α : Type} {res : XdrMblk × Option α} {f : List UInt8 → α} {n : Nat}

/-- The current block has enough. -/
theorem Answers.enough (hm : m.Ok) (hcont : ∀ b ∈ cont, b.Ok) (hn : (n : Int) ≤ m.left)
    (hres : res = (⟨passed, { m with rptr := m.rptr + n } :: cont, m.left - n, sz⟩,
      some (f (readAt m.mem m.rptr.toNat n)))) :
    Answers res f (some (m.content.take n, m.content.drop n :: cont.map content))
      passed.length m.rptr := by
  refine ⟨fun x r htake => ?_, nofun⟩
  cases htake
  obtain ⟨hvalid, hview, hafter⟩ := advance_spec hm hcont hn
  exact ⟨_, by rw [hres, take_content (by omega)], hvalid, hview, hafter⟩

/-- The position is in an earlier block. -/
theorem Answers.of_lt {take : Option (List UInt8 × List (List UInt8))} {p q : Nat} {k o : Int}
    (h : Answers res f take q k) (hpq : p < q) : Answers res f take p o := by
  refine ⟨fun x r htake => ?_, fun htake => ?_⟩
  · obtain ⟨s', heq, hv, hview, hafter⟩ := h.1 x r htake
    exact ⟨s', heq, hv, hview, hafter.of_lt hpq⟩
  · obtain ⟨s', heq, hafter⟩ := h.2 htake
    exact ⟨s', heq, hafter.of_lt hpq⟩

/-- The loop of `xdrmblk_getint32` goes past empty blocks. -/
theorem getint32Loop_spec (passed : List Mblk) (hm : m.Ok) (hcont : ∀ b ∈ cont, b.Ok) :
    Answers (getint32Loop sz cont passed m m.left) bigEndianValue
      (takeWhole 4 ((m :: cont).map content)) passed.length m.rptr := by
  induction cont generalizing passed m
  all_goals
    have hlt := hm.lt
    have hpos := hm.left_nonneg
    rw [map_cons, takeWhole, length_content, getint32Loop, int32_eq (by omega) (by omega)]
    by_cases hfour : 4 ≤ m.left.toNat
    · rw [if_pos hfour, if_neg (by omega)]
      exact .enough hm hcont (by omega) rfl
    rw [if_neg hfour, if_pos (by omega : m.left - 4 < 0)]
  · refine ⟨fun x r htake => ?_, fun _ => ?_⟩
    · split at htake <;> cases htake
    · split
      · exact ⟨_, rfl, .inr ⟨rfl, le_rfl⟩⟩
      · exact ⟨_, rfl, .inl (by simp)⟩
  rename_i m' cont ih
  have hm' := hcont m' mem_cons_self
  have hpos' := hm'.left_nonneg
  by_cases hempty : m.left.toNat = 0
  · -- The block is empty, so the next one is tried.
    rw [if_pos hempty, if_neg (by omega : ¬m.left - 4 ≠ -4), int32_eq (by omega) hm'.lt]
    exact (ih (passed ++ [m]) hm' (forall_mem_cons.mp hcont).2).of_lt (by simp)
  · rw [if_neg hempty, if_pos (by omega : m.left - 4 ≠ -4)]
    refine ⟨fun _ _ h => ?_, fun _ => ⟨_, rfl, .inr ⟨rfl, le_rfl⟩⟩⟩
    cases h

/-- The block has enough. -/
theorem getbytesLoop_enough {acc : List UInt8} (hm : m.Ok) (hn : (n : Int) ≤ m.left) :
    getbytesLoop sz cont passed m m.left (int32 n) acc =
      (⟨passed, { m with rptr := m.rptr + n } :: cont, m.left - n, sz⟩,
        some (.bytes (acc ++ readAt m.mem m.rptr.toNat n))) := by
  have hlt := hm.lt
  have hint : int32 n = n := int32_eq (by omega) (by omega)
  rw [getbytesLoop, hint, int32_eq (by omega) (by omega)]
  rw [if_neg (by omega), if_neg (by omega), toNat_natCast]

/-- The block does not have enough, and all it has is taken. -/
theorem getbytesLoop_short {acc : List UInt8} (hm : m.Ok) (hn : n ≤ 2 ^ 31) (hgt : m.left < n) :
    getbytesLoop sz cont passed m m.left (int32 n) acc = match cont with
      | [] => (⟨passed ++ [{ m with rptr := m.rptr + m.left }], [], 0, sz⟩, none)
      | m' :: cont' =>
        getbytesLoop sz cont' (passed ++ [{ m with rptr := m.rptr + m.left }]) m' (int32 m'.left)
          (int32 (n - m.left.toNat : Nat)) (acc ++ m.content) := by
  have hpos := hm.left_nonneg
  have hneg : int32 (m.left - int32 n) < 0 := by
    unfold int32
    omega
  -- Adding the count again gives back what the block had.
  have hback : int32 (int32 (m.left - int32 n) + int32 n) = m.left := by
    unfold int32
    omega
  rw [getbytesLoop]
  dsimp only
  rw [if_pos hneg, hback]
  by_cases hzero : 0 < m.left
  · have hlen : int32 (int32 n - m.left) = int32 (n - m.left.toNat : Nat) := by
      unfold int32
      omega
    rw [if_pos hzero, if_pos hzero, if_pos hzero, hlen]
    rfl
  · have hleft : m.left = 0 := by omega
    have hnil : m.content = [] := by
      rw [← length_eq_zero_iff, length_content, hleft]
      rfl
    have hsame : { m with rptr := m.rptr + m.left } = m := by rw [hleft, add_zero]
    cases cont
    all_goals rw [if_neg hzero, if_neg hzero, if_neg hzero, hsame, hnil, hleft, append_nil,
      toNat_zero, Nat.sub_zero]

/-- The loop of `xdrmblk_getbytes` takes from each block what it has. -/
theorem getbytesLoop_spec (passed : List Mblk) (acc : List UInt8) (hm : m.Ok)
    (hcont : ∀ b ∈ cont, b.Ok) (hn : n ≤ 2 ^ 31) :
    Answers (getbytesLoop sz cont passed m m.left (int32 n) acc) (fun x => .bytes (acc ++ x))
      (takeAcross n ((m :: cont).map content)) passed.length m.rptr := by
  have hpos := hm.left_nonneg
  induction cont generalizing passed m n acc
  all_goals
    rw [map_cons, takeAcross, length_content]
    by_cases hle : n ≤ m.left.toNat
    · rw [if_pos hle]
      exact .enough hm hcont (by omega) (getbytesLoop_enough hm (by omega))
    rw [if_neg hle, getbytesLoop_short hm hn (by omega)]
  · refine ⟨fun _ _ h => ?_, fun _ => ⟨_, rfl, .inl (by simp)⟩⟩
    cases h
  rename_i m' cont ih
  have hm' := hcont m' mem_cons_self
  have hpos' := hm'.left_nonneg
  have hcont' : ∀ b ∈ cont, b.Ok := (forall_mem_cons.mp hcont).2
  dsimp only
  rw [int32_eq (by omega) hm'.lt]
  have hnext := (ih (passed ++ [{ m with rptr := m.rptr + m.left }]) (acc ++ m.content) hm'
    hcont' (by omega : n - m.left.toNat ≤ 2 ^ 31) hpos').of_lt (p := passed.length)
    (o := m.rptr) (by simp)
  rcases hr : takeAcross (n - m.left.toNat) ((m' :: cont).map content) with _ | ⟨y, r'⟩
  · refine ⟨fun _ _ h => ?_, fun _ => hnext.2 hr⟩
    cases h
  refine ⟨fun x r htake => ?_, fun h => absurd h (some_ne_none _)⟩
  cases htake
  obtain ⟨s', heq, hrest⟩ := hnext.1 y r' hr
  refine ⟨s', ?_, hrest⟩
  rw [heq]
  dsimp only
  rw [append_assoc]

theorem getint32_answers (h : s.Valid) :
    Answers s.getint32 bigEndianValue (takeWhole 4 s.view) s.passed.length s.rptr := by
  obtain ⟨passed, chain, handy, sz⟩ := s
  cases chain with
  | nil => exact ⟨nofun, fun _ => ⟨_, rfl, .inr ⟨rfl, le_rfl⟩⟩⟩
  | cons m cont =>
    obtain rfl : handy = m.left := h.handy
    exact getint32Loop_spec passed (h.blocks m mem_cons_self)
      (forall_mem_cons.mp h.blocks).2

theorem getbytes_answers (h : s.Valid) (hn : n ≤ 2 ^ 31) :
    Answers (s.getbytes (int32 n)) .bytes (takeAcross n s.view) s.passed.length s.rptr := by
  obtain ⟨passed, chain, handy, sz⟩ := s
  cases chain with
  | nil => exact ⟨nofun, fun _ => ⟨_, rfl, .inr ⟨rfl, le_rfl⟩⟩⟩
  | cons m cont =>
    obtain rfl : handy = m.left := h.handy
    exact getbytesLoop_spec passed [] (h.blocks m mem_cons_self)
      ((forall_mem_cons.mp h.blocks).2) hn

end XdrMblk

theorem xdrmblk_reads : Reads xdrmblkOps XdrMblk.Valid XdrMblk.view XdrMblk.Ahead where
  refl s := .inr ⟨rfl, le_rfl⟩
  trans := by
    intro s1 s2 s3 h1 h2
    unfold XdrMblk.Ahead XdrMblk.After at *
    omega
  getint32 h := (XdrMblk.getint32_answers h).1 _ _
  getint32_fails h := (XdrMblk.getint32_answers h).2
  getbytes h _ hn := (XdrMblk.getbytes_answers h hn).1 _ _
  getbytes_fails h _ hn := (XdrMblk.getbytes_answers h hn).2
  getbytes_wild := by
    rintro ⟨passed, chain, handy, sz⟩ h hview k hlo hneg
    cases chain with
    | nil => cases hview
    | cons m cont =>
      obtain rfl : handy = m.left := h.handy
      have hok := h.blocks m mem_cons_self
      have hleft : m.left = 0 := by
        have hlen := congrArg List.length (some.inj hview)
        rw [length_content, length_nil] at hlen
        have := hok.left_nonneg
        omega
      refine ⟨⟨passed, { m with rptr := m.rptr + k } :: cont, m.left - k, sz⟩, ?_, ?_, ?_⟩
      · change getbytesLoop sz cont passed m m.left k [] = _
        rw [getbytesLoop, int32_eq (by omega) (by omega)]
        rw [if_neg (by omega), if_pos hneg]
      · rintro (hlt | ⟨-, hle⟩)
        · exact lt_irrefl _ hlt
        · change m.rptr ≤ m.rptr + k at hle
          omega
      · intro p hp
        have hint : int32 p = p := int32_eq (by omega) (by omega)
        rw [hint]
        change ∃ s'' got, getbytesLoop sz cont passed _ (m.left - k) p [] = (s'', some got)
        rw [getbytesLoop, int32_eq (by omega) (by omega)]
        rw [if_neg (by omega)]
        exact ⟨_, _, rfl⟩
  skipbytes s n := rfl
  exists_view := by
    intro b hb
    have hleft : left ⟨fun i => b.getD i 0, 0, b.length, b.length⟩ = b.length := sub_zero _
    refine ⟨.initDecode ⟨fun i => b.getD i 0, 0, b.length, b.length⟩ [] 0, ⟨?_, ?_⟩, ?_⟩
    · intro m hm
      obtain rfl := mem_singleton.mp hm
      exact ⟨le_rfl, natCast_nonneg _, by rw [hleft]; omega⟩
    · change int32 (left _) = left _
      exact int32_eq (by omega) (by omega)
    · change [readAt (fun i => b.getD i 0) 0 (left _).toNat] = [b]
      refine congrArg (· :: []) (ext_getElem (length_readAt _ _ _) fun i h1 h2 => ?_)
      simp [readAt, h2]

end Sol7.Rpc
