import Sol7.Rpc.XdrStream

/-!
# Decoding Stays Inside the Message

A call is safe if it does not move the read position backwards, and if it
succeeds only when what it reports was there and has been consumed, with
`x_handy` still the number of bytes that are left in the current block.

Whether this can be relied on depends on the length that the call takes from
the message or is given. A length above `2 ^ 31` becomes a negative `int` that
is greater than `-2 ^ 31`, and subtracting it makes `x_handy` larger. The length
`2 ^ 31` itself becomes the least `int`, and taking it away wraps to the right
value. Rounding up adds three more that wrap, and `xdrmblk_getmblk` compares the
length with a number of bytes as an `int`.

## Main definitions

* `Call`: A call that decodes.
* `Call.Meets`: The length it finds in the message.
* `Call.Safe`: What it should do.
* `Call.Fits`: The lengths that are right.
* `GetmblkSafe`: What `xdrmblk_getmblk` should do.

## Theorems

* `xdrOpaque_spec`: The routine all others use.
* `Call.safe_of_fits`, `Call.fits_of_safe`: A call is safe for the lengths that
  are right and for no others.
* `xdr_stays_inside_iff`: The same for both kinds of handle.
-/

namespace Sol7.Rpc

open List Option XdrMblk

/-- A number of bytes rounded up to whole units. -/
def roundUp (n : Nat) : Nat := (n + 3) / 4 * 4

/-- A call that decodes, with the length or the greatest length it is given. -/
inductive Call
  | fixed (cnt : BitVec 32)
  | bytes (maxsize : BitVec 32)
  | string (maxsize : BitVec 32)
  | skipbytes (n : BitVec 32)

/-- The length at the front of a message. -/
def frontWord (v : List (List UInt8)) : Option Nat :=
  (takeWhole 4 v).map fun r => bigEndianValue r.1

/-- A call that takes a length from the message finds this one. -/
def Call.Meets (v : List (List UInt8)) (w : Nat) : Call → Prop
  | .fixed _ => True
  | .bytes _ => frontWord v = some w
  | .string _ => frontWord v = some w
  | .skipbytes _ => True

/-- The length a call is given or finds is right, or it is refused. -/
def Call.Fits (w : Nat) : Call → Prop
  | .fixed cnt => cnt.toNat ≤ 2 ^ 31
  | .bytes maxsize => w ≤ maxsize.toNat → w ≤ 2 ^ 31
  | .string maxsize => w ≤ maxsize.toNat → w ≤ 2 ^ 31
  | .skipbytes n => n.toNat ≤ 2 ^ 31 - 3

section
variable {σ : Type} (ops : XdrOps σ) (Valid : σ → Prop) (view : σ → List (List UInt8))
  (Ahead : σ → σ → Prop)

/-- The front of the message has been consumed, and nothing else. -/
def Consumed (s s' : σ) (x : List UInt8) : Prop := (view s).flatten = x ++ (view s').flatten

/-- What decoding some bytes should do, given what a success means for the
    bytes consumed and the bytes decoded. -/
def GotSafe (s : σ) (r : σ × Option Got) (P : List UInt8 → List UInt8 → Prop) : Prop :=
  Ahead s r.1 ∧ ∀ got, r.2 = some got → Valid r.1 ∧
    ∃ bs, got = .bytes bs ∧ ∃ x, Consumed view s r.1 x ∧ P x bs

/-- What a call should do. Bytes of a fixed length are followed by padding, and
    counted ones come after their length. -/
def Call.Safe (s : σ) : Call → Prop
  | .fixed cnt => GotSafe Valid view Ahead s (xdrOpaque ops s cnt.toNat) fun x bs =>
    x.length = roundUp cnt.toNat ∧ bs = x.take cnt.toNat
  | .bytes maxsize => GotSafe Valid view Ahead s (xdrBytes ops s maxsize.toNat) fun x bs =>
    x.length = 4 + roundUp bs.length ∧ bigEndianValue (x.take 4) = bs.length ∧
      bs = (x.drop 4).take bs.length
  | .string maxsize => GotSafe Valid view Ahead s (xdrString ops s maxsize.toNat) fun x bs =>
    x.length = 4 + roundUp bs.length ∧ bigEndianValue (x.take 4) = bs.length ∧
      bs = (x.drop 4).take bs.length
  | .skipbytes n =>
    Ahead s (ops.skipbytes s (int32 n.toNat)).1 ∧
      ((ops.skipbytes s (int32 n.toNat)).2 = true →
        Valid (ops.skipbytes s (int32 n.toNat)).1 ∧
        ∃ x, Consumed view s (ops.skipbytes s (int32 n.toNat)).1 x ∧ x.length = roundUp n.toNat)

variable {ops Valid view Ahead}

theorem roundUp_eq (n : Nat) : roundUp n = n + if n % 4 ≠ 0 then 4 - n % 4 else 0 := by
  unfold roundUp
  split <;> omega

variable {n cnt w : Nat}

/-- Rounding up is right up to `2 ^ 31`, which it can give. -/
theorem rndup_of_le (hn : n ≤ 2 ^ 31 - 3) : rndup (int32 n) = int32 (roundUp n) := by
  unfold rndup roundUp
  by_cases hlast : n = 2 ^ 31 - 3
  · subst hlast
    rfl
  have h1 : int32 n = n := int32_eq (by omega) (by omega)
  have h2 : int32 ((n : Int) + 3) = n + 3 := int32_eq (by omega) (by omega)
  rw [h1, h2]
  rfl

/-- Beyond that it gives nothing or a negative number. -/
theorem rndup_of_gt (hlo : 2 ^ 31 - 3 < n) (hhi : n < 2 ^ 32) :
    -2 ^ 31 < rndup (int32 n) ∧ rndup (int32 n) ≤ 0 := by
  have hsum : int32 (int32 n + 3) = n + 3 - 2 ^ 32 := by
    unfold int32
    omega
  unfold rndup
  rw [hsum]
  -- Division rounds towards zero.
  have hdiv : -2 ^ 31 < ((n : Int) + 3 - 2 ^ 32).tdiv 4 * 4 ∧
      ((n : Int) + 3 - 2 ^ 32).tdiv 4 * 4 ≤ 0 := by
    by_cases hneg : (n : Int) + 3 - 2 ^ 32 ≤ 0
    · have hflip : ((n : Int) + 3 - 2 ^ 32).tdiv 4 = -((2 ^ 32 - 3 - (n : Int)) / 4) := by
        rw [show (n : Int) + 3 - 2 ^ 32 = -(2 ^ 32 - 3 - n) by omega, Int.neg_tdiv,
          Int.tdiv_eq_ediv_of_nonneg (by omega)]
      omega
    · rw [Int.tdiv_eq_ediv_of_nonneg (by omega)]
      omega
  rw [int32_eq (by omega) (by omega)]
  exact hdiv

variable {s s' : σ} (hr : Reads ops Valid view Ahead)
include hr

/-- Reading bytes, as many as can be held. -/
theorem getbytes_spec (hs : Valid s) (hn : n ≤ 2 ^ 31) :
    (∃ s', ops.getbytes s (int32 n) = (s', none) ∧ Ahead s s') ∨
      ∃ s' x, ops.getbytes s (int32 n) = (s', some (.bytes x)) ∧ Valid s' ∧ Ahead s s' ∧
        Consumed view s s' x ∧ x.length = n := by
  rcases htake : takeAcross n (view s) with _ | ⟨x, rest⟩
  · exact .inl (hr.getbytes_fails hs hn htake)
  obtain ⟨s', heq, hs', hview, hahead⟩ := hr.getbytes hs hn htake
  obtain ⟨hflat, hlen⟩ := takeAcross_flatten htake
  refine .inr ⟨s', x, heq, hs', hahead, ?_, hlen⟩
  unfold Consumed
  rw [hflat, hview]

/-- Reading a count that can be held, with its padding. -/
theorem xdrOpaque_spec (hs : Valid s) (hcnt : cnt ≤ 2 ^ 31) :
    GotSafe Valid view Ahead s (xdrOpaque ops s cnt) fun x bs =>
      x.length = roundUp cnt ∧ bs = x.take cnt := by
  unfold xdrOpaque
  by_cases hzero : cnt = 0
  · rw [if_pos hzero]
    refine ⟨hr.refl s, fun got hgot => ⟨hs, [], (some.inj hgot).symm, [], rfl, ?_⟩⟩
    rw [hzero]
    exact ⟨rfl, rfl⟩
  rw [if_neg hzero]
  have hround := roundUp_eq cnt
  have hpad : (if cnt % 4 ≠ 0 then 4 - cnt % 4 else 0) < 4 := by split <;> omega
  generalize (if cnt % 4 ≠ 0 then 4 - cnt % 4 else 0) = pad at *
  rcases getbytes_spec hr hs hcnt with ⟨s1, heq, hahead⟩ | ⟨s1, x, heq, hs1, hahead, hx, hlen⟩ <;>
    rw [heq]
  · exact ⟨hahead, nofun⟩
  dsimp only
  by_cases hnone : pad = 0
  · rw [if_pos hnone]
    refine ⟨hahead, fun got hgot => ⟨hs1, x, (some.inj hgot).symm, x, hx, ?_, ?_⟩⟩
    · omega
    · rw [← hlen, take_length]
  rw [if_neg hnone]
  rcases getbytes_spec hr hs1 (by omega : pad ≤ 2 ^ 31) with ⟨s2, heq2, hahead2⟩ |
    ⟨s2, y, heq2, hs2, hahead2, hy, hlen2⟩ <;> rw [heq2]
  · exact ⟨hr.trans hahead hahead2, nofun⟩
  refine ⟨hr.trans hahead hahead2, fun got hgot =>
    ⟨hs2, x, (some.inj hgot).symm, x ++ y, ?_, ?_, ?_⟩⟩
  · unfold Consumed at *
    rw [hx, hy, append_assoc]
  · rw [length_append]
    omega
  · rw [← hlen, take_left]

/-- A count that has become negative goes wrong at the end of a block. -/
theorem xdrOpaque_wild (hs : Valid s)
    (hend : (view s).head? = some []) (hlo : 2 ^ 31 < cnt) (hhi : cnt < 2 ^ 32) :
    ∃ s', xdrOpaque ops s cnt = (s', some .wild) := by
  have hint : int32 cnt = cnt - 2 ^ 32 := by
    unfold int32
    omega
  obtain ⟨s1, heq, -, hagain⟩ :=
      hr.getbytes_wild hs hend (by omega : -2 ^ 31 < (cnt : Int) - 2 ^ 32) (by omega)
  unfold xdrOpaque
  rw [if_neg (by omega), hint, heq]
  dsimp only
  by_cases hpad : cnt % 4 = 0
  · rw [if_pos (by simp [hpad])]
    exact ⟨s1, rfl⟩
  -- The padding is read from the bytes that have been read before.
  have hne : (if cnt % 4 ≠ 0 then 4 - cnt % 4 else 0) = 4 - cnt % 4 := if_pos hpad
  rw [hne, if_neg (by omega)]
  obtain ⟨s2, got, heq2⟩ := hagain (4 - cnt % 4) (by omega)
  rw [heq2]
  exact ⟨s2, rfl⟩

/-- Reading the length at the front. -/
theorem getint32_spec (hs : Valid s) :
    (∀ w, frontWord (view s) = some w → ∃ s' x, ops.getint32 s = (s', some w) ∧ Valid s' ∧
      Ahead s s' ∧ Consumed view s s' x ∧ x.length = 4 ∧ bigEndianValue x = w) ∧
    (frontWord (view s) = none → ∃ s', ops.getint32 s = (s', none) ∧ Ahead s s') := by
  unfold frontWord
  rcases htake : takeWhole 4 (view s) with _ | ⟨x, r⟩
  · exact ⟨nofun, fun _ => hr.getint32_fails hs htake⟩
  refine ⟨fun w h => ?_, nofun⟩
  cases h
  obtain ⟨s', heq, hs', hview, hahead⟩ := hr.getint32 hs htake
  obtain ⟨hflat, hlen⟩ := takeWhole_flatten htake
  refine ⟨s', x, heq, hs', hahead, ?_, hlen, rfl⟩
  unfold Consumed
  rw [hflat, hview]

/-- Counted bytes after their length. -/
theorem counted_spec {y : List UInt8} (hs' : Valid s')
    (hahead : Ahead s s') (hy : Consumed view s s' y) (hlen : y.length = 4)
    (hval : bigEndianValue y = w) (hw : w ≤ 2 ^ 31) :
    GotSafe Valid view Ahead s (xdrOpaque ops s' w) fun x bs =>
      x.length = 4 + roundUp bs.length ∧ bigEndianValue (x.take 4) = bs.length ∧
        bs = (x.drop 4).take bs.length := by
  obtain ⟨hahead', hgot⟩ := xdrOpaque_spec hr hs' hw
  refine ⟨hr.trans hahead hahead', fun got heq => ?_⟩
  obtain ⟨hvalid, bs, rfl, x, hx, hxlen, hbs⟩ := hgot got heq
  refine ⟨hvalid, bs, rfl, y ++ x, ?_, ?_⟩
  · unfold Consumed at *
    rw [hy, hx, append_assoc]
  have hround := roundUp_eq w
  have hbslen : bs.length = w := by
    rw [hbs, length_take]
    omega
  dsimp only
  rw [hbslen, take_left' hlen, drop_left' hlen, length_append]
  exact ⟨by omega, hval, hbs⟩

/-- A call is safe for the lengths that are right. -/
theorem Call.safe_of_fits (hs : Valid s) {c : Call} (hw : c.Meets (view s) w) (hfits : c.Fits w) :
    c.Safe ops Valid view Ahead s := by
  cases c with
  | fixed cnt => exact xdrOpaque_spec hr hs hfits
  | bytes maxsize =>
    obtain ⟨s', y, heq, hs', hahead, hy, hlen, hval⟩ := (getint32_spec hr hs).1 w hw
    unfold Call.Safe xdrBytes
    rw [heq]
    dsimp only
    split
    · exact ⟨hahead, nofun⟩
    next hle =>
    have hspec := counted_spec hr hs' hahead hy hlen hval (hfits (by omega))
    split
    · next hzero =>
      rw [hzero] at hspec
      exact hspec
    · exact hspec
  | string maxsize =>
    obtain ⟨s', y, heq, hs', hahead, hy, hlen, hval⟩ := (getint32_spec hr hs).1 w hw
    unfold Call.Safe xdrString
    rw [heq]
    dsimp only
    split
    · exact ⟨hahead, nofun⟩
    next hle =>
    have hw' := hfits (by omega)
    have hspec := counted_spec hr hs' hahead hy hlen hval hw'
    rw [if_neg (by omega)]
    rcases hopq : xdrOpaque ops s' w with ⟨s2, _ | got⟩
    · rw [hopq] at hspec
      exact hspec
    rw [hopq] at hspec
    obtain ⟨hahead2, hgot⟩ := hspec
    obtain ⟨hs2, bs, rfl, hx⟩ := hgot got rfl
    dsimp only
    split
    · exact ⟨hahead2, nofun⟩
    · exact ⟨hahead2, fun got hgot => ⟨hs2, bs, (some.inj hgot).symm, hx⟩⟩
  | skipbytes n =>
    have hn : n.toNat ≤ 2 ^ 31 - 3 := hfits
    have hround := rndup_of_le hn
    have hle : roundUp n.toNat ≤ 2 ^ 31 := by
      unfold roundUp
      omega
    simp only [Call.Safe]
    rw [hr.skipbytes, hround]
    rcases getbytes_spec hr hs hle with ⟨s', heq, hahead⟩ | ⟨s', x, heq, hs', hahead, hx, hlen⟩ <;>
      rw [heq]
    · exact ⟨hahead, nofun⟩
    · exact ⟨hahead, fun _ => ⟨hs', x, hx, hlen⟩⟩

/-- A call that finds no length fails safely. -/
theorem Call.safe_of_no_word (hs : Valid s) (hw : frontWord (view s) = none) (maxsize : BitVec 32) :
    (Call.bytes maxsize).Safe ops Valid view Ahead s ∧
      (Call.string maxsize).Safe ops Valid view Ahead s := by
  obtain ⟨s', heq, hahead⟩ := (getint32_spec hr hs).2 hw
  constructor
  · unfold Call.Safe xdrBytes
    rw [heq]
    exact ⟨hahead, nofun⟩
  · unfold Call.Safe xdrString
    rw [heq]
    exact ⟨hahead, nofun⟩

omit hr in
theorem bigEndianValue_word (w : BitVec 32) : bigEndianValue (bigEndian 4 w.toNat) = w.toNat := by
  rw [bigEndianValue_bigEndian, Nat.mod_eq_of_lt (by omega)]

/-- There is a message that has a length at its front and nothing else. -/
theorem exists_only_word (w : BitVec 32) :
    ∃ s, Valid s ∧ view s = [bigEndian 4 w.toNat] ∧ frontWord (view s) = some w.toNat ∧
      ∃ s', ops.getint32 s = (s', some w.toNat) ∧ Valid s' ∧ view s' = [[]] := by
  have hlen : (bigEndian 4 w.toNat).length = 4 := length_bigEndian _ _
  obtain ⟨s, hs, hview⟩ := hr.exists_view (bigEndian 4 w.toNat) (by omega)
  have htake : takeWhole 4 (view s) = some (bigEndian 4 w.toNat, [[]]) := by
    rw [hview, takeWhole, if_pos (by omega), take_of_length_le (by omega),
      drop_eq_nil_of_le (by omega)]
  have hval := bigEndianValue_word w
  obtain ⟨s', heq, hs', hview', -⟩ := hr.getint32 hs htake
  rw [hval] at heq
  refine ⟨s, hs, hview, ?_, s', heq, hs', hview'⟩
  unfold frontWord
  rw [htake, map_some, hval]

omit hr in
/-- A copy with a negative count is not safe. -/
theorem not_gotSafe_wild {P : List UInt8 → List UInt8 → Prop} :
    ¬GotSafe Valid view Ahead s (s', some .wild) P := by
  rintro ⟨-, h⟩
  obtain ⟨-, bs, hbs, -⟩ := h _ rfl
  cases hbs

/-- Only for the lengths that are right is a call always safe. -/
theorem Call.fits_of_safe {c : Call} {w : BitVec 32}
    (hsafe : ∀ s, Valid s → c.Meets (view s) w.toNat → c.Safe ops Valid view Ahead s) :
    c.Fits w.toNat := by
  have hlt := w.isLt
  obtain ⟨s, hs, hview, hword, s', heq, hs', hview'⟩ := exists_only_word hr w
  have hend : (view s').head? = some [] := by
    rw [hview']
    rfl
  cases c with
  | fixed cnt =>
    by_contra hgt
    have hgt' : 2 ^ 31 < cnt.toNat := not_le.mp hgt
    obtain ⟨s2, heq2⟩ := xdrOpaque_wild hr hs' hend hgt' cnt.isLt
    have h : GotSafe Valid view Ahead s' (xdrOpaque ops s' cnt.toNat) _ := hsafe s' hs' trivial
    rw [heq2] at h
    exact not_gotSafe_wild h
  | bytes maxsize =>
    intro hle
    by_contra hgt
    obtain ⟨s2, heq2⟩ := xdrOpaque_wild hr hs' hend (not_le.mp hgt) hlt
    have h : GotSafe Valid view Ahead s (xdrBytes ops s maxsize.toNat) _ := hsafe s hs hword
    unfold xdrBytes at h
    rw [heq] at h
    dsimp only at h
    rw [if_neg (by omega), if_neg (by omega), heq2] at h
    exact not_gotSafe_wild h
  | string maxsize =>
    intro hle
    by_contra hgt
    have h : GotSafe Valid view Ahead s (xdrString ops s maxsize.toNat) _ := hsafe s hs hword
    unfold xdrString at h
    rw [heq] at h
    dsimp only at h
    rw [if_neg (by omega)] at h
    by_cases hlast : (w.toNat + 1) % 2 ^ 32 = 0
    · -- The greatest length makes the size of the string zero.
      rw [if_pos hlast] at h
      obtain ⟨-, bs, hbs, x, hx, hxlen, hval, -⟩ := h.2 _ rfl
      cases hbs
      have hxeq : bigEndian 4 w.toNat = x := by simpa [Consumed, hview, hview'] using hx
      rw [← hxeq, take_of_length_le (by rw [length_bigEndian]), bigEndianValue_word] at hval
      rw [length_nil] at hval
      omega
    · obtain ⟨s2, heq2⟩ := xdrOpaque_wild hr hs' hend (not_le.mp hgt) hlt
      rw [if_neg hlast, heq2] at h
      exact not_gotSafe_wild h
  | skipbytes n =>
    by_contra hgt
    have hgt' : 2 ^ 31 - 3 < n.toNat := not_le.mp hgt
    obtain ⟨hlo, hhi⟩ := rndup_of_gt hgt' n.isLt
    have h : (Call.skipbytes n).Safe ops Valid view Ahead s' := hsafe s' hs' trivial
    simp only [Call.Safe] at h
    rw [hr.skipbytes] at h
    by_cases hneg : rndup (int32 n.toNat) < 0
    · obtain ⟨s2, heq2, hback, -⟩ := hr.getbytes_wild hs' hend hlo hneg
      rw [heq2] at h
      exact hback h.1
    -- Nothing is skipped.
    have hzero : rndup (int32 n.toNat) = int32 (0 : Nat) := by
      rw [show rndup (int32 n.toNat) = 0 by omega]
      rfl
    have htake : takeAcross 0 (view s') = some ([], [[]]) := by
      rw [hview']
      rfl
    obtain ⟨s2, heq2, -, hview2, -⟩ := hr.getbytes hs' (by omega) htake
    rw [hzero, heq2] at h
    obtain ⟨-, x, hx, hxlen⟩ := h.2 rfl
    have hxeq : x = [] := by simpa [Consumed, hview', hview2] using hx.symm
    rw [hxeq, length_nil] at hxlen
    unfold roundUp at hxlen
    omega

end

/-- What `xdrmblk_getmblk` should do: the bytes it reports are in the chain it
    returns, which is the rest of the message. -/
def GetmblkSafe (s : XdrMblk) : Prop :=
  XdrMblk.Ahead s s.getmblk.1 ∧ ∀ chain len, s.getmblk.2 = some (chain, len) →
    XdrMblk.Valid s.getmblk.1 ∧ len ≤ (chain.map Mblk.content).flatten.length ∧
    ∃ x, x.length = 4 ∧ s.view.flatten = x ++ (chain.map Mblk.content).flatten

/-- The bytes of a chain are counted as an `int`. -/
theorem foldl_left (chain : List Mblk) (hok : ∀ m ∈ chain, m.Ok) (n : Nat) :
    chain.foldl (fun len m => int32 (len + m.left)) (int32 n) =
      int32 (n + (chain.map Mblk.content).flatten.length : Nat) := by
  induction chain generalizing n with
  | nil => rw [foldl_nil, map_nil, flatten_nil, length_nil, add_zero]
  | cons m chain ih =>
    have hpos := (hok m mem_cons_self).left_nonneg
    have hstep : int32 (int32 n + m.left) = int32 (n + m.left.toNat : Nat) := by
      unfold int32
      omega
    have hlen : ((m :: chain).map Mblk.content).flatten.length =
        m.left.toNat + (chain.map Mblk.content).flatten.length := by
      rw [map_cons, flatten_cons, length_append, Mblk.length_content]
    rw [foldl_cons, hstep, ih (forall_mem_cons.mp hok).2, hlen, add_assoc]

variable {s s' : XdrMblk}

/-- The rest of a chain, after its length has been read. -/
theorem getmblk_eq {w : Nat} (hs' : s'.Valid) (heq : s.getint32 = (s', some w)) :
    s.getmblk = if int32 (s'.view.flatten.length : Nat) < int32 w then (s', none)
      else ({ s' with passed := s'.passed ++ s'.chain, chain := [], xHandy := 0 },
        some (s'.chain, w)) := by
  have hfold := foldl_left s'.chain hs'.blocks 0
  rw [zero_add] at hfold
  unfold getmblk
  rw [heq]
  dsimp only
  rw [show (0 : Int) = int32 (0 : Nat) from rfl, hfold]
  rfl

theorem getmblk_safe (hs : s.Valid) {w : Nat} (hw : frontWord s.view = some w) (hlt : w < 2 ^ 31) :
    GetmblkSafe s := by
  obtain ⟨s', x, heq, hs', hahead, hx, hlen, -⟩ := (getint32_spec xdrmblk_reads hs).1 w hw
  unfold GetmblkSafe
  rw [getmblk_eq hs' heq]
  split
  · exact ⟨hahead, nofun⟩
  next hge =>
  refine ⟨xdrmblk_reads.trans hahead ?_, fun chain len h => ?_⟩
  · rcases hchain : s'.chain with _ | ⟨m, cont⟩
    · refine .inr ⟨by simp, ?_⟩
      unfold rptr
      rw [hchain]
    · exact .inl (by simp)
  · cases h
    refine ⟨⟨nofun, rfl⟩, ?_, x, hlen, hx⟩
    change w ≤ s'.view.flatten.length
    unfold int32 at hge
    omega

/-- A length that is negative as an `int` is accepted for any chain. -/
theorem not_getmblk_safe (w : BitVec 32) (hge : 2 ^ 31 ≤ w.toNat) :
    ∃ s : XdrMblk, s.Valid ∧ frontWord s.view = some w.toNat ∧ ¬GetmblkSafe s := by
  obtain ⟨s, hs, -, hword, s', heq, hs', hview'⟩ := exists_only_word xdrmblk_reads w
  refine ⟨s, hs, hword, fun hsafe => ?_⟩
  have heq' : s.getint32 = (s', some w.toNat) := heq
  have hnone : s'.view.flatten.length = 0 := by
    rw [hview']
    rfl
  have hget := getmblk_eq hs' heq'
  rw [if_neg (by unfold int32; omega)] at hget
  unfold GetmblkSafe at hsafe
  rw [hget] at hsafe
  have hle := (hsafe.2 _ _ rfl).2.1
  change w.toNat ≤ s'.view.flatten.length at hle
  omega

/-- Without a length at the front `xdrmblk_getmblk` fails. -/
theorem getmblk_safe_of_no_word (hs : s.Valid) (hw : frontWord s.view = none) : GetmblkSafe s := by
  obtain ⟨s', heq, hahead⟩ := (getint32_spec xdrmblk_reads hs).2 hw
  have heq' : s.getint32 = (s', none) := heq
  unfold GetmblkSafe getmblk
  rw [heq']
  exact ⟨hahead, nofun⟩

/-- Decoding stays inside the message exactly if the length it goes by is
    refused or is at most `2 ^ 31`, at most `2 ^ 31 - 3` for bytes to be skipped
    and below `2 ^ 31` for the rest of a chain. This holds for both kinds of
    handle, for every message and every division of it into blocks. A call that
    finds no length fails safely. -/
theorem xdr_stays_inside_iff (c : Call) (w : BitVec 32) :
    ((∀ s : XdrMem, s.Valid → c.Meets s.view w.toNat →
        c.Safe xdrmemOps XdrMem.Valid XdrMem.view XdrMem.Ahead s) ↔ c.Fits w.toNat) ∧
    ((∀ s : XdrMblk, s.Valid → c.Meets s.view w.toNat →
        c.Safe xdrmblkOps XdrMblk.Valid view XdrMblk.Ahead s) ↔ c.Fits w.toNat) ∧
    ((∀ s : XdrMblk, s.Valid → frontWord s.view = some w.toNat → GetmblkSafe s) ↔
      w.toNat < 2 ^ 31) ∧ (∀ s : XdrMem, s.Valid → frontWord s.view = none → ∀ maxsize,
      (Call.bytes maxsize).Safe xdrmemOps XdrMem.Valid XdrMem.view XdrMem.Ahead s ∧
      (Call.string maxsize).Safe xdrmemOps XdrMem.Valid XdrMem.view XdrMem.Ahead s) ∧
    (∀ s : XdrMblk, s.Valid → frontWord s.view = none → GetmblkSafe s ∧ ∀ maxsize,
      (Call.bytes maxsize).Safe xdrmblkOps XdrMblk.Valid view XdrMblk.Ahead s ∧
      (Call.string maxsize).Safe xdrmblkOps XdrMblk.Valid view XdrMblk.Ahead s) := by
  refine ⟨⟨Call.fits_of_safe xdrmem_reads, fun h s hs hw => ?_⟩,
    ⟨Call.fits_of_safe xdrmblk_reads, fun h s hs hw => ?_⟩,
    ⟨fun h => ?_, fun h s hs hw => getmblk_safe hs hw h⟩, fun s hs hw => ?_, fun s hs hw => ?_⟩
  · exact Call.safe_of_fits xdrmem_reads hs hw h
  · exact Call.safe_of_fits xdrmblk_reads hs hw h
  · by_contra hge
    obtain ⟨s, hs, hw, hunsafe⟩ := not_getmblk_safe w (not_lt.mp hge)
    exact hunsafe (h s hs hw)
  · exact Call.safe_of_no_word xdrmem_reads hs hw
  · exact ⟨getmblk_safe_of_no_word hs hw, Call.safe_of_no_word xdrmblk_reads hs hw⟩

/-- Skipping `-8` bytes succeeds and goes back by four, and the rest of a chain
    is said to have `2 ^ 32 - 1` bytes when it has none. -/
theorem xdr_goes_outside : (∃ s : XdrMem, s.Valid ∧ (s.skipbytes (int32 0xfffffff8)).2 = true ∧
      s.xPrivate = 4 ∧ (s.skipbytes (int32 0xfffffff8)).1.xPrivate = 0) ∧
    ∃ s : XdrMblk, s.Valid ∧ s.view = [[0xff, 0xff, 0xff, 0xff]] ∧
      ∃ s' chain, s.getmblk = (s', some (chain, 0xffffffff)) ∧
        (chain.map Mblk.content).flatten = [] := by
  constructor
  · exact ⟨⟨fun _ => 0, 4, 4, 0⟩, ⟨by decide, by decide, by decide, by decide⟩, rfl, rfl, rfl⟩
  obtain ⟨s, hs, hview, -, s', heq, hs', hview'⟩ := exists_only_word xdrmblk_reads 0xffffffff#32
  have hnone : s'.view.flatten = [] := by
    rw [hview']
    rfl
  have hget := getmblk_eq hs' heq
  rw [hnone, if_neg (by decide)] at hget
  exact ⟨s, hs, hview, _, s'.chain, hget, hnone⟩

end Sol7.Rpc
