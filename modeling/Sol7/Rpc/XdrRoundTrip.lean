import Sol7.Rpc.XdrEncode
import Sol7.Rpc.XdrStream

/-!
# What Is Encoded Can Be Decoded

The two halves meet at a sequence of pieces of the message. Encoding an item
puts its pieces at the end of the message, and a message with these pieces at
its front is decoded to the item.

After each item the blocks can be read back to the end of the last one. A piece
that is added later, to this block or in a new one, does not change what has
been read before. A new block always takes at least one byte of the piece it was
allocated for, so that no empty block is left at the end.

## Main definitions

* `XdrMblk.Encoding`: The state of an encoder, with the pieces it has written.
* `Item.pieces`: The pieces of an item.
* `Allocates`: The allocator returns blocks that are large enough.

## Theorems

* `putint32_spec`, `putbytes_spec`: Each operation adds one piece.
* `encodeAll_spec`: The pieces of a sequence of items.
* `decodeAll_spec`: Decoding a message from its pieces.
* `xdrmblk_round_trip`: Decoding gives back what was encoded.
-/

namespace Sol7.Rpc

open List Option XdrMblk Mblk Item

/-- A block that can be written to, with offsets that an `int` can hold. -/
structure Mblk.Writable (m : Mblk) : Prop where
  lo : 0 ≤ m.rptr
  hi : m.rptr ≤ m.wptr
  lim : m.wptr ≤ m.lim
  lt : m.lim < 2 ^ 31

/-- A block as the allocator returns it. -/
structure Mblk.Fresh (m : Mblk) : Prop where
  rptr : m.rptr = 0
  wptr : m.wptr = 0
  lt : m.lim < 2 ^ 31

/-- The allocator always returns a block, of at least the size asked for. -/
structure Allocates (allocb : Nat → Option Mblk) (sz : Nat) : Prop where
  block : ∀ k, ∃ m, allocb k = some m ∧ m.Fresh ∧ sz ≤ m.lim

namespace Mblk

variable {m : Mblk}

theorem Writable.ok (h : m.Writable) : m.Ok := by
  obtain ⟨hlo, hhi, hlim, hlt⟩ := h
  refine ⟨hlo, hhi, ?_⟩
  unfold left
  omega

theorem Fresh.writable (h : m.Fresh) : m.Writable := by
  obtain ⟨hr, hw, hlt⟩ := h
  exact ⟨by omega, by omega, by omega, hlt⟩

theorem Fresh.content (h : m.Fresh) : m.content = [] := by
  have hleft : m.left = 0 := by
    unfold left
    rw [h.rptr, h.wptr]
    rfl
  rw [Mblk.content, hleft]
  rfl

/-- Storing bytes in a block that has room for them. -/
theorem Writable.put (h : m.Writable) (bs : List UInt8) (hroom : m.wptr + bs.length ≤ m.lim) :
    (m.put bs).Writable ∧ (m.put bs).content = m.content ++ bs := by
  obtain ⟨hlo, hhi, hlim, hlt⟩ := h
  refine ⟨⟨hlo, ?_, hroom, hlt⟩, ?_⟩
  · change m.rptr ≤ ((m.wptr + bs.length : Nat) : Int)
    omega
  have hleft : (m.put bs).left.toNat = m.left.toNat + bs.length := by
    unfold left Mblk.put
    dsimp only
    omega
  have hend : m.rptr.toNat + m.left.toNat = m.wptr := by
    unfold left
    omega
  rw [content, hleft, readAt_add]
  change readAt (writeAt m.mem m.wptr bs) m.rptr.toNat m.left.toNat ++
    readAt (writeAt m.mem m.wptr bs) (m.rptr.toNat + m.left.toNat) bs.length = _
  rw [hend, readAt_writeAt]
  congr 1
  refine readAt_congr _ fun i hi => ?_
  exact writeAt_of_not_mem _ (.inl (by omega))

/-- The room in a block after bytes have been stored. -/
theorem room_put (m : Mblk) (bs : List UInt8) :
    ((m.put bs).lim : Int) - (m.put bs).wptr = m.lim - m.wptr - bs.length := by
  change (m.lim : Int) - ((m.wptr + bs.length : Nat) : Int) = _
  omega

end Mblk

/-- A fresh block after `XDRMBLK_SETHANDY`. -/
theorem setHandy_spec {m : Mblk} {blen adjust : Nat} (h : m.Fresh) (hle : blen ≤ m.lim)
    (hadjust : adjust ≤ blen) :
    (setHandy m blen adjust).1.Writable ∧ (setHandy m blen adjust).1.content = [] ∧
      (setHandy m blen adjust).1.wptr + blen ≤ (setHandy m blen adjust).1.lim ∧
      (setHandy m blen adjust).2 =
        (setHandy m blen adjust).1.lim - (setHandy m blen adjust).1.wptr - adjust := by
  obtain ⟨hr, hw, hlt⟩ := h
  unfold setHandy
  dsimp only
  split
  · next hhalf =>
    refine ⟨⟨?_, ?_, ?_, hlt⟩, ?_, ?_, ?_⟩
    · dsimp only
      omega
    · dsimp only
      omega
    · dsimp only
      omega
    · have hleft : left { m with
          rptr := m.rptr + (m.lim - blen : Int)
          wptr := (m.rptr + (m.lim - blen : Int)).toNat } = 0 := by
        unfold left
        dsimp only
        omega
      rw [content, hleft]
      rfl
    · dsimp only
      omega
    · dsimp only
      rw [int32_eq (by omega) (by omega)]
      omega
  · refine ⟨Mblk.Fresh.writable ⟨hr, hw, hlt⟩, Mblk.Fresh.content ⟨hr, hw, hlt⟩, by omega, ?_⟩
    rw [int32_eq (by omega) (by omega)]
    omega

/-- The next block after the last one. -/
theorem nextBlock_spec {allocb : Nat → Option Mblk} {sz adjust : Nat}
    (h : Allocates allocb sz) (hsz : 4 ≤ sz) (count : Nat) (hadjust : adjust ≤ 4) : ∃ m : Mblk,
      nextBlock allocb sz count [] adjust = some (m, [], (m.lim - m.wptr - adjust : Int)) ∧
      m.Writable ∧ m.content = [] ∧ m.wptr + 4 ≤ m.lim := by
  obtain ⟨m, hm, hfresh, hle⟩ := h.block count
  obtain ⟨hwritable, hempty, hroom, hhandy⟩ := setHandy_spec hfresh hle (by omega : adjust ≤ sz)
  refine ⟨(setHandy m sz adjust).1, ?_, hwritable, hempty, by omega⟩
  unfold nextBlock xdrmblkAlloc
  rw [if_neg (by omega), hm, map_some, hhandy]

variable {allocb : Nat → Option Mblk} {sz : Nat} {s : XdrMblk} {ps : List (Piece UInt8)}
  (halloc : Allocates allocb sz) (hsz : 4 ≤ sz)

namespace XdrMblk

/-- An encoder that is at the last block, with the pieces it has written. -/
structure Encoding (s : XdrMblk) (sz : Nat) (ps : List (Piece UInt8)) : Prop where
  passed : ∀ b ∈ s.passed, b.Ok
  last : ∃ m, s.chain = [m] ∧ m.Writable ∧ s.xHandy = m.lim - m.wptr
  size : s.xPrivate = sz
  back : ReadsBack ps ((s.passed ++ s.chain).map content) [[]]

/-- The contents of the blocks. -/
def contents (s : XdrMblk) : List (List UInt8) := (s.passed ++ s.chain).map content

include halloc hsz

/-- A word is added to the last block or is a new one. -/
theorem putint32_spec (h : s.Encoding sz ps) (w : Nat) :
    ∃ s', s.putint32 allocb w = (s', true) ∧ s'.Encoding sz (ps ++ [.whole (bigEndian 4 w)]) ∧
      (s'.contents = grow (bigEndian 4 w) [] s.contents ∨
        s'.contents = grow [] [bigEndian 4 w] s.contents) := by
  obtain ⟨passed, chain, handy, _⟩ := s
  obtain ⟨hpassed, ⟨m, hchain, hm, hhandy⟩, hsize, hback⟩ := h
  subst hchain hhandy hsize
  have hlen : (bigEndian 4 w).length = 4 := length_bigEndian 4 w
  have hlt := hm.lt
  have hlim := hm.lim
  unfold putint32 contents
  dsimp only
  rw [int32_eq (by omega) (by omega)]
  rw [map_append, map_singleton] at hback
  split
  · next hshort =>
    obtain ⟨m', hnext, hm', hempty, hroom⟩ :=
        nextBlock_spec halloc hsz (passed ++ [m]).length le_rfl
    rw [hnext]
    obtain ⟨hput, hcontent⟩ := hm'.put (bigEndian 4 w) (by omega)
    have hgrow : ((passed ++ [m]) ++ [m'.put (bigEndian 4 w)]).map content =
        grow [] [bigEndian 4 w] ((passed ++ [m]).map content) := by
      rw [map_append, map_append, map_singleton, map_singleton, grow_concat,
        hcontent, hempty, append_nil, append_assoc]
      rfl
    have hpassed' := forall_mem_append.mpr ⟨hpassed, forall_mem_singleton.mpr hm.ok⟩
    refine ⟨_, rfl, ⟨hpassed', ⟨_, rfl, hput, ?_⟩, rfl, ?_⟩, .inr hgrow⟩
    · rw [room_put, hlen]
    · rw [hgrow, map_append, map_singleton]
      refine hback.concat ?_
      change takeWhole (bigEndian 4 w).length [[], bigEndian 4 w] = _
      rfl
  · next hroom =>
    obtain ⟨hput, hcontent⟩ := hm.put (bigEndian 4 w) (by omega)
    have hgrow : (passed ++ [m.put (bigEndian 4 w)]).map content =
        grow (bigEndian 4 w) [] ((passed ++ [m]).map content) := by
      rw [map_append, map_append, map_singleton, map_singleton, grow_concat, hcontent]
    refine ⟨_, rfl, ⟨hpassed, ⟨_, rfl, hput, ?_⟩, rfl, ?_⟩, .inl hgrow⟩
    · rw [room_put, hlen]
      rfl
    · rw [hgrow, map_append, map_singleton]
      refine hback.concat ?_
      rfl

/-- The loop of `xdrmblk_putbytes` adds the bytes to the last block and to as
    many new ones as it takes. The last of them is not empty. -/
theorem putbytesLoop_spec (fuel : Nat)
    {passed : List Mblk} {m : Mblk} {addr : List UInt8} (hpassed : ∀ b ∈ passed, b.Ok)
    (hm : m.Writable) (haddr : addr.length < 2 ^ 31) (hfuel : addr.length < fuel)
    (hmore : m.wptr < m.lim ∨ addr.length + 1 < fuel) :
    ∃ s', putbytesLoop allocb sz fuel passed m [] (m.lim - m.wptr) addr = (s', true) ∧
      (∀ b ∈ s'.passed, b.Ok) ∧
      (∃ m', s'.chain = [m'] ∧ m'.Writable ∧ s'.xHandy = m'.lim - m'.wptr) ∧ s'.xPrivate = sz ∧
      ∃ x more, s'.contents = grow x more ((passed ++ [m]).map content) ∧
        takeAcross addr.length (x :: more) = some (addr, [[]]) := by
  induction fuel generalizing passed m addr with
  | zero => omega
  | succ fuel ih =>
    have hlt := hm.lt
    have hlim := hm.lim
    rw [putbytesLoop]
    dsimp only
    rw [int32_eq (by omega) (by omega)]
    split
    · next hshort =>
      -- Fill the block and go on with a new one.
      rw [show ((m.lim : Int) - m.wptr - addr.length + addr.length) = m.lim - m.wptr by omega,
        int32_eq (by omega) (by omega)]
      have hfill : ∃ m1 addr1 : _, (if (0 : Int) < m.lim - m.wptr
            then m.put (addr.take ((m.lim : Int) - m.wptr).toNat) else m) = m1 ∧
          (if (0 : Int) < m.lim - m.wptr
            then addr.drop ((m.lim : Int) - m.wptr).toNat else addr) = addr1 ∧
          m1.Writable ∧ m1.content = m.content ++ addr.take (m.lim - m.wptr) ∧
          addr1 = addr.drop (m.lim - m.wptr) := by
        have hnat : ((m.lim : Int) - m.wptr).toNat = m.lim - m.wptr := by omega
        refine ⟨_, _, rfl, rfl, ?_⟩
        rw [hnat]
        split
        · obtain ⟨hput, hcontent⟩ := hm.put (addr.take (m.lim - m.wptr))
            (by rw [length_take]; omega)
          exact ⟨hput, hcontent, rfl⟩
        · rw [show m.lim - m.wptr = 0 by omega]
          exact ⟨hm, by simp, rfl⟩
      obtain ⟨m1, addr1, hm1, haddr1, hwritable, hcontent, rfl⟩ := hfill
      rw [hm1, haddr1]
      obtain ⟨m', hnext, hm', hempty, hroom⟩ :=
          nextBlock_spec halloc hsz (passed ++ [m1]).length zero_le
      rw [hnext]
      rw [show ((m'.lim : Int) - m'.wptr - (0 : Nat)) = m'.lim - m'.wptr by omega]
      have hlen : (addr.drop (m.lim - m.wptr)).length = addr.length - (m.lim - m.wptr) :=
        length_drop
      have hpassed' := forall_mem_append.mpr ⟨hpassed, forall_mem_singleton.mpr hwritable.ok⟩
      have hshorter : (addr.drop (m.lim - m.wptr)).length < 2 ^ 31 := by omega
      obtain ⟨s', hloop, hok, hlast, hsize, x, more, hcontents, htake⟩ :=
          ih hpassed' hm' hshorter (by omega) (.inl (by omega))
      refine ⟨s', hloop, hok, hlast, hsize, addr.take (m.lim - m.wptr), x :: more, ?_, ?_⟩
      · rw [hcontents, map_append, map_append, map_append, map_singleton,
          map_singleton, map_singleton, grow_concat, grow_concat, hcontent, hempty]
        simp
      have hcons := takeAcross_cons (x := addr.take (m.lim - m.wptr)) htake (by omega)
      rw [take_append_drop] at hcons
      rw [← hcons]
      congr 1
      rw [length_take, hlen]
      omega
    · next hroom =>
      obtain ⟨hput, hcontent⟩ := hm.put addr (by omega)
      refine ⟨_, rfl, hpassed, ⟨_, rfl, hput, ?_⟩, rfl, addr, [], ?_, takeAcross_last addr⟩
      · rw [room_put]
      · unfold contents
        rw [map_append, map_append, map_singleton, map_singleton, grow_concat, hcontent]

theorem putbytes_spec (h : s.Encoding sz ps) {addr : List UInt8} (haddr : addr.length < 2 ^ 31) :
    ∃ s', s.putbytes allocb addr = (s', true) ∧ s'.Encoding sz (ps ++ [.across addr]) := by
  obtain ⟨passed, chain, handy, _⟩ := s
  obtain ⟨hpassed, ⟨m, hchain, hm, hhandy⟩, hsize, hback⟩ := h
  subst hchain hhandy hsize
  obtain ⟨s', hloop, hok, hlast, hsize, x, more, hcontents, htake⟩ :=
      putbytesLoop_spec halloc hsz (addr.length + [m].length + 1) hpassed hm haddr
      (by omega) (.inr (by simp))
  refine ⟨s', hloop, hok, hlast, hsize, ?_⟩
  unfold contents at hcontents
  rw [hcontents]
  exact hback.concat htake

end XdrMblk

/-! ### Items -/

/-- The pieces of opaque data: the bytes and the filler. -/
def opaquePieces (bs : List UInt8) : List (Piece UInt8) :=
  if bs.length = 0 then []
  else if padding bs.length = 0 then [.across bs]
  else [.across bs, .across (replicate (padding bs.length) 0)]

/-- The pieces of an item. -/
def Item.pieces : Item → List (Piece UInt8)
  | .int32 w => [.whole (bigEndian 4 w.toNat)]
  | .bytes bs _ => .whole (bigEndian 4 bs.length) :: opaquePieces bs
  | .fixed bs => opaquePieces bs

theorem padding_lt (n : Nat) : padding n < 4 := by
  unfold padding
  split
  · omega
  · omega

/-- The handle as it is initialised for encoding. -/
theorem initEncode_encoding {m : Mblk} (hm : m.Fresh) (sz : Nat) :
    (initEncode m sz).Encoding sz [] := by
  have hlt := hm.lt
  refine ⟨nofun, ⟨m, rfl, hm.writable, ?_⟩, rfl, ?_⟩
  · change int32 m.lim = m.lim - m.wptr
    rw [int32_eq (by omega) (by omega), hm.wptr]
    omega
  · have hcontent : (([] : List Mblk) ++ [m]).map content = [[]] := by
      rw [nil_append, map_singleton, hm.content]
    change ReadsBack [] ((([] : List Mblk) ++ [m]).map content) [[]]
    rw [hcontent]
    exact ReadsBack.nil _

section

include halloc hsz

theorem xdrOpaquePut_spec (h : s.Encoding sz ps) {bs : List UInt8} (hbs : bs.length < 2 ^ 31) :
    ∃ s', xdrOpaquePut (xdrmblkPut allocb) s bs = (s', true) ∧
      s'.Encoding sz (ps ++ opaquePieces bs) := by
  unfold xdrOpaquePut opaquePieces
  split
  · exact ⟨s, rfl, by rwa [append_nil]⟩
  obtain ⟨s1, heq1, h1⟩ := putbytes_spec halloc hsz h hbs
  have heq1' : (xdrmblkPut allocb).putbytes s bs = (s1, true) := heq1
  rw [heq1']
  dsimp only
  split
  · exact ⟨s1, rfl, h1⟩
  have hfill : (replicate (padding bs.length) (0 : UInt8)).length < 2 ^ 31 := by
    have := padding_lt bs.length
    rw [length_replicate]
    omega
  obtain ⟨s2, heq2, h2⟩ := putbytes_spec halloc hsz h1 hfill
  refine ⟨s2, heq2, ?_⟩
  rwa [append_assoc] at h2

theorem Item.encode_spec (h : s.Encoding sz ps) {i : Item} (hi : i.Ok) :
    ∃ s', i.encode (xdrmblkPut allocb) s = (s', true) ∧ s'.Encoding sz (ps ++ i.pieces) := by
  cases i with
  | int32 w =>
    obtain ⟨s', heq, h', -⟩ := putint32_spec halloc hsz h w.toNat
    exact ⟨s', heq, h'⟩
  | bytes bs maxsize =>
    obtain ⟨s1, heq1, h1, -⟩ := putint32_spec halloc hsz h bs.length
    obtain ⟨s2, heq2, h2⟩ := xdrOpaquePut_spec halloc hsz h1 hi.1
    refine ⟨s2, ?_, ?_⟩
    · have heq1' : (xdrmblkPut allocb).putint32 s bs.length = (s1, true) := heq1
      rw [encode, xdrBytesPut, heq1']
      dsimp only
      rw [if_neg (not_lt.mpr hi.2), heq2]
    · rwa [append_assoc] at h2
  | fixed bs => exact xdrOpaquePut_spec halloc hsz h hi

/-- Encoding a sequence of items succeeds and writes their pieces. -/
theorem encodeAll_spec {items : List Item} (hitems : ∀ i ∈ items, i.Ok) (h : s.Encoding sz ps) :
    ∃ s', encodeAll (xdrmblkPut allocb) items s = (s', true) ∧
      s'.Encoding sz (ps ++ items.flatMap pieces) := by
  induction items generalizing s ps with
  | nil => exact ⟨s, rfl, by rwa [flatMap_nil, append_nil]⟩
  | cons i items ih =>
    obtain ⟨s1, heq1, h1⟩ := encode_spec halloc hsz h (hitems i (mem_cons_self ..))
    obtain ⟨s2, heq2, h2⟩ := ih ((forall_mem_cons.mp hitems).2) h1
    refine ⟨s2, ?_, ?_⟩
    · rw [encodeAll, heq1]
      exact heq2
    · rwa [append_assoc, ← flatMap_cons] at h2

end

section
variable {σ : Type} {ops : XdrOps σ} {Valid : σ → Prop} {view : σ → List (List UInt8)}
  {Ahead : σ → σ → Prop} {s : σ} {ps : List (Piece UInt8)} {bs : List UInt8}
  {rest : List (List UInt8)} (hr : Reads ops Valid view Ahead)
include hr

/-- Decode a word from the piece that it is. -/
theorem getint32_back (hs : Valid s) {w : Nat}
    (hw : w < 2 ^ 32) (h : ReadsBack (.whole (bigEndian 4 w) :: ps) (view s) rest) :
    ∃ s', ops.getint32 s = (s', some w) ∧ Valid s' ∧ ReadsBack ps (view s') rest := by
  cases h with
  | cons hread hrest =>
    have htake : takeWhole 4 (view s) = some (bigEndian 4 w, _) := hread
    obtain ⟨s', heq, hs', rfl, -⟩ := hr.getint32 hs htake
    rw [bigEndianValue_bigEndian, Nat.mod_eq_of_lt (by omega)] at heq
    exact ⟨s', heq, hs', hrest⟩

/-- Decode bytes from the piece that they are. -/
theorem getbytes_back (hs : Valid s) (hbs : bs.length < 2 ^ 31)
    (h : ReadsBack (.across bs :: ps) (view s) rest) :
    ∃ s', ops.getbytes s (int32 bs.length) = (s', some (.bytes bs)) ∧ Valid s' ∧
      ReadsBack ps (view s') rest := by
  cases h with
  | cons hread hrest =>
    obtain ⟨s', heq, hs', rfl, -⟩ := hr.getbytes hs hbs.le hread
    exact ⟨s', heq, hs', hrest⟩

theorem xdrOpaque_back (hs : Valid s) (hbs : bs.length < 2 ^ 31)
    (h : ReadsBack (opaquePieces bs ++ ps) (view s) rest) :
    ∃ s', xdrOpaque ops s bs.length = (s', some (.bytes bs)) ∧ Valid s' ∧
      ReadsBack ps (view s') rest := by
  unfold xdrOpaque
  unfold opaquePieces at h
  split at h
  · next hzero =>
    rw [length_eq_zero_iff.mp hzero]
    exact ⟨s, rfl, hs, h⟩
  next hpos =>
  rw [if_neg hpos]
  split at h <;> obtain ⟨s1, heq1, hs1, h1⟩ := getbytes_back hr hs hbs h <;> rw [heq1]
  · next hpad => exact ⟨s1, if_pos hpad, hs1, h1⟩
  · next hpad =>
    -- The filler is read and thrown away.
    have hfill : (replicate (padding bs.length) (0 : UInt8)).length = padding bs.length :=
      length_replicate
    have hlt := padding_lt bs.length
    obtain ⟨s2, heq2, hs2, h2⟩ := getbytes_back hr hs1 (by omega) h1
    rw [hfill, padding] at heq2
    refine ⟨s2, (if_neg hpad).trans ?_, hs2, h2⟩
    rw [heq2]

theorem Field.decode_back (hs : Valid s) {i : Item} (hi : i.Ok)
    (h : ReadsBack (i.pieces ++ ps) (view s) rest) :
    ∃ s', i.field.decode ops s = (s', some i.value) ∧ Valid s' ∧ ReadsBack ps (view s') rest := by
  cases i with
  | int32 w =>
    obtain ⟨s', heq, hs', h'⟩ := getint32_back hr hs w.isLt h
    refine ⟨s', ?_, hs', h'⟩
    rw [field, Field.decode, heq]
    rfl
  | bytes bs maxsize =>
    obtain ⟨hlt, hmax⟩ := hi
    obtain ⟨s1, heq1, hs1, h1⟩ := getint32_back hr hs (by omega) h
    obtain ⟨s2, heq2, hs2, h2⟩ := xdrOpaque_back hr hs1 hlt h1
    have hbytes : xdrBytes ops s maxsize = xdrOpaque ops s1 bs.length := by
      rw [xdrBytes, heq1]
      dsimp only
      rw [if_neg (not_lt.mpr hmax)]
      split
      · next hzero => rw [xdrOpaque, if_pos hzero]
      · rfl
    refine ⟨s2, ?_, hs2, h2⟩
    rw [field, Field.decode, hbytes, heq2]
    rfl
  | fixed bs =>
    obtain ⟨s', heq, hs', h'⟩ := xdrOpaque_back hr hs hi h
    refine ⟨s', ?_, hs', h'⟩
    rw [field, Field.decode, heq]
    rfl

/-- A message is decoded to the items whose pieces it consists of. -/
theorem decodeAll_spec (hs : Valid s) {items : List Item}
    (hitems : ∀ i ∈ items, i.Ok) (h : ReadsBack (items.flatMap pieces) (view s) rest) :
    ∃ s', decodeAll ops (items.map field) s = (s', some (items.map value)) ∧
      Valid s' ∧ view s' = rest := by
  induction items generalizing s with
  | nil =>
    cases h
    exact ⟨s, rfl, hs, rfl⟩
  | cons i items ih =>
    obtain ⟨s1, heq1, hs1, h1⟩ := Field.decode_back hr hs (hitems i (mem_cons_self ..)) h
    obtain ⟨s2, heq2, hs2, h2⟩ := ih hs1 ((forall_mem_cons.mp hitems).2) h1
    refine ⟨s2, ?_, hs2, h2⟩
    rw [map_cons, decodeAll, heq1]
    dsimp only
    rw [heq2]
    rfl

end

/-- Encoding any items into a chain and decoding the chain gives back the items
    and leaves nothing, for every size of the first block, every size of the
    extensions and whatever the allocator returns. A word that is encoded next is
    added whole, to the last block or in a new one. -/
theorem xdrmblk_round_trip {allocb : Nat → Option Mblk} {sz : Nat} (hsz : 4 ≤ sz)
    (halloc : Allocates allocb sz) {m : Mblk} (hm : m.Fresh) {items : List Item}
    (hitems : ∀ i ∈ items, i.Ok) (sz' : Nat) : ∃ s first cont s',
      encodeAll (xdrmblkPut allocb) items (initEncode m sz) = (s, true) ∧
      s.passed ++ s.chain = first :: cont ∧
      decodeAll xdrmblkOps (items.map field) (initDecode first cont sz') =
        (s', some (items.map value)) ∧
      s'.view = [[]] ∧ s'.xHandy = 0 ∧
      ∀ w, ∃ s'', (xdrmblkPut allocb).putint32 s w = (s'', true) ∧
        (s''.contents = grow (bigEndian 4 w) [] s.contents ∨
          s''.contents = grow [] [bigEndian 4 w] s.contents) := by
  obtain ⟨s, hencode, hs⟩ := encodeAll_spec halloc hsz hitems (initEncode_encoding hm sz)
  obtain ⟨b, hchain, hb, -⟩ := hs.last
  have hok : ∀ c ∈ s.passed ++ s.chain, c.Ok := by
    rw [hchain]
    exact forall_mem_append.mpr ⟨hs.passed, forall_mem_singleton.mpr hb.ok⟩
  have hword : ∀ w, ∃ s'', (xdrmblkPut allocb).putint32 s w = (s'', true) ∧
      (s''.contents = grow (bigEndian 4 w) [] s.contents ∨
        s''.contents = grow [] [bigEndian 4 w] s.contents) := by
    intro w
    obtain ⟨s'', heq, -, hgrow⟩ := putint32_spec halloc hsz hs w
    exact ⟨s'', heq, hgrow⟩
  have hback := hs.back
  rcases hall : s.passed ++ s.chain with _ | ⟨first, cont⟩
  · rw [hchain] at hall
    simp at hall
  rw [hall] at hok hback
  have hfirst := hok first (mem_cons_self ..)
  have hvalid : (initDecode first cont sz').Valid := by
    refine ⟨hok, ?_⟩
    have := hfirst.lt
    have := hfirst.left_nonneg
    exact int32_eq (by omega) (by omega)
  obtain ⟨s', hdecode, hs', hview⟩ := decodeAll_spec xdrmblk_reads hvalid hitems hback
  refine ⟨s, first, cont, s', hencode, hall, hdecode, hview, ?_, hword⟩
  -- Nothing is left in the last block.
  obtain ⟨passed', chain', handy', _⟩ := s'
  have hhandy := hs'.handy
  cases chain' with
  | nil => cases hview
  | cons c cs =>
    have hcok : c.Ok := hs'.blocks c (mem_cons_self ..)
    have hempty : c.content = [] := (cons.inj hview).1
    have hlen := c.length_content
    rw [hempty] at hlen
    have := hcok.left_nonneg
    dsimp only at hhandy ⊢
    rw [length_nil] at hlen
    omega

theorem xdrmblk_round_trip_three : ∃ s first cont s',
      encodeAll (xdrmblkPut fun _ => some ⟨fun _ => 0, 0, 0, 12⟩)
        [.int32 5, .bytes [1, 2, 3] 10, .fixed [7]] (initEncode ⟨fun _ => 0, 0, 0, 6⟩ 8) =
          (s, true) ∧
      s.passed ++ s.chain = first :: cont ∧
      decodeAll xdrmblkOps [.int32, .bytes 10, .fixed 1] (initDecode first cont 0) =
        (s', some [.int32 5, .data (.bytes [1, 2, 3]), .data (.bytes [7])]) ∧
      s'.view = [[]] ∧ s'.xHandy = 0 ∧
      ∀ w, ∃ s'', (xdrmblkPut fun _ => some ⟨fun _ => 0, 0, 0, 12⟩).putint32 s w = (s'', true) ∧
        (s''.contents = grow (bigEndian 4 w) [] s.contents ∨
          s''.contents = grow [] [bigEndian 4 w] s.contents) := by
  have hitems : ∀ i ∈ [Item.int32 5, .bytes [1, 2, 3] 10, .fixed [7]], i.Ok := by simp [Item.Ok]
  exact xdrmblk_round_trip (by decide) ⟨fun _ => ⟨_, rfl, ⟨rfl, rfl, by decide⟩, by decide⟩⟩
    ⟨rfl, rfl, by decide⟩ hitems 0

end Sol7.Rpc
