import Sol7.UfsLog.Ldl

/-!
# What Is Written Is One Stream

However `storebuf` chops a delta around trailers, bufs and the end of the log,
the log holds the bytes in the order in which they were given. `Streams` is
the invariant: the device, with the dirty buf written over it, is a `Laid`
image of the stream, the tail is where the next position of the stream goes,
and the next identifier is the one of the sector it is in. Every routine that
writes is characterised by what it appends.

## Main definitions

* `MlUnit.image`: The device as it will be once the dirty buf is written.
* `Streams`: The log holds a stream.
* `Completed`: A sector has just been completed.

## Theorems

* `Streams.storeTurn`, `Streams.storebuf`, `Streams.storeAll`: Storing bytes
  appends them.
* `Streams.ldlWrite`: Writing a delta appends its header and its data.
* `Streams.ldlRoundCommit`: Rounding appends what is left of the sector.
* `Streams.ldlPushCommit`, `Streams.ldlSethead`: Pushing and moving the head
  append nothing.
-/

namespace Sol7.UfsLog

open List Option

namespace MlUnit

/-- The device as it will be once the dirty buf has been written. -/
def image (s : MlUnit) : Nat → UInt8 :=
  if s.dirty then writeAt s.disk s.bp.lof (readAt s.mem s.bp.addr s.bp.bcount) else s.disk

variable {s : MlUnit}

theorem image_of_dirty (h : s.dirty = true) :
    s.image = writeAt s.disk s.bp.lof (readAt s.mem s.bp.addr s.bp.bcount) :=
  if_pos h

theorem image_of_clean (h : s.dirty = false) : s.image = s.disk :=
  if_neg (by simp [h])

/-- Copying into the dirty buf is writing at its end. -/
theorem image_copyIn (h : s.dirty = true) (bytes : List UInt8) :
    (s.copyIn bytes).image = writeAt s.image s.bp.elof bytes := by
  have hold : readAt (writeAt s.mem (s.bp.addr + s.bp.bcount) bytes) s.bp.addr s.bp.bcount =
      readAt s.mem s.bp.addr s.bp.bcount :=
    readAt_congr _ fun i hi => writeAt_of_not_mem _ (.inl (by omega))
  have hnew : readAt (writeAt s.mem (s.bp.addr + s.bp.bcount) bytes) s.bp.addr
      (s.bp.bcount + bytes.length) = readAt s.mem s.bp.addr s.bp.bcount ++ bytes := by
    rw [readAt_add, hold, readAt_writeAt]
  have hap := writeAt_append s.disk s.bp.lof (readAt s.mem s.bp.addr s.bp.bcount) bytes
  rw [length_readAt] at hap
  rw [image_of_dirty (s := s.copyIn bytes) h, image_of_dirty h, Buf.elof, hap, ← hnew]
  rfl

/-- Pushing the dirty buf leaves the image as it is. -/
theorem image_pushDirtyBp (hd : s.dirty = true) (he : s.error = false) :
    s.pushDirtyBp.image = s.image := by
  have hdisk : s.pushDirtyBp.disk = s.image := by
    rw [image_of_dirty hd, pushDirtyBp, he]
    rfl
  rw [image_of_clean rfl, hdisk]

/-- The head, which no write moves. -/
def headState (s : MlUnit) : Nat × UInt32 := (s.head, s.headIdent)

@[simp] theorem headState_getWriteBp (s : MlUnit) : s.getWriteBp.headState = s.headState := by
  unfold getWriteBp
  split <;> rfl

end MlUnit

/-- The sizes of the bufs are whole sectors. -/
def Sized (b : Buf) : Prop := 0 < b.bufsize ∧ b.bufsize % 512 = 0

/-- The log holds the stream up to `pos`, and its tail is there. `base` is
    what the count of bytes moved started from. -/
structure Streams (r : Ring) (base : Int) (s : MlUnit) (pos : Nat) (stream : Nat → UInt8) :
    Prop where
  bol : s.bol = r.bol
  eol : s.eol = r.eol
  error : s.error = false
  tail : s.tail = r.lof pos
  ident : s.tailIdent = r.identOf (pos / 504)
  moved : (s.moved : Int) = span pos + base
  sized : ∀ b ∈ s.bp :: s.forw, Sized b
  laid : Laid r s.image pos stream
  filling : s.dirty = true → s.bp.bcount < s.bp.bufsize ∧ s.bp.elof = s.tail
  clean : s.dirty = false → pos % 504 = 0

/-- The dirty buf ends with a complete sector, and can be pushed. -/
structure Pushable (r : Ring) (base : Int) (s : MlUnit) (pos : Nat) (stream : Nat → UInt8) :
    Prop where
  bol : s.bol = r.bol
  eol : s.eol = r.eol
  error : s.error = false
  dirty : s.dirty = true
  boundary : pos % 504 = 0
  ident : s.tailIdent = r.identOf (pos / 504)
  moved : (s.moved : Int) = span pos + base
  sized : ∀ b ∈ s.bp :: s.forw, Sized b
  laid : Laid r s.image pos stream
  filled : 0 < s.bp.bcount ∧ s.bp.bcount ≤ s.bp.bufsize ∧ s.bp.bcount % 512 = 0

/-- The sector has just been completed, and neither the end of the log nor the
    end of the buf has been looked at. -/
structure Completed (r : Ring) (base : Int) (s : MlUnit) (pos : Nat) (stream : Nat → UInt8) :
    Prop extends Pushable r base s pos stream where
  written : 0 < pos
  tail : s.tail = r.sectorLof (pos / 504 - 1) + 512
  elof : s.bp.elof = s.tail

variable {r : Ring} {base : Int} {s : MlUnit} {pos : Nat} {stream : Nat → UInt8}

section

theorem Sized.inval {b : Buf} (h : Sized b) (lof nb : Nat) : Sized (b.inval lof nb) := by
  unfold Buf.inval
  split
  · exact h
  · split <;> exact h

/-- Discarding bufs leaves the sizes as they are. -/
theorem sized_invalRange (h : ∀ b ∈ s.bp :: s.forw, Sized b) (lof nb : Nat) :
    ∀ b ∈ (s.invalRange lof nb).bp :: (s.invalRange lof nb).forw, Sized b := by
  intro b hb
  rcases mem_cons.mp hb with rfl | hb
  · have hbp := h s.bp mem_cons_self
    unfold MlUnit.invalRange
    cases s.dirty with
    | true => exact hbp
    | false => exact hbp.inval lof nb
  · obtain ⟨c, hc, rfl⟩ := mem_map.mp hb
    exact (h c (mem_cons_of_mem _ hc)).inval lof nb

/-- What is left of a pushed buf, and the buf made of the rest. -/
theorem sized_pushDirtyBp (h : ∀ b ∈ s.bp :: s.forw, Sized b) (hpos : 0 < s.bp.bcount)
    (hle : s.bp.bcount ≤ s.bp.bufsize) (hmod : s.bp.bcount % 512 = 0) :
    ∀ b ∈ s.pushDirtyBp.bp :: s.pushDirtyBp.forw, Sized b := by
  have hbp := h s.bp mem_cons_self
  have hextra : ∀ b ∈ s.bp.extra, Sized b := by
    unfold Buf.extra
    split
    · exact forall_mem_nil _
    have := hbp.2
    refine forall_mem_singleton.mpr ⟨?_, ?_⟩
    · show 0 < s.bp.bufsize - s.bp.bcount
      omega
    · show (s.bp.bufsize - s.bp.bcount) % 512 = 0
      omega
  exact forall_mem_cons.mpr ⟨⟨hpos, hmod⟩, forall_mem_append.mpr
    ⟨hextra, (forall_mem_cons.mp h).2⟩⟩

/-- Pushing the buf, with the tail wrapped if need be. -/
theorem Pushable.push (h : Pushable r base s pos stream) {t : Nat} (ht : t = r.lof pos) :
    Streams r base ({ s with tail := t }.pushDirtyBp) pos stream where
  __ := h
  tail := ht
  sized := sized_pushDirtyBp (s := { s with tail := t }) h.sized h.filled.1 h.filled.2.1 h.filled.2.2
  laid := by
    rw [MlUnit.image_pushDirtyBp (s := { s with tail := t }) h.dirty h.error]
    exact h.laid
  filling := nofun
  clean := fun _ => h.boundary

variable (h : Completed r base s pos stream)
include h

/-- The tail of the stream is where the log wraps to. -/
theorem Completed.lof_eq : r.lof pos = if s.tail = s.eol then s.bol else s.tail := by
  have hk : pos / 504 = pos / 504 - 1 + 1 := by
    have := h.boundary
    have := h.written
    omega
  rw [r.lof_of_boundary h.boundary, hk, h.tail, h.eol, h.bol]
  split
  · next hw => exact r.sectorLof_wrap hw
  · next hw => exact r.sectorLof_succ hw

/-- Going on with a buf that has room, short of the end of the log. -/
theorem Completed.resume (heol : s.tail ≠ s.eol)
    (hroom : s.bp.bcount < s.bp.bufsize) : Streams r base s pos stream where
  __ := h
  tail := by rw [h.lof_eq, if_neg heol]
  filling := fun _ => ⟨hroom, h.elof⟩
  clean := fun _ => h.boundary

/-- Taking over the next buf. -/
theorem Completed.extend {s' : MlUnit} (hx : s.extendWriteBp = some s') :
    Completed r base s' pos stream ∧ s'.bp.bcount < s'.bp.bufsize ∧ s'.tail = s.tail ∧
      s'.eol = s.eol ∧ s'.headState = s.headState := by
  unfold MlUnit.extendWriteBp at hx
  cases hf : s.forw with
  | nil =>
    rw [hf] at hx
    cases hx
  | cons b bs =>
    rw [hf] at hx
    simp only [ne_eq, ite_not, ite_none_right_eq_some, some.injEq] at hx
    obtain ⟨_, rfl⟩ := hx
    have hbp := h.sized s.bp mem_cons_self
    have hb := h.sized b (by rw [hf]; exact mem_cons_of_mem _ mem_cons_self)
    have hfill := h.filled
    refine ⟨⟨⟨h.bol, h.eol, h.error, h.dirty, h.boundary, h.ident, h.moved, ?_, ?_,
      ⟨hfill.1, ?_, hfill.2.2⟩⟩, h.written, h.tail, h.elof⟩, ?_, rfl, rfl, rfl⟩
    · intro c hc
      rcases mem_cons.mp hc with rfl | hc
      · refine ⟨?_, ?_⟩
        · exact hbp.1.trans_le (Nat.le_add_right _ _)
        · rw [Nat.add_mod, hbp.2, hb.2]
      · exact h.sized c (by rw [hf]; exact mem_cons_of_mem _ (mem_cons_of_mem _ hc))
    · have hlaid := h.laid
      rw [MlUnit.image_of_dirty h.dirty] at hlaid
      rw [MlUnit.image_of_dirty (by exact h.dirty)]
      exact hlaid
    · exact hfill.2.1.trans (Nat.le_add_right _ _)
    · exact hfill.2.1.trans_lt (Nat.lt_add_of_pos_right hb.1)

/-- After a sector of `storebuf`. -/
theorem Completed.afterSector : Streams r base s.afterSector.1 pos stream ∧
      s.afterSector.1.headState = s.headState ∧
      (s.afterSector.1.dirty = true → 0 < s.afterSector.1.bp.bcount) ∧
      (s.afterSector.2 = true → s.afterSector.1.dirty = true) := by
  unfold MlUnit.afterSector
  split
  · next heol =>
      refine ⟨h.push ?_, rfl, nofun, nofun⟩
      rw [h.lof_eq, if_pos heol]
  next heol =>
    have htail : s.tail = r.lof pos := by rw [h.lof_eq, if_neg heol]
    split
    · cases hx : s.extendWriteBp with
      | none =>
        exact ⟨h.push htail, rfl, nofun, nofun⟩
      | some s' =>
        obtain ⟨hc, hroom, ht, he, hh⟩ := h.extend hx
        exact ⟨hc.resume (by rw [ht, he]; exact heol) hroom, hh, fun _ => hc.filled.1,
          fun _ => hc.dirty⟩
    · next hfull =>
        exact ⟨h.resume heol (lt_of_le_of_ne h.filled.2.1 hfull), rfl,
          fun _ => h.filled.1, fun _ => h.dirty⟩

end

/-! ### Storing bytes -/

section

/-- The ring of bufs seen from another buf has the same bufs. -/
theorem mem_lru {bp b : Buf} {forw : List Buf} :
    b ∈ (MlUnit.lru bp forw).1 :: (MlUnit.lru bp forw).2 → b ∈ bp :: forw := by
  cases forw with
  | nil => exact id
  | cons c cs =>
    simp only [MlUnit.lru, mem_cons, mem_append, not_mem_nil, or_false]
    tauto

variable (h : Streams r base s pos stream)
include h

/-- Getting a buf to fill appends nothing. -/
theorem Streams.getWriteBp :
    Streams r base s.getWriteBp pos stream ∧ s.getWriteBp.dirty = true := by
  unfold MlUnit.getWriteBp
  by_cases hd : s.dirty = true
  · rw [if_pos hd]
    exact ⟨h, hd⟩
  have hclean : s.dirty = false := Bool.eq_false_iff.mpr hd
  rw [if_neg hd]
  have hsized := sized_invalRange h.sized s.tail 1
  have hlru := hsized (MlUnit.lru _ _).1 (mem_lru mem_cons_self)
  refine ⟨⟨h.bol, h.eol, h.error, h.tail, h.ident, h.moved, ?_, ?_, fun _ => ⟨hlru.1, ?_⟩, ?_⟩, rfl⟩
  · exact forall_mem_cons.mpr ⟨hlru, fun b hb => hsized b (mem_lru (mem_cons_of_mem _ hb))⟩
  · have hlaid := h.laid
    rw [MlUnit.image_of_clean hclean] at hlaid
    show Laid r (writeAt s.disk _ []) pos stream
    rw [writeAt_nil]
    exact hlaid
  · -- A clean log ends with a sector, so the tail is on a block.
    have hmod := r.lof_mod pos
    rw [← h.tail, h.clean hclean] at hmod
    show 512 * (s.tail / 512) = s.tail
    omega
  · exact nofun

/-- The offset in the dirty buf and the position agree within a sector. -/
theorem Streams.bcount_mod (hd : s.dirty = true) : s.bp.bcount % 512 = pos % 504 := by
  have hmod := r.lof_mod pos
  have helof := (h.filling hd).2
  rw [← h.tail, ← helof] at hmod
  unfold Buf.elof Buf.lof at hmod
  omega

/-- Copying part of a sector. -/
theorem Streams.copyIn (hd : s.dirty = true)
    (chunk : List UInt8) (hlen : pos % 504 + chunk.length < 504) :
    Streams r base (s.copyIn chunk) (pos + chunk.length) (writeAt stream pos chunk) := by
  have hfill := h.filling hd
  have hmod := h.bcount_mod hd
  have hsize := (h.sized s.bp mem_cons_self).2
  have hsec : (pos + chunk.length) / 504 = pos / 504 := by omega
  refine ⟨h.bol, h.eol, h.error, ?_, ?_, ?_, ?_, ?_, fun _ => ⟨?_, ?_⟩, ?_⟩
  · rw [r.lof_add hlen, ← h.tail]
    rfl
  · rw [hsec, ← h.ident]
    rfl
  · have hmoved := h.moved
    have hnone : (pos % 504 + chunk.length) / 504 = 0 := by omega
    rw [span_add]
    show ((s.moved + chunk.length : Nat) : Int) = _
    omega
  · have hsized := forall_mem_cons.mp h.sized
    exact forall_mem_cons.mpr ⟨hsized.1, hsized.2⟩
  · rw [MlUnit.image_copyIn hd, hfill.2, h.tail]
    exact h.laid.writeChunk chunk hlen
  · show s.bp.bcount + chunk.length < s.bp.bufsize
    omega
  · rw [MlUnit.copyIn, ← hfill.2]
    exact (add_assoc _ _ _).symm
  · intro hf
    rw [← Bool.not_eq_true] at hf
    exact absurd hd hf

/-- Copying the rest of a sector and its trailer. -/
theorem Streams.complete (hd : s.dirty = true)
    (chunk : List UInt8) (hlen : pos % 504 + chunk.length = 504) :
    Completed r base (s.copyIn chunk).putTrailer (pos + chunk.length)
      (writeAt stream pos chunk) := by
  have hfill := h.filling hd
  have hmod := h.bcount_mod hd
  have hsize := (h.sized s.bp mem_cons_self).2
  have hsec : (pos + chunk.length) / 504 = pos / 504 + 1 := by omega
  have hbcount : (s.copyIn chunk).putTrailer.bp.bcount = s.bp.bcount + chunk.length + 8 := rfl
  have htail : (s.copyIn chunk).putTrailer.tail = s.tail + chunk.length + 8 := rfl
  refine ⟨⟨h.bol, h.eol, h.error, hd, by omega, ?_, ?_, ?_, ?_, ?_⟩, by omega, ?_, ?_⟩
  · rw [hsec, r.identOf_succ, ← h.ident]
    rfl
  · have hmoved := h.moved
    have hone : (pos % 504 + chunk.length) / 504 = 1 := by omega
    rw [span_add, hone]
    show ((s.moved + chunk.length + 8 : Nat) : Int) = _
    omega
  · have hsized := forall_mem_cons.mp h.sized
    exact forall_mem_cons.mpr ⟨hsized.1, hsized.2⟩
  · have himage : (s.copyIn chunk).putTrailer.image =
        writeAt s.image s.bp.elof (chunk ++ sectTrailer s.tid s.tailIdent) := by
      rw [← writeAt_append, ← MlUnit.image_copyIn hd]
      have h2 := MlUnit.image_copyIn (s := s.copyIn chunk) hd (sectTrailer s.tid s.tailIdent)
      rw [show (s.copyIn chunk).bp.elof = s.bp.elof + chunk.length from
        (add_assoc _ _ _).symm] at h2
      exact h2
    rw [himage, hfill.2, h.tail, h.ident]
    exact h.laid.writeSector chunk s.tid hlen
  · show 0 < _ ∧ _ ≤ s.bp.bufsize ∧ _
    omega
  · rw [htail, h.tail, hsec, Nat.add_sub_cancel]
    unfold Ring.lof
    omega
  · rw [htail, Buf.elof, hbcount, ← hfill.2]
    unfold Buf.elof
    show s.bp.lof + _ = _
    omega

/-- Between two states, `bytes` were appended at `pos`. -/
structure Stored (r : Ring) (base : Int) (s s' : MlUnit) (pos : Nat) (stream : Nat → UInt8)
    (bytes : List UInt8) : Prop where
  streams : Streams r base s' (pos + bytes.length) (writeAt stream pos bytes)
  head : s'.headState = s.headState
  filled : s'.dirty = true → 0 < s'.bp.bcount

variable {a b bytes va : List UInt8}

omit h in
/-- Storing one piece after another. -/
theorem Stored.trans {s1 s2 : MlUnit} (h : Stored r base s s1 pos stream a)
    (h' : Stored r base s1 s2 (pos + a.length) (writeAt stream pos a) b) :
    Stored r base s s2 pos stream (a ++ b) := by
  refine ⟨?_, h'.head.trans h.head, h'.filled⟩
  rw [length_append, ← add_assoc, ← writeAt_append]
  exact h'.streams

omit h in
/-- Getting a buf first makes no difference. -/
theorem Stored.of_getWriteBp {s' : MlUnit} (h : Stored r base s.getWriteBp s' pos stream bytes) :
    Stored r base s s' pos stream bytes :=
  ⟨h.streams, by rw [h.head, MlUnit.headState_getWriteBp], h.filled⟩

/-- One turn of the loop of `storebuf` stores some of the bytes. -/
theorem Streams.storeTurn (hd : s.dirty = true) (hva : va ≠ []) :
    ∃ n, 0 < n ∧ n ≤ va.length ∧ (s.storeTurn va).2.1 = va.drop n ∧
      Stored r base s (s.storeTurn va).1 pos stream (va.take n) ∧
      ((s.storeTurn va).2.2 = true → (s.storeTurn va).1.dirty = true) := by
  have hpos := length_pos_iff.mpr hva
  have hmod := h.bcount_mod hd
  have hleft : nbLeftInSector s.bp.bcount = 504 - pos % 504 := by rw [nbLeftInSector, hmod]
  unfold MlUnit.storeTurn
  simp only [hleft]
  generalize hn : min va.length (504 - pos % 504) = n
  have hlen : (va.take n).length = n := by
    rw [length_take]
    omega
  split
  · next hfull =>
      have hc := h.complete hd (va.take n) (by omega)
      obtain ⟨hs, hhead, hfilled, hdirty⟩ := hc.afterSector
      exact ⟨n, by omega, by omega, rfl, ⟨hs, hhead, hfilled⟩, hdirty⟩
  · have hs := h.copyIn hd (va.take n) (by omega)
    refine ⟨n, by omega, by omega, rfl, ⟨hs, rfl, fun _ => ?_⟩, fun _ => hd⟩
    show 0 < s.bp.bcount + (va.take n).length
    omega

/-- `storebuf` stores some of the bytes and returns the others. -/
theorem Streams.storebuf (hd : s.dirty = true) (hva : va ≠ []) :
    ∃ n, 0 < n ∧ n ≤ va.length ∧ (s.storebuf va).2 = va.drop n ∧
      Stored r base s (s.storebuf va).1 pos stream (va.take n) := by
  -- Induction on the number of bytes, which every turn makes smaller.
  induction hlen : va.length using Nat.strong_induction_on generalizing s pos stream va with
  | _ len ih =>
    obtain ⟨n, hpos, hle, hrest, hst, hdirty⟩ := h.storeTurn hd hva
    rw [MlUnit.storebuf]
    split
    · next hgo =>
        have hrlen : (s.storeTurn va).2.1.length = va.length - n := by rw [hrest, length_drop]
        obtain ⟨m, hmpos, hmle, hmrest, hmst⟩ :=
            ih _ (by omega) hst.streams (hdirty hgo.1) hgo.2.1 rfl
        refine ⟨n + m, by omega, by omega, ?_, ?_⟩
        · rw [hmrest, hrest, drop_drop]
        · rw [take_add, ← hrest]
          exact hst.trans hmst
    · exact ⟨n, hpos, by omega, hrest, hst⟩

/-- The loop around it stores all of them. -/
theorem Streams.storeAll (hd : s.dirty = true) (hva : va ≠ []) :
    Stored r base s (s.storeAll va) pos stream va := by
  induction hlen : va.length using Nat.strong_induction_on generalizing s pos stream va with
  | _ len ih =>
    obtain ⟨n, hpos, hle, hrest, hst⟩ := h.storebuf hd hva
    have hrlen : (s.storebuf va).2.length = va.length - n := by rw [hrest, length_drop]
    have hva' : va.take n ++ (s.storebuf va).2 = va := by rw [hrest, take_append_drop]
    rw [MlUnit.storeAll, if_neg hva, if_neg (by simp [h.error])]
    simp only []
    split
    · next hgo =>
        obtain ⟨hs, hdirty⟩ := hst.streams.getWriteBp
        have hall := hst.trans (ih _ (by omega) hs hdirty hgo.1 rfl).of_getWriteBp
        rw [hva'] at hall
        exact hall
    · next hdone =>
        have hnil : (s.storebuf va).2 = [] := by
          by_contra hne
          exact hdone ⟨hne, by omega⟩
        rw [hnil, append_nil] at hva'
        rw [hva'] at hst
        exact hst

end

/-! ### The routines of the log -/

/-- The bytes that a delta is in the log. -/
def MapEntry.logged (me : MapEntry) (bufp : Nat → UInt8) (bufmof : Nat) : List UInt8 :=
  me.header ++ readAt bufp (me.mof - bufmof) me.dataNb

@[simp] theorem MapEntry.length_logged (me : MapEntry) (bufp : Nat → UInt8) (bufmof : Nat) :
    (me.logged bufp bufmof).length = 16 + me.dataNb := by
  simp [MapEntry.logged]

variable (h : Streams r base s pos stream)
include h

/-- Writing a delta appends its header and its data. An entry that should have
    data and has none only leaves an empty dirty buf behind. -/
theorem Streams.ldlWrite (bufp : Nat → UInt8) (bufmof : Nat) (me : MapEntry) :
    Streams r base (s.ldlWrite bufp bufmof me).1 (pos + (me.logged bufp bufmof).length)
        (writeAt stream pos (me.logged bufp bufmof)) ∧
      (s.ldlWrite bufp bufmof me).1.headState = s.headState ∧
      (s.ldlWrite bufp bufmof me).2 = { me with lof := r.lof (pos + 16) } ∧
      (me.dt.headerOnly = true ∨ 0 < me.nb → (s.ldlWrite bufp bufmof me).1.dirty = true →
        0 < (s.ldlWrite bufp bufmof me).1.bp.bcount) := by
  have hne : me.header ≠ [] := length_pos_iff.mp (by rw [me.length_header]; decide)
  obtain ⟨hs, hd⟩ := h.getWriteBp
  have hhead := (hs.storeAll hd hne).of_getWriteBp
  have htail : (s.getWriteBp.storeAll me.header).tail = r.lof (pos + 16) := by
    rw [hhead.streams.tail, me.length_header]
  unfold MlUnit.ldlWrite MapEntry.logged MapEntry.dataNb
  simp only []
  rw [if_neg (by simp [hhead.streams.error])]
  by_cases hdt : me.dt.headerOnly = true
  · rw [if_pos hdt, if_pos hdt]
    exact ⟨hhead.streams, hhead.head, by rw [htail], fun _ => hhead.filled⟩
  rw [if_neg hdt, if_neg hdt]
  obtain ⟨hs', hd'⟩ := hhead.streams.getWriteBp
  have htail' : (s.getWriteBp.storeAll me.header).getWriteBp.tail = r.lof (pos + 16) := by
    rw [hs'.tail, me.length_header]
  by_cases hnb : me.nb = 0
  · rw [hnb]
    simp only [readAt, range_zero, map_nil, append_nil]
    rw [MlUnit.storeAll, if_pos rfl]
    refine ⟨hs', ?_, by rw [htail'], fun hor => ?_⟩
    · rw [MlUnit.headState_getWriteBp, hhead.head]
    · rcases hor with hf | hf
      · exact absurd hf hdt
      · exact absurd hf (lt_irrefl 0)
  · have hdata : readAt bufp (me.mof - bufmof) me.nb ≠ [] :=
      length_pos_iff.mp (by rw [length_readAt]; omega)
    have hall := hhead.trans (hs'.storeAll hd' hdata).of_getWriteBp
    exact ⟨hall.streams, hall.head, by rw [htail'], fun _ => hall.filled⟩

/-- The position at which the next sector starts, if one is begun. -/
def roundUp (pos : Nat) : Nat := (pos + 503) / 504 * 504

omit h in
/-- Rounding is storing what the buffer memory holds after the dirty bytes. -/
theorem roundBp_eq (hmod : s.bp.bcount % 512 < 504) (hne : s.bp.bcount % 512 ≠ 0)
    (helof : s.bp.elof = s.tail) {pad : List UInt8}
    (hpad : pad = readAt s.mem (s.bp.addr + s.bp.bcount) (504 - s.bp.bcount % 512))
    {c : MlUnit} (hc : c = (s.copyIn pad).putTrailer) :
    s.roundBp = { c with tail := if c.tail = c.eol then c.bol else c.tail } ∧
      s.roundBp.bp.elof = c.tail := by
  have hlen : pad.length = 504 - s.bp.bcount % 512 := by rw [hpad, length_readAt]
  have hbcount : (s.bp.bcount + 511) / 512 * 512 = s.bp.bcount + pad.length + 8 := by omega
  have hmem : writeAt s.mem (s.bp.addr + s.bp.bcount) pad = s.mem := by rw [hpad, writeAt_readAt]
  have htail : s.bp.lof + (s.bp.bcount + pad.length + 8) = s.tail + pad.length + 8 := by
    rw [← helof, Buf.elof]
    omega
  have hoff : s.bp.addr + (s.bp.bcount + pad.length + 8) - 8 =
      s.bp.addr + (s.bp.bcount + pad.length) := by omega
  subst hc
  unfold MlUnit.roundBp
  simp only [hbcount, htail, hoff, Buf.elof]
  refine ⟨?_, htail⟩
  simp only [MlUnit.putTrailer, MlUnit.copyIn, hmem, length_sectTrailer]
  congr 1
  omega

/-- Rounding fills up the sector with what the buffer memory holds. -/
theorem Streams.ldlRoundCommit (hfilled : s.dirty = true → 0 < s.bp.bcount) :
    ∃ pad, pos + pad.length = roundUp pos ∧ Stored r base s s.ldlRoundCommit pos stream pad := by
  by_cases hz : pos % 504 = 0
  · -- Nothing to round: the stream is at a sector boundary already.
    have hsame : s.dirty = true → s.roundBp.bp.bcount = s.bp.bcount := by
      intro hd
      have hmod := h.bcount_mod hd
      show (s.bp.bcount + 511) / 512 * 512 = s.bp.bcount
      omega
    have hnop : s.ldlRoundCommit = s := by
      unfold MlUnit.ldlRoundCommit
      split
      · rfl
      · next hd => rw [if_pos (hsame (Decidable.not_not.mp hd))]
    refine ⟨[], ?_, ?_⟩
    · show pos + 0 = (pos + 503) / 504 * 504
      omega
    · rw [hnop]
      exact ⟨by rw [writeAt_nil]; exact h, rfl, hfilled⟩
  · have hd : s.dirty = true := by
      by_contra hc
      exact hz (h.clean (Bool.eq_false_iff.mpr hc))
    have hmod := h.bcount_mod hd
    have hfill := h.filling hd
    generalize hpad : readAt s.mem (s.bp.addr + s.bp.bcount) (504 - s.bp.bcount % 512) = pad
    have hlen : pad.length = 504 - s.bp.bcount % 512 := by rw [← hpad, length_readAt]
    have hc := h.complete hd pad (by omega)
    obtain ⟨heq, helof⟩ := roundBp_eq (by omega) (by omega) hfill.2 hpad.symm rfl
    have hne : s.roundBp.bp.bcount ≠ s.bp.bcount := by
      show (s.bp.bcount + 511) / 512 * 512 ≠ s.bp.bcount
      omega
    refine ⟨pad, ?_, ?_⟩
    · show _ = (pos + 503) / 504 * 504
      omega
    rw [MlUnit.ldlRoundCommit, if_neg (not_not_intro hd), if_neg hne, helof]
    split
    · rw [heq]
      exact ⟨hc.push hc.lof_eq.symm, rfl, nofun⟩
    next hgo =>
      rw [not_or] at hgo
      have heol : (s.copyIn pad).putTrailer.tail ≠ (s.copyIn pad).putTrailer.eol := hgo.1
      have hroom := hgo.2
      rw [heq] at hroom
      rw [heq, if_neg heol]
      exact ⟨hc.resume heol (lt_of_le_of_ne hc.filled.2.1 hroom), rfl, fun _ => hc.filled.1⟩

/-- Pushing a commit that has been rounded appends nothing. -/
theorem Streams.ldlPushCommit (hpos : pos % 504 = 0) (hfilled : s.dirty = true → 0 < s.bp.bcount) :
    Streams r base s.ldlPushCommit pos stream ∧ s.ldlPushCommit.headState = s.headState ∧
      s.ldlPushCommit.dirty = false := by
  unfold MlUnit.ldlPushCommit
  cases hd : s.dirty with
  | false => exact ⟨h, rfl, hd⟩
  | true =>
    have hfill := h.filling hd
    have hmod := h.bcount_mod hd
    have hp : Pushable r base s pos stream :=
      { h with dirty := hd, boundary := hpos, filled := ⟨hfilled hd, hfill.1.le, by rw [hmod, hpos]⟩ }
    exact ⟨hp.push h.tail, rfl, rfl⟩

/-- Discarding clean bufs leaves the log as it is. -/
theorem Streams.invalRange (lof nb : Nat) : Streams r base (s.invalRange lof nb) pos stream := by
  have hbp : s.dirty = true → (s.invalRange lof nb).bp = s.bp := fun hd => if_pos hd
  refine { h with
    sized := sized_invalRange h.sized lof nb, laid := ?_, filling := fun hd => ?_ }
  · have himage : (s.invalRange lof nb).image = s.image := by
      cases hd : s.dirty with
      | true =>
        rw [MlUnit.image_of_dirty hd, MlUnit.image_of_dirty (s := s.invalRange lof nb) hd, hbp hd]
        rfl
      | false =>
        rw [MlUnit.image_of_clean hd, MlUnit.image_of_clean (s := s.invalRange lof nb) hd]
        rfl
    rw [himage]
    exact h.laid
  · rw [hbp hd]
    exact h.filling hd

/-- Moving the head appends nothing. -/
theorem Streams.ldlSethead (dataLof : Option Nat) :
    Streams r base (s.ldlSethead dataLof) pos stream := by
  have hc : Streams r base (s.invalTo (s.newHead dataLof)) pos stream := by
    unfold MlUnit.invalTo
    split
    · exact h.invalRange _ _
    · exact (h.invalRange _ _).invalRange _ _
  unfold MlUnit.ldlSethead
  split
  · exact h
  · split
    · exact hc
    · exact { hc with }

end Sol7.UfsLog
