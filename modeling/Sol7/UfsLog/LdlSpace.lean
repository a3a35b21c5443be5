import Sol7.UfsLog.LdlStream

/-!
# Does a List of Deltas Fit in the Log?

`ldl_has_space` adds up the headers and the data of a list of deltas, rounds
the sum up to whole sectors and asks for one sector more. The writer also puts
a trailer of 8 bytes at the end of every sector, and those are not in the sum.
The spare sector pays for the first 64 of them; a longer list can be let in
and still run over the head of the log.

## Main definitions

* `Ready`: The log and its write buffer are in a proper state.
* `MlUnit.ldlWriteList`: Writing a list of deltas.
* `Overruns`: The tail was advanced onto or past the head.
* `loggedNb`: How many bytes of headers and data a list is.

## Theorems

* `Ready.streams`: A proper log holds a stream.
* `overruns_iff`: The tail overruns if it moved by all the free bytes.
* `ldlWriteList_tail`: Where the tail is, by how far it has moved.
* `ldlWriteList_moved`: How far a list moves the tail.
* `hasSpace_prevents_overrun_iff`: When the space check is good enough.
* `hasSpace_overrun`: It is not always.
-/

namespace Sol7.UfsLog

open MlUnit Nat

/-- A log whose ends are on sectors, with the tail inside and outside of any
    trailer. The bufs are whole sectors, the dirty buf ends at the tail, and
    without a dirty buf the tail is at the start of a sector. -/
structure Ready (s : MlUnit) : Prop where
  bolAligned : s.bol % 512 = 0
  eolAligned : s.eol % 512 = 0
  bolTail : s.bol ≤ s.tail
  tailEol : s.tail < s.eol
  usable : s.tail % 512 < 504
  sized : ∀ b ∈ s.bp :: s.forw, Sized b
  filling : s.dirty = true → s.bp.bcount < s.bp.bufsize ∧ s.bp.elof = s.tail
  clean : s.dirty = false → s.tail % 512 = 0

namespace Ready

variable {s : MlUnit}

/-- The position of the tail in a stream that starts with the first sector. -/
def pos (s : MlUnit) : Nat := 504 * ((s.tail - s.bol) / 512) + s.tail % 512

/-- The sectors of the log, as numbered by their place on the device. -/
def ring (h : Ready s) : Ring where
  bol := s.bol
  sectors := (s.eol - s.bol) / 512
  ident := s.tailIdent - UInt32.ofNat (pos s / 504)
  first := pos s / 504
  aligned := h.bolAligned
  nonempty := by
    have := h.bolAligned
    have := h.eolAligned
    have := h.bolTail
    have := h.tailEol
    omega

theorem pos_div (h : Ready s) : pos s / 504 = (s.tail - s.bol) / 512 := by
  have := h.usable
  unfold pos
  omega

theorem pos_mod (h : Ready s) : pos s % 504 = s.tail % 512 := by
  have := h.usable
  unfold pos
  omega

theorem ring_eol (h : Ready s) : h.ring.eol = s.eol := by
  have := h.bolAligned
  have := h.eolAligned
  have := h.bolTail
  have := h.tailEol
  show s.bol + 512 * ((s.eol - s.bol) / 512) = s.eol
  omega

theorem lof_pos (h : Ready s) : h.ring.lof (pos s) = s.tail := by
  have hb := h.bolAligned
  have he := h.eolAligned
  have hbt := h.bolTail
  have hte := h.tailEol
  have hlt : (s.tail - s.bol) / 512 < (s.eol - s.bol) / 512 := by omega
  show s.bol + 512 * (pos s / 504 % ((s.eol - s.bol) / 512)) + pos s % 504 = s.tail
  rw [h.pos_div, h.pos_mod, mod_eq_of_lt hlt]
  omega

/-- A proper log holds a stream: whatever its sectors hold. -/
theorem streams (h : Ready s) (he : s.error = false) :
    Streams h.ring (s.moved - span (pos s)) s (pos s) (fun j => s.image (h.ring.lof j)) where
  bol := rfl
  eol := h.ring_eol.symm
  error := he
  tail := h.lof_pos.symm
  ident := by
    show s.tailIdent = s.tailIdent - UInt32.ofNat (pos s / 504) + UInt32.ofNat (pos s / 504)
    rw [UInt32.sub_add_cancel]
  moved := by omega
  sized := h.sized
  laid := ⟨fun _ _ _ => rfl, fun k hfirst hk => absurd hk (not_lt.mpr hfirst)⟩
  filling := h.filling
  clean := fun hd => by rw [h.pos_mod, h.clean hd]

end Ready

/-- Write a list of deltas out of one buffer, as `logmap_add` does. -/
def MlUnit.ldlWriteList (s : MlUnit) (bufp : Nat → UInt8) (bufmof : Nat) : List MapEntry → MlUnit
  | [] => s
  | me :: mes => ((s.ldlWrite bufp bufmof me).1).ldlWriteList bufp bufmof mes

/-- The headers and the data of a list of deltas, in bytes. -/
def loggedNb : List MapEntry → Nat
  | [] => 0
  | me :: mes => 16 + me.dataNb + loggedNb mes

/-- On the way from `s` to `s'` the tail came onto the head, going forward
    from its place in `s` around the log. -/
def Overruns (s s' : MlUnit) : Prop :=
  ∃ n, 0 < n ∧ n ≤ s'.moved - s.moved ∧ s.bol + (s.tail - s.bol + n) % (s.eol - s.bol) = s.head

section
variable {r : Ring} {base : Int} {s : MlUnit} {pos : Nat} {stream : Nat → UInt8}

/-- Writing a list appends all its headers and data. -/
theorem Streams.ldlWriteList (h : Streams r base s pos stream) (bufp : Nat → UInt8)
    (bufmof : Nat) (mes : List MapEntry) :
    ∃ stream', Streams r base (s.ldlWriteList bufp bufmof mes) (pos + loggedNb mes) stream' := by
  induction mes generalizing s pos stream with
  | nil => exact ⟨stream, h⟩
  | cons me mes ih =>
    obtain ⟨stream', h'⟩ := ih (h.ldlWrite bufp bufmof me).1
    rw [MapEntry.length_logged, add_assoc] at h'
    exact ⟨stream', h'⟩

/-- In the error state nothing is written. -/
theorem ldlWriteList_error (he : s.error = true) (bufp : Nat → UInt8) (bufmof : Nat)
    (mes : List MapEntry) : (s.ldlWriteList bufp bufmof mes).moved = s.moved := by
  induction mes generalizing s with
  | nil => rfl
  | cons me mes ih =>
    have herr : s.getWriteBp.error = true := by
      rw [← he]
      unfold getWriteBp
      split <;> rfl
    have hmoved : s.getWriteBp.moved = s.moved := by
      unfold getWriteBp
      split <;> rfl
    have hnop : s.getWriteBp.storeAll me.header = s.getWriteBp := by
      rw [storeAll, if_pos herr, ite_self]
    have hwrite : (s.ldlWrite bufp bufmof me).1 = s.getWriteBp := by
      unfold ldlWrite
      simp only [hnop]
      rw [if_pos herr]
    rw [ldlWriteList, hwrite, ih herr, hmoved]

/-- How far writing a list moves the tail: by its bytes, and by a trailer for
    every sector that they complete. -/
theorem ldlWriteList_moved (hr : Ready s) (he : s.error = false) (bufp : Nat → UInt8)
    (bufmof : Nat) (mes : List MapEntry) : (s.ldlWriteList bufp bufmof mes).moved - s.moved =
      loggedNb mes + 8 * ((s.tail % 512 + loggedNb mes) / 504) := by
  obtain ⟨stream, h⟩ := (hr.streams he).ldlWriteList bufp bufmof mes
  have hmoved := h.moved
  rw [span_add, hr.pos_mod] at hmoved
  omega

/-- The tail overruns the head if it moves by all the free bytes. -/
theorem overruns_iff {s' : MlUnit} (hr : Ready s) (hbol : s.bol ≤ s.head) (heol : s.head < s.eol) :
    Overruns s s' ↔ s.freeBytes ≤ s'.moved - s.moved := by
  have hbt := hr.bolTail
  have hte := hr.tailEol
  unfold Overruns freeBytes
  constructor
  · rintro ⟨n, hpos, hle, heq⟩
    by_contra hfew
    -- Going less than the free bytes never leads to the head.
    by_cases hwrap : s.tail - s.bol + n < s.eol - s.bol
    · rw [mod_eq_of_lt hwrap] at heq
      split at hfew <;> omega
    · have hsub : s.tail - s.bol + n - (s.eol - s.bol) < s.eol - s.bol := by split at hfew <;> omega
      rw [mod_eq_sub_mod (le_of_not_gt hwrap), mod_eq_of_lt hsub] at heq
      split at hfew <;> omega
  · intro hle
    refine ⟨_, ?_, hle, ?_⟩
    · split <;> omega
    split
    · have hround : s.tail - s.bol + (s.head - s.bol + (s.eol - s.tail)) =
          s.head - s.bol + (s.eol - s.bol) := by omega
      rw [hround, add_mod_right, mod_eq_of_lt (by omega)]
      omega
    · rw [mod_eq_of_lt (by omega)]
      omega

/-- Without an error, writing a list overruns the head exactly if the list and
    its trailers take all the free bytes. -/
theorem ldlWriteList_overruns_iff (hr : Ready s) (hbol : s.bol ≤ s.head) (heol : s.head < s.eol)
    (he : s.error = false) (bufp : Nat → UInt8) (bufmof : Nat) (mes : List MapEntry) :
    Overruns s (s.ldlWriteList bufp bufmof mes) ↔
      s.freeBytes ≤ loggedNb mes + 8 * ((s.tail % 512 + loggedNb mes) / 504) := by
  rw [overruns_iff hr hbol heol, ldlWriteList_moved hr he]

/-- When the space check prevents an overrun: the free bytes have to exceed
    what is written with its trailers. -/
theorem hasSpace_prevents_overrun_iff (s : MlUnit) (hr : Ready s) (hbol : s.bol ≤ s.head)
    (heol : s.head < s.eol) (bufp : Nat → UInt8) (bufmof : Nat) (mes : List MapEntry) :
    (s.ldlHasSpace mes = true → ¬Overruns s (s.ldlWriteList bufp bufmof mes)) ↔
      (s.ldlHasSpace mes = true → s.error = true ∨
        loggedNb mes + 8 * ((s.tail % 512 + loggedNb mes) / 504) < s.freeBytes) := by
  refine imp_congr_right fun _ => ?_
  cases he : s.error with
  | false =>
    rw [ldlWriteList_overruns_iff hr hbol heol he, not_le]
    simp only [Bool.false_eq_true, false_or]
  | true =>
    -- Nothing is written, and there is always a free byte.
    have hfree : 0 < s.freeBytes := by
      have := hr.tailEol
      unfold freeBytes
      split <;> omega
    rw [overruns_iff hr hbol heol, ldlWriteList_error he, Nat.sub_self]
    exact ⟨fun _ => .inl rfl, fun _ => not_le.mpr hfree⟩

end

/-- An empty buffer in front of a log of 200 sectors, of which 130 and the
    first 8 bytes of the next are free. -/
def nearlyFull : MlUnit where
  bol := 1024
  eol := 1024 + 200 * 512
  head := 1024 + 130 * 512 + 8
  tail := 1024
  headIdent := 0
  tailIdent := 135
  tid := 0
  error := false
  bp := { addr := 0, bufsize := 32768, bcount := 0, blkno := 0 }
  forw := []
  dirty := false
  mem := fun _ => 0
  disk := fun _ => 0
  moved := 0

theorem nearlyFull_ready : Ready nearlyFull where
  bolAligned := by decide
  eolAligned := by decide
  bolTail := by decide
  tailEol := by decide
  usable := by decide
  sized := List.forall_mem_singleton.mpr ⟨by decide, by decide⟩
  filling := nofun
  clean := fun _ => by decide

/-- Eight blocks of user data, which are 129 sectors with their headers. -/
def eightBlocks : List MapEntry :=
  (List.range 8).map fun i => { mof := 8192 * i, nb := 8192, dt := .ud, lof := 0 }

/-- The deltas and the spare sector take 130 sectors, and are let in. With the
    130 trailers they go past the head. -/
theorem hasSpace_overrun : Ready nearlyFull ∧ nearlyFull.ldlHasSpace eightBlocks = true ∧
      Overruns nearlyFull (nearlyFull.ldlWriteList (fun _ => 0) 0 eightBlocks) := by
  refine ⟨nearlyFull_ready, by decide, ?_⟩
  rw [ldlWriteList_overruns_iff nearlyFull_ready (by decide) (by decide) rfl]
  decide

/-- Seven of them do fit. -/
theorem hasSpace_prevents_overrun_seven : nearlyFull.ldlHasSpace (eightBlocks.take 7) = true ∧
      ¬Overruns nearlyFull (nearlyFull.ldlWriteList (fun _ => 0) 0 (eightBlocks.take 7)) := by
  have hs : nearlyFull.ldlHasSpace (eightBlocks.take 7) = true := by decide
  have hiff := hasSpace_prevents_overrun_iff nearlyFull nearlyFull_ready (by decide) (by decide)
    (fun _ => 0) 0 (eightBlocks.take 7)
  exact ⟨hs, hiff.mpr (fun _ => .inr (by decide)) hs⟩

end Sol7.UfsLog
