import Sol7.Lib.Bytes

/-!
# The Log as a Stream Over a Ring of Sectors

The log device is a ring of 512-byte sectors. The first 504 bytes of each
hold log data and the last 8 are a trailer, with the transaction id and an
identifier that grows by one from sector to sector. Headers and data are
chopped around the trailers and around the end of the device, but in the
order in which they were written they form one stream.

Positions in the stream never wrap; `Ring.lof` says where a position lies on
the device. `Laid` says that a device image holds the stream: every byte that
has not been overwritten by a later turn around the ring is where it belongs,
and every completed sector carries its identifier.

## Main definitions

* `Ring`: The sectors of the log.
* `Ring.lof`: Where a stream position lies on the device.
* `span`: How far a position is from the start, trailers included.
* `sectTrailer`: The 8 bytes at the end of a sector.
* `Laid`: An image holds a stream.

## Theorems

* `span_add`: How far a write moves the tail.
* `Laid.writeChunk`: Writing within a sector appends to the stream.
* `Laid.writeSector`: So does completing a sector with its trailer.
-/

namespace Sol7.UfsLog

open List Nat

/-- The sectors from `un_bol_lof` to `un_eol_lof`. Sectors of the stream are
    numbered; `ident` is the identifier that number zero has, and `first` is
    the number of the first one that was written. -/
structure Ring where
  bol : Nat
  sectors : Nat
  ident : UInt32
  first : Nat
  aligned : bol % 512 = 0
  nonempty : 0 < sectors

namespace Ring

variable (r : Ring)

def eol : Nat := r.bol + 512 * r.sectors

/-- Where sector number `k` of the stream starts on the device. -/
def sectorLof (k : Nat) : Nat := r.bol + 512 * (k % r.sectors)

/-- The identifier of sector number `k`. -/
def identOf (k : Nat) : UInt32 := r.ident + UInt32.ofNat k

/-- Where a stream position lies on the device. -/
def lof (p : Nat) : Nat := r.sectorLof (p / 504) + p % 504

theorem sectorLof_mod (k : Nat) : r.sectorLof k % 512 = 0 := by
  have := r.aligned
  unfold sectorLof
  omega

variable {p h k i j : Nat}

theorem lof_of_boundary (h : p % 504 = 0) : r.lof p = r.sectorLof (p / 504) := by
  rw [lof, h, add_zero]

/-- The sector of a position. -/
theorem lof_div (p : Nat) : r.lof p / 512 = r.sectorLof (p / 504) / 512 := by
  have := r.sectorLof_mod (p / 504)
  unfold lof
  omega

theorem sector_lof (p : Nat) : 512 * (r.lof p / 512) = r.sectorLof (p / 504) := by
  have := r.sectorLof_mod (p / 504)
  rw [lof_div]
  omega

theorem lof_mod (p : Nat) : r.lof p % 512 = p % 504 := by
  have := r.sectorLof_mod (p / 504)
  unfold lof
  omega

theorem identOf_add (k i : Nat) : r.identOf (k + i) = r.identOf k + UInt32.ofNat i := by
  rw [identOf, identOf, UInt32.ofNat_add, UInt32.add_assoc]

theorem identOf_succ (k : Nat) : r.identOf (k + 1) = r.identOf k + 1 := r.identOf_add k 1

/-- How many sectors two identifiers are apart. -/
theorem identOf_sub (hk : h ≤ k) (hnear : k - h < 2 ^ 32) :
    (r.identOf k - r.identOf h).toNat = k - h := by
  obtain ⟨d, rfl⟩ := Nat.exists_eq_add_of_le hk
  rw [Nat.add_sub_cancel_left] at hnear ⊢
  rw [identOf_add, UInt32.add_comm, UInt32.add_sub_cancel, UInt32.toNat_ofNat_of_lt' hnear]

/-- Within a sector, positions and offsets move together. -/
theorem lof_add (h : p % 504 + i < 504) : r.lof (p + i) = r.lof p + i := by
  have hd : (p + i) / 504 = p / 504 := by omega
  have hm : (p + i) % 504 = p % 504 + i := by omega
  rw [lof, lof, hd, hm, add_assoc]

/-- The next sector follows, unless the log ends there. -/
theorem sectorLof_succ (h : r.sectorLof k + 512 ≠ r.eol) :
    r.sectorLof (k + 1) = r.sectorLof k + 512 := by
  have hlt := mod_lt k r.nonempty
  have hne : k % r.sectors + 1 < r.sectors := by
    unfold sectorLof eol at h
    omega
  unfold sectorLof
  rw [add_mod, mod_eq_of_lt (show 1 < r.sectors by omega), mod_eq_of_lt hne]
  omega

/-- At its end the log wraps. -/
theorem sectorLof_wrap (h : r.sectorLof k + 512 = r.eol) : r.sectorLof (k + 1) = r.bol := by
  have heq : k % r.sectors + 1 = r.sectors := by
    unfold sectorLof eol at h
    omega
  unfold sectorLof
  rw [← mod_add_mod, heq, mod_self, mul_zero, add_zero]

/-- Two sectors of one turn around the ring that share a place are one. -/
theorem sectorLof_inj (hjk : j ≤ k) (hk : k < j + r.sectors) (h : r.sectorLof j = r.sectorLof k) :
    j = k := by
  unfold sectorLof at h
  have hmod : j % r.sectors = k % r.sectors := by omega
  have hdvd : (k - j) % r.sectors = 0 := by
    have := (modEq_iff_dvd' hjk).mp hmod
    exact mod_eq_zero_of_dvd this
  rw [mod_eq_of_lt (by omega)] at hdvd
  omega

/-- Within one turn around the ring, places follow numbers, or wrap once. -/
theorem mod_cases (hk : h ≤ k) (hturn : k < h + r.sectors) :
    k % r.sectors = h % r.sectors + (k - h) ∨
      k % r.sectors + r.sectors = h % r.sectors + (k - h) := by
  obtain ⟨d, rfl⟩ := Nat.exists_eq_add_of_le hk
  have hh := Nat.mod_lt h r.nonempty
  have hd : d % r.sectors = d := mod_eq_of_lt (by omega)
  rw [add_mod, hd]
  by_cases hlt : h % r.sectors + d < r.sectors
  · rw [mod_eq_of_lt hlt]
    omega
  · rw [mod_eq_sub_mod (by omega), mod_eq_of_lt (by omega)]
    omega

theorem sectorLof_add (h : k % r.sectors + i < r.sectors) :
    r.sectorLof (k + i) = r.sectorLof k + 512 * i := by
  have hi : i % r.sectors = i := mod_eq_of_lt (by omega)
  unfold sectorLof
  rw [add_mod, hi, mod_eq_of_lt h]
  omega

theorem sectorLof_div (k : Nat) : r.sectorLof k / 512 = r.bol / 512 + k % r.sectors := by
  unfold sectorLof
  omega

theorem eol_div : r.eol / 512 = r.bol / 512 + r.sectors := by
  unfold eol
  omega

/-- The identifier of a sector further on the device. -/
theorem identOf_forward (hk : h ≤ k) (hturn : k < h + r.sectors)
    (hle : r.sectorLof h ≤ r.sectorLof k) :
    r.identOf h + (UInt32.ofNat (r.sectorLof k / 512) - UInt32.ofNat (r.sectorLof h / 512)) =
      r.identOf k := by
  have hmod := r.mod_cases hk hturn
  have hdist : k = h + (r.sectorLof k / 512 - r.sectorLof h / 512) := by
    rw [sectorLof_div, sectorLof_div]
    unfold sectorLof at hle
    omega
  have hle' : r.sectorLof h / 512 ≤ r.sectorLof k / 512 := Nat.div_le_div_right hle
  rw [← UInt32.ofNat_sub hle', ← identOf_add, ← hdist]

/-- The identifier of a sector that comes after the end of the log. -/
theorem identOf_wrapped (hk : h ≤ k) (hturn : k < h + r.sectors)
    (hlt : r.sectorLof k < r.sectorLof h) :
    r.identOf h + (UInt32.ofNat (r.eol / 512) - UInt32.ofNat (r.sectorLof h / 512)) +
        (UInt32.ofNat (r.sectorLof k / 512) - UInt32.ofNat (r.bol / 512)) = r.identOf k := by
  have hh := mod_lt h r.nonempty
  have hmod := r.mod_cases hk hturn
  have hdist : k = h + (r.eol / 512 - r.sectorLof h / 512) +
      (r.sectorLof k / 512 - r.bol / 512) := by
    rw [sectorLof_div, sectorLof_div, eol_div]
    unfold sectorLof at hlt
    omega
  have hle : r.sectorLof h / 512 ≤ r.eol / 512 := by
    rw [sectorLof_div, eol_div]
    omega
  have hle' : r.bol / 512 ≤ r.sectorLof k / 512 := by
    rw [sectorLof_div]
    omega
  rw [← UInt32.ofNat_sub hle, ← UInt32.ofNat_sub hle', ← identOf_add, ← identOf_add, ← hdist]

end Ring

/-- The distance of a position from the start of the stream, trailers
    included. -/
def span (p : Nat) : Nat := 512 * (p / 504) + p % 504

/-- Writing `n` bytes moves the tail by `n`, and by a trailer for every
    sector they complete. -/
theorem span_add (p n : Nat) : span (p + n) = span p + n + 8 * ((p % 504 + n) / 504) := by
  unfold span
  omega

/-- The trailer of a sector. -/
def sectTrailer (tid ident : UInt32) : List UInt8 :=
  bigEndian 4 tid.toNat ++ bigEndian 4 ident.toNat

@[simp] theorem length_sectTrailer (tid ident : UInt32) : (sectTrailer tid ident).length = 8 := by
  simp [sectTrailer]

/-- The identifier's bytes are the last four of the trailer. -/
theorem sectTrailer_ident (tid ident : UInt32) (i : Nat) :
    (sectTrailer tid ident).getD (4 + i) 0 = (bigEndian 4 ident.toNat).getD i 0 := by
  have hlen : (bigEndian 4 tid.toNat).length ≤ 4 + i := by simp
  rw [sectTrailer, getD_append_right _ _ _ _ hlen, length_bigEndian, Nat.add_sub_cancel_left]

/-- The image holds the stream `stream` up to position `pos`: every byte of
    the last turn around the ring, and the identifier of every sector that
    has been completed in it. -/
structure Laid (r : Ring) (img : Nat → UInt8) (pos : Nat) (stream : Nat → UInt8) : Prop where
  bytes : ∀ j, j < pos → pos / 504 < j / 504 + r.sectors → img (r.lof j) = stream j
  idents : ∀ k, r.first ≤ k → k < pos / 504 → pos / 504 < k + r.sectors → ∀ i, i < 4 →
    img (r.sectorLof k + 508 + i) = (bigEndian 4 (r.identOf k).toNat).getD i 0

namespace Laid

variable {r : Ring} {img : Nat → UInt8} {pos : Nat} {stream : Nat → UInt8}
  (h : Laid r img pos stream)
include h

/-- A write in the sector being filled spares the bytes of the stream. -/
theorem bytes_write (bytes : List UInt8) {j : Nat} (hj : j < pos)
    (hlen : pos % 504 + bytes.length ≤ 512) (hturn : pos / 504 < j / 504 + r.sectors) :
    writeAt img (r.lof pos) bytes (r.lof j) = stream j := by
  rw [writeAt_of_not_mem, h.bytes j hj hturn]
  have hle : j / 504 ≤ pos / 504 := Nat.div_le_div_right hj.le
  have ha := r.sectorLof_mod (j / 504)
  have hb := r.sectorLof_mod (pos / 504)
  by_cases hsame : r.sectorLof (j / 504) = r.sectorLof (pos / 504)
  · -- In the sector being filled itself, what is written comes after.
    have heq := r.sectorLof_inj hle hturn hsame
    unfold Ring.lof
    omega
  · unfold Ring.lof
    omega

/-- It spares the identifiers as well. -/
theorem idents_write (bytes : List UInt8) {k i : Nat}
    (hlen : pos % 504 + bytes.length ≤ 512) (hfirst : r.first ≤ k) (hk : k < pos / 504)
    (hturn : pos / 504 < k + r.sectors) (hi : i < 4) :
    writeAt img (r.lof pos) bytes (r.sectorLof k + 508 + i) =
      (bigEndian 4 (r.identOf k).toNat).getD i 0 := by
  rw [writeAt_of_not_mem, h.idents k hfirst hk hturn i hi]
  have ha := r.sectorLof_mod k
  have hb := r.sectorLof_mod (pos / 504)
  have hne : r.sectorLof k ≠ r.sectorLof (pos / 504) := by
    intro hc
    have := r.sectorLof_inj hk.le hturn hc
    omega
  unfold Ring.lof
  omega

/-- Writing within a sector appends to the stream. -/
theorem writeChunk (chunk : List UInt8) (hlen : pos % 504 + chunk.length < 504) :
    Laid r (writeAt img (r.lof pos) chunk) (pos + chunk.length) (writeAt stream pos chunk) := by
  have hsec : (pos + chunk.length) / 504 = pos / 504 := by omega
  constructor
  · intro j hj hturn
    rw [hsec] at hturn
    by_cases hlt : j < pos
    · rw [h.bytes_write chunk hlt (by omega) hturn, writeAt_of_not_mem _ (.inl hlt)]
    · obtain ⟨i, rfl⟩ := Nat.exists_eq_add_of_le (le_of_not_gt hlt)
      have hi : i < chunk.length := by omega
      rw [r.lof_add (by omega), writeAt_of_mem _ hi, writeAt_of_mem _ hi]
  · intro k hfirst hk hturn i hi
    rw [hsec] at hk hturn
    exact h.idents_write chunk (by omega) hfirst hk hturn hi

/-- So does completing a sector with its trailer. -/
theorem writeSector (chunk : List UInt8) (tid : UInt32) (hlen : pos % 504 + chunk.length = 504) :
    Laid r (writeAt img (r.lof pos) (chunk ++ sectTrailer tid (r.identOf (pos / 504))))
      (pos + chunk.length) (writeAt stream pos chunk) := by
  have htot : (chunk ++ sectTrailer tid (r.identOf (pos / 504))).length = chunk.length + 8 := by
    rw [length_append, length_sectTrailer]
  constructor
  · intro j hj hturn
    by_cases hlt : j < pos
    · rw [h.bytes_write _ hlt (by omega) (by omega), writeAt_of_not_mem _ (.inl hlt)]
    · obtain ⟨i, rfl⟩ := Nat.exists_eq_add_of_le (le_of_not_gt hlt)
      have hi : i < chunk.length := by omega
      rw [r.lof_add (by omega), writeAt_of_mem _ (by omega), writeAt_of_mem _ hi,
        getD_append _ _ _ _ hi]
  · intro k hfirst hk hturn i hi
    by_cases hlast : k = pos / 504
    · -- The sector just completed: its trailer is part of the write.
      subst hlast
      have hoff : r.sectorLof (pos / 504) + 508 + i = r.lof pos + (chunk.length + (4 + i)) := by
        unfold Ring.lof
        omega
      rw [hoff, writeAt_of_mem _ (by omega),
        getD_append_right _ _ _ _ (Nat.le_add_right _ _), Nat.add_sub_cancel_left,
        sectTrailer_ident]
    · exact h.idents_write _ (by omega) hfirst (by omega) (by omega) hi

end Laid

end Sol7.UfsLog
