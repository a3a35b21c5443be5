import Sol7.UfsLog.Logscan

/-!
# Reading the Stream Back

What `ldl_logscan_read` returns on a log device of which a number of sectors
are valid: the bytes of the stream, as long as they are in valid sectors, and
an error else. The read buf is filled up to the tail or the end of the log and
cut down to the sectors that are valid, so a read may take several fills.

## Main definitions

* `Survives`: The sectors of the stream that are found on a device.
* `Buffered`: Which sectors the read buf holds.
* `Reads`: The log is ready to be read.

## Theorems

* `validSectors_eq`: The test of the idents finds the valid sectors.
* `Reads.getReadBp`, `Reads.logscanIdent`: What the read buf holds.
* `Buffered.fetchbuf`: What is copied out of it.
* `Reads.logscanRead`: Reading returns bytes of valid sectors.
* `Reads.logseek`: Seeking to the end of a sector.
-/

namespace Sol7.UfsLog

open List ScanLog Nat UInt32

/-- On the device, the sectors of the stream from number `h` up to number `v`
    are as they were written. Sector `v` carries another ident, unless a scan
    does not get there. -/
structure Survives (r : Ring) (h v : Nat) (disk stream : Nat → UInt8) : Prop where
  bounds : h ≤ v ∧ v < h + r.sectors
  bytes : ∀ j, 504 * h ≤ j → j < 504 * v → disk (r.lof j) = stream j
  idents : ∀ k, h ≤ k → k < v → stIdent disk (r.sectorLof k) = r.identOf k
  stop : v + 1 < h + r.sectors → stIdent disk (r.sectorLof v) ≠ r.identOf v

/-- The read buf holds `m` sectors from number `k` on. -/
structure Buffered (r : Ring) (s : ScanLog) (k m : Nat) : Prop where
  bol : s.bol = r.bol
  eol : s.eol = r.eol
  blkno : 512 * s.blkno = r.sectorLof k
  bcount : s.bcount = 512 * m
  contiguous : k % r.sectors + m ≤ r.sectors

/-- A log whose head is at `hd` in sector `h`, of which the sectors before `v`
    are valid. -/
structure Mounted (r : Ring) (hd h v : Nat) (stream : Nat → UInt8) (s : ScanLog) : Prop where
  bol : s.bol = r.bol
  eol : s.eol = r.eol
  head : s.head = hd
  headSector : hd / 512 = r.sectorLof h / 512
  headIdent : s.headIdent = r.identOf h
  tail : s.tail = r.sectorLof (h + r.sectors - 1)
  error : s.error = false
  berror : s.berror = false
  bufsize : 0 < s.bufsize ∧ s.bufsize % 512 = 0
  survives : Survives r h v s.disk stream

/-- The read buf holds no sectors, or some of the valid ones. -/
structure Reads (r : Ring) (hd h v : Nat) (stream : Nat → UInt8) (s : ScanLog) : Prop
    extends Mounted r hd h v stream s where
  buf : s.bcount = 0 ∨ ∃ k m, Buffered r s k m ∧ h ≤ k ∧ k + m ≤ v

/-- The sectors with the expected idents are counted up to the first other. -/
theorem validSectors_eq {disk : Nat → UInt8} {n c : Nat} {blkno : Nat} {ident : UInt32}
    (hc : c ≤ n) (hvalid : ∀ i, i < c → stIdent disk (512 * (blkno + i)) = ident + ofNat i)
    (hstop : c < n → stIdent disk (512 * (blkno + c)) ≠ ident + ofNat c) :
    validSectors disk blkno ident n = c := by
  induction n generalizing c blkno ident with
  | zero =>
    rw [validSectors]
    omega
  | succ n ih =>
    have hzero : ident + ofNat 0 = ident := add_zero ident
    rw [validSectors]
    cases c with
    | zero =>
      have hne := hstop (succ_pos n)
      rw [hzero] at hne
      exact if_pos hne
    | succ c =>
      have hfirst := hvalid 0 (succ_pos c)
      rw [hzero, add_zero] at hfirst
      rw [if_neg (not_not_intro hfirst)]
      have hshift : ∀ i, ident + ofNat (i + 1) = ident + 1 + ofNat i := by
        intro i
        rw [Nat.add_comm, ofNat_add, ← add_assoc]
        rfl
      have hrest : validSectors disk (blkno + 1) (ident + 1) n = c := by
        refine ih (le_of_succ_le_succ hc) (fun i hi => ?_) (fun hlt => ?_)
        · have hv := hvalid (i + 1) (succ_lt_succ hi)
          rw [hshift] at hv
          rw [← hv, add_assoc, add_comm 1 i]
        · have hs := hstop (succ_lt_succ hlt)
          rw [hshift] at hs
          rw [add_assoc, add_comm 1 c]
          exact hs
      rw [hrest]

variable {r : Ring} {hd h v : Nat} {stream : Nat → UInt8} {s : ScanLog} {k m i q n : Nat}

/-- The offsets of a buffered sector. -/
theorem Buffered.sectorLof (hb : Buffered r s k m) (hi : i < m) :
    r.sectorLof (k + i) = r.sectorLof k + 512 * i :=
  r.sectorLof_add (by have := hb.contiguous; omega)

/-- A position is in the buf if its sector is. -/
theorem Buffered.withinRange_iff (hb : Buffered r s k m) (hk : h ≤ k) (hm : k + m ≤ h + r.sectors)
    (hq : h ≤ q / 504) (hq' : q / 504 < h + r.sectors) :
    s.withinRange (r.lof q) = true ↔ k ≤ q / 504 ∧ q / 504 < k + m := by
  unfold withinRange elof
  rw [hb.blkno, hb.bcount, Bool.and_eq_true, decide_eq_true_eq, decide_eq_true_eq]
  have hak := r.sectorLof_mod k
  have haq := r.sectorLof_mod (q / 504)
  unfold Ring.lof
  constructor
  · intro hrange
    -- The sector of the position is one of those in the buf by its place.
    have hi : (r.sectorLof (q / 504) - r.sectorLof k) / 512 < m := by omega
    have hplace := hb.sectorLof hi
    have hsame : r.sectorLof (q / 504) =
        r.sectorLof (k + (r.sectorLof (q / 504) - r.sectorLof k) / 512) := by omega
    by_cases hle : q / 504 ≤ k + (r.sectorLof (q / 504) - r.sectorLof k) / 512
    · have := r.sectorLof_inj hle (by omega) hsame
      omega
    · have := r.sectorLof_inj (Nat.le_of_not_le hle) (by omega) hsame.symm
      omega
  · rintro ⟨hkq, hqm⟩
    have hplace := hb.sectorLof (i := q / 504 - k) (by omega)
    rw [Nat.add_sub_cancel' hkq] at hplace
    omega

/-- The ident that is expected of the first sector in the buf. -/
theorem Mounted.bufIdent (hr : Mounted r hd h v stream s) (hb : Buffered r s k m) (hk : h ≤ k)
    (hk' : k < h + r.sectors) : s.bufIdent = r.identOf k := by
  have hblk : s.blkno = r.sectorLof k / 512 := by
    have := hb.blkno
    omega
  unfold ScanLog.bufIdent
  rw [hr.head, hr.headSector, hr.headIdent, hr.eol, hr.bol, hblk]
  have hah := r.sectorLof_mod h
  split
  · exact r.identOf_forward hk hk' (by omega)
  · exact r.identOf_wrapped hk hk' (by omega)

/-- After `get_read_bp` the buf holds the sector of a position, and no sector
    that a scan should not read. -/
theorem Reads.getReadBp (hr : Reads r hd h v stream s) (hq : h ≤ q / 504)
    (hq' : q / 504 < h + r.sectors) : Mounted r hd h v stream (s.getReadBp (r.lof q)) ∧
      ∃ k m, Buffered r (s.getReadBp (r.lof q)) k m ∧ h ≤ k ∧ k + m < h + r.sectors ∧
        k ≤ q / 504 ∧ (q / 504 + 1 < h + r.sectors → q / 504 < k + m) := by
  have hbounds := hr.survives.bounds
  unfold ScanLog.getReadBp
  split
  · next hcached =>
      rcases hr.buf with hz | ⟨k, m, hb, hk, hm⟩
      · exact absurd hz hcached.1
      · have hin := (hb.withinRange_iff hk (by omega) hq hq').mp hcached.2
        exact ⟨hr.toMounted, k, m, hb, hk, by omega, hin.1, fun _ => hin.2⟩
  -- A new fill, from the sector of the position up to the tail or the end.
  have hlof := r.sector_lof q
  have hwin := r.mod_cases (h := q / 504) (k := h + r.sectors - 1) (by omega) (by omega)
  have hmq := mod_lt (q / 504) r.nonempty
  have hmt := mod_lt (h + r.sectors - 1) r.nonempty
  have hsize := hr.bufsize
  generalize hc : min s.bufsize (s.findReadLof (512 * (r.lof q / 512)) -
    512 * (r.lof q / 512)) = c
  rw [hlof] at hc
  have hroom : c % 512 = 0 ∧ c / 512 ≤ h + r.sectors - 1 - q / 504 ∧
      q / 504 % r.sectors + c / 512 ≤ r.sectors ∧ (q / 504 + 1 < h + r.sectors → 0 < c / 512) := by
    unfold findReadLof at hc
    rw [hr.tail, hr.eol] at hc
    unfold Ring.sectorLof Ring.eol at hc
    split at hc <;> omega
  refine ⟨{ hr with berror := hr.error }, q / 504, c / 512, ⟨hr.bol, hr.eol, hlof, ?_, hroom.2.2.1⟩, hq, ?_,
    le_rfl, ?_⟩
  · show c = 512 * (c / 512)
    omega
  · omega
  · intro hlt
    omega

/-- The test of the idents keeps the sectors before `v`. -/
theorem Mounted.logscanIdent (hr : Mounted r hd h v stream s) (hb : Buffered r s k m) (hk : h ≤ k)
    (hkv : k ≤ v) (hm : k + m < h + r.sectors) :
    Mounted r hd h v stream s.logscanIdent ∧ Buffered r s.logscanIdent k (min m (v - k)) := by
  have hsv := hr.survives
  have hcont := hb.contiguous
  have hblk : ∀ i, i < m → 512 * (s.blkno + i) = r.sectorLof (k + i) := by
    intro i hi
    rw [hb.sectorLof hi, ← hb.blkno, mul_add]
  have hcount : validSectors s.disk s.blkno s.bufIdent (s.bcount / 512) = min m (v - k) := by
    rw [hr.bufIdent hb hk (by omega), hb.bcount, Nat.mul_div_cancel_left m (by decide)]
    refine validSectors_eq (min_le_left _ _) (fun i hi => ?_) (fun hlt => ?_)
    · rw [hblk i (by omega), ← r.identOf_add]
      exact hsv.idents _ (by omega) (by omega)
    · -- The first sector that is not counted is `v`.
      have hv : k + min m (v - k) = v := by omega
      rw [hblk _ hlt, ← r.identOf_add, hv]
      exact hsv.stop (by omega)
  refine ⟨{ hr with }, ⟨hb.bol, hb.eol, hb.blkno, ?_, by omega⟩⟩
  show 512 * validSectors s.disk s.blkno s.bufIdent (s.bcount / 512) = _
  rw [hcount]

/-- Within a sector, the device holds the stream byte by byte. -/
theorem readAt_lof (disk : Nat → UInt8) (hn : q % 504 + n ≤ 504) :
    readAt disk (r.lof q) n = readAt (fun j => disk (r.lof j)) q n := by
  refine map_congr_left fun i hi => ?_
  have hi' := mem_range.mp hi
  show disk (r.lof q + i) = disk (r.lof (q + i))
  rw [r.lof_add (by omega)]

/-- One turn of `fetchbuf` from a position in the buf. -/
theorem Buffered.turn (hb : Buffered r s k m) (hk : k ≤ q / 504) (hm : q / 504 < k + m) (n : Nat) :
    s.copyNb n (r.lof q) = min n (504 - q % 504) ∧
      (0 < n → n < 504 - q % 504 →
        s.nextLof n (r.lof q) = r.lof (q + n) ∧ r.lof (q + n) ≠ s.elof) ∧
      (504 - q % 504 ≤ n → s.nextLof n (r.lof q) = r.sectorLof (q / 504) + 512 ∧
        (r.sectorLof (q / 504) + 512 = s.elof ↔ q / 504 + 1 = k + m)) := by
  have hplace := hb.sectorLof (i := q / 504 - k) (by omega)
  rw [Nat.add_sub_cancel' hk] at hplace
  have hlof : r.lof q = r.sectorLof k + 512 * (q / 504 - k) + q % 504 := by rw [Ring.lof, hplace]
  have helof : s.elof = r.sectorLof k + 512 * m := by rw [elof, hb.blkno, hb.bcount]
  have hleft : nbLeftInSector (r.lof q) = 504 - q % 504 := by rw [nbLeftInSector, r.lof_mod]
  have hcopy : s.copyNb n (r.lof q) = min n (504 - q % 504) := by
    unfold copyNb
    omega
  refine ⟨hcopy, fun hpos hn => ⟨?_, ?_⟩, fun hn => ?_⟩
  · unfold nextLof
    rw [hcopy, hleft, r.lof_add (by omega), if_neg (by omega)]
    omega
  · rw [r.lof_add (by omega), helof, hlof]
    omega
  · refine ⟨?_, ?_⟩
    · unfold nextLof
      rw [hcopy, hleft, if_pos (by omega), hlof, hplace]
      omega
    · omega

/-- Copying out of the buf, from a position in it: the bytes up to the end of
    the buf, sector by sector and without the trailers. -/
theorem Buffered.fetchbuf (hb : Buffered r s k m) (hk : k ≤ q / 504) (hm : q / 504 < k + m)
    (n : Nat) : s.fetchbuf n (r.lof q) =
      (readAt (fun j => s.disk (r.lof j)) q (min n (504 * (k + m) - q)),
        r.lof (q + min n (504 * (k + m) - q))) := by
  -- Induction on the number of bytes; every turn but the last ends a sector.
  induction n using Nat.strong_induction_on generalizing q with
  | _ n ih =>
    obtain ⟨hcopy, hpart, hfull⟩ := hb.turn hk hm n
    rw [fetchbuf, hcopy]
    by_cases hz : n = 0
    · subst hz
      rfl
    rw [if_neg hz]
    by_cases hn : n < 504 - q % 504
    · -- The bytes end before the sector does.
      obtain ⟨hnext, hne⟩ := hpart (pos_of_ne_zero hz) hn
      have hmin : min n (504 - q % 504) = n := by omega
      have hall : min n (504 * (k + m) - q) = n := by omega
      simp only [hnext, hmin, hall]
      rw [if_neg hne, if_pos (by omega), Nat.sub_self,
        ih 0 (by omega) (by omega) (by omega), zero_min, readAt_lof s.disk (by omega)]
      simp only [readAt, range_zero, map_nil, append_nil, add_zero]
    · obtain ⟨hnext, hend⟩ := hfull (by omega)
      have hmin : min n (504 - q % 504) = 504 - q % 504 := by omega
      have hbound : (q + (504 - q % 504)) % 504 = 0 := by omega
      have hsec : (q + (504 - q % 504)) / 504 = q / 504 + 1 := by omega
      simp only [hnext, hmin]
      by_cases hlast : q / 504 + 1 = k + m
      · -- The buffer is exhausted, maybe at the end of the log.
        have hall : min n (504 * (k + m) - q) = 504 - q % 504 := by omega
        rw [if_pos (hend.mpr hlast), hall, readAt_lof s.disk (by omega),
          r.lof_of_boundary hbound, hsec, hb.eol, hb.bol]
        congr 1
        split
        · next hw => exact (r.sectorLof_wrap hw).symm
        · next hw => exact (r.sectorLof_succ hw).symm
      · have hi := hb.sectorLof (i := q / 504 - k) (by omega)
        have hj := hb.sectorLof (i := q / 504 + 1 - k) (by omega)
        rw [Nat.add_sub_cancel' hk] at hi
        rw [Nat.add_sub_cancel' (by omega)] at hj
        have hlof : r.sectorLof (q / 504) + 512 = r.lof (q + (504 - q % 504)) := by
          rw [r.lof_of_boundary hbound, hsec, hi, hj]
          omega
        rw [if_neg (fun he => hlast (hend.mp he)), if_pos (by omega), hlof,
          ih (n - (504 - q % 504)) (by omega) (by omega) (by omega), readAt_lof s.disk (by omega)]
        have hsum : min n (504 * (k + m) - q) = 504 - q % 504 +
            min (n - (504 - q % 504)) (504 * (k + m) - (q + (504 - q % 504))) := by omega
        rw [hsum, readAt_add, add_assoc]

/-- Reading returns the bytes of the stream, if they are in valid sectors. -/
theorem Reads.logscanRead (hr : Reads r hd h v stream s) (hq : 504 * h ≤ q) (hqv : q / 504 ≤ v)
    (hn : q ≤ 504 * v ∨ 0 < n) : Reads r hd h v stream (s.logscanRead (r.lof q) n).1 ∧
      (s.logscanRead (r.lof q) n).2 =
        if q + n ≤ 504 * v then some (readAt stream q n, r.lof (q + n)) else none := by
  induction n using Nat.strong_induction_on generalizing s q with
  | _ n ih =>
    rw [logscanRead]
    by_cases hz : n = 0
    · subst hz
      rw [if_pos rfl, add_zero, if_pos (by omega)]
      exact ⟨hr, rfl⟩
    have hbounds := hr.survives.bounds
    obtain ⟨hm, k, m, hb, hk, hkm, hkq, hqm⟩ := hr.getReadBp (q := q) (by omega) (by omega)
    obtain ⟨hm', hb'⟩ := hm.logscanIdent hb hk (by omega) hkm
    have hin := hb'.withinRange_iff (q := q) hk (by omega) (by omega) (by omega)
    rw [if_neg hz, if_neg (by simp [hm.berror])]
    -- The buf as it is after the idents have been tested.
    generalize (s.getReadBp (r.lof q)).logscanIdent = s' at hm' hb' hin ⊢
    have hr' : Reads r hd h v stream s' := ⟨hm', .inr ⟨k, _, hb', hk, by omega⟩⟩
    by_cases hval : q / 504 < v
    · have hwithin : s'.withinRange (r.lof q) = true := hin.mpr ⟨hkq, by omega⟩
      have hfetch := hb'.fetchbuf (q := q) hkq (by omega) n
      generalize ha : min n (504 * (k + min m (v - k)) - q) = a at hfetch
      have hbytes : readAt (fun j => s'.disk (r.lof j)) q a = readAt stream q a :=
        readAt_congr _ fun i hi => hm'.survives.bytes _ (by omega) (by omega)
      rw [hbytes] at hfetch
      rw [if_neg (by rw [hwithin]; exact Bool.noConfusion), hfetch]
      simp only [length_readAt]
      rw [if_pos (by omega)]
      obtain ⟨hrest, heq⟩ := ih (n - a) (by omega) hr' (q := q + a) (by omega) (by omega) (by omega)
      rw [show q + a + (n - a) = q + n by omega] at heq
      generalize s'.logscanRead (r.lof (q + a)) (n - a) = rest at hrest heq ⊢
      obtain ⟨t, got⟩ := rest
      by_cases hfit : q + n ≤ 504 * v
      · rw [if_pos hfit] at heq ⊢
        cases heq
        refine ⟨hrest, ?_⟩
        show some (readAt stream q a ++ readAt stream (q + a) (n - a), _) = _
        rw [← readAt_add, show a + (n - a) = n by omega]
      · rw [if_neg hfit] at heq ⊢
        cases heq
        exact ⟨hrest, rfl⟩
    · have hout : s'.withinRange (r.lof q) = false := by
        rw [Bool.eq_false_iff]
        intro hw
        have := hin.mp hw
        omega
      rw [if_pos hout, if_neg (by omega)]
      exact ⟨hr', rfl⟩

/-- Seeking to the end of a valid sector. -/
theorem Reads.logseek (hr : Reads r hd h v stream s) (hq : 504 * h ≤ q) (hqv : q + n ≤ 504 * v)
    (hn : q % 504 + n ≤ 504) : (s.logseek (r.lof q) n).2 = some (r.lof (q + n)) ∧
      Mounted r hd h v stream (s.logseek (r.lof q) n).1 := by
  rw [ScanLog.logseek]
  by_cases hz : n = 0
  · subst hz
    exact ⟨rfl, hr.toMounted⟩
  have hbounds := hr.survives.bounds
  obtain ⟨hm, k, m, hb, hk, hkm, hkq, hqm⟩ := hr.getReadBp (q := q) (by omega) (by omega)
  have hfetch := hb.fetchbuf (q := q) hkq (hqm (by omega)) n
  have hall : min n (504 * (k + m) - q) = n := by omega
  rw [hall] at hfetch
  rw [if_neg hz, if_neg (by simp [hm.berror]), hfetch]
  simp only [length_readAt]
  rw [if_pos (pos_of_ne_zero hz), Nat.sub_self, ScanLog.logseek]
  exact ⟨rfl, hm⟩

end Sol7.UfsLog
