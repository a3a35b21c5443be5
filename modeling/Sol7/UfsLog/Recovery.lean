import Sol7.UfsLog.Journal
import Sol7.UfsLog.LogscanRead

/-!
# Crash Recovery

A crash leaves on the log device some of the sectors that were written since
the head, and `logmap_logscan` rebuilds the logmap from them. What comes back
are the deltas of the transactions whose commit record is in those sectors,
without those that were cancelled or superseded, in the order in which they
were written, and the log goes on after the last such commit. Two things are
not as they were: userdata comes back as scanned userdata, and a log of which
nothing is left to be rolled is reset to the start of the head's sector.

## Main definitions

* `Journal.committed`: The records up to the last commit in a number of
  sectors.
* `Crash`: What a crash leaves on the device.
* `MlUnit.mount`: The log as it is found after a crash.

## Theorems

* `logscanTurn_delta`, `logscanTurn_commit`: One turn of the scan.
* `logscanLoop_spec`: All turns of the scan.
* `crash_survives`: The sectors that a crash leaves.
* `logmapLogscan_recovers`: What a scan returns.
-/

namespace Sol7.UfsLog

open List Option Bool Scan

/-- A list up to the last element that has a property. -/
def upToLast {α : Type} (p : α → Bool) : List α → List α
  | [] => []
  | x :: xs => if (x :: xs).any p then x :: upToLast p xs else []

/-- The deltas among some records. -/
def deltas (its : List Item) : List MapEntry :=
  (its.filter fun it => it.me.dt ≠ .commit).map Item.me

/-- A commit that ends within the first `v` sectors from the head's on. -/
def Item.committedIn (it : Item) (headIdent : UInt32) (v : Nat) : Bool :=
  it.me.dt = .commit && (it.tailIdent - headIdent).toNat ≤ v

/-- The records of the transactions that are committed within the first `v`
    sectors. -/
def Journal.committed (j : Journal) (v : Nat) : List Item :=
  upToLast (fun it => it.committedIn j.ul.headIdent v) j.items

namespace MlUnit

/-- The offset of the sector that comes `i` sectors after the head's. -/
def sectorFromHead (s : MlUnit) (i : Nat) : Nat :=
  s.bol + (512 * (s.head / 512) - s.bol + 512 * i) % (s.eol - s.bol)

/-- The log as it is found on the device after a crash. -/
def mount (s : MlUnit) (disk : Nat → UInt8) : ScanLog where
  bol := s.bol
  eol := s.eol
  head := s.head
  tail := s.tail
  headIdent := s.headIdent
  tailIdent := s.tailIdent
  error := false
  disk := disk
  bufsize := 0
  blkno := 0
  bcount := 0
  berror := false

end MlUnit

/-- A crash leaves the first `v` of the sectors that were completed since the
    head on the device, and the sector after them carries another ident. -/
structure Crash (s : MlUnit) (v : Nat) (disk : Nat → UInt8) : Prop where
  written : v ≤ (s.tailIdent - s.headIdent).toNat
  kept : ∀ i, i < v → ∀ b, b < 512 →
    disk (s.sectorFromHead i + b) = s.image (s.sectorFromHead i + b)
  lost : v + 1 < (s.eol - s.bol) / 512 →
    stIdent disk (s.sectorFromHead v) ≠ s.headIdent + UInt32.ofNat v

/-! ### One turn of the scan -/

variable {r : Ring} {stream : Nat → UInt8}

section
variable {hd h v pos : Nat} {s : Scan} {done cur : List MapEntry}

/-- A valid delta is added to the logmap. -/
theorem logscanAdd_delta {d : Delta} {dt : DeltaType} (hv : d.verify = some dt)
    (hne : dt ≠ .commit) (lof : Nat) :
    s.logscanAdd d lof = ((s.logscanDelta d dt lof).1, some (s.logscanDelta d dt lof).2) := by
  unfold logscanAdd
  rw [hv]
  cases dt <;> first | rfl | exact absurd rfl hne

/-- A commit record is processed, whatever the log. -/
theorem logscanAdd_commit {d : Delta} (hv : d.verify = some .commit) (log : ScanLog) (lof : Nat) :
    { s with log := log }.logscanAdd d lof =
      ({ (s.logscanCommit lof).1 with log := log }, some (logscanNbcommit lof)) := by
  unfold logscanAdd
  rw [hv]
  rfl

variable {t q nb fuel lof next : Nat}

/-- What it becomes in the logmap, and how much data there is to skip. -/
theorem logscanDelta_rebuilt (hm : Rebuilt s.map done cur) {me : MapEntry} (hne : me.dt ≠ .commit) :
    Rebuilt (s.logscanDelta ⟨me.mof, me.nb, t⟩ me.dt me.lof).1.map done (cur ++ [me]) ∧
      (s.logscanDelta ⟨me.mof, me.nb, t⟩ me.dt me.lof).2 = me.dataNb ∧
      (s.logscanDelta ⟨me.mof, me.nb, t⟩ me.dt me.lof).1.last = s.last ∧
      (s.logscanDelta ⟨me.mof, me.nb, t⟩ me.dt me.lof).1.map.nhash = s.map.nhash := by
  have hdata : (s.logscanDelta ⟨me.mof, me.nb, t⟩ me.dt me.lof).2 = me.dataNb := by
    unfold MapEntry.dataNb logscanDelta
    cases hd : me.dt <;> first | rfl | exact absurd hd hne
  by_cases hud : me.dt = .ud
  · rw [hud] at hdata ⊢
    refine ⟨hm.addUd hud ?_ rfl rfl, hdata, rfl, rfl⟩
    unfold MapEntry.scanned
    rw [if_pos hud]
    rfl
  by_cases hcancel : me.dt = .cancel
  · rw [hcancel] at hdata ⊢
    refine ⟨hm.add hud ?_ rfl rfl, hdata, rfl, rfl⟩
    rw [decide_eq_true hcancel, ← hcancel]
    rfl
  · have hplain : (s.logscanDelta ⟨me.mof, me.nb, t⟩ me.dt me.lof).1.map =
        s.logmapAdd ⟨me.mof, me.nb, me.dt, me.lof, s.map.tid, 0, false, false, false⟩ := by
      cases hd : me.dt <;> first | rfl | exact absurd hd hud | exact absurd hd hcancel
    rw [hplain]
    refine ⟨hm.add hud ?_ rfl rfl, hdata, rfl, rfl⟩
    rw [decide_eq_false hcancel]
    rfl

section
variable (hr : Reads r hd h v stream s.log)
include hr

/-- The scan stops at a header that is not in valid sectors. -/
theorem logscanTurn_stop (hq : 504 * h ≤ q) (hqv : q / 504 ≤ v) (hout : 504 * v < q + 16) :
    ∃ log, s.logscanTurn (r.lof q) = ({ s with log := log }, none) ∧ Reads r hd h v stream log := by
  have hread := hr.logscanRead (n := 16) hq hqv (by omega)
  rw [if_neg (by omega)] at hread
  unfold logscanTurn
  generalize s.log.logscanRead (r.lof q) 16 = got at hread ⊢
  obtain ⟨log, res⟩ := got
  obtain ⟨hlog, hres⟩ := hread
  cases hres
  exact ⟨log, rfl, hlog⟩

/-- A turn of the scan: the header is processed, and what follows it is
    skipped. -/
theorem logscanTurn_go (hq : 504 * h ≤ q)
    (hin : q + 16 ≤ 504 * v) {hdr : List UInt8} (hhdr : readAt stream q 16 = hdr) {s' : Scan}
    (hadd : ∀ log, { s with log := log }.logscanAdd (.ofBytes hdr) (r.lof (q + 16)) =
      ({ s' with log := log }, some nb)) : ∃ log, s.logscanTurn (r.lof q) = ({ s' with log := log },
      if q + 16 + nb ≤ 504 * v then some (r.lof (q + 16 + nb)) else none) ∧
      Reads r hd h v stream log := by
  have hread := hr.logscanRead (n := 16) hq (by omega) (by omega)
  rw [if_pos hin, hhdr] at hread
  unfold logscanTurn
  generalize s.log.logscanRead (r.lof q) 16 = got at hread ⊢
  obtain ⟨log, res⟩ := got
  obtain ⟨hlog, hres⟩ := hread
  cases hres
  simp only [hadd]
  -- The data is skipped with the log as the first read left it.
  have hskip := hlog.logscanRead (q := q + 16) (n := nb) (by omega) (by omega) (.inl hin)
  generalize log.logscanRead (r.lof (q + 16)) nb = got at hskip ⊢
  obtain ⟨log', res⟩ := got
  obtain ⟨hlog', hres⟩ := hskip
  split at hres
  · next hfit =>
      cases hres
      rw [if_pos hfit]
      exact ⟨log', rfl, hlog'⟩
  · next hfit =>
      cases hres
      rw [if_neg hfit]
      exact ⟨log', rfl, hlog'⟩

/-- A turn with a delta. -/
theorem logscanTurn_delta (hm : Rebuilt s.map done cur)
    (hq : 504 * h ≤ q) (hin : q + 16 ≤ 504 * v) {it : Item}
    (hhdr : readAt stream q 16 = it.me.header) (hlof : it.me.lof = r.lof (q + 16))
    (hvalid : it.me.Valid) : ∃ t, s.logscanTurn (r.lof q) =
        (t, if it.next q ≤ 504 * v then some (r.lof (it.next q)) else none) ∧
      Reads r hd h v stream t.log ∧ Rebuilt t.map done (cur ++ [it.me]) ∧
      t.map.nhash = s.map.nhash ∧ t.last = s.last := by
  have hnb := hvalid.nb
  unfold mapBlockSize at hnb
  have hadd : ∀ log, { s with log := log }.logscanAdd (.ofBytes it.me.header)
      (r.lof (q + 16)) = ({ (s.logscanDelta ⟨it.me.mof, it.me.nb, it.me.dt.code⟩ it.me.dt
        it.me.lof).1 with log := log }, some it.me.dataNb) := by
    intro log
    obtain ⟨_, hdata, _⟩ := logscanDelta_rebuilt (s := { s with log := log }) hm hvalid.delta
     
    rw [logscanAdd_delta (verify_ofBytes hvalid) hvalid.delta,
      ofBytes_header hvalid.mof (by omega), ← hlof, hdata]
    rfl
  obtain ⟨hre, _, hlast, hnhash⟩ := logscanDelta_rebuilt hm hvalid.delta
  obtain ⟨log, hturn, hlog⟩ := logscanTurn_go hr hq hin hhdr hadd
  have hnext : it.next q = q + 16 + it.me.dataNb := by
    unfold Item.next
    rw [if_neg hvalid.delta]
  rw [hturn, hnext]
  exact ⟨_, rfl, hlog, hre, hnhash, hlast⟩

/-- A turn with a commit record, which ends with its sector. -/
theorem logscanTurn_commit (hm : Rebuilt s.map done cur)
    (hq : 504 * h ≤ q) (hin : q + 16 ≤ 504 * v) {it : Item}
    (hhdr : readAt stream q 16 = it.me.header) (hdt : it.me.dt = .commit) (hvalid : it.Valid) :
    ∃ t, s.logscanTurn (r.lof q) = (t, some (r.lof (it.next q))) ∧
      Reads r hd h v stream t.log ∧ Rebuilt t.map (done ++ cur) [] ∧
      t.map.nhash = s.map.nhash ∧ t.last = (r.lof (q + 16), roundUp (q + 16) - (q + 16)) := by
  unfold Item.Valid at hvalid
  rw [if_pos hdt] at hvalid
  have hnbc : logscanNbcommit (r.lof (q + 16)) = roundUp (q + 16) - (q + 16) := by
    unfold logscanNbcommit nbLeftInSector roundUp
    rw [r.lof_mod]
    split <;> omega
  have hverify : (Delta.ofBytes it.me.header).verify = some .commit := by
    rw [ofBytes_header hvalid.1 (by omega), hdt, hvalid.2]
    rfl
  have hadd : ∀ log, { s with log := log }.logscanAdd (.ofBytes it.me.header)
      (r.lof (q + 16)) = ({ (s.logscanCommit (r.lof (q + 16))).1 with log := log },
        some (roundUp (q + 16) - (q + 16))) := by
    intro log
    rw [logscanAdd_commit hverify, hnbc]
  have hnhash : (s.logscanCommit (r.lof (q + 16))).1.map.nhash = s.map.nhash := by
    unfold logscanCommit
    split <;> rfl
  obtain ⟨log, hturn, hlog⟩ := logscanTurn_go hr hq hin hhdr hadd
  have hnext : it.next q = q + 16 + (roundUp (q + 16) - (q + 16)) := by
    unfold Item.next roundUp
    rw [if_pos hdt]
    omega
  have hfit : q + 16 + (roundUp (q + 16) - (q + 16)) ≤ 504 * v := by
    unfold roundUp
    omega
  rw [if_pos hfit] at hturn
  rw [hturn, hnext]
  refine ⟨_, rfl, hlog, hm.commit s rfl (r.lof (q + 16)), hnhash, ?_⟩
  show (r.lof (q + 16), logscanNbcommit (r.lof (q + 16))) = _
  rw [hnbc]

end

variable {t : Scan}

/-- The loop stops after a turn that is left. -/
theorem logscanLoop_stop (hne : lof ≠ s.log.tail) (hturn : s.logscanTurn lof = (t, none)) :
    logscanLoop (fuel + 1) s lof = some t := by
  rw [logscanLoop, if_neg hne, hturn]

/-- It goes on with the next header after any other. -/
theorem logscanLoop_go (hne : lof ≠ s.log.tail) (hturn : s.logscanTurn lof = (t, some next)) :
    logscanLoop (fuel + 1) s lof = logscanLoop fuel t next := by
  rw [logscanLoop, if_neg hne, hturn]

end

/-! ### All turns of the scan -/

section
variable {hd h v pos : Nat} {it : Item}

/-- A commit is in the first sectors if its header is. -/
theorem committedIn_iff {q : Nat} (hident : it.tailIdent = r.identOf (it.next q / 504))
    (hq : 504 * h ≤ q) (hnear : it.next q / 504 < h + 2 ^ 32) (hv : h ≤ v) :
    it.committedIn (r.identOf h) (v - h) = true ↔ it.me.dt = .commit ∧ q + 16 ≤ 504 * v := by
  have hle := it.le_next q
  unfold Item.committedIn
  rw [and_eq_true, decide_eq_true_eq, decide_eq_true_eq, hident,
    r.identOf_sub (by omega) (by omega)]
  refine and_congr_right fun hdt => ?_
  unfold Item.next roundUp at *
  rw [if_pos hdt]
  omega

variable {its : List Item}

/-- There are no commits to be found beyond the valid sectors. -/
theorem committedIn_none {q : Nat} (hw : Written r stream q its pos) (hq : 504 * h ≤ q)
    (hnear : pos / 504 < h + 2 ^ 32) (hv : h ≤ v) (hout : 504 * v < q + 16) :
    its.any (fun it => it.committedIn (r.identOf h) (v - h)) = false := by
  induction its generalizing q with
  | nil => rfl
  | cons it its ih =>
    have hle := it.le_next q
    have hend := hw.2.le
    have hno : it.committedIn (r.identOf h) (v - h) = false := by
      rw [eq_false_iff]
      intro hc
      have := (committedIn_iff hw.1.2.2.2.2 hq (by omega) hv).mp hc
      omega
    rw [any_cons, hno]
    exact ih hw.2 (by omega) (by omega)

/-- What is noted of the last commit: the offset after its header, and how
    much of its sector is left. -/
def LastCommit (r : Ring) (h v : Nat) (last : Nat × Nat) (it : Option Item) : Prop :=
  ∃ c q, it = some c ∧ last = (r.lof q, roundUp q - q) ∧ c.tailLof = r.lof (roundUp q) ∧
    c.tailIdent = r.identOf (roundUp q / 504) ∧ 504 * h < q ∧ roundUp q ≤ 504 * v

/-- What the loop has found of some records: the committed transactions among
    them, if there is a commit. -/
def Found (r : Ring) (h v : Nat) (s s' : Scan) (done cur : List MapEntry) (its : List Item) :
    Prop :=
  let p := fun it : Item => it.committedIn (r.identOf h) (v - h)
  if its.any p then
    (∃ cur', Rebuilt s'.map (done ++ cur ++ deltas (upToLast p its)) cur') ∧
      LastCommit r h v s'.last (upToLast p its).getLast?
  else (∃ cur', Rebuilt s'.map done cur') ∧ s'.last = s.last

section
variable {α : Type} {p : α → Bool} {l : List α} {x : α}

theorem upToLast_cons (h : (x :: l).any p = true) : upToLast p (x :: l) = x :: upToLast p l := by
  rw [upToLast, if_pos h]

theorem upToLast_ne_nil (h : l.any p = true) : upToLast p l ≠ [] := by
  cases l with
  | nil => cases h
  | cons x xs =>
    rw [upToLast_cons h]
    exact cons_ne_nil _ _

theorem upToLast_eq_nil (h : l.any p = false) : upToLast p l = [] := by
  cases l with
  | nil => rfl
  | cons x xs => rw [upToLast, if_neg (by rw [h]; exact false_ne_true)]

end

theorem deltas_cons (hne : it.me.dt ≠ .commit) : deltas (it :: its) = it.me :: deltas its := by
  unfold deltas
  rw [filter_cons, if_pos (decide_eq_true hne), map_cons]

theorem deltas_commit (hdt : it.me.dt = .commit) : deltas (it :: its) = deltas its := by
  unfold deltas
  rw [filter_cons, if_neg (by rw [hdt]; decide)]

variable {done cur : List MapEntry} {s t s' : Scan}

/-- A turn with a delta, and what is found after it. -/
theorem Found.delta (hne : it.me.dt ≠ .commit) (hlast : t.last = s.last)
    (hf : Found r h v t s' done (cur ++ [it.me]) its) : Found r h v s s' done cur (it :: its) := by
  have hno : it.committedIn (r.identOf h) (v - h) = false := by
    unfold Item.committedIn
    rw [decide_eq_false hne]
    rfl
  unfold Found at hf ⊢
  simp only [any_cons, hno, Bool.false_or] at hf ⊢
  split at hf
  · next hany =>
      rw [if_pos hany, upToLast_cons (by rw [any_cons, hany, Bool.or_true]), deltas_cons hne,
        getLast?_cons_of_ne_nil (upToLast_ne_nil hany)]
      rw [← append_assoc, append_assoc _ [it.me]] at hf
      exact hf
  · next hany =>
      rw [if_neg hany, ← hlast]
      exact hf

/-- A turn with a commit, and what is found after it. -/
theorem Found.commit (hc : it.committedIn (r.identOf h) (v - h) = true)
    (hlast : LastCommit r h v t.last (some it)) (hf : Found r h v t s' (done ++ cur) [] its) :
    Found r h v s s' done cur (it :: its) := by
  have hdt : it.me.dt = .commit := by exact of_decide_eq_true (and_eq_true _ _ ▸ hc).1
  have hany : (it :: its).any (fun it => it.committedIn (r.identOf h) (v - h)) = true := by
    rw [any_cons, hc, Bool.true_or]
  unfold Found at hf ⊢
  simp only [] at hf ⊢
  rw [if_pos hany, upToLast_cons hany, deltas_commit hdt]
  split at hf
  · next hany =>
      rw [getLast?_cons_of_ne_nil (upToLast_ne_nil hany)]
      rw [append_nil] at hf
      exact hf
  · next hany =>
      rw [upToLast_eq_nil (eq_false_iff.mpr hany), hf.2]
      show (∃ cur', Rebuilt s'.map (done ++ cur ++ []) cur') ∧ _
      rw [append_nil]
      exact ⟨hf.1, hlast⟩

/-- Nothing more is found at the end of the valid sectors. -/
theorem Found.stop (hnone : its.any (fun it => it.committedIn (r.identOf h) (v - h)) = false)
    (hlast : s'.last = s.last) (hm : ∃ cur', Rebuilt s'.map done cur') :
    Found r h v s s' done cur its := by
  unfold Found
  simp only [hnone, false_eq_true, if_false]
  exact ⟨hm, hlast⟩

/-- What is found of all records. -/
theorem Found.all (hf : Found r h v s s' [] [] its) : (∃ cur, Rebuilt s'.map
      (deltas (upToLast (fun it => it.committedIn (r.identOf h) (v - h)) its)) cur) ∧
    (upToLast (fun it => it.committedIn (r.identOf h) (v - h)) its ≠ [] → LastCommit r h v s'.last
        (upToLast (fun it => it.committedIn (r.identOf h) (v - h)) its).getLast?) := by
  unfold Found at hf
  simp only [nil_append] at hf
  split at hf
  · exact ⟨hf.1, fun _ => hf.2⟩
  · next hno =>
      rw [upToLast_eq_nil (eq_false_iff.mpr hno)]
      exact ⟨hf.1, absurd rfl⟩

/-- The loop of the scan, from a header on. Every turn takes at least the 16
    bytes of a header, which is what the fuel is counted by. -/
theorem logscanLoop_spec {q fuel : Nat} (hw : Written r stream q its pos) (hq : 504 * h ≤ q)
    (hqv : q / 504 ≤ v) (hpos : 504 * v ≤ pos) (hnear : pos / 504 < h + 2 ^ 32)
    (hfuel : 0 < fuel ∧ 504 * v < q + 16 * fuel) (hr : Reads r hd h v stream s.log)
    (hm : Rebuilt s.map done cur) :
    ∃ s', logscanLoop fuel s (r.lof q) = some s' ∧ Reads r hd h v stream s'.log ∧
      s'.map.nhash = s.map.nhash ∧ Found r h v s s' done cur its := by
  have hbounds := hr.survives.bounds
  induction its generalizing q fuel s done cur with
  | nil =>
    -- The stream ends here, and with it the valid sectors.
    have hqp : q = pos := hw
    cases fuel with
    | zero => omega
    | succ fuel =>
      by_cases htail : r.lof q = s.log.tail
      · exact ⟨s, by rw [logscanLoop, if_pos htail], hr, rfl, .stop rfl rfl ⟨cur, hm⟩⟩
      · obtain ⟨log, hturn, hlog⟩ := logscanTurn_stop hr hq hqv (by omega)
        exact ⟨_, logscanLoop_stop htail hturn, hlog, rfl, .stop rfl rfl ⟨cur, hm⟩⟩
  | cons it its ih =>
    have hle := it.le_next q
    cases fuel with
    | zero => omega
    | succ fuel =>
      by_cases htail : r.lof q = s.log.tail
      · -- All sectors but the one before the head's have been scanned.
        rw [hr.tail] at htail
        have hplace : r.sectorLof (q / 504) = r.sectorLof (h + r.sectors - 1) := by
          have ha := r.sectorLof_mod (q / 504)
          have hb := r.sectorLof_mod (h + r.sectors - 1)
          unfold Ring.lof at htail
          omega
        have hlast := r.sectorLof_inj (by omega) (by omega) hplace
        exact ⟨s, by rw [logscanLoop, if_pos (by rw [htail, hr.tail])], hr, rfl,
          .stop (committedIn_none hw hq hnear hbounds.1 (by omega)) rfl ⟨cur, hm⟩⟩
      · by_cases hin : q + 16 ≤ 504 * v
        · have hfuel' : 0 < fuel ∧ 504 * v < it.next q + 16 * fuel := by omega
          obtain ⟨hhdr, hlof, hvalid, htl, hti⟩ := hw.1
          by_cases hdt : it.me.dt = .commit
          · obtain ⟨t, hturn, hlog, hmap, hnhash, hlast⟩ :=
                logscanTurn_commit hr hm hq hin hhdr hdt hvalid
            have hnext : it.next q = roundUp (q + 16) := if_pos hdt
            have hfit : it.next q ≤ 504 * v := by
              rw [hnext]
              unfold roundUp
              omega
            obtain ⟨s', hloop, hlog', hnhash', hf⟩ := ih hw.2 (by omega) (by omega) hfuel' hlog hmap
            refine ⟨s', (logscanLoop_go htail hturn).trans hloop, hlog',
              hnhash'.trans hnhash, hf.commit ?_ ?_⟩
            · exact (committedIn_iff hti hq (by omega) hbounds.1).mpr ⟨hdt, hin⟩
            · rw [hnext] at htl hti hfit
              exact ⟨it, q + 16, rfl, hlast, htl, hti, by omega, hfit⟩
          · have hv : it.me.Valid := by
              unfold Item.Valid at hvalid
              rw [if_neg hdt] at hvalid
              exact hvalid
            obtain ⟨t, hturn, hlog, hmap, hnhash, hlast⟩ :=
                logscanTurn_delta hr hm hq hin hhdr hlof hv
            by_cases hfit : it.next q ≤ 504 * v
            · rw [if_pos hfit] at hturn
              obtain ⟨s', hloop, hlog', hnhash', hf⟩ :=
                  ih hw.2 (by omega) (by omega) hfuel' hlog hmap
              exact ⟨s', (logscanLoop_go htail hturn).trans hloop, hlog',
                hnhash'.trans hnhash, hf.delta hdt hlast⟩
            · -- The data is cut off, so no commit can follow.
              rw [if_neg hfit] at hturn
              refine ⟨_, logscanLoop_stop htail hturn, hlog, hnhash, .delta hdt hlast
                (.stop (committedIn_none hw.2 (by omega) hnear hbounds.1 (by omega)) rfl
                  ⟨_, hmap⟩)⟩
        · obtain ⟨log, hturn, hlog⟩ := logscanTurn_stop hr hq hqv (by omega)
          exact ⟨_, logscanLoop_stop htail hturn, hlog, rfl,
            .stop (committedIn_none hw hq hnear hbounds.1 (by omega)) rfl ⟨cur, hm⟩⟩

end

/-! ### After a crash -/

section
variable {j : Journal} {base : Int} {hpos pos v : Nat} {disk : Nat → UInt8}
  (h : j.Holds r base stream hpos pos)
include h

/-- Sectors counted from the head are sectors of the stream. -/
theorem sectorFromHead_eq (i : Nat) : j.ul.sectorFromHead i = r.sectorLof (hpos / 504 + i) := by
  unfold MlUnit.sectorFromHead
  rw [h.head, r.sector_lof, h.streams.bol, h.streams.eol]
  unfold Ring.sectorLof Ring.eol
  rw [Nat.add_sub_cancel_left, Nat.add_sub_cancel_left, ← mul_add, Nat.mul_mod_mul_left,
    Nat.mod_add_mod]

/-- How many sectors have been completed since the head's. -/
theorem completed_eq : (j.ul.tailIdent - j.ul.headIdent).toNat = pos / 504 - hpos / 504 := by
  have hle := h.written.le
  have hroom := h.room
  have hsize := h.size
  rw [h.streams.ident, h.ident, r.identOf_sub (by omega) (by omega)]

omit h in
/-- The ident of a sector, from the four bytes that were written. -/
theorem stIdent_eq {disk : Nat → UInt8} {lof : Nat} {ident : UInt32}
    (h : ∀ i, i < 4 → disk (lof + 508 + i) = (bigEndian 4 ident.toNat).getD i 0) :
    stIdent disk lof = ident := by
  have hbytes : readAt disk (lof + 508) 4 = bigEndian 4 ident.toNat := by
    refine ext_getElem (by simp) fun i h1 h2 => ?_
    have hi : i < 4 := by rwa [length_bigEndian] at h2
    rw [← getD_eq_getElem _ 0 h1, ← getD_eq_getElem _ 0 h2, getD_readAt disk hi, h i hi]
  have hsmall := ident.toNat_lt
  unfold stIdent
  rw [hbytes, bigEndianValue_bigEndian, Nat.mod_eq_of_lt (by omega), UInt32.ofNat_toNat]

/-- The sectors that a crash leaves are sectors of the stream. -/
theorem crash_survives (hc : Crash j.ul v disk) :
    Survives r (hpos / 504) (hpos / 504 + v) disk stream := by
  have hroom := h.room
  have hsize := h.size
  have hwritten := hc.written
  rw [completed_eq h] at hwritten
  have hkept : ∀ k, hpos / 504 ≤ k → k < hpos / 504 + v → ∀ b, b < 512 →
      disk (r.sectorLof k + b) = j.ul.image (r.sectorLof k + b) := by
    intro k hk hkv b hb
    have := hc.kept (k - hpos / 504) (by omega) b hb
    rw [sectorFromHead_eq h, Nat.add_sub_cancel' hk] at this
    exact this
  refine ⟨⟨Nat.le_add_right _ _, by omega⟩, fun i hi hiv => ?_, fun k hk hkv => ?_, fun hlt => ?_⟩
  · rw [← h.streams.laid.bytes i (by omega) (by omega)]
    exact hkept (i / 504) (by omega) (by omega) _ (by omega)
  · refine stIdent_eq fun i hi => ?_
    have hk' := hkept k hk hkv (508 + i) (by omega)
    rw [← add_assoc] at hk'
    rw [hk']
    exact h.streams.laid.idents k (h.first.trans hk) (by omega) (by omega) i hi
  · have hlost := hc.lost (by
      rw [h.streams.eol, h.streams.bol]
      unfold Ring.eol
      omega)
    rw [sectorFromHead_eq h, h.ident, ← r.identOf_add] at hlost
    exact hlost

/-- The log at the beginning of the scan. -/
theorem logscanBegin_reads (hc : Crash j.ul v disk)
    {bufsize : Nat} (hb : 0 < bufsize ∧ bufsize % 512 = 0) :
    Reads r j.ul.head (hpos / 504) (hpos / 504 + v) stream
      ((j.ul.mount disk).logscanBegin bufsize) := by
  have hsize := h.size
  have hmod := r.mod_cases (h := hpos / 504) (k := hpos / 504 + r.sectors - 1) (by omega) (by omega)
  have hm2 := Nat.mod_lt (hpos / 504 + r.sectors - 1) r.nonempty
  refine ⟨⟨h.streams.bol, h.streams.eol, rfl, ?_, h.ident, ?_, rfl, rfl, hb,
    crash_survives h hc⟩, .inl rfl⟩
  · rw [h.head, r.lof_div]
  show (if 512 * (j.ul.head / 512) < j.ul.bol + 512 then j.ul.eol - 512
    else if j.ul.eol ≤ 512 * (j.ul.head / 512) - 512 then j.ul.bol
    else 512 * (j.ul.head / 512) - 512) = _
  rw [h.head, r.sector_lof, h.streams.bol, h.streams.eol]
  unfold Ring.sectorLof Ring.eol
  split
  · omega
  · split <;> omega

end

/-! ### The result of the scan -/

/-- The log goes on after a commit. -/
structure Resumes (s : MlUnit) (c : Item) (log : ScanLog) : Prop where
  head : log.head = s.head
  headIdent : log.headIdent = s.headIdent
  tail : log.tail = c.tailLof
  tailIdent : log.tailIdent = c.tailIdent

/-- The log starts anew in the head's sector. -/
structure Restarts (s : MlUnit) (now : UInt32) (log : ScanLog) : Prop where
  head : log.head = 512 * (s.head / 512)
  headIdent : log.headIdent = now
  tail : log.tail = 512 * (s.head / 512)
  tailIdent : log.tailIdent = now

/-- The scan has rebuilt the logmap, with the entries still to be rolled in the
    order in which they were written. -/
structure Recovers (j : Journal) (v nhash : Nat) (now : UInt32) (res : Scan) : Prop where
  entries : res.map.entries.map Me.core =
    (live nhash (deltas (j.committed v))).map fun d => (d.scanned, false)
  log : if live nhash (deltas (j.committed v)) = [] then Restarts j.ul now res.log
    else ∃ c, (j.committed v).getLast? = some c ∧ Resumes j.ul c res.log

section
variable {hd h v : Nat} {s : ScanLog}

/-- The tail is set to the sector after the last commit. -/
theorem settail_last (hr : Reads r hd h v stream s) {last : Nat × Nat} {it : Option Item}
    (hl : LastCommit r h v last it) (now : UInt32) :
    ∃ c, it = some c ∧ (s.settail now (some last)).head = hd ∧
      (s.settail now (some last)).headIdent = r.identOf h ∧
      (s.settail now (some last)).tail = c.tailLof ∧
      (s.settail now (some last)).tailIdent = c.tailIdent := by
  obtain ⟨c, q, hit, hlast, htail, hident, hq, hend⟩ := hl
  have hbounds := hr.survives.bounds
  have hround : q ≤ roundUp q ∧ roundUp q % 504 = 0 ∧ q % 504 + (roundUp q - q) ≤ 504 := by
    unfold roundUp
    omega
  have hseek := hr.logseek (q := q) (n := roundUp q - q) (by omega) (by omega) hround.2.2
  rw [Nat.add_sub_cancel' hround.1] at hseek
  refine ⟨c, hit, ?_⟩
  rw [hlast]
  unfold ScanLog.settail
  simp only []
  generalize s.logseek (r.lof q) (roundUp q - q) = got at hseek ⊢
  obtain ⟨log, res⟩ := got
  obtain ⟨hres, hm⟩ := hseek
  cases hres
  refine ⟨hm.head, hm.headIdent, htail.symm, ?_⟩
  -- The ident is counted from the head's, around the end of the log or not.
  have hk : h < roundUp q / 504 := by omega
  have hk' : roundUp q / 504 < h + r.sectors := by omega
  have hak := r.sectorLof_mod (roundUp q / 504)
  have hsec := hm.headSector
  change (if log.head < r.lof (roundUp q) then
      log.headIdent + (UInt32.ofNat (r.lof (roundUp q) / 512) - UInt32.ofNat (log.head / 512))
    else
      log.headIdent + (UInt32.ofNat (log.eol / 512) - UInt32.ofNat (log.head / 512)) +
        (UInt32.ofNat (r.lof (roundUp q) / 512) - UInt32.ofNat (log.bol / 512))) = _
  rw [hident, hm.head, hm.headIdent, hm.eol, hm.bol, hsec, r.lof_of_boundary hround.2.1]
  split
  · exact r.identOf_forward hk.le hk' (by omega)
  · refine r.identOf_wrapped hk.le hk' ?_
    by_contra hc
    have hsame : r.sectorLof h = r.sectorLof (roundUp q / 504) := by omega
    exact ne_of_lt hk (r.sectorLof_inj hk.le hk' hsame)

/-- The scan returns, with what the crash has left. -/
theorem logmapLogscan_spec {j : Journal} {base : Int} {hpos pos : Nat}
    (hj : j.Holds r base stream hpos pos) {disk : Nat → UInt8} (hc : Crash j.ul v disk)
    (bufsize : Nat) (hb : 0 < bufsize ∧ bufsize % 512 = 0) (nhash : Nat) (now : UInt32) :
    ∃ res, logmapLogscan (j.ul.mount disk) bufsize nhash now = some res ∧
      Recovers j v nhash now res := by
  have hbegin := logscanBegin_reads hj hc hb
  have hwritten := hc.written
  rw [completed_eq hj] at hwritten
  have hroom := hj.room
  have hsize := hj.size
  have hle := hj.written.le
  have hfuel : 0 < j.ul.eol - j.ul.bol ∧
      504 * (hpos / 504 + v) < hpos + 16 * (j.ul.eol - j.ul.bol) := by
    rw [hj.streams.eol, hj.streams.bol]
    unfold Ring.eol
    omega
  have hempty : Rebuilt
      { entries := [], nhash := nhash, tid := 0, committid := 0, age := 0, dirty := 0 } [] [] :=
    ⟨⟨[], [], rfl, rfl, rfl, nofun, nofun⟩, fun _ => rfl⟩
  have hloop := logscanLoop_spec
    (s := { log := (j.ul.mount disk).logscanBegin bufsize
            map := { entries := [], nhash := nhash, tid := 0, committid := 0, age := 0, dirty := 0 }
            last := (0, 0) })
    hj.written (by omega) (by omega) (by omega) (by omega) hfuel hbegin hempty
  rw [← hj.head] at hloop
  obtain ⟨s', hs', hlog, hnhash, hfound⟩ := hloop
  refine ⟨_, by
    unfold logmapLogscan
    simp only []
    rw [show (j.ul.mount disk).eol - (j.ul.mount disk).bol = j.ul.eol - j.ul.bol from rfl,
      show (j.ul.mount disk).head = j.ul.head from rfl, hs'], ?_⟩
  have hall := hfound.all
  rw [Nat.add_sub_cancel_left, ← hj.ident] at hall
  obtain ⟨⟨cur, hre⟩, hlast⟩ := hall
  have hn : s'.map.nhash = nhash := hnhash
  have hentries := hre.abort
  rw [hn] at hentries
  refine ⟨hentries, ?_⟩
  -- The logmap is empty exactly if nothing is live.
  by_cases hlive : live nhash (deltas (j.committed v)) = []
  · have hempty : s'.map.abort.entries = [] := by
      refine map_eq_nil_iff.mp (hentries.trans ?_)
      exact congrArg _ hlive
    rw [if_pos hlive, hempty]
    have hhead : 512 * (s'.log.head / 512) = 512 * (j.ul.head / 512) := by rw [hlog.head]
    exact ⟨hhead, rfl, hhead, rfl⟩
  · have hsome : s'.map.abort.entries.isEmpty = false := by
      rw [eq_false_iff, Ne, List.isEmpty_iff]
      intro hempty
      rw [hempty] at hentries
      exact hlive (map_eq_nil_iff.mp hentries.symm)
    rw [if_neg hlive, hsome]
    have hne : j.committed v ≠ [] := by
      intro hnil
      rw [hnil] at hlive
      exact hlive rfl
    obtain ⟨c, hget, hh, hhi, ht, hti⟩ := settail_last hlog (hlast hne) now
    exact ⟨c, hget, hh, hhi.trans hj.ident.symm, ht, hti⟩

end

/-- Recovery. Whatever was logged, and wherever in the log, and whatever a
    crash leaves of it: the scan returns with the deltas of the transactions
    whose commit was left. -/
theorem logmapLogscan_recovers (j : Journal) (hr : journal.Reachable j) (v : Nat)
    (disk : Nat → UInt8) (hc : Crash j.ul v disk) (bufsize : Nat)
    (hb : 0 < bufsize ∧ bufsize % 512 = 0) (nhash : Nat) (now : UInt32) :
    ∃ res, logmapLogscan (j.ul.mount disk) bufsize nhash now = some res ∧
      Recovers j v nhash now res := by
  obtain ⟨r, base, stream, hpos, pos, hj⟩ := journal_inv j hr
  exact logmapLogscan_spec hj hc bufsize hb nhash now

/-! ### Runs with one transaction -/

variable {hpos pos v p : Nat}

/-- A crash may leave any number of the sectors that were completed. -/
theorem exists_crash {j : Journal} {r : Ring} {base : Int} (h : j.Holds r base stream hpos pos)
    (hv : v ≤ pos / 504 - hpos / 504) : ∃ disk, Crash j.ul v disk := by
  have hroom := h.room
  have hlen := length_bigEndian 4 (j.ul.headIdent + UInt32.ofNat v + 1).toNat
  refine ⟨writeAt j.ul.image (j.ul.sectorFromHead v + 508)
    (bigEndian 4 (j.ul.headIdent + UInt32.ofNat v + 1).toNat), ?_, fun i hi b hb => ?_, fun _ => ?_⟩
  · rw [completed_eq h]
    exact hv
  · refine writeAt_of_not_mem _ ?_
    rw [hlen, sectorFromHead_eq h, sectorFromHead_eq h]
    have hne : r.sectorLof (hpos / 504 + i) ≠ r.sectorLof (hpos / 504 + v) := by
      intro hsame
      have := r.sectorLof_inj (by omega) (by omega) hsame
      omega
    have hai := r.sectorLof_mod (hpos / 504 + i)
    have hav := r.sectorLof_mod (hpos / 504 + v)
    omega
  · have hread := readAt_writeAt j.ul.image (j.ul.sectorFromHead v + 508)
      (bigEndian 4 (j.ul.headIdent + UInt32.ofNat v + 1).toNat)
    rw [hlen] at hread
    have hsmall := (j.ul.headIdent + UInt32.ofNat v + 1).toNat_lt
    unfold stIdent
    rw [hread, bigEndianValue_bigEndian, Nat.mod_eq_of_lt (by omega), UInt32.ofNat_toNat]
    intro heq
    exact absurd ((UInt32.add_right_inj _).mp (heq.trans (UInt32.add_zero _).symm)) (by decide)

/-- A transaction of one delta can be logged if there is room for it. -/
theorem Journal.Holds.transaction {j : Journal} {r : Ring} {base : Int}
    (h : j.Holds r base stream hpos pos) {me : MapEntry} (hlog : me.loggable = true)
    (hp : roundUp (pos + (16 + me.dataNb) + 16) = p)
    (hroom : p + 504 ≤ 504 * (hpos / 504 + r.sectors)) :
    ∃ j1 j2 t d c, j.delta (fun _ => 0) 0 me = some j1 ∧ j1.commit = some j2 ∧
      j2.Holds r base t hpos p ∧ j2.items = j.items ++ [d, c] ∧
      d.me = { me with lof := r.lof (pos + 16) } ∧ c.me.dt = .commit ∧ c.tailLof = r.lof p ∧
      c.tailIdent = r.identOf (p / 504) := by
  have hfit : pos + (16 + me.dataNb) + 504 ≤ 504 * (hpos / 504 + r.sectors) := by
    unfold roundUp at hp
    omega
  obtain ⟨s1, hw, hiff, hholds⟩ := h.write (fun _ => 0) 0 hlog
  obtain ⟨t1, h₁⟩ := hholds hfit
  have hdelta : j.delta (fun _ => 0) 0 me = some
      { ul := s1
        items := j.items ++ [⟨{ me with lof := r.lof (pos + 16) }, s1.tail, s1.tailIdent⟩] } := by
    unfold Journal.delta
    rw [hw, if_pos (by rw [hlog, hiff.mpr hfit]; rfl)]
  obtain ⟨s2, s3, hw2, hr, hiff2, hholds2⟩ := h₁.round
  rw [hp] at hiff2 hholds2
  obtain ⟨t2, h₂⟩ := hholds2 hroom
  refine ⟨_, _, t2, _, _, hdelta, ?_, h₂, append_assoc _ _ _, rfl, rfl, ?_, ?_⟩
  · unfold Journal.commit
    simp only [hw2, hr]
    rw [if_pos (hiff2.mpr hroom)]
  · exact h₂.streams.tail
  · exact h₂.streams.ident

/-- An empty log of four sectors. -/
def smallLog : MlUnit where
  bol := 1024
  eol := 1024 + 4 * 512
  head := 1024
  tail := 1024
  headIdent := 7
  tailIdent := 7
  tid := 0
  error := false
  bp := { addr := 0, bufsize := 1024, bcount := 0, blkno := 0 }
  forw := []
  dirty := false
  mem := fun _ => 0
  disk := fun _ => 0
  moved := 0

theorem smallLog_init : Journal.Init { ul := smallLog, items := [] } where
  ready :=
    { bolAligned := by decide
      eolAligned := by decide
      bolTail := by decide
      tailEol := by decide
      usable := by decide
      sized := forall_mem_singleton.mpr ⟨by decide, by decide⟩
      filling := nofun
      clean := fun _ => by decide }
  error := rfl
  items := rfl
  head := rfl
  ident := rfl
  filled := nofun
  size := by decide
  small := by decide

/-- A run of a small log that ends with the commit of one delta, and a crash
    that leaves the one sector they are in. -/
theorem smallLog_transaction (me : MapEntry) (hlog : me.loggable = true) (hnb : me.dataNb ≤ 472) :
    ∃ j disk d c, journal.Reachable j ∧ Crash j.ul 1 disk ∧ j.ul.head = 1024 ∧
      j.committed 1 = [d, c] ∧ d.me = { me with lof := 1040 } ∧ c.me.dt = .commit ∧
      c.tailLof = 1536 := by
  have hready := smallLog_init.ready
  have hsectors : hready.ring.sectors = 4 := rfl
  have h0 : Journal.Holds { ul := smallLog, items := [] } hready.ring _ _ 0 0 :=
    ⟨hready.streams rfl, rfl, rfl, by rw [hsectors]; decide, le_rfl, rfl,
      smallLog_init.filled, by rw [hsectors]; decide⟩
  obtain ⟨j1, j, t, d, c, hdelta, hcommit, hj, hitems, hd, hc, htail, hident⟩ :=
      h0.transaction hlog (p := 504) (by unfold roundUp; omega)
    (by rw [hsectors]; decide)
  have hr0 := System.Reachable.of_init journal _ smallLog_init
  have hr1 := hr0.of_step journal _ j1 (.delta (fun _ => 0) 0 me) hdelta
  have hr := hr1.of_step journal _ j .commit hcommit
  obtain ⟨disk, hcrash⟩ := exists_crash hj (v := 1) (by decide)
  have hcin : c.committedIn j.ul.headIdent 1 = true := by
    unfold Item.committedIn
    rw [hc, show c.tailIdent = 8 from hident, show j.ul.headIdent = 7 from hj.ident]
    decide
  refine ⟨j, disk, d, c, hr, hcrash, hj.head, ?_, hd, hc, htail⟩
  unfold Journal.committed
  rw [hitems]
  simp only [nil_append, upToLast, any_cons, any_nil, hcin, Bool.or_true, if_true, Bool.or_false]

/-- The deltas of such a run. -/
theorem deltas_pair {d c : Item} (hd : d.me.dt ≠ .commit) (hc : c.me.dt = .commit) :
    deltas [d, c] = [d.me] := by
  rw [deltas_cons hd, deltas_commit hc]
  rfl

/-- A directory delta comes back, and the log goes on in the next sector. -/
theorem logmapLogscan_recovers_dir : ∃ j disk res, journal.Reachable j ∧ Crash j.ul 1 disk ∧
      logmapLogscan (j.ul.mount disk) 512 64 0 = some res ∧
      res.map.entries.map Me.core = [(⟨0, 4, .dir, 1040⟩, false)] ∧ res.log.tail = 1536 := by
  obtain ⟨j, disk, d, c, hr, hcrash, _, hcom, hd, hc, htail⟩ :=
      smallLog_transaction ⟨0, 4, .dir, 0⟩ (by decide) (by decide)
  obtain ⟨res, hres, hrec⟩ := logmapLogscan_recovers j hr 1 disk hcrash 512 (by decide) 64 0
  have hdeltas := deltas_pair (d := d) (by rw [hd]; decide) hc
  have hentries := hrec.entries
  have hlog := hrec.log
  rw [hcom, hdeltas, hd] at hentries hlog
  obtain ⟨c', hlast, hresumes⟩ := hlog
  cases hlast
  exact ⟨j, disk, res, hr, hcrash, hres, hentries, hresumes.tail.trans htail⟩

/-- Userdata does not come back with its type, and after a cancel, of which
    nothing is left to be rolled, the log does not go on in the next sector. -/
theorem logscan_userdata_and_reset : (∃ j disk res, journal.Reachable j ∧ Crash j.ul 1 disk ∧
      deltas (j.committed 1) = [⟨0, 4, .ud, 1040⟩] ∧
      logmapLogscan (j.ul.mount disk) 512 64 0 = some res ∧
      res.map.entries.map Me.core = [(⟨0, 4, .sud, 1040⟩, false)]) ∧
    ∃ j disk res c, journal.Reachable j ∧ Crash j.ul 1 disk ∧
      (j.committed 1).getLast? = some c ∧ c.me.dt = .commit ∧ c.tailLof = 1536 ∧
      logmapLogscan (j.ul.mount disk) 512 64 0 = some res ∧ res.log.tail = 1024 := by
  constructor
  · obtain ⟨j, disk, d, c, hr, hcrash, _, hcom, hd, hc, _⟩ :=
        smallLog_transaction ⟨0, 4, .ud, 0⟩ (by decide) (by decide)
    obtain ⟨r, base, stream, hpos, pos, hj⟩ := journal_inv j hr
    obtain ⟨res, hres, hrec⟩ := logmapLogscan_spec hj hcrash 512 (by decide) 64 0
    have hdeltas := deltas_pair (by rw [hd]; decide) hc
    have hentries := hrec.entries
    rw [hcom, hdeltas, hd] at hentries
    exact ⟨j, disk, res, hr, hcrash, by rw [hcom, hdeltas, hd], hres, hentries⟩
  · obtain ⟨j, disk, d, c, hr, hcrash, hhead, hcom, hd, hc, htail⟩ :=
        smallLog_transaction ⟨0, 4, .cancel, 0⟩ (by decide) (by decide)
    obtain ⟨r, base, stream, hpos, pos, hj⟩ := journal_inv j hr
    obtain ⟨res, hres, hrec⟩ := logmapLogscan_spec hj hcrash 512 (by decide) 64 0
    have hdeltas := deltas_pair (by rw [hd]; decide) hc
    have hlog := hrec.log
    rw [hcom, hdeltas, hd] at hlog
    exact ⟨j, disk, res, c, hr, hcrash, by rw [hcom]; rfl, hc, htail, hres,
      hlog.tail.trans (by rw [hhead])⟩

/-! ### The head -/

/-- The head from a data offset. Once a delta has been written, whatever is
    done to the log while the delta is in it: `ldl_sethead` with its `me_lof`
    moves the head to where the header was stored, with the ident of the sector
    there, which is in its trailer or, while the sector is the tail's, is what
    the trailer will get. -/
theorem ldlSethead_recovers_header (j j1 j2 : Journal) (hr : journal.Reachable j)
    (bufp : Nat → UInt8) (bufmof : Nat) (me : MapEntry)
    (hw : j.delta bufp bufmof me = some j1) (ops : List LogOp)
    (hrun : journal.exec j1 ops = some j2)
    (hin : (j.ul.ldlWrite bufp bufmof me).2 ∈ j2.items.map Item.me) :
    (j2.ul.ldlSethead (some (j.ul.ldlWrite bufp bufmof me).2.lof)).head = j.ul.tail ∧
      (j2.ul.ldlSethead (some (j.ul.ldlWrite bufp bufmof me).2.lof)).headIdent =
        if j.ul.tail / 512 = j2.ul.tail / 512 then j2.ul.tailIdent
        else stIdent j2.ul.image (512 * (j.ul.tail / 512)) := by
  obtain ⟨r, base, stream, hpos, pos, hj⟩ := journal_inv j hr
  have hlof : (j.ul.ldlWrite bufp bufmof me).2.lof = r.lof (pos + 16) :=
    congrArg MapEntry.lof (hj.streams.ldlWrite bufp bufmof me).2.2.1
  obtain ⟨t, hp, p, h⟩ := (hj.delta hw).exec ops hrun
  obtain ⟨it, hit, hme⟩ := mem_map.mp hin
  obtain ⟨q, hle, hle', hq⟩ := h.written.lof_of_mem hit
  have hroom := h.room
  -- The delta has one header, whether found now or when it was written.
  have hnow := headerLof_lof h.streams.bol h.streams.eol q
  have hthen := headerLof_lof h.streams.bol h.streams.eol pos
  rw [hme, hlof] at hq
  rw [← hq] at hnow
  have hsame : r.lof q = j.ul.tail := by
    rw [hj.streams.tail]
    exact Int.ofNat_inj.mp (hnow.symm.trans hthen)
  have hnew : j2.ul.newHead (some (r.lof (pos + 16))) = r.lof q := by
    change (j2.ul.headerLof (r.lof (pos + 16))).toNat = _
    rw [hnow]
    rfl
  obtain ⟨hhead, hident⟩ := ldlSethead_head h.streams h.head h.ident hnew hle (by omega)
  rw [hlof, hhead, hident]
  refine ⟨hsame, ?_⟩
  rw [← hsame, r.sector_lof, h.streams.tail, h.streams.ident, r.lof_div, r.lof_div]
  have haq := r.sectorLof_mod (q / 504)
  have hap := r.sectorLof_mod (p / 504)
  split
  · next heq => rw [r.sectorLof_inj (Nat.div_le_div_right hle') (by omega) (by omega)]
  next hne =>
    have hlt : q / 504 < p / 504 := by
      refine lt_of_le_of_ne (Nat.div_le_div_right hle') fun heq => ?_
      rw [heq] at hne
      exact hne rfl
    have hfirst := h.first
    exact (stIdent_eq (h.streams.laid.idents (q / 504) (by omega) hlt (by omega))).symm

/-- A log whose first sector has eight bytes left. -/
def eightLeft : Journal :=
  (journal.exec { ul := smallLog, items := [] }
    [.delta (fun _ => 0) 0 ⟨0, 480, .dir, 0⟩]).get (by decide +kernel)

/-- The same after another delta, and after its commit. -/
def eightLeftDelta : Journal :=
  (eightLeft.delta (fun _ => 0) 0 ⟨0, 4, .dir, 0⟩).get (by decide +kernel)

def eightLeftCommit : Journal := (journal.exec eightLeftDelta [.commit]).get (by decide +kernel)

/-- The trailer breaks the header of that delta. -/
theorem ldlSethead_recovers_header_broken : eightLeft.ul.tail = 1024 + 496 ∧
      (eightLeftCommit.ul.ldlSethead (some (1536 + 8))).head = 1024 + 496 ∧
      (eightLeftCommit.ul.ldlSethead (some (1536 + 8))).headIdent =
        stIdent eightLeftCommit.ul.image 1024 := by
  have htail : eightLeft.ul.tail = 1024 + 496 := by decide +kernel
  have htail' : eightLeftCommit.ul.tail = 2048 := by decide +kernel
  have hlof : (eightLeft.ul.ldlWrite (fun _ => 0) 0 ⟨0, 4, .dir, 0⟩).2.lof = 1536 + 8 := by
    decide +kernel
  have hhead := ldlSethead_recovers_header eightLeft eightLeftDelta eightLeftCommit
    (System.reachable_get journal _ _ smallLog_init _) (fun _ => 0) 0 ⟨0, 4, .dir, 0⟩
    (Option.some_get _).symm [.commit] (Option.some_get _).symm (by decide +kernel)
  rw [hlof, htail, htail'] at hhead
  exact ⟨htail, hhead⟩

end Sol7.UfsLog
