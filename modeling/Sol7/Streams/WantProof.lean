import Sol7.Streams.WantFlow

/-!
# No Waiting Writer Is Forgotten

For each flag of a waiting writer one of three things is the case in every state:
it is not set, or the count has not dropped below the low-water mark, or some
thread owes the writer a look. A thread that has taken off a message owes it to
the writers of the band of the message. A flush of the whole queue owes it to all
writers but those who wait for a wakeup. A flush of band zero owes it to the writers
of band zero only. It takes off the messages of the other bands too, but it puts
all of them back, so they can be counted as if they were still there.

A step changes the queue and one thread. What it has to do with the messages and
the flags is local, and the rest of the world stays as it is.

## Main definitions

* `OwesW`, `OwesSync`, `OwesBand`: What a thread still has to look at.
* `Inv`: The invariant, with the messages on the queue and those that threads have
  taken off.
* `Carried`, `Change`: What a step does to one flag and to the world.

## Theorems

* `Inv.change`: A change keeps the invariant.
* `exec_change`, `step_inv`: The steps.
* `writers_not_forgotten`: Every run of careful steps.
-/

namespace Sol7.Streams

open List Option

open Prod (fst mk snd)

open Function Queue

variable {ι : Type}

/-- The thread will look at the flag of writers of band zero. -/
def OwesW : Pc ι → Prop
  | .got band => band = 0
  | .enable band => band = 0
  | .locked band => band = 0
  | .flushing _ _ _ => True
  | .flushingZero _ _ => True
  | _ => False

/-- The thread will look at the flag of writers that wait for a wakeup. -/
def OwesSync : Pc ι → Prop
  | .got band => band = 0
  | .enable band => band = 0
  | .locked band => band = 0
  | _ => False

/-- The thread will look at the flag of writers of a band other than zero. -/
def OwesBand (b : Nat) : Pc ι → Prop
  | .got band => band = b
  | .enable band => band = b
  | .locked band => band = b
  | .flushing _ _ _ => True
  | .bandEnable c => c.pri = b
  | _ => False

/-- The first of the messages that a flush has taken off. -/
def Pc.off : Pc ι → Option (Option ι)
  | .flushing _ _ mp => some mp
  | .flushingZero _ mp => some mp
  | _ => none

/-- The band that a thread in the loop of `flushband` is at. -/
def Pc.sweeping : Pc ι → Option Nat
  | .bandEnable c => some c.pri
  | .bandResume c => some c.pri
  | _ => none

/-- The messages that a thread has taken off. -/
structure ThreadOk (q : Queue ι) (pc : Pc ι) (c : List ι) : Prop where
  chain : ∀ mp, pc.off = some mp → Threaded (links mp q.list.next) c
  nil : pc.off = none → c = []
  ctl : ∀ x ∈ c, qpctl ≤ (q.msg x).dbType → (q.msg x).band = 0
  pri : ∀ b, pc.sweeping = some b → b ≠ 0

/-- The messages that a thread has taken off and will put back, but for those of
    band zero. -/
def heldBy (e : Pc ι × List ι) : List ι :=
  match e.1 with
  | .flushingZero _ _ => e.2
  | _ => []

/-- The bytes of a band. -/
def bytesIn (q : Queue ι) (band : Nat) (l : List ι) : Nat := bytes q.msg (inBand q.msg band l)

/-- If a flag is set, the count is not too low or a thread owes a look. -/
def Covered (want : Bool) (lowat total : Nat) (owes : Pc ι → Prop) (threads : List (Pc ι)) : Prop :=
  want = true → lowat ≤ total ∨ ∃ pc ∈ threads, owes pc

/-- The invariant. -/
structure Inv (w : World ι) (l : List ι) (cs : List (Pc ι × List ι)) : Prop where
  queue : w.q.Holds l
  threads : cs.map fst = w.threads
  chains : ∀ e ∈ cs, ThreadOk w.q e.1 e.2
  nodup : (l ++ cs.flatMap snd).Nodup
  owned : ∀ x ∈ l ++ cs.flatMap snd, w.owned x = true
  marks : MarksOk w.q.hiwat w.q.lowat
  bandMarks : ∀ b ∈ w.q.bands, MarksOk b.hiwat b.lowat
  wantw : Covered w.q.wantw w.q.lowat (bytesIn w.q 0 l) OwesW w.threads
  sync : Covered w.q.wantwsync w.q.lowat (bytesIn w.q 0 l) OwesSync w.threads
  bandw : ∀ (i : Nat) r, w.q.bands[i]? = some r →
    Covered r.wantw r.lowat (bytesIn w.q (i + 1) (l ++ cs.flatMap heldBy)) (OwesBand (i + 1))
      w.threads

/-- What a step does to one flag: the flag is seen to, or nothing gets worse. -/
def Carried (want want' : Bool) (lowat lowat' total total' : Nat) (owes : Pc ι → Prop)
    (ps ps' : List (Pc ι)) : Prop :=
  Covered want' lowat' total' owes ps' ∨
    (want' = true → want = true) ∧ lowat' = lowat ∧ total ≤ total' ∧
      ∀ pc ∈ ps, owes pc → ∃ pc' ∈ ps', owes pc'

/-- What a step does to the queue and to one thread. -/
structure Change (q q' : Queue ι) (owned owned' : ι → Bool) (l l' : List ι)
    (cp cp' : List (Pc ι × List ι)) : Prop where
  queue : q'.Holds l'
  chains : ∀ e ∈ cp', ThreadOk q' e.1 e.2
  nodup : (l' ++ cp'.flatMap snd).Nodup
  mem : ∀ y ∈ l' ++ cp'.flatMap snd, y ∈ l ++ cp.flatMap snd ∨ owned y = false
  own : ∀ y ∈ l' ++ cp'.flatMap snd, owned' y = true
  frame : ∀ y, y ∉ l ++ cp.flatMap snd → owned y = true →
    owned' y = true ∧ q'.list.next y = q.list.next y ∧ q'.msg y = q.msg y
  marks : MarksOk q'.hiwat q'.lowat
  bandMarks : ∀ b ∈ q'.bands, MarksOk b.hiwat b.lowat
  wantw : Carried q.wantw q'.wantw q.lowat q'.lowat (bytesIn q 0 l) (bytesIn q' 0 l') OwesW
    (cp.map fst) (cp'.map fst)
  sync : Carried q.wantwsync q'.wantwsync q.lowat q'.lowat (bytesIn q 0 l) (bytesIn q' 0 l')
    OwesSync (cp.map fst) (cp'.map fst)
  bandw : ∀ (i : Nat) r', q'.bands[i]? = some r' →
    r'.wantw = false ∨ ∃ r, q.bands[i]? = some r ∧
      Carried r.wantw r'.wantw r.lowat r'.lowat (bytesIn q (i + 1) (l ++ cp.flatMap heldBy))
        (bytesIn q' (i + 1) (l' ++ cp'.flatMap heldBy)) (OwesBand (i + 1)) (cp.map fst)
        (cp'.map fst)

variable {q q' : Queue ι} {owned owned' : ι → Bool} {ps ps' : List (Pc ι)}

section
variable {l l' : List ι}
  {ca cp cp' cb : List (Pc ι × List ι)} {a b : List (Pc ι)}

theorem bytesIn_append (band : Nat) (l l' : List ι) :
    bytesIn q band (l ++ l') = bytesIn q band l + bytesIn q band l' := by
  simp [bytesIn, bytes, inBand_append, map_append, sum_append]

theorem bytesIn_congr {band : Nat} (h : ∀ x ∈ l, q'.msg x = q.msg x) :
    bytesIn q' band l = bytesIn q band l := by
  unfold bytesIn
  rw [inBand_congr h, bytes_congr fun x hx => h x (mem_inBand.mp hx).1]

theorem heldBy_sublist (e : Pc ι × List ι) : (heldBy e).Sublist e.2 := by
  unfold heldBy
  split
  · exact .refl _
  · exact nil_sublist _

theorem Covered.of_off {want : Bool} {lowat total : Nat} {owes : Pc ι → Prop} (h : want = false) :
    Covered want lowat total owes a := by
  intro hwant
  rw [h] at hwant
  cases hwant

/-- What is seen to by one thread is seen to. -/
theorem Carried.covered {want want' : Bool} {lowat lowat' total total' rest : Nat}
    {owes : Pc ι → Prop} {ps ps' : List (Pc ι)}
    (h : Carried want want' lowat lowat' total total' owes ps ps')
    (hc : Covered want lowat (total + rest) owes (a ++ (ps ++ b))) :
    Covered want' lowat' (total' + rest) owes (a ++ (ps' ++ b)) := by
  intro hwant
  rcases h with h | ⟨hw, rfl, hle, howes⟩
  · rcases h hwant with hle | ⟨pc, hpc, ho⟩
    · exact .inl (by omega)
    · exact .inr ⟨pc, by simp [hpc], ho⟩
  rcases hc (hw hwant) with hle' | ⟨pc, hpc, ho⟩
  · exact .inl (by omega)
  -- The thread that owes a look is another one or still owes it.
  rcases mem_append.mp hpc with hpc | hpc
  · exact .inr ⟨pc, by simp [hpc], ho⟩
  · rcases mem_append.mp hpc with hpc | hpc
    · obtain ⟨pc', hpc', ho'⟩ := howes pc hpc ho
      exact .inr ⟨pc', by simp [hpc'], ho'⟩
    · exact .inr ⟨pc, by simp [hpc], ho⟩

/-- A change of the queue and of one thread keeps the invariant. -/
theorem Inv.change {w : World ι} (h : Inv w l (ca ++ (cp ++ cb)))
    (hc : Change w.q q' w.owned owned' l l' cp cp') :
    Inv ⟨q', (ca ++ (cp' ++ cb)).map fst, owned'⟩ l' (ca ++ (cp' ++ cb)) := by
  obtain ⟨q, threads, owned⟩ := w
  obtain rfl : (ca ++ (cp ++ cb)).map fst = threads := h.threads
  dsimp only at hc
  simp only [map_append] at h ⊢
  -- The messages that other threads have taken off come last.
  have hperm : ∀ (l0 : List ι) (c0 : List (Pc ι × List ι)),
      (l0 ++ (ca ++ (c0 ++ cb)).flatMap snd).Perm
        ((l0 ++ c0.flatMap snd) ++ (ca ++ cb).flatMap snd) := by
    intro l0 c0
    simp only [flatMap_append, append_assoc]
    exact (perm_append_comm_assoc _ _ _).append_left l0
  obtain ⟨-, hothers, hdisj⟩ := nodup_append.mp ((hperm l cp).nodup_iff.mp h.nodup)
  have hother : ∀ y ∈ (ca ++ cb).flatMap snd, owned y = true ∧ y ∉ l ++ cp.flatMap snd := by
    intro y hy
    refine ⟨h.owned y ((hperm l cp).mem_iff.mpr (mem_append_right _ hy)), fun hl => ?_⟩
    exact hdisj y hl y hy rfl
  have hframe : ∀ e ∈ ca ++ cb, ∀ y ∈ e.2,
      owned' y = true ∧ q'.list.next y = q.list.next y ∧ q'.msg y = q.msg y := by
    intro e he y hy
    obtain ⟨ho, hl⟩ := hother y (mem_flatMap.mpr ⟨e, he, hy⟩)
    exact hc.frame y hl ho
  have hthread : ∀ e ∈ ca ++ cb, ThreadOk q' e.1 e.2 := by
    intro e he
    have hmem : e ∈ ca ++ (cp ++ cb) := by
      simp only [mem_append] at he ⊢
      tauto
    obtain ⟨hchain, hnil, hctl, hpri⟩ := h.chains e hmem
    refine ⟨fun mp hmp => ?_, hnil, fun y hy => ?_, hpri⟩
    · exact (hchain mp hmp).congr rfl fun y hy => congrArg some (hframe e he y hy).2.1
    · rw [(hframe e he y hy).2.2]
      exact hctl y hy
  have hrest : ∀ band, bytesIn q' band ((ca ++ cb).flatMap heldBy) =
      bytesIn q band ((ca ++ cb).flatMap heldBy) := by
    intro band
    refine bytesIn_congr fun y hy => ?_
    obtain ⟨e, he, hy⟩ := mem_flatMap.mp hy
    exact (hframe e he y ((heldBy_sublist e).subset hy)).2.2
  have htotal : ∀ (q0 : Queue ι) band l0 (c0 : List (Pc ι × List ι)),
      bytesIn q0 band (l0 ++ (ca ++ (c0 ++ cb)).flatMap heldBy) =
        bytesIn q0 band (l0 ++ c0.flatMap heldBy) + bytesIn q0 band ((ca ++ cb).flatMap heldBy) := by
    intro q0 band l0 c0
    simp only [flatMap_append, bytesIn_append]
    omega
  refine ⟨hc.queue, ?_, fun e he => ?_, ?_, fun y hy => ?_, hc.marks, hc.bandMarks, ?_, ?_,
    fun i r' hr' => ?_⟩
  · rw [map_append, map_append]
  · have hcase : e ∈ ca ++ cb ∨ e ∈ cp' := by
      simp only [mem_append] at he ⊢
      tauto
    rcases hcase with he | he
    · exact hthread e he
    · exact hc.chains e he
  · refine (hperm l' cp').nodup_iff.mpr (nodup_append.mpr ⟨hc.nodup, hothers, ?_⟩)
    rintro y hy z hz rfl
    -- A message that has come in was on the queue or with the thread, or is new.
    rcases hc.mem y hy with hm | hm
    · exact (hother y hz).2 hm
    · rw [(hother y hz).1] at hm
      cases hm
  · rcases mem_append.mp ((hperm l' cp').mem_iff.mp hy) with hy | hy
    · exact hc.own y hy
    · obtain ⟨e, he, hy⟩ := mem_flatMap.mp hy
      exact (hframe e he y hy).1
  · have hcov : Covered q.wantw q.lowat (bytesIn q 0 l + 0) OwesW _ := h.wantw
    exact hc.wantw.covered hcov
  · have hcov : Covered q.wantwsync q.lowat (bytesIn q 0 l + 0) OwesSync _ := h.sync
    exact hc.sync.covered hcov
  · rcases hc.bandw i r' hr' with hoff | ⟨r, hr, hcar⟩
    · exact .of_off hoff
    · have hcov := h.bandw i r hr
      rw [htotal] at hcov ⊢
      rw [hrest]
      exact hcar.covered hcov

end

/-! ### The changes that steps make -/

/-- What a step may use of the queue. -/
structure Sound (q : Queue ι) (owned : ι → Bool) (l : List ι) : Prop where
  queue : q.Holds l
  own : ∀ x ∈ l, owned x = true
  marks : MarksOk q.hiwat q.lowat
  bandMarks : ∀ b ∈ q.bands, MarksOk b.hiwat b.lowat

/-- Threads that have not taken anything off. -/
def idle (ps : List (Pc ι)) : List (Pc ι × List ι) := ps.map fun pc => (pc, [])

/-- A thread that holds no messages and is not in the loop with band zero. -/
def Pc.Plain (pc : Pc ι) : Prop := pc.off = none ∧ ∀ b, pc.sweeping = some b → b ≠ 0

/-- A thread that owes no one a look. -/
def Pc.Free (pc : Pc ι) : Prop := ¬OwesW pc ∧ ¬OwesSync pc ∧ ∀ b, ¬OwesBand b pc

/-- The writers of a band, and the threads that owe them a look. -/
inductive Looks : Nat → (Pc ι → Prop) → Prop
  | wantw : Looks 0 OwesW
  | sync : Looks 0 OwesSync
  | band (i : Nat) : Looks (i + 1) (OwesBand (i + 1))

theorem Pc.Free.not_owes {pc : Pc ι} {band : Nat} {owes : Pc ι → Prop} (h : pc.Free)
    (hl : Looks band owes) : ¬owes pc := by
  cases hl with
  | wantw => exact h.1
  | sync => exact h.2.1
  | band i => exact h.2.2 _

/-- A thread that has taken off a message owes a look to all writers of the band. -/
theorem Looks.owes {band : Nat} {owes : Pc ι → Prop} (h : Looks band owes) :
    owes (.got band) ∧ owes (.enable band) := by
  cases h <;> exact ⟨rfl, rfl⟩

@[simp] theorem idle_fst (ps : List (Pc ι)) : (idle ps).map fst = ps := by
  simp [idle, comp_def]

@[simp] theorem idle_snd (ps : List (Pc ι)) : (idle ps).flatMap snd = [] := by
  simp [idle, flatMap_map]

@[simp] theorem idle_heldBy (ps : List (Pc ι)) : (idle ps).flatMap heldBy = [] := by
  refine flatMap_eq_nil_iff.mpr fun e he => ?_
  obtain ⟨pc, -, rfl⟩ := mem_map.mp he
  exact sublist_nil.mp (heldBy_sublist (pc, []))

theorem threadOk_idle {q : Queue ι} (h : ∀ pc ∈ ps, pc.Plain) :
    ∀ e ∈ idle ps, ThreadOk q e.1 e.2 := by
  intro e he
  obtain ⟨pc, hpc, rfl⟩ := mem_map.mp he
  refine ⟨fun mp hmp => ?_, fun _ => rfl, by simp, (h pc hpc).2⟩
  rw [(h pc hpc).1] at hmp
  cases hmp

variable {lowat total total' lowat' : Nat}

/-- The flag of a writer is as before and no bytes have gone. -/
theorem Carried.kept {want : Bool} {owes : Pc ι → Prop} (hle : total ≤ total')
    (hps : ∀ pc ∈ ps, ¬owes pc) : Carried want want lowat lowat total total' owes ps ps' :=
  .inr ⟨id, rfl, hle, fun pc hpc ho => absurd ho (hps pc hpc)⟩

theorem Carried.same {want : Bool} {owes : Pc ι → Prop} (hps : ∀ pc ∈ ps, ¬owes pc) :
    Carried want want lowat lowat total total owes ps ps' :=
  kept le_rfl hps

/-- A thread owes a look. -/
theorem Carried.owed {want want' : Bool} {owes : Pc ι → Prop} (pc : Pc ι) (hpc : pc ∈ ps')
    (ho : owes pc) : Carried want want' lowat lowat' total total' owes ps ps' :=
  .inl fun _ => .inr ⟨pc, hpc, ho⟩

open Carried (kept same owed)

/-- The flag and the mark of a band are as before, or its record is new. -/
theorem SameMarks.carried {q q' : Queue ι} (hmarks : SameMarks q q') {i : Nat} {r' : Qband ι}
    {owes : Pc ι → Prop} (hr' : q'.bands[i]? = some r') (h : ∀ r, q.bands[i]? = some r →
      Carried r.wantw r.wantw r.lowat r.lowat total total' owes ps ps') :
    r'.wantw = false ∨ ∃ r, q.bands[i]? = some r ∧
      Carried r.wantw r'.wantw r.lowat r'.lowat total total' owes ps ps' := by
  rcases hmarks.bands i r' hr' with ⟨r, hr, hw, -, hl⟩ | ⟨hw, -⟩
  · refine .inr ⟨r, hr, ?_⟩
    rw [hw, hl]
    exact h r hr
  · exact .inl hw

section
variable {l a b : List ι} {x : ι}

theorem Sound.marks_of (h : Sound q owned l) (hs : SameMarks q q') :
    MarksOk q'.hiwat q'.lowat ∧ ∀ b ∈ q'.bands, MarksOk b.hiwat b.lowat := by
  refine ⟨?_, fun r' hr' => ?_⟩
  · rw [hs.hiwat, hs.lowat]
    exact h.marks
  obtain ⟨i, hi⟩ := mem_iff_getElem?.mp hr'
  rcases hs.bands i r' hi with ⟨r, hr, -, hh, hl⟩ | ⟨-, hh, hl⟩
  · rw [hh, hl]
    exact h.bandMarks r (mem_of_getElem? hr)
  · rw [hh, hl]
    exact h.marks

/-- Only flags of waiting writers change. -/
theorem Change.quiet (ps : List (Pc ι)) (h : Sound q owned l) (hq : Queue.Quiet q q') (hps : ∀ pc ∈ ps', pc.Plain)
    (hw : Carried q.wantw q'.wantw q.lowat q.lowat q.count q.count OwesW ps ps')
    (hs : Carried q.wantwsync q'.wantwsync q.lowat q.lowat q.count q.count OwesSync ps ps')
    (hb : ∀ (i : Nat) r r', q.bands[i]? = some r → q'.bands[i]? = some r' →
      Carried r.wantw r'.wantw r.lowat r.lowat r.count r.count (OwesBand (i + 1)) ps ps') :
    Change q q' owned owned l l (idle ps) (idle ps') := by
  have hmsg : ∀ band, bytesIn q' band l = bytesIn q band l := fun band =>
    bytesIn_congr fun x _ => congrFun hq.msg x
  have hcount : bytesIn q 0 l = q.count := h.queue.count.symm
  refine ⟨h.queue.quiet hq, threadOk_idle hps, ?_, fun y hy => .inl ?_, fun y hy => ?_,
    fun y _ hy => ⟨hy, ?_, ?_⟩, ?_, fun r' hr' => ?_, ?_, ?_, fun i r' hr' => .inr ?_⟩
  · rw [idle_snd, append_nil]
    exact h.queue.list.nodup
  · rw [idle_snd] at hy ⊢
    exact hy
  · rw [idle_snd, append_nil] at hy
    exact h.own y hy
  · rw [hq.list]
  · rw [hq.msg]
  · rw [hq.hiwat, hq.lowat]
    exact h.marks
  · obtain ⟨i, hi⟩ := mem_iff_getElem?.mp hr'
    obtain ⟨r, hr, heq⟩ := hq.bands i r' hi
    rw [heq]
    exact h.bandMarks r (mem_of_getElem? hr)
  · rw [idle_fst, idle_fst, hmsg, hcount, hq.lowat]
    exact hw
  · rw [idle_fst, idle_fst, hmsg, hcount, hq.lowat]
    exact hs
  · obtain ⟨r, hr, heq⟩ := hq.bands i r' hr'
    refine ⟨r, hr, ?_⟩
    have hbytes : bytesIn q (i + 1) l = r.count := (h.queue.bands i r hr).count.symm
    have hlowat : r'.lowat = r.lowat := by rw [heq]
    rw [idle_fst, idle_fst, idle_heldBy, idle_heldBy, append_nil, hmsg, hbytes, hlowat]
    exact hb i r r' hr hr'

theorem bytesIn_insert_of_ne {band : Nat} (h : (q.msg x).band ≠ band) :
    bytesIn q band (a ++ x :: b) = bytesIn q band (a ++ b) :=
  congrArg (bytes q.msg) (inBand_insert_of_ne h)

theorem bytesIn_insert_le (band : Nat) : bytesIn q band (a ++ b) ≤ bytesIn q band (a ++ x :: b) := by
  by_cases h : (q.msg x).band = band
  · unfold bytesIn
    rw [inBand_insert_of_eq h, bytes_insert, inBand_append]
    exact Nat.le_add_right _ _
  · exact le_of_eq (bytesIn_insert_of_ne h).symm

variable {l' : List ι}

/-- The messages change, and a thread that has none. -/
theorem Change.marked (h : Sound q owned l) (hholds : q'.Holds l') (hmarks : SameMarks q q')
    (hps : ∀ pc ∈ ps', pc.Plain) (hmem : ∀ y ∈ l', y ∈ l ∨ owned y = false)
    (hown : ∀ y ∈ l', owned' y = true) (hframe : ∀ y, y ∉ l → owned y = true →
      owned' y = true ∧ q'.list.next y = q.list.next y ∧ q'.msg y = q.msg y)
    (hcarry : ∀ band {owes : Pc ι → Prop} {want : Bool} {lowat : Nat}, Looks band owes →
      Carried want want lowat lowat (bytesIn q band l) (bytesIn q' band l') owes ps ps') :
    Change q q' owned owned' l l' (idle ps) (idle ps') := by
  obtain ⟨hm, hbm⟩ := h.marks_of hmarks
  refine ⟨hholds, threadOk_idle hps, ?_, ?_, ?_, ?_, hm, hbm, ?_, ?_, fun i r' hr' => ?_⟩
  all_goals simp only [idle_fst, idle_snd, idle_heldBy, append_nil]
  · exact hholds.list.nodup
  · exact hmem
  · exact hown
  · exact hframe
  · rw [hmarks.wantw, hmarks.lowat]
    exact hcarry _ .wantw
  · rw [hmarks.wantwsync, hmarks.lowat]
    exact hcarry _ .sync
  · exact hmarks.carried hr' fun r hr => hcarry _ (.band i)

/-- The messages stay on the queue. -/
theorem Change.stay (ps : List (Pc ι)) (h : Sound q owned l) (hholds : q'.Holds l)
    (hlist : q'.list = q.list) (hmsg : q'.msg = q.msg) (hmarks : SameMarks q q')
    (hps : ∀ pc ∈ ps', pc.Plain) (hcarry : ∀ {band : Nat} {owes : Pc ι → Prop}, Looks band owes →
      ∀ pc ∈ ps, owes pc → ∃ pc' ∈ ps', owes pc') :
    Change q q' owned owned l l (idle ps) (idle ps') := by
  refine .marked h hholds hmarks hps (fun y hy => .inl hy) h.own
    (fun y _ hy => ⟨hy, by rw [hlist], by rw [hmsg]⟩) fun band _ _ _ hlook => ?_
  rw [bytesIn_congr fun y _ => congrFun hmsg y]
  exact .inr ⟨id, rfl, le_rfl, hcarry hlook⟩

/-- Nothing changes but the thread. -/
theorem Change.thread (ps : List (Pc ι)) (h : Sound q owned l) (hps : ∀ pc ∈ ps', pc.Plain)
    (hfree : ∀ pc ∈ ps, pc.Free) : Change q q owned owned l l (idle ps) (idle ps') :=
  .stay ps h h.queue rfl rfl (.of_eq rfl) hps
    fun hlook pc hpc ho => absurd ho ((hfree pc hpc).not_owes hlook)

end

section
variable {l a b c : List ι} {x : ι} {pc pc' : Pc ι} {fuel : Nat}

/-- A flush takes all messages off. -/
theorem Change.detach (h : Sound q owned l) (hpc : pc.Free) (hoff : pc'.off = some q.list.first)
    (hsweep : pc'.sweeping = none) (hw : OwesW pc') (hs : q.wantwsync = false)
    (hb : (∀ b, OwesBand b pc') ∨ heldBy (pc', l) = l) :
    Change q q.flushDetach owned owned l [] [(pc, [])] [(pc', l)] := by
  have hnil : heldBy (pc, ([] : List ι)) = [] := sublist_nil.mp (heldBy_sublist (pc, []))
  have hmarks := sameMarks_flushDetach q
  obtain ⟨hm, hbm⟩ := h.marks_of hmarks
  refine ⟨flushDetach_holds q, fun e he => ?_, ?_, fun y hy => .inl ?_, fun y hy => ?_,
    fun y _ ho => ⟨ho, rfl, rfl⟩, hm, hbm, ?_, ?_, fun i r' hr' => ?_⟩
  · obtain rfl := mem_singleton.mp he
    refine ⟨fun mp hmp => ?_, fun hnone => ?_, h.queue.ctl, fun b hb => ?_⟩
    · rw [hoff] at hmp
      cases hmp
      exact h.queue.list.fwd
    · rw [hoff] at hnone
      cases hnone
    · rw [hsweep] at hb
      cases hb
  · simpa using h.queue.list.nodup
  · simpa using hy
  · refine h.own y ?_
    simpa using hy
  · exact owed pc' (by simp) hw
  · exact .inl (.of_off (hmarks.wantwsync.trans hs))
  · refine hmarks.carried hr' fun r hr => ?_
    rcases hb with hb | hb
    · exact owed pc' (by simp) (hb _)
    · -- The messages of the band are put back, so none of its bytes have gone.
      refine kept (le_of_eq ?_) (by simpa using hpc.2.2 _)
      simp only [flatMap_cons, flatMap_nil, append_nil, nil_append, hnil, hb]
      exact (bytesIn_congr fun y _ => rfl).symm

variable {count lowat hiwat band pri : Nat}

theorem le_of_isLow (h : isLow count lowat = false) : lowat ≤ count := by
  unfold isLow at h
  rw [Bool.or_eq_false_iff, decide_eq_false_iff_not] at h
  omega

/-- A flag that is set because the queue or the band is full. -/
theorem Carried.full {want full : Bool} {owes : Pc ι → Prop} {ps ps' : List (Pc ι)}
    (hm : MarksOk hiwat lowat) (hf : FullOk count hiwat full) (hps : ∀ pc ∈ ps, ¬owes pc) :
    Carried want (want || full) lowat lowat count count owes ps ps' := by
  cases hfull : full with
  | false =>
    rw [Bool.or_false]
    exact same hps
  | true =>
    have hle : hiwat ≤ count := (hf (by have := hm.1; have := hm.2; omega)).mp hfull
    exact .inl fun _ => .inl (le_trans hm.2 hle)

/-- A test of the queue sets a flag of writers of band zero. -/
theorem Change.flag {wantw sync : Bool} (ps : List (Pc ι)) (h : Sound q owned l)
    (hw : Carried q.wantw wantw q.lowat q.lowat q.count q.count OwesW ps [])
    (hs : Carried q.wantwsync sync q.lowat q.lowat q.count q.count OwesSync ps [])
    (hb : ∀ i : Nat, ∀ pc ∈ ps, ¬OwesBand (i + 1) pc) :
    Change q { q with wantw := wantw, wantwsync := sync } owned owned l l (idle ps) (idle []) := by
  refine .quiet ps h { Queue.Quiet.refl q with } (by simp) hw hs fun i r r' hr hr' => ?_
  have heq : some r' = some r := hr'.symm.trans hr
  cases heq
  exact same (hb i)

/-- Writers of a band are back-enabled if its count is low. -/
theorem Change.backenable (ps : List (Pc ι)) (h : Sound q owned l) (hps : ∀ pc ∈ ps', pc.Plain)
    (hlook : ∀ {b : Nat} {owes : Pc ι → Prop}, Looks b owes → ∀ pc ∈ ps, owes pc → band = b) :
    Change q (q.backenable band) owned owned l l (idle ps) (idle ps') := by
  have hzero : band = 0 → (q.backenable band).wantw = true ∨ (q.backenable band).wantwsync = true →
      q.lowat ≤ q.count := by
    intro hz hwant
    refine le_of_isLow ?_
    unfold Queue.backenable at hwant
    rw [if_pos hz] at hwant
    split at hwant
    · simp at hwant
    · next hlow => simpa using hlow
  have hother : band ≠ 0 → (q.backenable band).wantw = q.wantw ∧
      (q.backenable band).wantwsync = q.wantwsync := by
    intro hz
    unfold Queue.backenable
    rw [if_neg hz]
    exact ⟨rfl, rfl⟩
  refine .quiet _ h (quiet_backenable q band) hps ?_ ?_ fun i r r' hr hr' => ?_
  · by_cases hz : band = 0
    · exact .inl fun hwant => .inl (hzero hz (.inl hwant))
    · rw [(hother hz).1]
      exact same fun pc hpc ho => hz (hlook .wantw pc hpc ho)
  · by_cases hz : band = 0
    · exact .inl fun hwant => .inl (hzero hz (.inr hwant))
    · rw [(hother hz).2]
      exact same fun pc hpc ho => hz (hlook .sync pc hpc ho)
  · by_cases hi : band = i + 1
    · subst hi
      unfold backenable at hr'
      rw [if_neg (Nat.succ_ne_zero i), getElem?_setQband, if_pos rfl, hr, map_some] at hr'
      cases hr'
      refine .inl fun hwant => .inl (le_of_isLow ?_)
      split at hwant
      · cases hwant
      · next hlow => simpa using hlow
    · have hsame : (q.backenable band).bands[i]? = q.bands[i]? := by
        unfold Queue.backenable
        split
        · split
          · rfl
          · rfl
        · rw [getElem?_setQband, if_neg hi]
      rw [hsame, hr] at hr'
      cases hr'
      exact same fun pc hpc ho => hi (hlook (.band i) pc hpc ho)

/-- The quick test of `qbackenable` and `getq`. A thread that has taken off a message
    is done if no one waits. -/
theorem Change.quick (h : Sound q owned l) (hplain : pc'.Plain)
    (hlook : ∀ {b : Nat} {owes : Pc ι → Prop}, Looks b owes →
      (owes pc → band = b) ∧ (owes pc → owes pc')) : Change q q owned owned l l (idle [pc])
      (idle (if q.noWriter band then none else some pc').toList) := by
  split
  · next hno =>
    unfold noWriter at hno
    simp only [Bool.and_eq_true, decide_eq_true_eq, Bool.not_eq_true'] at hno
    obtain ⟨⟨rfl, hnow⟩, hnos⟩ := hno
    refine .quiet _ h (Queue.Quiet.refl q) (by simp) (.inl (.of_off hnow))
      (.inl (.of_off hnos)) fun i r r' hr hr' => ?_
    rw [hr] at hr'
    cases hr'
    exact same (forall_mem_singleton.mpr fun ho => by cases (hlook (.band i)).1 ho)
  · refine .stay [pc] h h.queue rfl rfl (.of_eq rfl)
      (by simpa using hplain) fun hl pc0 hmem ho => ⟨pc', by simp, (hlook hl).2 ?_⟩
    exact mem_singleton.mp hmem ▸ ho

variable {opc opc' : Option (Pc ι)}

theorem of_exec (h : some (q, owned, opc) = some (q', owned', opc')) :
    q = q' ∧ owned = owned' ∧ opc = opc' := by
  simpa using h

/-- The end of a flush of the whole queue. -/
theorem Change.flushEnd (h : Sound q owned l) (hs : ¬OwesSync pc) :
    Change q q.flushEnd owned owned l l (idle [pc]) (idle []) := by
  refine .quiet _ h (quiet_flushEnd q) (by simp) (.inl fun hwant => .inl ?_)
    (same (by simpa using hs)) fun i r r' hr hr' =>
      .inl fun hwant => .inl ?_
  · unfold Queue.flushEnd at hwant
    simp only [Bool.and_eq_true, Bool.not_eq_true'] at hwant
    exact le_of_isLow hwant.2
  unfold Queue.flushEnd at hr'
  rw [getElem?_map, hr, map_some] at hr'
  cases hr'
  split at hwant
  · cases hwant
  · next hlow =>
    rw [hwant] at hlow
    exact le_of_isLow (by simpa using hlow)

/-- The end of a flush of band zero. -/
theorem Change.flushbandEnd (h : Sound q owned l) (hs : ¬OwesSync pc) (hb : ∀ b, ¬OwesBand b pc) :
    Change q q.flushbandEnd owned owned l l (idle [pc]) (idle []) := by
  refine .quiet _ h (quiet_flushbandEnd q) (by simp) (.inl fun hwant => .inl ?_)
    (same (by simpa using hs)) fun i r r' hr hr' => ?_
  · unfold Queue.flushbandEnd at hwant
    simp only [Bool.and_eq_true, Bool.not_eq_true'] at hwant
    exact le_of_isLow hwant.2
  · have heq : some r' = some r := hr'.symm.trans hr
    cases heq
    exact same (by simpa using hb _)

variable [DecidableEq ι]

/-- A message is taken off, and a thread owes a look to the writers of its band. -/
theorem Change.take (ps : List (Pc ι)) (h : Sound q owned (a ++ x :: b)) (hholds : q'.Holds (a ++ b))
    (htakes : Queue.Takes q q' x (a ++ x :: b)) (hmarks : SameMarks q q')
    (hps : ∀ pc ∈ ps', pc.Plain) (hfree : ∀ pc ∈ ps, pc.Free) (pc : Pc ι) (hpc : pc ∈ ps')
    (howes : ∀ {owes : Pc ι → Prop}, Looks (q.msg x).band owes → owes pc) :
    Change q q' owned (update owned x false) (a ++ x :: b) (a ++ b) (idle ps)
      (idle ps') := by
  have hnd := nodup_cons.mp (nodup_middle.mp h.queue.list.nodup)
  have hsub : ∀ y ∈ a ++ b, y ∈ a ++ x :: b := by
    intro y hy
    simp only [mem_append, mem_cons] at hy ⊢
    tauto
  have hmem : x ∈ a ++ x :: b := by simp
  refine .marked h hholds hmarks hps (fun y hy => .inl (hsub y hy)) (fun y hy => ?_)
    (fun y hy ho => ⟨?_, htakes.next y hy, congrFun htakes.msg y⟩) fun band _ _ _ hlook => ?_
  · rw [update_of_ne fun heq : y = x => hnd.1 (heq ▸ hy)]
    exact h.own y (hsub y hy)
  · rw [update_of_ne fun heq : y = x => hy (heq ▸ hmem)]
    exact ho
  · rw [bytesIn_congr fun y _ => congrFun htakes.msg y]
    rcases eq_or_ne (q.msg x).band band with rfl | hne
    · exact owed pc hpc (howes hlook)
    · rw [bytesIn_insert_of_ne hne]
      exact same fun pc hpc => (hfree pc hpc).not_owes hlook

/-- A message of a caller is put on the queue. -/
theorem Change.put {m : Msg} (h : Sound q owned (a ++ b)) (hx : owned x = false)
    (hholds : q'.Holds (a ++ x :: b))
    (hputs : Queue.Puts { q with msg := update q.msg x m } q' x (a ++ b))
    (hmarks : SameMarks q q') :
    Change q q' owned (update owned x true) (a ++ b) (a ++ x :: b) [] [] := by
  have hxl : x ∉ a ++ b := by
    intro hm
    rw [h.own x hm] at hx
    cases hx
  have hmsg' : q'.msg = update q.msg x m.forced := hputs.msg.trans (forceBand_store m)
  have hmsg : ∀ y, y ≠ x → q'.msg y = q.msg y := by
    intro y hy
    rw [hmsg', update_of_ne hy]
  have hbytes : ∀ band, bytesIn q band (a ++ b) ≤ bytesIn q' band (a ++ x :: b) := by
    intro band
    have hcongr : bytesIn q' band (a ++ b) = bytesIn q band (a ++ b) :=
      bytesIn_congr fun y hy => hmsg y fun heq => hxl (heq ▸ hy)
    exact hcongr ▸ bytesIn_insert_le band
  have hcases : ∀ y ∈ a ++ x :: b, y ∈ a ++ b ∨ y = x := by
    intro y hy
    simp only [mem_append, mem_cons] at hy ⊢
    tauto
  change Change q q' owned _ (a ++ b) _ (idle []) (idle [])
  refine .marked h hholds hmarks (by simp) (fun y hy => ?_)
    (fun y hy => ?_) (fun y hy ho => ?_) fun band _ _ _ _ => kept (hbytes band) (by simp)
  · rcases hcases y hy with hy | rfl
    · exact .inl hy
    · exact .inr hx
  · rcases hcases y hy with hy | rfl
    · rw [update_of_ne fun heq : y = x => hxl (heq ▸ hy)]
      exact h.own y hy
    · exact update_self ..
  · have hne : y ≠ x := by
      rintro rfl
      rw [hx] at ho
      cases ho
    refine ⟨?_, hputs.next y hne hy, hmsg y hne⟩
    rw [update_of_ne hne]
    exact ho

/-- A flush puts one message back or frees it. -/
theorem Change.reput {keep : Msg → Bool} (pc' : Pc ι) (h : Sound q owned l) (hok : ThreadOk q pc (x :: c))
    (hnd : (l ++ x :: c).Nodup) (hown : ∀ y ∈ x :: c, owned y = true)
    (hput : reputOwned fuel keep q owned x = some (q', owned')) (hmp : pc.off = some (some x))
    (hoff : pc'.off = some (q.list.next x)) (hsweep : pc'.sweeping = none) (hw : OwesW pc')
    (hs : ¬OwesSync pc)
    (hb : (∀ b, OwesBand b pc') ∨ (∀ b, ¬OwesBand b pc) ∧ heldBy (pc, x :: c) = x :: c ∧
      heldBy (pc', c) = c ∧ (keep (q.msg x) = false → (q.msg x).band = 0)) :
    ∃ l', Change q q' owned owned' l l' [(pc, x :: c)] [(pc', c)] := by
  obtain ⟨q1, hq1, heq⟩ := map_eq_some_iff.mp hput
  obtain ⟨rfl, rfl⟩ := mk.inj heq
  have hnd' := nodup_middle.mp hnd
  have hxl : x ∉ l := fun hx => (nodup_cons.mp hnd').1 (mem_append_left _ hx)
  have hxc : x ∉ c := fun hx => (nodup_cons.mp hnd').1 (mem_append_right _ hx)
  obtain ⟨hmsg, hnext, hholds⟩ := reput_steady.spec hq1 fun _ => reput_spec keep h.queue hxl
    (hok.ctl x mem_cons_self)
  have hmarks := sameMarks_reput hq1
  obtain ⟨hm, hbm⟩ := h.marks_of hmarks
  -- The queue afterwards, and the two ways its list can be.
  obtain ⟨l', hl', hmem, hperm, hle⟩ : ∃ l', q1.Holds l' ∧
      (∀ y ∈ l', y ∈ l ∨ y = x ∧ keep (q.msg x) = true) ∧
      (if keep (q.msg x) then (l' ++ c).Perm (l ++ x :: c) else l' = l) ∧
      ∀ band, bytesIn q band l ≤ bytesIn q1 band l' := by
    have hcongr : ∀ band l, bytesIn q1 band l = bytesIn q band l := fun band l =>
      bytesIn_congr fun y _ => congrFun hmsg y
    split at hholds
    · next hkeep =>
      obtain ⟨a, b, rfl, hholds, -⟩ := hholds
      refine ⟨a ++ x :: b, hholds, fun y hy => ?_, ?_, fun band => ?_⟩
      · simp only [mem_append, mem_cons] at hy ⊢
        tauto
      · rw [if_pos hkeep]
        exact (perm_middle.append_right c).trans perm_middle.symm
      · rw [hcongr]
        exact bytesIn_insert_le band
    · next hkeep =>
      refine ⟨l, hholds, fun y hy => .inl hy, ?_, fun band => le_of_eq (hcongr band l).symm⟩
      rw [if_neg hkeep]
  have hndl' : (l' ++ c).Nodup := by
    split at hperm
    · exact hperm.nodup_iff.mpr hnd
    · rw [hperm]
      exact (nodup_cons.mp hnd').2
  have hsub : ∀ y ∈ l' ++ c, y ∈ l ++ x :: c := by
    intro y hy
    simp only [mem_append, mem_cons] at hy ⊢
    rcases hy with hy | hy
    · rcases hmem y hy with hy | ⟨rfl, -⟩
      · exact .inl hy
      · exact .inr (.inl rfl)
    · exact .inr (.inr hy)
  have howned : ∀ y, y ≠ x ∨ keep (q.msg x) = true → owned y = true →
      (if keep (q.msg x) then owned else update owned x false) y = true := by
    intro y hy ho
    split
    · exact ho
    next hkeep =>
    rcases hy with hy | hy
    · rw [update_of_ne hy]
      exact ho
    · exact absurd hy hkeep
  refine ⟨l', hl', fun e he => ?_, ?_, fun y hy => .inl ?_, fun y hy => ?_,
    fun y hy ho => ?_, hm, hbm, ?_, ?_, fun i r' hr' => ?_⟩
  · obtain rfl := mem_singleton.mp he
    refine ⟨fun mp' hmp' => ?_, fun hnone => ?_, fun y hy => ?_, fun b hb => ?_⟩
    · rw [hoff] at hmp'
      cases hmp'
      refine (hok.chain _ hmp).tail_links.congr rfl fun y hy => congrArg some (hnext y ?_ ?_)
      · exact fun heq => hxc (heq ▸ hy)
      · intro hyl
        exact (nodup_append.mp (nodup_cons.mp hnd').2).2.2 y hyl y hy rfl
    · rw [hoff] at hnone
      cases hnone
    · rw [hmsg]
      exact hok.ctl y (mem_cons_of_mem x hy)
    · rw [hsweep] at hb
      cases hb
  · simpa using hndl'
  · have := hsub y (by simpa using hy)
    simpa using this
  · simp only [flatMap_cons, flatMap_nil, append_nil] at hy
    rcases mem_append.mp hy with hy | hy
    · rcases hmem y hy with hyl | ⟨rfl, hkeep⟩
      · exact howned y (.inl fun heq => hxl (heq ▸ hyl)) (h.own y hyl)
      · exact howned y (.inr hkeep) (hown y mem_cons_self)
    · exact howned y (.inl fun heq => hxc (heq ▸ hy)) (hown y (mem_cons_of_mem x hy))
  · simp only [flatMap_cons, flatMap_nil, append_nil, mem_append, mem_cons, not_or] at hy
    exact ⟨howned y (.inl hy.2.1) ho, hnext y hy.2.1 hy.1, congrFun hmsg y⟩
  · exact owed pc' (by simp) hw
  · rw [hmarks.wantwsync, hmarks.lowat]
    exact kept (hle 0) (by simpa using hs)
  · refine hmarks.carried hr' fun r hr => ?_
    rcases hb with hb | ⟨hfree, hheld, hheld', hzero⟩
    · exact owed pc' (by simp) (hb _)
    refine kept (le_of_eq ?_) (by simpa using hfree _)
    simp only [flatMap_cons, flatMap_nil, append_nil, hheld, hheld']
    rw [bytesIn_congr fun y _ => congrFun hmsg y]
    split at hperm
    · exact (bytes_perm hperm).symm
    next hkeep =>
    -- A message that is freed is of band zero.
    have hne : (q.msg x).band ≠ i + 1 := by
      rw [hzero (by simpa using hkeep)]
      omega
    rw [hperm, bytesIn_insert_of_ne hne]

/-! ### The steps of a thread -/

/-- The range of `flushband` starts at a message on the queue. -/
theorem flushbandRange_split {mp : ι} {last : Option ι} (h : q.Holds l)
    (hrange : q.flushbandRange pri = some (mp, last)) : ∃ a b, l = a ++ b ∧ b.head? = some mp := by
  obtain ⟨r, hr, hr'⟩ := bind_eq_some_iff.mp hrange
  obtain ⟨mp', hfirst, heq⟩ := map_eq_some_iff.mp hr'
  obtain ⟨rfl, -⟩ := mk.inj heq
  unfold qband at hr
  split at hr
  · cases hr
  · have hhead := (h.bands _ r hr).first.symm.trans hfirst
    have hmem := (mem_inBand.mp (mem_of_head? hhead)).1
    obtain ⟨a, b, rfl⟩ := append_of_mem hmem
    exact ⟨a, mp' :: b, rfl, rfl⟩

/-- The loop of `flushband` finds the next message and takes it off. -/
theorem Change.sweep {flag : Bool} {mp last : Option ι} (pc : Pc ι) (h : Sound q owned (a ++ b))
    (hmp : mp = b.head?) (hpri : pri ≠ 0) (hfree : pc.Free)
    (hsweep : sweep fuel q owned pri flag mp last = some (q', owned', opc)) :
    ∃ l', Change q q' owned owned' (a ++ b) l' (idle [pc]) (idle opc.toList) := by
  subst hmp
  unfold Streams.sweep at hsweep
  split at hsweep
  · cases hsweep
  · obtain ⟨rfl, rfl, rfl⟩ := of_exec hsweep
    exact ⟨a ++ b, .thread _ h (by simp) (by simpa using hfree)⟩
  next m fin hfind =>
  obtain ⟨rfl, rfl, rfl⟩ := of_exec hsweep
  obtain ⟨hmem, hband⟩ := flushbandFind_mem (Threaded.drop h.queue.list.fwd) hfind
  obtain ⟨b1, b2, rfl⟩ := append_of_mem hmem
  rw [← append_assoc] at h ⊢
  obtain ⟨hholds, htakes⟩ := rmvqNoenab_spec h.queue
  refine ⟨a ++ b1 ++ b2, .take _ h hholds htakes (sameMarks_rmvqNoenab q m) ?_
    (by simpa using hfree) _ (mem_singleton.mpr rfl) fun hlook => ?_⟩
  · refine forall_mem_singleton.mpr ⟨rfl, fun b hb => ?_⟩
    cases hb
    exact hpri
  · rw [hband] at hlook
    cases hlook with
    | wantw | sync => exact absurd rfl hpri
    | band i => rfl

/-- What the next step of a thread changes. -/
theorem exec_change (h : Sound q owned l) (hok : ThreadOk q pc c) (hnd : (l ++ c).Nodup)
    (hown : ∀ y ∈ c, owned y = true) (hcare : CarefulAt q pc)
    (hexec : exec fuel q owned pc = some (q', owned', opc)) :
    ∃ l' cp', cp'.map fst = opc.toList ∧ Change q q' owned owned' l l' [(pc, c)] cp' := by
  cases pc with
  | canput =>
    obtain ⟨rfl, rfl, rfl⟩ := of_exec hexec
    obtain rfl := hok.nil rfl
    -- A queue that is full is not below its low-water mark.
    exact ⟨l, idle [], idle_fst _, .flag [.canput] h
      (.full h.marks h.queue.full (by simp [OwesW]))
      (same (by simp [OwesSync])) (by simp [OwesBand])⟩
  | rwnext =>
    obtain ⟨rfl, rfl, rfl⟩ := of_exec hexec
    obtain rfl := hok.nil rfl
    exact ⟨l, idle [], idle_fst _, .flag [.rwnext] h
      (same (by simp [OwesW]))
      (.full h.marks h.queue.full (by simp [OwesSync])) (by simp [OwesBand])⟩
  | got band | enable band =>
    obtain ⟨rfl, rfl, rfl⟩ := of_exec hexec
    obtain rfl := hok.nil rfl
    refine ⟨l, idle _, idle_fst _, .quick h ⟨rfl, nofun⟩ fun hlook => ?_⟩
    cases hlook <;> exact ⟨id, id⟩
  | locked band =>
    obtain ⟨rfl, rfl, rfl⟩ := of_exec hexec
    obtain rfl := hok.nil rfl
    refine ⟨l, idle [], idle_fst _, .backenable [.locked band] h (by simp) fun hlook => ?_⟩
    cases hlook <;> simp [OwesW, OwesSync, OwesBand]
  | flushStart flag pcprotoFlag =>
    obtain ⟨rfl, rfl, rfl⟩ := of_exec hexec
    obtain rfl := hok.nil rfl
    -- Nothing wakes a writer of `rwnext` after this, so none may wait.
    exact ⟨[], [(.flushing flag pcprotoFlag q.list.first, l)], rfl,
      .detach h ⟨id, id, fun _ => id⟩ rfl rfl trivial hcare (.inl fun _ => trivial)⟩
  | flushing flag pcprotoFlag mp =>
    have hchain := hok.chain mp rfl
    cases mp with
    | none =>
      obtain ⟨rfl, rfl, rfl⟩ := of_exec hexec
      obtain rfl := head?_eq_none_iff.mp hchain.head_links.symm
      exact ⟨l, idle [], idle_fst _, .flushEnd h id⟩
    | some mp =>
      obtain ⟨c, rfl⟩ := head?_eq_some_iff.mp hchain.head_links.symm
      obtain ⟨⟨q1, owned1⟩, hput, heq⟩ := map_eq_some_iff.mp hexec
      obtain ⟨rfl, rfl, rfl⟩ := of_exec (congrArg some heq)
      -- The end of this flush looks at every band.
      rcases Change.reput (.flushing flag pcprotoFlag (q.list.next mp)) h hok hnd hown hput rfl rfl
        rfl trivial id (.inl fun _ => trivial) with ⟨l', hc⟩
      exact ⟨l', _, rfl, hc⟩
  | bandStart pri flag =>
    obtain rfl := hok.nil rfl
    unfold exec at hexec
    dsimp only at hexec
    by_cases hpri : pri = 0
    · rw [if_pos hpri] at hexec
      obtain ⟨rfl, rfl, rfl⟩ := of_exec hexec
      exact ⟨[], [(.flushingZero flag q.list.first, l)], rfl,
        .detach h ⟨id, id, fun _ => id⟩ rfl rfl trivial (hcare hpri) (.inr rfl)⟩
    rw [if_neg hpri] at hexec
    split at hexec
    · obtain ⟨rfl, rfl, rfl⟩ := of_exec hexec
      refine ⟨l, idle [], idle_fst _, .thread [.bandStart pri flag] h (by simp) ?_⟩
      simp [Pc.Free, OwesW, OwesSync, OwesBand]
    · next mp last hrange =>
      obtain ⟨a, b, rfl, hmp⟩ := flushbandRange_split h.queue hrange
      rcases Change.sweep (.bandStart pri flag) h hmp.symm hpri ⟨id, id, fun _ => id⟩ hexec
        with ⟨l', hc⟩
      exact ⟨l', _, idle_fst _, hc⟩
  | flushingZero flag mp =>
    have hchain := hok.chain mp rfl
    cases mp with
    | none =>
      obtain ⟨rfl, rfl, rfl⟩ := of_exec hexec
      obtain rfl := head?_eq_none_iff.mp hchain.head_links.symm
      exact ⟨l, idle [], idle_fst _, .flushbandEnd h id fun _ => id⟩
    | some mp =>
      obtain ⟨c, rfl⟩ := head?_eq_some_iff.mp hchain.head_links.symm
      obtain ⟨⟨q1, owned1⟩, hput, heq⟩ := map_eq_some_iff.mp hexec
      obtain ⟨rfl, rfl, rfl⟩ := of_exec (congrArg some heq)
      -- It looks at band zero only, and only that band loses messages.
      have hzero : flushbandKeeps flag (q.msg mp) = false → (q.msg mp).band = 0 := by
        intro hkeep
        unfold flushbandKeeps at hkeep
        simp only [Bool.not_eq_false', Bool.and_eq_true, decide_eq_true_eq] at hkeep
        exact hkeep.1
      rcases Change.reput (.flushingZero flag (q.list.next mp)) h hok hnd hown hput rfl rfl
        rfl trivial id (.inr ⟨fun _ => id, rfl, rfl, hzero⟩) with ⟨l', hc⟩
      exact ⟨l', _, rfl, hc⟩
  | bandEnable s =>
    obtain ⟨rfl, rfl, rfl⟩ := of_exec hexec
    obtain rfl := hok.nil rfl
    refine ⟨l, idle [.bandResume s], idle_fst _, .backenable [.bandEnable s] h
      (forall_mem_singleton.mpr ⟨rfl, hok.pri⟩) fun hlook => ?_⟩
    cases hlook <;> simp [OwesW, OwesSync, OwesBand]
  | bandResume s =>
    obtain rfl := hok.nil rfl
    unfold exec at hexec
    dsimp only at hexec
    cases hfin : s.fin with
    | true =>
      rw [if_pos hfin] at hexec
      obtain ⟨rfl, rfl, rfl⟩ := of_exec hexec
      refine ⟨l, idle [], idle_fst _, .thread [.bandResume s] h (by simp) ?_⟩
      simp [Pc.Free, OwesW, OwesSync, OwesBand]
    | false =>
      rw [if_neg (by simp [hfin])] at hexec
      obtain ⟨a, d, b, hlist, hmp, -⟩ := hcare hfin
      -- What is left of the range is on the queue as it is now.
      obtain rfl := h.queue.list.fwd.unique hlist.fwd
      rcases Change.sweep (.bandResume s) h hmp (hok.pri _ rfl) ⟨id, id, fun _ => id⟩ hexec
        with ⟨l', hc⟩
      exact ⟨l', _, idle_fst _, hc⟩

end

/-! ### The steps of the system -/

section
variable {w w' : World ι} {l l' : List ι} {cs : List (Pc ι × List ι)}

theorem Inv.sound (h : Inv w l cs) : Sound w.q w.owned l :=
  ⟨h.queue, fun x hx => h.owned x (mem_append_left _ hx), h.marks, h.bandMarks⟩

/-- A routine starts or is done in one step. -/
theorem Inv.call {owned' : ι → Bool} (h : Inv w l cs) (ps : List (Pc ι))
    (hc : Change w.q q' w.owned owned' l l' [] (idle ps)) :
    ∃ l' cs', Inv ⟨q', w.threads ++ ps, owned'⟩ l' cs' := by
  have hinv : Inv w l (cs ++ ([] ++ [])) := by simpa using h
  have hchange := hinv.change hc
  rw [append_nil, map_append, h.threads, idle_fst] at hchange
  exact ⟨l', _, hchange⟩

variable [DecidableEq ι] {fuel : Nat}

omit [DecidableEq ι] in
/-- `bcanput` sets a flag if the band is full. -/
theorem Change.bcanput {owned : ι → Bool} (h : Sound q owned l) (pri : Nat) :
    Change q (q.bcanput pri) owned owned l l (idle []) (idle []) := by
  unfold Queue.bcanput
  split
  · exact .flag [] h (.full h.marks h.queue.full (by simp))
      (same (by simp)) (by simp)
  refine .quiet _ h
    ⟨rfl, rfl, rfl, rfl, rfl, rfl, length_setQband, fun i r' hr' => ?_⟩ (by simp)
    (same (by simp)) (same (by simp))
    fun i r r' hr hr' => ?_
  · rw [getElem?_setQband] at hr'
    split at hr'
    · obtain ⟨r, hr, rfl⟩ := map_eq_some_iff.mp hr'
      exact ⟨r, hr, rfl⟩
    · exact ⟨r', hr', rfl⟩
  · rw [getElem?_setQband, hr] at hr'
    split at hr'
    · cases hr'
      exact .full (h.bandMarks r (mem_of_getElem? hr)) (h.queue.bands i r hr).full
        (by simp)
    · cases hr'
      exact same (by simp)

/-- A caller puts a message on the queue. -/
theorem Inv.put {bp : ι} {R : List ι → List ι → Prop} (h : Inv w l cs) (hbp : ¬w.owned bp = true) (m : Msg)
    (hmarks : SameMarks { w.q with msg := update w.q.msg bp m } q')
    (hput : bp ∉ l → ∃ a b, l = a ++ b ∧ q'.Holds (a ++ bp :: b) ∧
      Queue.Puts { w.q with msg := update w.q.msg bp m } q' bp l ∧ R a b) :
    ∃ l' cs', Inv { w with q := q', owned := update w.owned bp true } l' cs' := by
  obtain ⟨a, b, rfl, hholds, hputs, -⟩ := hput fun hx => hbp (h.sound.own bp hx)
  have hstore : SameMarks w.q { w.q with msg := update w.q.msg bp m } := .of_eq rfl
  have hcall := h.call [] (.put h.sound (by simpa using hbp) hholds hputs
    (hstore.trans hmarks))
  rwa [append_nil] at hcall

/-- Every careful step keeps the invariant. -/
theorem step_inv {label : Label ι} (h : Inv w l cs) (hcare : Careful w label)
    (hstep : step fuel w label = some w') : ∃ l' cs', Inv w' l' cs' := by
  -- A routine that only starts leaves a thread that owes nothing.
  have hstart : ∀ pc : Pc ι, pc.Plain → ∃ l' cs', Inv { w with threads := w.threads ++ [pc] } l' cs' :=
    fun pc hpc => h.call [pc] (.thread [] h.sound (by simpa using hpc) (by simp))
  cases label with
  | canput =>
    cases hstep
    split
    · exact hstart .canput ⟨rfl, by simp [Pc.sweeping]⟩
    · exact ⟨l, cs, h⟩
  | bcanput pri =>
    cases hstep
    have hcall := h.call [] (.bcanput h.sound pri)
    rwa [append_nil] at hcall
  | rwnext =>
    cases hstep
    split
    · exact hstart .rwnext ⟨rfl, by simp [Pc.sweeping]⟩
    · exact ⟨l, cs, h⟩
  | putq bp m =>
    obtain ⟨hbp, hstep⟩ := ite_none_left_eq_some.mp hstep
    obtain ⟨q', hput, rfl⟩ := map_eq_some_iff.mp hstep
    exact h.put hbp m (sameMarks_putq hput) fun hx =>
      putq_steady.spec hput fun _ => putq_spec (h.queue.store hx m) hx
  | putbq bp m =>
    obtain ⟨hbp, hstep⟩ := ite_none_left_eq_some.mp hstep
    obtain ⟨q', hput, rfl⟩ := map_eq_some_iff.mp hstep
    exact h.put hbp m (sameMarks_putbq hput) fun hx =>
      putbq_steady.spec hput fun _ => putbq_spec (h.queue.store hx m) hx
  | getq =>
    obtain ⟨⟨q', bp⟩, hget, rfl⟩ := map_eq_some_iff.mp hstep
    have hmarks := sameMarks_getqNoenab hget
    obtain ⟨hmsg, hcases⟩ := getqNoenab_steady.spec hget fun _ => getqNoenab_spec h.queue
    -- `getq` back-enables band zero even if it finds no message.
    rcases hcases with ⟨rfl, -, hholds, hlist⟩ | ⟨a, x, b, rfl, rfl, -, -, hholds, htakes⟩
    · exact h.call [.got 0] (.stay [] h.sound hholds hlist hmsg hmarks
        (by simp [Pc.Plain, Pc.off, Pc.sweeping]) (by simp))
    refine h.call _ (.take [] h.sound hholds htakes hmarks ?_ (by simp) _
      (mem_singleton.mpr rfl) fun hlook => ?_)
    · simp [Pc.Plain, Pc.off, Pc.sweeping]
    · rw [← hmsg] at hlook
      exact hlook.owes.1
  | rmvq mp =>
    unfold step at hstep
    dsimp only at hstep
    split at hstep
    · next hon =>
      cases hstep
      have hmem := scan_mem h.queue.list.fwd (of_decide_eq_true hon)
      obtain ⟨a, b, rfl⟩ := append_of_mem hmem
      obtain ⟨hholds, htakes⟩ := rmvqNoenab_spec h.queue
      refine h.call _ (.take [] h.sound hholds htakes (sameMarks_rmvqNoenab w.q mp) ?_
        (by simp) _ (mem_singleton.mpr rfl) fun hlook => hlook.owes.2)
      simp [Pc.Plain, Pc.off, Pc.sweeping]
    · cases hstep
  | flushq | flushband =>
    unfold step at hstep
    dsimp only at hstep
    split at hstep
    · cases hstep
      exact ⟨l, cs, h⟩
    · cases hstep
      exact hstart _ ⟨rfl, by simp [Pc.sweeping]⟩
  | run i =>
    obtain ⟨pc, hpc, hrest⟩ := bind_eq_some_iff.mp hstep
    obtain ⟨⟨q', owned', opc⟩, hexec, rfl⟩ := map_eq_some_iff.mp hrest
    have hget := hpc
    rw [← h.threads, getElem?_map] at hget
    obtain ⟨⟨pc', c⟩, he, rfl⟩ := map_eq_some_iff.mp hget
    -- The thread with what it holds is cut out, and the others are framed.
    have hsplit : cs = cs.take i ++ ([(pc', c)] ++ cs.drop (i + 1)) := by
      obtain ⟨hlt, heq⟩ := List.getElem?_eq_some_iff.mp he
      rw [singleton_append, ← heq, getElem_cons_drop, take_append_drop]
    have hmem : (pc', c) ∈ cs := mem_of_getElem? he
    have hnd : (l ++ c).Nodup := by
      have hsub : c.Sublist (cs.flatMap snd) := by
        rw [hsplit]
        simp only [flatMap_append, flatMap_cons, flatMap_nil, append_nil]
        exact (sublist_append_left c _).trans (sublist_append_right _ _)
      exact h.nodup.sublist (hsub.append_left l)
    have hown : ∀ y ∈ c, w.owned y = true := fun y hy =>
      h.owned y (mem_append_right _ (mem_flatMap.mpr ⟨_, hmem, hy⟩))
    obtain ⟨l', cp', hfst, hc⟩ := exec_change h.sound (h.chains _ hmem) hnd hown (hcare _ hpc) hexec
    have hinv : Inv w l (cs.take i ++ ([(pc', c)] ++ cs.drop (i + 1))) := hsplit ▸ h
    have hchange := hinv.change hc
    rw [map_append, map_append, hfst, map_take, map_drop, h.threads] at hchange
    exact ⟨l', _, hchange⟩

/-! ### Every run -/

omit [DecidableEq ι] in
/-- A thread that owes a look is about to back-enable. -/
theorem between_of_owes {pc : Pc ι} (h : OwesW pc ∨ OwesSync pc ∨ ∃ b, OwesBand b pc) :
    Between pc := by
  cases pc <;> simp_all [OwesW, OwesSync, OwesBand, Between]

omit [DecidableEq ι] in
/-- If no thread is about to back-enable, all bytes that count are on the queue. -/
theorem Inv.noneForgotten (h : Inv w l cs) : NoneForgotten w := by
  intro hnone
  have hno : ∀ {owes : Pc ι → Prop}, (∀ pc, owes pc → Between pc) → ¬∃ pc ∈ w.threads, owes pc := by
    rintro owes himp ⟨pc, hpc, ho⟩
    exact hnone pc hpc (himp pc ho)
  have hheld : cs.flatMap heldBy = [] := by
    refine flatMap_eq_nil_iff.mpr fun e he => ?_
    have hpc : e.1 ∈ w.threads := h.threads ▸ mem_map_of_mem he
    have hbetween := hnone e.1 hpc
    unfold heldBy
    split
    · next heq =>
      rw [heq] at hbetween
      exact absurd trivial hbetween
    · rfl
  refine ⟨fun hwant => ?_, fun hwant => ?_, fun r hr hwant => ?_⟩
  · rcases h.wantw hwant with hle | hex
    · exact h.queue.count.symm ▸ hle
    · exact absurd hex (hno fun pc ho => between_of_owes (.inl ho))
  · rcases h.sync hwant with hle | hex
    · exact h.queue.count.symm ▸ hle
    · exact absurd hex (hno fun pc ho => between_of_owes (.inr (.inl ho)))
  · obtain ⟨i, hi⟩ := mem_iff_getElem?.mp hr
    rcases h.bandw i r hi hwant with hle | hex
    · rw [hheld, append_nil] at hle
      exact (h.queue.bands i r hi).count.symm ▸ hle
    · exact absurd hex (hno fun pc ho => between_of_owes (.inr (.inr ⟨i + 1, ho⟩)))

omit [DecidableEq ι] in
theorem Initial.inv (h : Initial w) : Inv w [] [] := by
  have hfresh : w.q.Fresh := by
    refine ⟨h.first, h.last, h.count, h.full, fun b hb => ?_⟩
    obtain ⟨h1, h2, h3, h4, -⟩ := h.bands b hb
    exact ⟨h1, h2, h3, h4⟩
  refine ⟨hfresh.holds, h.threads.symm, by simp, by simp, by simp, h.marks, fun b hb => ?_,
    .of_off h.wantw, .of_off h.wantwsync, fun i r hr => .of_off ?_⟩
  · exact (h.bands b hb).2.2.2.2.2
  · exact (h.bands r (mem_of_getElem? hr)).2.2.2.2.1

/-- In a run in which no flush takes off messages of band zero while a writer waits
    for a wakeup, and `flushband` always finds the rest of its range on the queue,
    no writer is forgotten. -/
theorem writers_not_forgotten (fuel : Nat) (w : World ι)
    (hr : (system fuel).ReachableVia Careful w) : NoneForgotten w := by
  have hinv : ∃ l cs, Inv w l cs := by
    refine System.ReachableVia.invariant (system fuel) Careful (fun w => ∃ l cs, Inv w l cs) ?_ ?_ w
      hr
    · intro w0 h0
      exact ⟨[], [], Initial.inv h0⟩
    · rintro w1 w2 label ⟨l, cs, h⟩ hcare hstep
      exact step_inv h hcare hstep
  obtain ⟨l, cs, h⟩ := hinv
  exact h.noneForgotten

end

/-- An empty queue that no thread uses. -/
def quietWorld : World Nat := ⟨emptyQueue, [], fun _ => false⟩

theorem quietWorld_initial : Initial quietWorld := by
  refine ⟨rfl, rfl, rfl, rfl, rfl, rfl, ?_, ?_, rfl, fun _ => rfl⟩
  · unfold MarksOk
    decide
  · intro b hb
    cases hb

/-- A writer waits, and the message that filled the queue is taken off. -/
theorem writers_not_forgotten_one :
    ∃ w : World Nat, (system 4).ReachableVia Careful w ∧ w.threads = [] ∧ w.q.count = 0 ∧
      w.q.wantw = false ∧ NoneForgotten w := by
  have h0 : (system 4).ReachableVia Careful quietWorld := .init _ quietWorld_initial
  have h1 := h0.step _ _ (Label.putq 0 ⟨mData, 0, false, [7, 5]⟩) trivial rfl
  have h2 := h1.step _ _ Label.canput trivial rfl
  have h3 := h2.step _ _ (Label.run 0) (fun pc hpc => by cases hpc; trivial) rfl
  have h4 := h3.step _ _ Label.getq trivial rfl
  have h5 := h4.step _ _ (Label.run 0) (fun pc hpc => by cases hpc; trivial) rfl
  have h6 := h5.step _ _ (Label.run 0) (fun pc hpc => by cases hpc; trivial) rfl
  have h7 := h6.step _ _ (Label.run 0) (fun pc hpc => by cases hpc; trivial) rfl
  exact ⟨_, h7, rfl, rfl, rfl, writers_not_forgotten 4 _ h7⟩

/-- A writer in `rwnext` finds the queue full and waits for a wakeup. Then the queue
    is flushed, and nobody wakes the writer. -/
theorem writer_forgotten :
    ∃ w : World Nat, (system 4).Reachable w ∧ w.threads = [] ∧ w.q.wantwsync = true ∧
      w.q.count = 0 ∧ w.q.lowat = 5 ∧ ¬NoneForgotten w := by
  have hsome : ((system 4).exec quietWorld [.putq 0 ⟨mData, 0, false, [7, 5]⟩, .rwnext, .run 0,
      .flushq true false, .run 0, .run 0, .run 0]).isSome = true := by decide
  refine ⟨_, System.reachable_get (system 4) _ quietWorld quietWorld_initial hsome, rfl, rfl, rfl,
    rfl, fun h => ?_⟩
  have hle : 5 ≤ 0 := (h nofun).2.1 rfl
  omega

/-- `flushband` goes on with a message that `rmvq` has taken off, and the queue loses
    the rest of its messages. The flush of band zero that follows counts the bytes of
    band 2 off and does not look at its writer. -/
theorem band_writer_forgotten :
    ∃ w : World Nat, (system 4).Reachable w ∧ w.threads = [] ∧ w.q.wantwsync = false ∧
      ¬NoneForgotten w := by
  have hsome : ((system 4).exec quietWorld [.putq 0 ⟨mData, 2, false, [12]⟩, .bcanput 2,
      .putq 1 ⟨mData, 1, false, [0]⟩, .putq 2 ⟨mData, 1, false, [0]⟩, .flushband 1 true, .run 0,
      .run 0, .rmvq 2, .run 1, .run 1, .run 0, .run 0, .run 0, .flushband 0 true, .run 0,
      .run 0]).isSome = true := by decide
  refine ⟨_, System.reachable_get (system 4) _ quietWorld quietWorld_initial hsome, rfl, rfl,
    fun h => ?_⟩
  -- The second record is that of band 2.
  have hle : 5 ≤ 0 := (h (forall_mem_nil _)).2.2 _ (.tail _ (.head _)) rfl
  omega

end Sol7.Streams
