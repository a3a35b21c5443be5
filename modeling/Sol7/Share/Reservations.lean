import Sol7.Lib.System

/-!
# Share Reservations

The share reservations of a vnode, as DOS has them. `add_share` scans the list,
with the newest reservation first, and puts the new one in front, and
`del_share` takes out those that it matches.

What the scan lets pass in compatibility mode depends on the oldest reservation
alone: others in that mode are passed over. So an owner may come to have write
access in compatibility mode beside another owner. A removal compares owners but
not the systems that they belong to, nor the modes.

## Main definitions

* `addShare`, `delShare`: The two calls.
* `Compatible`: Reservations of different owners agree with each other.
* `Slips`: A request that is granted and should not be, by what the list holds.
* `Careful`: A call other than these.
* `Asked`, `Modes`: What a removal asks for.
* `Clear`: An entry that it takes out only if it is asked for.

## Theorems

* `addLoop_checked`: What is known of the others when a request passes.
* `addShare_compatible`: When the new reservation agrees with the others.
* `slips_iff`: Which requests slip through.
* `shares_compatible_iff`: Runs of careful calls.
* `delShare_owner_iff`: When a removal touches only its owner.
-/

namespace Sol7.Share

open List BitVec

/-- A reservation. `s_own_len` is the length of the owner. -/
structure Shrlock where
  access : BitVec 16
  deny : BitVec 16
  sysid : Int32
  pid : Int32
  owner : List UInt8
deriving DecidableEq

def fRdacc : BitVec 16 := 1

def fWracc : BitVec 16 := 2

def fRwacc : BitVec 16 := 3

def fRddny : BitVec 16 := 1

def fRwdny : BitVec 16 := 3

def fCompat : BitVec 16 := 8

inductive Errno
  | eagain
  | einval
deriving DecidableEq

/-- In compatibility mode. -/
abbrev Shrlock.Compat (shr : Shrlock) : Prop := shr.deny &&& fCompat ≠ 0

abbrev Shrlock.Writes (shr : Shrlock) : Prop := shr.access &&& fWracc ≠ 0

abbrev SameOwner (e shr : Shrlock) : Prop :=
  e.sysid = shr.sysid ∧ e.pid = shr.pid ∧ e.owner = shr.owner

theorem SameOwner.symm {e shr : Shrlock} (h : SameOwner e shr) : SameOwner shr e :=
  ⟨h.1.symm, h.2.1.symm, h.2.2.symm⟩

/-- The scan of `add_share`: whether it ends without an error, at the end of the
    list or before. -/
def addLoop (rdonly : Bool) (shr : Shrlock) : List Shrlock → Bool
  | [] => true
  | e :: next =>
    if SameOwner e shr ∧ e.Compat ∧ shr.Compat ∧ (next = [] ∨ e.Writes) then true
    else if e.Compat ∧ next = [] then
      if ¬shr.Compat then
        if shr.Writes ∨ shr.deny &&& fRddny ≠ 0 ∨ e.Writes then false else rdonly
      else shr.access = fRdacc ∧ e.access = fRdacc
    else if e.Compat ∧ shr.Compat then addLoop rdonly shr next
    else if shr.Compat then
      if shr.Writes ∨ e.deny &&& fRddny ≠ 0 ∨ e.Writes then false
      else if next = [] then e.access = fRdacc ∧ rdonly
      else addLoop rdonly shr next
    else if shr.access &&& e.deny ≠ 0 ∨ shr.deny &&& e.access ≠ 0 then false
    else addLoop rdonly shr next

/-- `add_share`, on a file that may be read only. -/
def addShare (rdonly : Bool) (shr : Shrlock) (l : List Shrlock) : Except Errno (List Shrlock) :=
  if shr.access = 0 ∧ shr.sysid = 0 then .error .einval
  else if shr.access &&& ~~~fRwacc ≠ 0 then .error .einval
  else if shr.deny &&& ~~~(fRwdny ||| fCompat) ≠ 0 then .error .einval
  else if addLoop rdonly shr l then
    .ok ({ shr with deny := if shr.Compat then fCompat else shr.deny } :: l)
  else .error .eagain

/-- The test of `del_share`. -/
abbrev Deletes (shr e : Shrlock) : Prop :=
  (shr.owner.length = e.owner.length ∧ shr.owner = e.owner) ∨
    (shr.owner.length = 0 ∧
      ((shr.sysid = 0 ∧ shr.pid = e.pid) ∨ (shr.sysid ≠ 0 ∧ shr.sysid = e.sysid)))

/-- The loop of `del_share`, with the number of entries that it has found. -/
def delLoop (shr : Shrlock) : List Shrlock → List Shrlock × Nat
  | [] => ([], 0)
  | e :: next =>
    let r := delLoop shr next
    if Deletes shr e then (r.1, r.2 + 1) else (e :: r.1, r.2)

def delShare (shr : Shrlock) (l : List Shrlock) : Except Errno (List Shrlock) :=
  if (delLoop shr l).2 = 0 then .error .einval else .ok (delLoop shr l).1

/-- A call of one of the two. -/
inductive Call
  | add (rdonly : Bool) (shr : Shrlock)
  | del (shr : Shrlock)

/-- The list after a call. One that fails changes nothing. -/
def Call.after (l : List Shrlock) : Call → List Shrlock
  | .add rdonly shr => (addShare rdonly shr l).toOption.getD l
  | .del shr => (delShare shr l).toOption.getD l

/-- The reservations of a vnode. -/
def shares : System (List Shrlock) Call where
  init := fun l => l = []
  step := fun l c => some (c.after l)

/-! ### Compatible reservations -/

/-- Reservations of different owners: none denies what another has, and none has
    write access in compatibility mode. -/
def Compatible (l : List Shrlock) : Prop :=
  ∀ a ∈ l, ∀ b ∈ l, ¬SameOwner a b → a.deny &&& b.access = 0 ∧ ¬(a.Compat ∧ a.Writes)

/-- The access is valid, and so is what is denied. -/
abbrev Shrlock.Valid (shr : Shrlock) : Prop :=
  ¬(shr.access = 0 ∧ shr.sysid = 0) ∧ shr.access &&& ~~~fRwacc = 0 ∧
    shr.deny &&& ~~~(fRwdny ||| fCompat) = 0

/-- What the entries of other owners and the oldest one, `o`, let pass. In
    compatibility mode entries in that mode are not looked at, but for the oldest. -/
def Passes (rdonly : Bool) (shr o : Shrlock) (l : List Shrlock) : Prop :=
  if shr.Compat then
    ¬shr.Writes ∧ o.access = fRdacc ∧ (if o.Compat then shr.access = fRdacc else rdonly) ∧
      ∀ e ∈ l, ¬e.Compat → e.deny &&& fRddny = 0 ∧ ¬e.Writes
  else
    (∀ e ∈ l, shr.access &&& e.deny = 0 ∧ shr.deny &&& e.access = 0) ∧
      (o.Compat → rdonly ∧ ¬shr.Writes ∧ shr.deny &&& fRddny = 0 ∧ ¬o.Writes)

/-- The requests that slip through. One is for write access in compatibility mode:
    the oldest entry is its owner's, and all are in that mode, one of them another
    owner's. The others pass by another owner's writer in compatibility mode. -/
def Slips (rdonly : Bool) (shr : Shrlock) (l : List Shrlock) : Prop :=
  shr.Valid ∧ ∃ o ∈ l, l.getLast? = some o ∧
    (shr.Compat ∧ shr.Writes ∧ SameOwner o shr ∧ (∀ e ∈ l, e.Compat) ∧
        (∃ e ∈ l, ¬SameOwner e shr) ∨
      (∃ e ∈ l, ¬SameOwner e shr ∧ e.Compat ∧ e.Writes) ∧ Passes rdonly shr o l)

/-- A call that does not slip through. -/
def Careful (l : List Shrlock) : Call → Prop
  | .add rdonly shr => ¬Slips rdonly shr l
  | .del _ => True

instance (l : List Shrlock) : Decidable (Compatible l) :=
  inferInstanceAs (Decidable (∀ a ∈ l, ∀ b ∈ l, _))

instance (rdonly : Bool) (shr o : Shrlock) (l : List Shrlock) : Decidable (Passes rdonly shr o l) :=
  inferInstanceAs (Decidable (ite ..))

instance (l : List Shrlock) : (c : Call) → Decidable (Careful l c)
  | .add _ _ => inferInstanceAs (Decidable ¬(_ ∧ ∃ o ∈ l, _))
  | .del _ => .isTrue trivial

section
variable {a d : BitVec 16}

theorem and_compat (ha : a &&& ~~~fRwacc = 0) : fCompat &&& a = 0 := by
  calc fCompat &&& a = a &&& ~~~fRwacc &&& fCompat := by
        rw [BitVec.and_assoc, show ~~~fRwacc &&& fCompat = fCompat by decide, BitVec.and_comm]
    _ = 0 := by rw [ha]; exact BitVec.zero_and

/-- Access is for reading only, and that is not denied. -/
theorem and_of_read (ha : a &&& ~~~fRwacc = 0) (hw : a &&& fWracc = 0) (hd : d &&& fRddny = 0) :
    d &&& a = 0 := by
  have hread : a &&& fRddny = a := by
    calc a &&& fRddny = a &&& ~~~fRwacc ||| a &&& fWracc ||| a &&& fRddny := by
          rw [ha, hw]
          exact zero_or.symm
      _ = a &&& (~~~fRwacc ||| fWracc ||| fRddny) := by
          rw [and_or_distrib_left, and_or_distrib_left]
      _ = a := and_allOnes
  rw [← hread, BitVec.and_comm a, ← BitVec.and_assoc, hd]
  exact zero_and

end

/-- What is always true of an entry. -/
def Stored (e : Shrlock) : Prop := e.access &&& ~~~fRwacc = 0 ∧ (e.Compat → e.deny = fCompat)

variable {rdonly : Bool} {shr e : Shrlock} {l : List Shrlock}

/-- When a request passes, if its owner has no write access in compatibility mode.
    The induction is on the list, whose last entry stays `o`. -/
theorem addLoop_iff {o : Shrlock} (ho : l.getLast? = some o) (hs : ∀ e ∈ l, Stored e)
    (hv : shr.access &&& ~~~fRwacc = 0)
    (hown : ∀ e ∈ l, SameOwner e shr → ¬(e.Compat ∧ e.Writes)) :
    addLoop rdonly shr l = true ↔ if shr.Compat ∧ o.Compat ∧ SameOwner o shr then
        ∀ e ∈ l, ¬e.Compat → ¬shr.Writes ∧ e.deny &&& fRddny = 0 ∧ ¬e.Writes
      else Passes rdonly shr o l := by
  have hrd : fRdacc &&& fWracc = 0 := by decide
  have hnil : addLoop rdonly shr [] = true := rfl
  induction l with
  | nil => cases ho
  | cons e next ih =>
    have hst := hs e mem_cons_self
    have hme := hown e mem_cons_self
    rw [addLoop]
    cases next with
    | nil =>
      obtain rfl : e = o := by simpa using ho
      have hdeny : e.Compat → shr.access &&& e.deny = 0 := by
        intro hec
        rw [hst.2 hec, BitVec.and_comm]
        exact and_compat hv
      have hread : ¬e.Writes → shr.deny &&& fRddny = 0 → shr.deny &&& e.access = 0 :=
        fun hw => and_of_read hst.1 (Decidable.not_not.mp hw)
      simp only [Passes, forall_mem_singleton]
      grind
    | cons b next =>
      rw [getLast?_cons_cons] at ho
      replace ih := ih ho (forall_mem_cons.mp hs).2 (forall_mem_cons.mp hown).2
      rw [if_neg fun h => hme h.1 ⟨h.2.1, h.2.2.2.resolve_left (cons_ne_nil b next)⟩]
      clear hs hown
      by_cases hmine : shr.Compat ∧ o.Compat ∧ SameOwner o shr
      · simp only [if_pos hmine, forall_mem_cons] at ih ⊢
        grind
      · simp only [if_neg hmine, Passes, forall_mem_cons] at ih ⊢
        grind

/-- Beside another owner nobody has write access in compatibility mode yet. -/
theorem Compatible.own (hc : Compatible l) (he : e ∈ l) (hne : ¬SameOwner e shr) :
    ∀ b ∈ l, SameOwner b shr → ¬(b.Compat ∧ b.Writes) := by
  intro b hb hbs
  refine (hc b hb e he fun hbe => hne ?_).2
  exact ⟨hbe.1 ▸ hbs.1, hbe.2.1 ▸ hbs.2.1, hbe.2.2 ▸ hbs.2.2⟩

/-- A request that passes agrees with the entries of other owners, as to what is
    denied. -/
theorem addLoop_agrees (hc : Compatible l) (hs : ∀ e ∈ l, Stored e)
    (hacc : shr.access &&& ~~~fRwacc = 0) (h : addLoop rdonly shr l = true) (he : e ∈ l)
    (hne : ¬SameOwner e shr) :
    (if shr.Compat then fCompat else shr.deny) &&& e.access = 0 ∧ e.deny &&& shr.access = 0 := by
  obtain ⟨heacc, hecompat⟩ := hs e he
  rw [addLoop_iff (getLast?_eq_some_getLast (ne_nil_of_mem he)) hs hacc (hc.own he hne)] at h
  unfold Passes at h
  by_cases hsc : shr.Compat
  · rw [if_pos hsc]
    refine ⟨and_compat heacc, ?_⟩
    by_cases hec : e.Compat
    · rw [hecompat hec]
      exact and_compat hacc
    · have hread : ¬shr.Writes ∧ e.deny &&& fRddny = 0 := by grind
      exact and_of_read hacc (Decidable.not_not.mp hread.1) hread.2
  · rw [if_neg fun hall => hsc hall.1, if_neg hsc] at h
    rw [if_neg hsc, BitVec.and_comm e.deny]
    exact (h.1 e he).symm

theorem addShare_eq (rdonly : Bool) (shr : Shrlock) (l : List Shrlock) :
    addShare rdonly shr l = if shr.Valid then
      if addLoop rdonly shr l then
        .ok ({ shr with deny := if shr.Compat then fCompat else shr.deny } :: l)
      else .error .eagain
    else .error .einval := by
  unfold addShare Shrlock.Valid
  split_ifs <;> simp_all

/-- When a request that is granted agrees with the others. -/
theorem addShare_compatible (hc : Compatible l) (hs : ∀ e ∈ l, Stored e)
    (hacc : shr.access &&& ~~~fRwacc = 0) (hloop : addLoop rdonly shr l = true) {e' : Shrlock}
    (he' : { shr with deny := if shr.Compat then fCompat else shr.deny } = e') :
    Stored e' ∧ (Compatible (e' :: l) ↔
      ∀ e ∈ l, ¬SameOwner e shr → ¬(e.Compat ∧ e.Writes) ∧ ¬(shr.Compat ∧ shr.Writes)) := by
  subst he'
  have hcompat : (if shr.Compat then fCompat else shr.deny) &&& fCompat ≠ 0 ↔ shr.Compat := by
    split
    · next hsc => exact ⟨fun _ => hsc, fun _ => by decide⟩
    · exact Iff.rfl
  refine ⟨⟨hacc, fun hn => if_pos (hcompat.mp hn)⟩, ?_⟩
  constructor
  · intro hc' e he hne
    refine ⟨(hc' e (mem_cons_of_mem _ he) _ mem_cons_self hne).2, fun hw => ?_⟩
    exact (hc' _ mem_cons_self e (mem_cons_of_mem _ he) fun hso => hne hso.symm).2
      ⟨hcompat.mpr hw.1, hw.2⟩
  intro hcare a ha b hb hab
  rcases mem_cons.mp ha with rfl | ha <;> rcases mem_cons.mp hb with rfl | hb
  · exact absurd ⟨rfl, rfl, rfl⟩ hab
  · have hne : ¬SameOwner b shr := fun hso => hab hso.symm
    exact ⟨(addLoop_agrees hc hs hacc hloop hb hne).1,
      fun hw => (hcare b hb hne).2 ⟨hcompat.mp hw.1, hw.2⟩⟩
  · exact ⟨(addLoop_agrees hc hs hacc hloop ha hab).2, (hcare a ha hab).1⟩
  · exact hc a ha b hb hab

/-! ### Requests that slip through -/

/-- The requests that slip through are those that are granted and put write access
    in compatibility mode beside another owner. -/
theorem slips_iff (hc : Compatible l) (hs : ∀ e ∈ l, Stored e) : Slips rdonly shr l ↔
    shr.Valid ∧ addLoop rdonly shr l = true ∧
      ∃ e ∈ l, ¬SameOwner e shr ∧ (e.Compat ∧ e.Writes ∨ shr.Compat ∧ shr.Writes) := by
  refine and_congr_right fun hv => ?_
  constructor
  · rintro ⟨o, ho', ho, ⟨hsc, hsw, hso, hall, e, he, hne⟩ | ⟨⟨e, he, hne, hw⟩, hp⟩⟩
    · rw [addLoop_iff ho hs hv.2.1 (hc.own he hne), if_pos ⟨hsc, hall o ho', hso⟩]
      exact ⟨fun b hb hbc => absurd (hall b hb) hbc, e, he, hne, .inr ⟨hsc, hsw⟩⟩
    · -- The writer's owner is the only one on the list.
      have hno : ¬SameOwner o shr := fun hos => (hc e he o ho' (by grind)).2 hw
      rw [addLoop_iff ho hs hv.2.1 (hc.own he hne), if_neg fun hall => hno hall.2.2]
      exact ⟨hp, e, he, hne, .inl hw⟩
  · rintro ⟨hloop, e, he, hne, hw⟩
    have ho := getLast?_eq_some_getLast (ne_nil_of_mem he)
    rw [addLoop_iff ho hs hv.2.1 (hc.own he hne)] at hloop
    refine ⟨_, getLast_mem _, ho, ?_⟩
    have hlone : e.Compat ∧ e.Writes → ∀ b ∈ l, SameOwner e b := fun hew b hb =>
      by_contra fun hb' => (hc e he b hb hb').2 hew
    unfold Passes at *
    grind

/-! ### Removals -/

theorem delLoop_eq (shr : Shrlock) (l : List Shrlock) :
    (delLoop shr l).1 = l.filter (fun e => ¬Deletes shr e) ∧
      ((delLoop shr l).2 = 0 → (delLoop shr l).1 = l) := by
  induction l with
  | nil => exact ⟨rfl, fun _ => rfl⟩
  | cons e l ih =>
    rw [delLoop, filter_cons]
    by_cases hd : Deletes shr e
    · simp [hd, ih.1]
    · simp only [hd, not_false_eq_true, decide_true, if_true]
      exact ⟨congrArg _ ih.1, fun h0 => congrArg _ (ih.2 h0)⟩

theorem after_del (shr : Shrlock) (l : List Shrlock) :
    (Call.del shr).after l = l.filter fun e => ¬Deletes shr e := by
  rw [← (delLoop_eq shr l).1]
  rw [Call.after, delShare]
  by_cases h0 : (delLoop shr l).2 = 0
  · rw [if_pos h0]
    exact ((delLoop_eq shr l).2 h0).symm
  · rw [if_neg h0]
    rfl

/-- In every run of careful calls the reservations are compatible, and no other
    call that is granted leaves them so. -/
theorem shares_compatible_iff (l : List Shrlock) (hr : shares.ReachableVia Careful l) :
    Compatible l ∧ ∀ c : Call, Compatible (c.after l) ↔ Careful l c := by
  have hstep : ∀ (l : List Shrlock) (c : Call), Compatible l ∧ (∀ e ∈ l, Stored e) →
      (∀ e ∈ c.after l, Stored e) ∧ (Compatible (c.after l) ↔ Careful l c) := by
    intro l c ⟨hc, hs⟩
    cases c with
    | add rdonly shr =>
      rw [Careful, slips_iff hc hs, Call.after, addShare_eq]
      by_cases hv : shr.Valid
      · by_cases hloop : addLoop rdonly shr l = true
        · obtain ⟨hnew, hiff⟩ := addShare_compatible hc hs hv.2.1 hloop rfl
          rw [if_pos hv, if_pos hloop]
          refine ⟨forall_mem_cons.mpr ⟨hnew, hs⟩, hiff.trans ?_⟩
          grind
        · rw [if_pos hv, if_neg hloop]
          exact ⟨hs, fun _ h => hloop h.2.1, fun _ => hc⟩
      · rw [if_neg hv]
        exact ⟨hs, fun _ h => hv h.1, fun _ => hc⟩
    | del shr =>
      rw [after_del]
      exact ⟨fun e he => hs e ((mem_filter.mp he).1), fun _ => trivial,
        fun _ a ha b hb => hc a ((mem_filter.mp ha).1) b ((mem_filter.mp hb).1)⟩
  have hinv : Compatible l ∧ ∀ e ∈ l, Stored e := by
    refine System.ReachableVia.invariant shares Careful
      (fun l => Compatible l ∧ ∀ e ∈ l, Stored e) ?_ ?_ l hr
    · rintro _ rfl
      exact ⟨nofun, nofun⟩
    · rintro l _ c h hcare ⟨⟩
      exact ⟨(hstep l c h).2.mpr hcare, (hstep l c h).1⟩
  exact ⟨hinv.1, fun c => (hstep l c hinv).2⟩

/-- A reservation of a local process. -/
def process (pid : Int32) (access : BitVec 16) : Shrlock := ⟨access, fCompat, 0, pid, []⟩

/-- Two processes that read. -/
theorem shares_compatible_readers : Compatible [process 2 fRdacc, process 1 fRdacc] :=
  (shares_compatible_iff _ (.step _ _ (.add false (process 2 fRdacc))
    (.step _ _ (.add false (process 1 fRdacc)) (.init [] rfl) (by decide) rfl) (by decide) rfl)).1

/-- The first of two processes that read comes back to write. -/
theorem shares_incompatible : ∃ l, shares.Reachable l ∧ ¬Compatible l :=
  ⟨_, System.reachable_get shares [.add false (process 1 fRdacc), .add false (process 2 fRdacc),
    .add false (process 1 fWracc)] [] rfl rfl, by decide⟩

/-! ### What is removed -/

/-- The system and the owner that a removal names. Without an owner it stands for
    a local process or for all of another system. -/
abbrev Asked (shr e : Shrlock) : Prop :=
  e.sysid = shr.sysid ∧ if shr.owner = [] then shr.sysid = 0 → e.pid = shr.pid
    else e.owner = shr.owner

/-- The modes that it names. -/
abbrev Modes (shr e : Shrlock) : Prop :=
  (shr.access ≠ 0 → e.access = shr.access) ∧ (shr.deny ≠ 0 → e.deny = shr.deny)

/-- Entries of other systems have neither the owner of the request nor, for one
    without an owner that is local, its process; local entries without an owner
    are then of that process; and what is asked for has the modes. -/
def Clear (shr e : Shrlock) : Prop :=
  (e.sysid ≠ shr.sysid → e.owner ≠ shr.owner ∧
    ¬(shr.owner = [] ∧ shr.sysid = 0 ∧ e.pid = shr.pid)) ∧
  (shr.owner = [] → shr.sysid = 0 → e.sysid = 0 → e.owner = [] → e.pid = shr.pid) ∧
  (Asked shr e → Modes shr e)

/-- A removal touches only its owner just if the list is clear. -/
theorem delShare_owner_iff (shr : Shrlock) (l : List Shrlock) :
    (∀ e ∈ l, e ∉ (Call.del shr).after l → Asked shr e ∧ Modes shr e) ↔ ∀ e ∈ l, Clear shr e := by
  rw [after_del]
  refine forall₂_congr fun e he => ?_
  unfold Clear
  grind

/-- The owner has the same name on two systems. -/
theorem delShare_other_system : ∃ shr e : Shrlock, ∃ l, e ∈ l ∧ e ∉ (Call.del shr).after l ∧
    e.sysid ≠ shr.sysid :=
  ⟨⟨0, 0, 1, 0, [7]⟩, ⟨fRdacc, 0, 2, 0, [7]⟩, [⟨fRdacc, 0, 2, 0, [7]⟩], by decide⟩

end Sol7.Share
