import Sol7.Streams.Queue

/-!
# A Queue as a List in Order of Priority

What the pointers, the counts and the flags of a queue say is put in terms of the
list of its messages. Nothing in the list outranks what is before it, so that the
messages of a band are next to each other. This is why `putq` and `putbq` can find
a place from the pointers of a band or from the last message alone, and why a
removal can repair the pointers of a band from the two neighbours.

A message is put on the queue at a cut: all messages before it are ranked at least
as high and all messages after it no higher. `putq` and `putbq` differ in the side
on which messages of the same class are.

## Main definitions

* `Msg.forced`: A message of high priority is in band zero.
* `Outranks`: One message goes before another in any case.
* `inBand`, `bytes`: The messages of a band and their bytes.
* `BandOk`: The record of a band agrees with the list.
* `Queue.Holds`: A queue agrees with a list.

## Theorems

* `Queue.Holds.insert`, `Queue.rmvqNoenab_holds`: Putting a message at a cut and
  taking one off.
* `putqPlace_spec`, `putbqPlace_spec`: The place is a cut.
* `putq_spec`, `putbq_spec`, `getqNoenab_spec`: The routines.
-/

namespace Sol7.Streams

open List Option Function

/-- A message as it is on a queue. -/
def Msg.forced (m : Msg) : Msg := { m with band := if qpctl ≤ m.dbType then 0 else m.band }

/-- A message goes before another one in any case. -/
def Outranks (m m' : Msg) : Prop :=
  queclass m' < queclass m ∨ queclass m' = queclass m ∧ m'.band < m.band

instance (m m' : Msg) : Decidable (Outranks m m') := inferInstanceAs (Decidable (_ ∨ _))

theorem queclass_cases (m : Msg) :
    qpctl ≤ m.dbType ∧ queclass m = 128 ∨ m.dbType < qpctl ∧ queclass m = 0 := by
  unfold queclass
  split
  · next h => exact .inl ⟨h, rfl⟩
  · next h => exact .inr ⟨lt_of_not_ge h, rfl⟩

theorem Outranks.below {m m' m'' : Msg} (h : Outranks m m') (hle : ¬Outranks m'' m') :
    Outranks m m'' := by
  unfold Outranks at *
  omega

theorem Outranks.above {m m' m'' : Msg} (h : Outranks m m') (hle : ¬Outranks m m'') :
    Outranks m'' m' := by
  unfold Outranks at *
  omega

theorem Outranks.not_outranks {m m' : Msg} (h : Outranks m m') : ¬Outranks m' m := by
  unfold Outranks at *
  omega

variable {ι : Type}

/-- The messages of a band. -/
def inBand (msg : ι → Msg) (band : Nat) (l : List ι) : List ι :=
  l.filter fun x => (msg x).band = band

/-- The bytes of some messages. -/
def bytes (msg : ι → Msg) (l : List ι) : Nat := (l.map fun x => (msg x).size).sum

/-- With a positive high-water mark the flag tells whether it is reached. -/
def FullOk (count hiwat : Nat) (full : Bool) : Prop := 0 < hiwat → (full = true ↔ hiwat ≤ count)

/-- The record of a band agrees with a list of messages. -/
structure BandOk (msg : ι → Msg) (l : List ι) (band : Nat) (b : Qband ι) : Prop where
  first : b.first = (inBand msg band l).head?
  last : b.last = (inBand msg band l).getLast?
  count : b.count = bytes msg (inBand msg band l)
  full : FullOk b.count b.hiwat b.full

/-- A change of the record of a band moves its pointers from one list to
    another. -/
def Repoints (msg : ι → Msg) (band : Nat) (l l' : List ι) (f : Qband ι → Qband ι) : Prop :=
  ∀ r, BandOk msg l band r → band ≠ 0 →
    (f r).first = (inBand msg band l').head? ∧ (f r).last = (inBand msg band l').getLast? ∧
      (f r).count = r.count ∧ (f r).hiwat = r.hiwat ∧ (f r).full = r.full

/-- Nothing outranks what is before it. -/
def Ordered (msg : ι → Msg) (l : List ι) : Prop := l.Pairwise fun x y => ¬Outranks (msg y) (msg x)

/-- A queue agrees with a list of messages. -/
structure Queue.Holds (q : Queue ι) (l : List ι) : Prop where
  list : q.list.Holds l
  ordered : Ordered q.msg l
  /-- Messages of high priority are in band zero. -/
  ctl : ∀ x ∈ l, qpctl ≤ (q.msg x).dbType → (q.msg x).band = 0
  nband : ∀ x ∈ l, (q.msg x).band ≤ q.bands.length
  bands : ∀ i b, q.bands[i]? = some b → BandOk q.msg l (i + 1) b
  count : q.count = bytes q.msg (inBand q.msg 0 l)
  full : FullOk q.count q.hiwat q.full

section
variable {msg : ι → Msg} {band : Nat} {l a b : List ι} {x y : ι}

theorem mem_inBand : x ∈ inBand msg band l ↔ x ∈ l ∧ (msg x).band = band := by simp [inBand]

theorem inBand_append : inBand msg band (a ++ b) = inBand msg band a ++ inBand msg band b :=
  filter_append ..

theorem inBand_insert_of_eq (h : (msg x).band = band) :
    inBand msg band (a ++ x :: b) = inBand msg band a ++ x :: inBand msg band b := by
  rw [inBand_append]
  congr 1
  exact filter_cons_of_pos (by simpa using h)

theorem inBand_insert_of_ne (h : (msg x).band ≠ band) :
    inBand msg band (a ++ x :: b) = inBand msg band (a ++ b) := by
  rw [inBand_append, inBand_append]
  congr 1
  exact filter_cons_of_neg (by simpa using h)

theorem inBand_eq_nil (h : ∀ y ∈ l, (msg y).band ≠ band) : inBand msg band l = [] :=
  filter_eq_nil_iff.mpr fun y hy => by simpa using h y hy

/-- The first message of a band. -/
theorem inBand_head (h : (inBand msg band l).head? = some x) :
    ∃ a b, l = a ++ x :: b ∧ (msg x).band = band ∧ ∀ y ∈ a, (msg y).band ≠ band := by
  obtain ⟨c, hc⟩ := head?_eq_some_iff.mp h
  obtain ⟨a, b, rfl, ha, hx, -⟩ := filter_eq_cons_iff.mp hc
  exact ⟨a, b, rfl, by simpa using hx, by simpa using ha⟩

/-- The last message of a band. -/
theorem inBand_last (h : (inBand msg band l).getLast? = some x) :
    ∃ a b, l = a ++ x :: b ∧ (msg x).band = band ∧ ∀ y ∈ b, (msg y).band ≠ band := by
  obtain ⟨c, hc⟩ := getLast?_eq_some_iff.mp h
  obtain ⟨a, b, rfl, -, hb⟩ := filter_eq_append_iff.mp hc
  obtain ⟨b1, b2, rfl, -, hx, hb2⟩ := filter_eq_cons_iff.mp hb
  exact ⟨a ++ b1, b2, by simp, by simpa using hx, by simpa using hb2⟩

theorem bytes_insert : bytes msg (a ++ x :: b) = bytes msg (a ++ b) + (msg x).size := by
  simp only [bytes, map_append, sum_append, map_cons, sum_cons]
  omega

variable {msg' : ι → Msg}

theorem inBand_congr (h : ∀ x ∈ l, msg' x = msg x) : inBand msg' band l = inBand msg band l :=
  filter_congr fun x hx => by rw [h x hx]

theorem bytes_congr (h : ∀ x ∈ l, msg' x = msg x) : bytes msg' l = bytes msg l := by
  unfold bytes
  congr 1
  exact map_congr_left fun x hx => by rw [h x hx]

/-- Nothing outranks the first message. -/
theorem Ordered.head (h : Ordered msg (x :: b)) (hy : y ∈ x :: b) : ¬Outranks (msg y) (msg x) := by
  rcases mem_cons.mp hy with rfl | hy
  · unfold Outranks
    omega
  · exact (pairwise_cons.mp h).1 y hy

/-- The last message outranks nothing. -/
theorem Ordered.last (h : Ordered msg (a ++ [x])) (hy : y ∈ a ++ [x]) :
    ¬Outranks (msg x) (msg y) := by
  rcases mem_append.mp hy with hy | hy
  · exact (pairwise_append.mp h).2.2 y hy x (mem_singleton_self x)
  · rw [mem_singleton.mp hy]
    unfold Outranks
    omega

theorem Ordered.right (h : Ordered msg (a ++ b)) : Ordered msg b := (pairwise_append.mp h).2.1

theorem Ordered.left (h : Ordered msg (a ++ b)) : Ordered msg a := (pairwise_append.mp h).1

theorem Ordered.remove (h : Ordered msg (a ++ x :: b)) : Ordered msg (a ++ b) :=
  h.sublist (List.Sublist.append_left (sublist_cons_self x b) a)

/-- A message at a cut is in order. -/
theorem Ordered.insert (h : Ordered msg (a ++ b)) (ha : ∀ y ∈ a, ¬Outranks (msg x) (msg y))
    (hb : ∀ y ∈ b, ¬Outranks (msg y) (msg x)) : Ordered msg (a ++ x :: b) := by
  obtain ⟨hpa, hpb, hab⟩ := pairwise_append.mp h
  exact pairwise_append.mpr ⟨hpa, pairwise_cons.mpr ⟨hb, hpb⟩, fun y hy =>
    forall_mem_cons.mpr ⟨ha y hy, hab y hy⟩⟩

theorem Ordered.congr (h : Ordered msg l) (heq : ∀ x ∈ l, msg' x = msg x) : Ordered msg' l := by
  refine List.Pairwise.imp_of_mem (fun hx hy hxy => ?_) h
  rw [heq _ hx, heq _ hy]
  exact hxy

end

variable {count hiwat size : Nat}

theorem FullOk.add {full : Bool} (h : FullOk count hiwat full) :
    FullOk (count + size) hiwat (full || decide (hiwat ≤ count + size)) := by
  intro hpos
  have := h hpos
  rw [Bool.or_eq_true, decide_eq_true_eq, this]
  omega

theorem FullOk.sub {full : Bool} (h : FullOk count hiwat full) :
    FullOk (count - size) hiwat (full && !decide (count - size < hiwat)) := by
  intro hpos
  have := h hpos
  rw [Bool.and_eq_true, Bool.not_eq_true', decide_eq_false_iff_not, this]
  omega

/-! ### Neighbours in a band -/

section
variable {msg : ι → Msg} {a b : List ι} {x : ι}

/-- The first message after `x` that is in its band follows `x` directly. -/
theorem head_inBand (h : Ordered msg (x :: b)) (hctl : ∀ y ∈ x :: b,
    qpctl ≤ (msg y).dbType → (msg y).band = 0) (hband : (msg x).band ≠ 0) :
    (inBand msg (msg x).band b).head? = b.head?.filter fun y => (msg x).band = (msg y).band := by
  cases b with
  | nil => rfl
  | cons n b =>
    rw [head?_cons, filter_some]
    by_cases hn : (msg n).band = (msg x).band
    · simp [inBand, hn]
    -- Then `x` outranks the next message and all after it.
    have hempty : inBand msg (msg x).band (n :: b) = [] := by
      refine inBand_eq_nil fun y hy heq => ?_
      have hxn := h.head (mem_cons_of_mem x mem_cons_self)
      have hny := (Ordered.right (a := [x]) h).head hy
      have hx := hctl x mem_cons_self
      have hcx := queclass_cases (msg x)
      unfold Outranks at hxn hny
      omega
    simp [hempty, Ne.symm hn]

/-- The last message before `x` that is in its band is directly before `x`. -/
theorem last_inBand (h : Ordered msg (a ++ [x])) (hctl : ∀ y ∈ a ++ [x],
    qpctl ≤ (msg y).dbType → (msg y).band = 0) (hband : (msg x).band ≠ 0) :
    (inBand msg (msg x).band a).getLast? =
      a.getLast?.filter fun y => (msg x).band = (msg y).band := by
  rcases eq_nil_or_concat' a with rfl | ⟨a, n, rfl⟩
  · rfl
  rw [getLast?_concat, filter_some]
  by_cases hn : (msg n).band = (msg x).band
  · simp [inBand, hn]
  have hempty : inBand msg (msg x).band (a ++ [n]) = [] := by
    refine inBand_eq_nil fun y hy heq => ?_
    have hxn := h.last (mem_append_left [x] (mem_append_right a
      (mem_singleton_self n)))
    have hny := h.left.last hy
    have hyc := hctl y (mem_append_left _ hy)
    have hcy := queclass_cases (msg y)
    unfold Outranks at hxn hny
    omega
  simp [hempty, Ne.symm hn]

end

/-! ### Putting a message on and taking one off -/

namespace Queue

variable {q q' : Queue ι} {l a b : List ι} {x : ι} {f : Qband ι → Qband ι} {band i fuel : Nat}

theorem getElem?_setQband : (q.setQband band f).bands[i]? =
      if band = i + 1 then (q.bands[i]?).map f else q.bands[i]? := by
  unfold setQband
  by_cases hband : band = 0
  · rw [if_pos hband, if_neg (by omega)]
  rw [if_neg hband]
  by_cases hi : band = i + 1
  · simp [hi]
  · have hi' : band - 1 ≠ i := by omega
    simp [hi, hi']

theorem length_setQband : (q.setQband band f).bands.length = q.bands.length := by
  unfold setQband
  split
  · rfl
  · exact length_modify ..

/-- Only the pointers, the counts and the marks matter. -/
theorem Holds.congr (h : q.Holds l) (hlist : q'.list = q.list) (hmsg : q'.msg = q.msg)
    (hcount : q'.count = q.count) (hhiwat : q'.hiwat = q.hiwat) (hfull : q'.full = q.full)
    (hlen : q'.bands.length = q.bands.length)
    (hbands : ∀ (i : Nat) r, q'.bands[i]? = some r → ∃ r0, q.bands[i]? = some r0 ∧
      r.first = r0.first ∧
      r.last = r0.last ∧ r.count = r0.count ∧ r.hiwat = r0.hiwat ∧ r.full = r0.full) :
    q'.Holds l := by
  refine ⟨hlist ▸ h.list, hmsg ▸ h.ordered, hmsg ▸ h.ctl, ?_, fun i r hr => ?_, ?_, ?_⟩
  · rw [hmsg, hlen]
    exact h.nband
  · obtain ⟨r0, hr0, hfirst, hlast, hc, hh, hf⟩ := hbands i r hr
    obtain ⟨h1, h2, h3, h4⟩ := h.bands i r0 hr0
    rw [hmsg]
    refine ⟨hfirst.trans h1, hlast.trans h2, hc.trans h3, ?_⟩
    rw [hc, hh, hf]
    exact h4
  · rw [hcount, hmsg, h.count]
  · rw [hcount, hhiwat, hfull]
    exact h.full

/-- The list changes in one band, and the bytes of that band are counted anew. -/
theorem Holds.recount {l' : List ι} {d : Dll ι} {u : Nat → Nat} {v : Bool → Nat → Nat → Bool}
    (h : q.Holds l) (hd : d.Holds l') (hord : Ordered q.msg l')
    (hctl : ∀ y ∈ l', qpctl ≤ (q.msg y).dbType → (q.msg y).band = 0)
    (hnband : ∀ y ∈ l', (q.msg y).band ≤ q.bands.length)
    (hother : ∀ c, band ≠ c → inBand q.msg c l' = inBand q.msg c l)
    (hcount : bytes q.msg (inBand q.msg band l') = u (bytes q.msg (inBand q.msg band l)))
    (hfull : ∀ n hiwat full, FullOk n hiwat full → FullOk (u n) hiwat (v full hiwat n))
    (hf : Repoints q.msg band l l' f) : Holds (if band = 0 then
        { { q with list := d }.setQband band f with
          count := u q.count, full := v q.full q.hiwat q.count }
      else ({ q with list := d }.setQband band f).setQband band fun r =>
        { r with count := u r.count, full := v r.full r.hiwat r.count }) l' := by
  have hbands : ∀ (i : Nat) r, band ≠ i + 1 → q.bands[i]? = some r → BandOk q.msg l' (i + 1) r := by
    intro i r hi hr
    obtain ⟨h1, h2, h3, h4⟩ := h.bands i r hr
    rw [← hother (i + 1) hi] at h1 h2 h3
    exact ⟨h1, h2, h3, h4⟩
  by_cases hband : band = 0
  · -- The queue itself counts the bytes.
    rw [if_pos hband]
    refine ⟨hd, hord, hctl, fun y hy => ?_, fun i r hr => ?_, ?_, hfull _ _ _ h.full⟩
    · exact le_trans (hnband y hy) (le_of_eq length_setQband.symm)
    · have hr' := getElem?_setQband.symm.trans hr
      rw [if_neg (by omega)] at hr'
      exact hbands i r (by omega) hr'
    · change u q.count = bytes q.msg (inBand q.msg 0 l')
      rw [← hband, hcount, h.count, hband]
  · rw [if_neg hband]
    refine ⟨hd, hord, hctl, fun y hy => ?_, fun i r hr => ?_, ?_, h.full⟩
    · rw [length_setQband, length_setQband]
      exact hnband y hy
    · change BandOk q.msg l' (i + 1) r
      rw [getElem?_setQband, getElem?_setQband] at hr
      by_cases hi : band = i + 1
      · rw [if_pos hi, if_pos hi, Option.map_map] at hr
        obtain ⟨r0, hr0, rfl⟩ := map_eq_some_iff.mp hr
        have hok := h.bands i r0 hr0
        rw [← hi] at hok ⊢
        obtain ⟨hfirst, hlast, hc, hhiwat, hf0⟩ := hf r0 hok hband
        refine ⟨hfirst, hlast, ?_, ?_⟩
        · change u (f r0).count = _
          rw [hc, hok.count, hcount]
        · change FullOk (u (f r0).count) (f r0).hiwat (v (f r0).full (f r0).hiwat (f r0).count)
          rw [hc, hhiwat, hf0]
          exact hfull _ _ _ hok.full
      · rw [if_neg hi, if_neg hi] at hr
        exact hbands i r hi hr
    · change q.count = bytes q.msg (inBand q.msg 0 l')
      rw [hother 0 hband]
      exact h.count

theorem bytes_inBand_insert : bytes q.msg (inBand q.msg (q.msg x).band (a ++ x :: b)) =
    bytes q.msg (inBand q.msg (q.msg x).band (a ++ b)) + (q.msg x).size := by
  rw [inBand_insert_of_eq rfl, bytes_insert, ← inBand_append]

/-- A message is put at a cut of the list. The pointers of its band have to be
    set right. -/
theorem Holds.insert [DecidableEq ι] (h : q.Holds (a ++ b)) (hx : x ∉ a ++ b)
    (hctl : qpctl ≤ (q.msg x).dbType → (q.msg x).band = 0)
    (hnband : (q.msg x).band ≤ q.bands.length) (ha : ∀ y ∈ a, ¬Outranks (q.msg x) (q.msg y))
    (hb : ∀ y ∈ b, ¬Outranks (q.msg y) (q.msg x))
    (hf : Repoints q.msg (q.msg x).band (a ++ b) (a ++ x :: b) f) :
    (q.place x a.getLast? b.head? f).Holds (a ++ x :: b) := by
  have hmem : ∀ y ∈ a ++ x :: b, y = x ∨ y ∈ a ++ b := by
    intro y hy
    simp only [mem_append, mem_cons] at hy ⊢
    tauto
  refine h.recount (u := (· + (q.msg x).size))
    (v := fun full hiwat n => full || decide (hiwat ≤ n + (q.msg x).size)) (h.list.link hx)
    (h.ordered.insert ha hb) (fun y hy => ?_) (fun y hy => ?_) (fun c hc => inBand_insert_of_ne hc)
    bytes_inBand_insert (fun n hiwat full hfull => hfull.add) hf
  · rcases hmem y hy with rfl | hy
    · exact hctl
    · exact h.ctl y hy
  · rcases hmem y hy with rfl | hy
    · exact hnband
    · exact h.nband y hy

/-- A message is taken off the list. The pointers of its band have to be set
    right. -/
theorem Holds.remove {d : Dll ι} (h : q.Holds (a ++ x :: b)) (hd : d.Holds (a ++ b))
    (hf : Repoints q.msg (q.msg x).band (a ++ x :: b) (a ++ b) f) :
    (({ q with list := d }.setQband (q.msg x).band f).subCount x).Holds (a ++ b) := by
  have hmem : ∀ y ∈ a ++ b, y ∈ a ++ x :: b := by
    intro y hy
    simp only [mem_append, mem_cons] at hy ⊢
    tauto
  exact h.recount (u := (· - (q.msg x).size))
    (v := fun full hiwat n => full && !decide (n - (q.msg x).size < hiwat)) hd h.ordered.remove
    (fun y hy => h.ctl y (hmem y hy)) (fun y hy => h.nband y (hmem y hy))
    (fun c hc => (inBand_insert_of_ne hc).symm) (Nat.eq_sub_of_add_eq bytes_inBand_insert.symm)
    (fun n hiwat full hfull => hfull.sub) hf

/-! ### The place for a message -/

/-- A scan from some message on ends at the first one that fails the test. -/
theorem scan_from {p : ι → Bool} (h : q.Holds (a ++ b)) (hfail : ∃ y ∈ b, p y = false)
    (hfuel : b.length < fuel) :
    ∃ b1 t b2, b = b1 ++ t :: b2 ∧ (∀ y ∈ b1, p y = true) ∧ p t = false ∧
      scan q.list.next p fuel b.head? = some (some t) ∧ q.list.prev t = (a ++ b1).getLast? := by
  have hscan := scan_spec (p := p) h.list.fwd.drop hfuel
  rcases hfind : b.find? (fun y => !p y) with _ | t
  · obtain ⟨y, hy, hpy⟩ := hfail
    have := find?_eq_none.mp hfind y hy
    simp [hpy] at this
  obtain ⟨ht, b1, b2, rfl, hb1⟩ := find?_eq_some_iff_append.mp hfind
  refine ⟨b1, t, b2, rfl, fun y hy => by simpa using hb1 y hy, by simpa using ht, ?_, ?_⟩
  · rw [hscan, hfind]
  · have hlist := h.list
    rw [← append_assoc] at hlist
    exact hlist.prev_eq

/-- A place in the list, with the messages that pass a test before it. -/
def Placed (l : List ι) (A : ι → Prop) (place : Option (Option ι × Option ι)) : Prop :=
  ∃ a b, l = a ++ b ∧ place = some (a.getLast?, b.head?) ∧ (∀ y ∈ a, A y) ∧ ∀ y ∈ b, ¬A y

/-- What ranks as high as a message that passes the test does so too. -/
def Upward (msg : ι → Msg) (A : ι → Prop) : Prop := ∀ y z, ¬Outranks (msg z) (msg y) → A z → A y

theorem upward_not_outranked (q : Queue ι) (x : ι) :
    Upward q.msg fun y => ¬Outranks (q.msg x) (q.msg y) :=
  fun _ _ hle hz hout => hz (hout.below hle)

theorem upward_outranks (q : Queue ι) (x : ι) : Upward q.msg fun y => Outranks (q.msg y) (q.msg x) :=
  fun _ _ hle hz => hz.above hle

variable {A : ι → Prop} {t : ι}

theorem Placed.before (h : q.Holds (a ++ t :: b)) (hA : Upward q.msg A) (ha : ∀ y ∈ a, A y)
    (ht : ¬A t) : Placed (a ++ t :: b) A (some (a.getLast?, some t)) :=
  ⟨a, t :: b, rfl, rfl, ha, fun y hy hAy => ht (hA t y (h.ordered.right.head hy) hAy)⟩

theorem Placed.after (h : q.Holds (a ++ t :: b)) (hA : Upward q.msg A) (ht : A t)
    (hb : ∀ y ∈ b, ¬A y) : Placed (a ++ t :: b) A (some (some t, b.head?)) := by
  have hord := h.ordered
  rw [append_cons] at hord
  exact ⟨a ++ [t], b, append_cons .., by simp, fun y hy => hA y t (hord.left.last hy) ht, hb⟩

section
variable (h : q.Holds l)
include h

/-- The place that is found by going past the messages of high priority and then
    past those whose band passes a test. -/
theorem scan_past {p : ι → Bool} {first last : ι} (hfirst : l.head? = some first)
    (hlast : l.getLast? = some last) (hclass : queclass (q.msg last) = 0) (hp : p last = false)
    (hfuel : l.length < fuel) : ∃ t1 a t b, l = a ++ t :: b ∧
      scan q.list.next (fun t => qpctl ≤ (q.msg t).dbType) fuel (some first) = some (some t1) ∧
      q.before (scan q.list.next p fuel (some t1)) = some (a.getLast?, some t) ∧
      (∀ y ∈ a, queclass (q.msg y) = 128 ∨ p y = true) ∧ p t = false ∧ queclass (q.msg t) = 0 := by
  have hmem := mem_of_getLast? hlast
  have hnormal : ∀ y : ι, decide (qpctl ≤ (q.msg y).dbType) = false ↔ queclass (q.msg y) = 0 := by
    intro y
    have hcy := queclass_cases (q.msg y)
    rw [decide_eq_false_iff_not]
    omega
  obtain ⟨a1, t1, b1, rfl, ha1, ht1, hscan1, -⟩ :=
      scan_from (p := fun t => qpctl ≤ (q.msg t).dbType) (a := []) h
      ⟨last, hmem, (hnormal last).mpr hclass⟩ hfuel
  rw [hfirst] at hscan1
  rw [getLast?_append_of_ne_nil _ (by simp)] at hlast
  have hfuel1 : (t1 :: b1).length < fuel := by
    rw [length_append] at hfuel
    omega
  obtain ⟨a2, t2, b2, heq2, ha2, ht2, hscan2, hprev2⟩ :=
      scan_from h ⟨last, mem_of_getLast? hlast, hp⟩ hfuel1
  refine ⟨t1, a1 ++ a2, t2, b2, by rw [heq2, append_assoc], hscan1, ?_, fun y hy => ?_, ht2, ?_⟩
  · rw [head?_cons] at hscan2
    rw [hscan2, before, hprev2]
  · rcases mem_append.mp hy with hy | hy
    · have hcy := queclass_cases (q.msg y)
      have := ha1 y hy
      simp only [decide_eq_true_eq] at this
      exact .inl (by omega)
    · exact .inr (ha2 y hy)
  · -- After the first message that is not of high priority there is none.
    have hmem2 : t2 ∈ t1 :: b1 := by rw [heq2]; simp
    have hno := (Ordered.right h.ordered).head hmem2
    have hc1 := (hnormal t1).mp ht1
    unfold Outranks at hno
    omega

/-- A band other than zero has a record. -/
theorem Holds.qband (hband : band ≠ 0) (hle : band ≤ q.bands.length) :
    ∃ r, q.qband band = some r ∧ BandOk q.msg l band r := by
  have hlt : band - 1 < q.bands.length := by omega
  have hget := getElem?_eq_getElem hlt
  have hok := h.bands _ _ hget
  rw [Nat.sub_add_cancel (by omega)] at hok
  exact ⟨_, by rw [Queue.qband, if_neg hband, hget], hok⟩

omit h in
/-- The place that both routines look for when no message of the band is on the
    queue. -/
theorem placed_rest {R : Nat → Prop} [DecidablePred R] {first last : ι} (h : q.Holds (l ++ [last]))
    (hfirst : (l ++ [last]).head? = some first) (hfuel : (l ++ [last]).length < fuel)
    (hclass : queclass (q.msg x) = 0) (hA : Upward q.msg A)
    (hpast : ∀ y, 0 < queclass (q.msg y) ∨ R (q.msg y).band → A y)
    (hat : ∀ y, queclass (q.msg y) = 0 → ¬R (q.msg y).band → ¬A y) : Placed (l ++ [last]) A
      (if queclass (q.msg x) < queclass (q.msg last) ∨ R (q.msg last).band then some (some last, none)
        else
          match scan q.list.next (fun t => qpctl ≤ (q.msg t).dbType) fuel (some first) with
          | some (some tmp) =>
            q.before (scan q.list.next (fun t => R (q.msg t).band) fuel (some tmp))
          | _ => none) := by
  rw [hclass]
  split
  · next hlow => exact .after h hA (hpast last hlow) (by simp)
  next hgt =>
  rw [not_or] at hgt
  rcases scan_past (p := fun t => R (q.msg t).band) h hfirst getLast?_concat (by omega)
      (by simpa using hgt.2) hfuel with ⟨t1, a, t, b, heq, hscan1, hscan2, ha, ht, hct⟩
  rw [hscan1]
  dsimp only
  rw [hscan2]
  rw [heq] at h ⊢
  refine .before h hA (fun y hy => hpast y ?_) (hat t hct (by simpa using ht))
  exact (ha y hy).imp (fun hhigh => by omega) fun hR => by simpa using hR

/-- `putq` puts a message after all messages that it does not outrank. -/
theorem putqPlace_spec (hctl : qpctl ≤ (q.msg x).dbType → (q.msg x).band = 0)
    (hnband : (q.msg x).band ≤ q.bands.length) (hfuel : l.length < fuel) :
    Placed l (fun y => ¬Outranks (q.msg x) (q.msg y)) (q.putqPlace fuel x) := by
  have hcx := queclass_cases (q.msg x)
  have hA := upward_not_outranked q x
  unfold putqPlace
  rcases eq_nil_or_concat' l with rfl | ⟨l', last, rfl⟩
  · rw [h.list.first_eq]
    exact ⟨[], [], rfl, rfl, by simp, by simp⟩
  rcases hfirst : (l' ++ [last]).head? with _ | first
  · simp at hfirst
  rw [h.list.first_eq, hfirst, h.list.last_eq, getLast?_concat]
  dsimp only
  by_cases hband : (q.msg x).band = 0
  · have hqband : q.qband (q.msg x).band = none := if_pos hband
    rw [hqband]
    dsimp only
    split
    · next hle =>
      refine .after h hA ?_ (by simp)
      unfold Outranks
      omega
    next hlt =>
    -- A message of high priority goes before the first one that is not.
    have hmemlast : last ∈ l' ++ [last] := mem_append_right _ (mem_singleton_self last)
    have hsplit : q.Holds ([] ++ (l' ++ [last])) := h
    obtain ⟨a, t, b, heq, ha, ht, hscan, hprev⟩ :=
        scan_from (p := fun t => queclass (q.msg x) ≤ queclass (q.msg t)) hsplit
        ⟨last, hmemlast, by simpa using hlt⟩ hfuel
    rw [hfirst] at hscan
    rw [hscan, Queue.before, hprev]
    rw [heq] at h ⊢
    refine .before h hA (fun y hy hout => ?_) fun hout => hout (.inl (by simpa using ht))
    have hle := ha y hy
    simp only [decide_eq_true_eq] at hle
    unfold Outranks at hout
    omega
  · have hclass : queclass (q.msg x) = 0 := by omega
    obtain ⟨r, hqband, hok⟩ := h.qband hband hnband
    rw [hqband]
    dsimp only
    split
    · next hne =>
      -- After the last message of the band.
      rcases ht : (inBand q.msg (q.msg x).band (l' ++ [last])).getLast? with _ | t
      · rw [getLast?_eq_none_iff] at ht
        rw [hok.first, ht] at hne
        exact absurd rfl hne
      obtain ⟨a, b, heq, htband, hb⟩ := inBand_last ht
      rw [hok.last, ht]
      rw [heq] at h ⊢
      have hct := h.ctl t (by simp)
      have hcases := queclass_cases (q.msg t)
      dsimp only
      rw [h.list.next_eq]
      refine .after h hA ?_ fun y hy hno => hno ?_
      · unfold Outranks
        omega
      · have hyt := h.ordered.right.head (mem_cons_of_mem t hy)
        have hyband := hb y hy
        unfold Outranks at *
        omega
    · refine placed_rest (R := fun n => (q.msg x).band ≤ n) h hfirst hfuel hclass hA
        (fun y hy => ?_) fun y hcy hR hno => hno ?_
      · unfold Outranks
        omega
      · unfold Outranks
        omega

/-- `putbq` puts a message before all messages that do not outrank it. -/
theorem putbqPlace_spec (hnband : (q.msg x).band ≤ q.bands.length) (hfuel : l.length < fuel) :
    Placed l (fun y => Outranks (q.msg y) (q.msg x)) (q.putbqPlace fuel x) := by
  have hcx := queclass_cases (q.msg x)
  have hA := upward_outranks q x
  unfold putbqPlace
  rcases eq_nil_or_concat' l with rfl | ⟨l', last, rfl⟩
  · rw [h.list.first_eq]
    exact ⟨[], [], rfl, rfl, by simp, by simp⟩
  rcases hfirst : (l' ++ [last]).head? with _ | first
  · simp at hfirst
  rw [h.list.first_eq, hfirst, h.list.last_eq, getLast?_concat]
  dsimp only
  split
  · next hpctl =>
    refine ⟨[], l' ++ [last], rfl, by rw [hfirst]; rfl, by simp, fun y hy hout => ?_⟩
    have hcy := queclass_cases (q.msg y)
    have hcty := h.ctl y hy
    unfold Outranks at hout
    omega
  · next hnorm =>
    have hclass : queclass (q.msg x) = 0 := by
      unfold qpctl at hnorm hcx
      omega
    -- No message of the band is on the queue.
    have hrest := placed_rest (R := fun n => (q.msg x).band < n) h hfirst hfuel hclass hA
      (fun y hy => by unfold Outranks; omega) fun y hcy hR hout => by unfold Outranks at hout; omega
    by_cases hband : (q.msg x).band = 0
    · have hqband : q.qband (q.msg x).band = none := if_pos hband
      rw [hqband]
      exact hrest
    obtain ⟨r, hqband, hok⟩ := h.qband hband hnband
    rw [hqband]
    obtain ⟨rfirst, rlast, rcount, rhiwat, rlowat, rfull, rwantw⟩ := r
    cases rfirst with
    | none => exact hrest
    | some t =>
      obtain ⟨a, b, heq, htband, ha⟩ := inBand_head hok.first.symm
      rw [heq] at h ⊢
      have hct := h.ctl t (by simp)
      have hcases := queclass_cases (q.msg t)
      dsimp only
      rw [h.list.prev_eq]
      refine .before h hA (fun y hy => ?_) ?_
      · have hyt := (pairwise_append.mp h.ordered).2.2 y hy t mem_cons_self
        have hyband := ha y hy
        unfold Outranks at *
        omega
      · unfold Outranks
        omega

/-! ### The routines -/

/-- The records of new bands agree with a queue that has no message in them. -/
theorem Holds.allocBands (band : Nat) : (q.allocBands band).Holds l := by
  refine { h with nband := fun y hy => ?_, bands := fun i r hr => ?_ }
  · have := h.nband y hy
    unfold Queue.allocBands
    dsimp only
    rw [length_append]
    omega
  by_cases hi : i < q.bands.length
  · unfold Queue.allocBands at hr
    rw [getElem?_append_left hi] at hr
    exact h.bands i r hr
  unfold Queue.allocBands at hr
  rw [getElem?_append_right (le_of_not_gt hi)] at hr
  have hr' := eq_of_mem_replicate (mem_of_getElem? hr)
  have hempty : inBand q.msg (i + 1) l = [] := by
    refine inBand_eq_nil fun y hy heq => ?_
    have := h.nband y hy
    omega
  subst hr'
  refine ⟨?_, ?_, ?_, ?_⟩
  · change none = (inBand q.msg (i + 1) l).head?
    rw [hempty]
    rfl
  · change none = (inBand q.msg (i + 1) l).getLast?
    rw [hempty]
    rfl
  · change 0 = bytes q.msg (inBand q.msg (i + 1) l)
    rw [hempty]
    rfl
  · intro hpos
    change 0 < q.hiwat at hpos
    simp only [Bool.false_eq_true, false_iff]
    omega

/-- When `putq` and `putbq` take a band to be empty, it is. -/
theorem Holds.none_inBand {r : Qband ι} (hr : BandOk q.msg l band r)
    (hnone : q.list.first.isNone = true ∨ r.first = none) : inBand q.msg band l = [] := by
  rcases hnone with hnone | hnone
  · rw [h.list.first_eq, isNone_iff_eq_none, head?_eq_none_iff] at hnone
    rw [hnone]
    rfl
  · rw [hr.first] at hnone
    exact head?_eq_none_iff.mp hnone

end

/-- The message is the last one of its band. -/
theorem putqBand_repoints (h : q.Holds (a ++ b))
    (hb : (q.msg x).band ≠ 0 → inBand q.msg (q.msg x).band b = []) :
    Repoints q.msg (q.msg x).band (a ++ b) (a ++ x :: b) (putqBand q.list.first.isNone x) := by
  intro r hr hband
  have hempty := hb hband
  have happ : inBand q.msg (q.msg x).band (a ++ b) = inBand q.msg (q.msg x).band a := by
    rw [inBand_append, hempty, append_nil]
  refine ⟨?_, ?_, rfl, rfl, rfl⟩
  · rw [putqBand, inBand_insert_of_eq rfl]
    split
    · next hnone =>
      rw [← happ, h.none_inBand hr hnone]
      rfl
    · next hsome =>
      rw [hr.first, happ, head?_append_of_ne_nil]
      intro hnil
      exact hsome (.inr (by rw [hr.first, happ, hnil]; rfl))
  · rw [putqBand, inBand_insert_of_eq rfl, hempty, getLast?_concat]

/-- The message is the first one of its band. -/
theorem putbqBand_repoints (h : q.Holds (a ++ b))
    (ha : (q.msg x).band ≠ 0 → inBand q.msg (q.msg x).band a = []) :
    Repoints q.msg (q.msg x).band (a ++ b) (a ++ x :: b) (putbqBand q.list.first.isNone x) := by
  intro r hr hband
  have hempty := ha hband
  have happ : inBand q.msg (q.msg x).band (a ++ b) = inBand q.msg (q.msg x).band b := by
    rw [inBand_append, hempty, nil_append]
  refine ⟨?_, ?_, rfl, rfl, rfl⟩
  · rw [inBand_insert_of_eq rfl, hempty]
    rfl
  rw [putbqBand, inBand_insert_of_eq rfl, hempty]
  split
  · next hnone =>
    rw [← happ, h.none_inBand hr hnone]
    rfl
  · next hsome =>
    have hne : inBand q.msg (q.msg x).band b ≠ [] := fun hnil =>
      hsome (.inr (by rw [hr.first, happ, hnil]; rfl))
    rw [hr.last, happ]
    exact (getLast?_append_of_ne_nil [x] hne).symm

/-- The bytes are counted off and nothing else changes. -/
theorem subCount_fields (x : ι) : (q.subCount x).list = q.list ∧ (q.subCount x).msg = q.msg := by
  unfold subCount
  split <;> exact ⟨rfl, rfl⟩

variable [DecidableEq ι]

@[simp] theorem forceBand_list : (q.forceBand x).list = q.list := by
  unfold forceBand
  split <;> rfl

/-- A message of high priority is in band zero, and the others stay. -/
theorem forceBand_msg : (q.forceBand x).msg = update q.msg x (q.msg x).forced := by
  have hcases := queclass_cases (q.msg x)
  unfold forceBand Msg.forced
  split
  · next hpctl =>
    have hle : qpctl ≤ (q.msg x).dbType := by omega
    rw [if_pos hle]
  · next hnorm =>
    have hlt : ¬qpctl ≤ (q.msg x).dbType := by
      unfold qpctl at *
      omega
    rw [if_neg hlt, Function.update_eq_self]

/-- A message that is not on the queue may change. -/
theorem Holds.store (h : q.Holds l) (hx : x ∉ l) (m : Msg) :
    Holds { q with msg := update q.msg x m } l := by
  have hmsg : ∀ y ∈ l, update q.msg x m y = q.msg y := fun y hy =>
    update_of_ne (fun heq : y = x => hx (heq ▸ hy)) _ _
  refine ⟨h.list, h.ordered.congr hmsg, fun y hy => ?_, fun y hy => ?_, fun i r hr => ?_, ?_,
    h.full⟩
  · dsimp only
    rw [hmsg y hy]
    exact h.ctl y hy
  · dsimp only
    rw [hmsg y hy]
    exact h.nband y hy
  · obtain ⟨h1, h2, h3, h4⟩ := h.bands i r hr
    refine ⟨?_, ?_, ?_, h4⟩
    · rw [inBand_congr hmsg, h1]
    · rw [inBand_congr hmsg, h2]
    · rw [inBand_congr hmsg, bytes_congr fun y hy => hmsg y (mem_inBand.mp hy).1, h3]
  · rw [inBand_congr hmsg, bytes_congr fun y hy => hmsg y (mem_inBand.mp hy).1, h.count]

theorem Holds.forceBand (h : q.Holds l) (hx : x ∉ l) : (q.forceBand x).Holds l := by
  unfold Queue.forceBand
  split
  · exact h.store hx _
  · exact h

/-- What the sanity checks give. -/
theorem prepare_spec (h : q.Holds l) (hx : x ∉ l) : (q.prepare x).Holds l ∧
      (qpctl ≤ ((q.prepare x).msg x).dbType → ((q.prepare x).msg x).band = 0) ∧
      ((q.prepare x).msg x).band ≤ (q.prepare x).bands.length := by
  refine ⟨(h.forceBand hx).allocBands _, fun hle => ?_, ?_⟩
  · change ((q.forceBand x).msg x).band = 0
    change qpctl ≤ ((q.forceBand x).msg x).dbType at hle
    rw [forceBand_msg, update_self] at hle ⊢
    exact if_pos hle
  · change ((q.forceBand x).msg x).band ≤ (_ ++ List.replicate _ _).length
    rw [length_append, length_replicate]
    omega

/-- What a routine that puts a message on the queue does to the rest. -/
structure Puts (q q' : Queue ι) (x : ι) (l : List ι) : Prop where
  msg : q'.msg = (q.forceBand x).msg
  next : ∀ y, y ≠ x → y ∉ l → q'.list.next y = q.list.next y

theorem place_fields (p n : Option ι) (f : Qband ι → Qband ι) :
    (q.place x p n f).list = q.list.link p x n ∧ (q.place x p n f).msg = q.msg := by
  unfold place addCount
  split <;> exact ⟨rfl, rfl⟩

/-- The part that `putq` and `putbq` have in common. -/
theorem put_spec (e : Bool) (h : q.Holds (a ++ b)) (hx : x ∉ a ++ b)
    (ha : ∀ y ∈ a, ¬Outranks ((q.prepare x).msg x) ((q.prepare x).msg y))
    (hb : ∀ y ∈ b, ¬Outranks ((q.prepare x).msg y) ((q.prepare x).msg x))
    (hf : Repoints (q.prepare x).msg ((q.prepare x).msg x).band (a ++ b) (a ++ x :: b) f) :
    Holds { (q.prepare x).place x a.getLast? b.head? f with enab := e } (a ++ x :: b) ∧
      Puts q { (q.prepare x).place x a.getLast? b.head? f with enab := e } x (a ++ b) := by
  obtain ⟨h1, hctl, hnband⟩ := prepare_spec h hx
  have hi := h1.insert hx hctl hnband ha hb hf
  obtain ⟨hlist, hmsg⟩ := place_fields a.getLast? b.head? f
  refine ⟨hi.congr rfl rfl rfl rfl rfl rfl fun i r hr => ⟨r, hr, rfl, rfl, rfl, rfl, rfl⟩,
    hmsg, fun y hy hyl => ?_⟩
  rw [hlist, Dll.link_next_of_ne hy fun heq =>
    hyl (mem_append_left _ (mem_of_getLast? heq))]
  exact congrArg (fun d => Dll.next d y) forceBand_list

/-- A message is put on the queue after all messages that it does not outrank. -/
theorem putq_spec (h : q.Holds l) (hx : x ∉ l) (hfuel : l.length < fuel) :
    ∃ q', q.putq fuel x = some q' ∧ ∃ a b, l = a ++ b ∧ q'.Holds (a ++ x :: b) ∧ Puts q q' x l ∧
      (∀ y ∈ a, ¬Outranks (q'.msg x) (q'.msg y)) ∧ ∀ y ∈ b, Outranks (q'.msg x) (q'.msg y) := by
  obtain ⟨h1, hctl, hnband⟩ := prepare_spec h hx
  obtain ⟨a, b, rfl, hplace, ha, hb⟩ := putqPlace_spec h1 hctl hnband hfuel
  have hf := putqBand_repoints (x := x) h1 fun hband => inBand_eq_nil fun y hy heq => by
    have hcx := queclass_cases ((q.prepare x).msg x)
    have := not_not.mp (hb y hy)
    unfold Outranks at this
    omega
  unfold putq
  dsimp only
  rw [hplace]
  have hput := fun e => put_spec e h hx ha (fun y hy => (not_not.mp (hb y hy)).not_outranks) hf
  refine ⟨_, rfl, a, b, rfl, (hput _).1, (hput _).2, ?_, ?_⟩
  · rw [(hput _).2.msg]
    exact ha
  · rw [(hput _).2.msg]
    exact fun y hy => not_not.mp (hb y hy)

/-- A message is put on the queue before all messages that do not outrank it. -/
theorem putbq_spec (h : q.Holds l) (hx : x ∉ l) (hfuel : l.length < fuel) :
    ∃ q', q.putbq fuel x = some q' ∧ ∃ a b, l = a ++ b ∧ q'.Holds (a ++ x :: b) ∧ Puts q q' x l ∧
      (∀ y ∈ a, Outranks (q'.msg y) (q'.msg x)) ∧ ∀ y ∈ b, ¬Outranks (q'.msg y) (q'.msg x) := by
  obtain ⟨h1, hctl, hnband⟩ := prepare_spec h hx
  obtain ⟨a, b, rfl, hplace, ha, hb⟩ := putbqPlace_spec h1 hnband hfuel
  have hf := putbqBand_repoints (x := x) h1 fun hband => inBand_eq_nil fun y hy heq => by
    have := ha y hy
    have hcy := queclass_cases ((q.prepare x).msg y)
    have hctly := h1.ctl y (mem_append_left _ hy)
    unfold Outranks at this
    omega
  unfold putbq
  dsimp only
  rw [hplace]
  have hput := fun e => put_spec e h hx (fun y hy => (ha y hy).not_outranks) hb hf
  refine ⟨_, rfl, a, b, rfl, (hput _).1, (hput _).2, ?_, ?_⟩
  · rw [(hput _).2.msg]
    exact ha
  · rw [(hput _).2.msg]
    exact hb

/-- What a routine that takes a message off the queue does to the rest. -/
structure Takes (q q' : Queue ι) (x : ι) (l : List ι) : Prop where
  msg : q'.msg = q.msg
  next : ∀ y, y ∉ l → q'.list.next y = q.list.next y

/-- `rmvq_noenab` takes a message off the list. -/
theorem rmvqNoenab_spec (h : q.Holds (a ++ x :: b)) :
    (q.rmvqNoenab x).Holds (a ++ b) ∧ Takes q (q.rmvqNoenab x) x (a ++ x :: b) := by
  have hnd := nodup_cons.mp (nodup_middle.mp h.list.nodup)
  have hxa : x ∉ a := fun hx => hnd.1 (mem_append_left _ hx)
  have hxb : x ∉ b := fun hx => hnd.1 (mem_append_right _ hx)
  have hsplit : a ++ x :: b = a ++ [x] ++ b := by simp
  constructor
  · refine h.remove h.list.unlink fun r hr hband => ⟨?_, ?_, rfl, rfl, rfl⟩
    · rw [hr.first, inBand_insert_of_eq rfl, inBand_append, h.list.next_eq, sameBand,
        ← head_inBand h.ordered.right
          (fun y hy => h.ctl y (mem_append_right _ hy)) hband]
      rcases hnil : inBand q.msg (q.msg x).band a with _ | ⟨y, c⟩
      · rw [nil_append, head?_cons, if_pos rfl, nil_append]
      -- Another message is the first one.
      have hy : y ∈ inBand q.msg (q.msg x).band a := by rw [hnil]; simp
      have hne : y ≠ x := fun heq => hxa (heq ▸ (mem_inBand.mp hy).1)
      rw [cons_append, if_neg (by simpa using hne)]
      rfl
    · dsimp only
      have hord := h.ordered
      have hctl := h.ctl
      rw [hsplit] at hord hctl
      rw [hr.last, inBand_insert_of_eq rfl, inBand_append, h.list.prev_eq, sameBand,
        ← last_inBand hord.left
          (fun y hy => hctl y (mem_append_left _ hy)) hband]
      rcases eq_nil_or_concat' (inBand q.msg (q.msg x).band b) with hnil | ⟨c, y, hnil⟩
      · rw [hnil, getLast?_concat, if_pos rfl, append_nil]
      · have hy : y ∈ inBand q.msg (q.msg x).band b := by rw [hnil]; simp
        have hne : y ≠ x := fun heq => hxb (heq ▸ (mem_inBand.mp hy).1)
        rw [hnil, ← cons_append, ← append_assoc, getLast?_concat,
          if_neg (by simpa using hne), ← append_assoc, getLast?_concat]
  · unfold rmvqNoenab
    refine ⟨(subCount_fields x).2, fun y hy => ?_⟩
    rw [(subCount_fields x).1]
    refine Dll.unlink_next_of_ne (fun heq => hy (by simp [heq])) fun heq => hy ?_
    change q.list.prev x = some y at heq
    rw [h.list.prev_eq] at heq
    exact mem_append_left _ (mem_of_getLast? heq)

/-- The first message has none before it, so taking it off is like taking off any
    other. -/
theorem popFirst_eq (h : q.list.prev x = none) :
    q.popFirst x = { q with list := q.list.unlink x } := by
  unfold popFirst Dll.unlink
  rw [h]
  rfl

/-- The first message of the queue is the first one of its band. -/
theorem getqBand_repoints (h : q.Holds (x :: b)) :
    Repoints q.msg (q.msg x).band ([] ++ x :: b) ([] ++ b) (getqBand (q.list.next x)) := by
  intro r hr hband
  have hnext : q.list.next x = b.head? := h.list.next_eq (a := [])
  have hhead := head_inBand h.ordered h.ctl hband
  have hfirst : r.first = some x := by
    rw [hr.first, inBand_insert_of_eq rfl]
    rfl
  have hlast : r.last = (x :: inBand q.msg (q.msg x).band b).getLast? := by
    rw [hr.last, inBand_insert_of_eq rfl]
    rfl
  unfold getqBand
  rw [nil_append, hfirst, hlast]
  rcases eq_nil_or_concat' (inBand q.msg (q.msg x).band b) with hnil | ⟨c, y, hnil⟩
  · rw [hnil, getLast?_singleton, if_pos rfl]
    exact ⟨rfl, rfl, rfl, rfl, rfl⟩
  have hy : y ∈ inBand q.msg (q.msg x).band b := by rw [hnil]; simp
  have hne : x ≠ y := fun heq =>
    (nodup_cons.mp h.list.nodup).1 (heq ▸ (mem_inBand.mp hy).1)
  have hconcat : (x :: inBand q.msg (q.msg x).band b).getLast? = some y := by
    rw [hnil, ← cons_append, getLast?_concat]
  rw [hconcat, if_neg (by simpa using hne)]
  refine ⟨?_, ?_, rfl, rfl, rfl⟩
  · -- Another one of the band follows it directly.
    rw [hhead, hnext]
    cases b with
    | nil => rfl
    | cons n b =>
      rw [head?_cons, filter_some] at hhead ⊢
      split
      · rfl
      · next hno =>
        rw [if_neg hno, head?_eq_none_iff] at hhead
        rw [hhead] at hy
        cases hy
  · rw [hnil, getLast?_concat]

/-- `getq_noenab` takes off the first message that is not marked. -/
theorem getqNoenab_spec (h : q.Holds l) (hfuel : l.length < fuel) :
    ∃ r, q.getqNoenab fuel = some r ∧ r.1.msg = q.msg ∧
      ((r.2 = none ∧ (∀ y ∈ l, (q.msg y).noget = true) ∧ r.1.Holds l ∧ r.1.list = q.list) ∨
        ∃ a x b, r.2 = some x ∧ l = a ++ x :: b ∧ (∀ y ∈ a, (q.msg y).noget = true) ∧
          (q.msg x).noget = false ∧ r.1.Holds (a ++ b) ∧ Takes q r.1 x l) := by
  unfold getqNoenab
  rw [h.list.first_eq]
  cases l with
  | nil =>
    exact ⟨(_, none), rfl, rfl, .inl ⟨rfl, by simp,
      h.congr rfl rfl rfl rfl rfl rfl fun i r hr => ⟨r, hr, rfl, rfl, rfl, rfl, rfl⟩, rfl⟩⟩
  | cons x b =>
    rw [head?_cons]
    dsimp only
    split
    · next hnoget =>
      have hscan := scan_spec (p := fun t => (q.msg t).noget) h.list.fwd hfuel
      rw [h.list.first_eq, head?_cons] at hscan
      rw [hscan]
      rcases hfind : (x :: b).find? (fun y => !(q.msg y).noget) with _ | y
      · refine ⟨(q, none), rfl, rfl, .inl ⟨rfl, fun y hy => ?_, h, rfl⟩⟩
        simpa using find?_eq_none.mp hfind y hy
      obtain ⟨hy, c, d, heq, hc⟩ := find?_eq_some_iff_append.mp hfind
      rw [heq] at h ⊢
      obtain ⟨hholds, htakes⟩ := rmvqNoenab_spec h
      exact ⟨(_, some y), rfl, htakes.msg, .inr ⟨c, y, d, rfl, rfl,
        fun z hz => by simpa using hc z hz, by simpa using hy, hholds, htakes⟩⟩
    · next hget =>
      have hprev : q.list.prev x = none := h.list.prev_eq (a := [])
      rw [popFirst_eq hprev]
      have hf := getqBand_repoints h
      have hholds := Holds.remove h (Dll.Holds.unlink h.list) hf
      refine ⟨(_, some x), rfl, (subCount_fields x).2,
        .inr ⟨[], x, b, rfl, rfl, by simp, by simpa using hget, ?_, ?_⟩⟩
      · exact hholds.congr rfl rfl rfl rfl rfl rfl fun i r hr => ⟨r, hr, rfl, rfl, rfl, rfl, rfl⟩
      refine ⟨(subCount_fields x).2, fun y hy => ?_⟩
      rw [(subCount_fields x).1]
      refine Dll.unlink_next_of_ne (fun heq => hy (by simp [heq])) fun heq => ?_
      rw [hprev] at heq
      cases heq

end Queue

end Sol7.Streams
