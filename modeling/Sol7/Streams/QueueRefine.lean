import Sol7.Streams.QueueList

/-!
# A Queue Is a Banded Priority Queue

A plain priority queue is a list of messages. A message is put after all those it
does not outrank, or before all those that do not outrank it. The first message
that is not marked is taken off, and a flush is a filter. The queue of the source
does the same, whatever shortcuts it takes.

A flush that takes all messages off puts the others back in the order of the list.
None of them outranks what has been put back before, so each of them goes to the
end. A flush of one band goes from the first message of the band to the last one,
and these are next to each other.

## Main definitions

* `Queue.Quiet`: Only the flags of waiting writers differ.
* `Plain`, `plainCall`, `plainRun`: The plain priority queue.
* `queueCall`, `queueRun`: Sequences of calls on the queue of the source.

## Theorems

* `reput_spec`, `reputLoop_spec`: What a flush puts back.
* `flushbandFind_spec`, `flushbandLoop_spec`: What a flush of a band takes off.
* `call_refines`: One call.
* `queue_refines_plain`: Any sequence of calls.
-/

namespace Sol7.Streams

open List Option Function Queue

variable {ι : Type}

namespace Queue

variable {q q' : Queue ι} {l a b c : List ι} {x : ι} {start : Option ι}

/-! ### Flow control -/

/-- Two queues differ at most in the flags of waiting writers. -/
structure Quiet (q q' : Queue ι) : Prop where
  list : q'.list = q.list
  msg : q'.msg = q.msg
  count : q'.count = q.count
  hiwat : q'.hiwat = q.hiwat
  lowat : q'.lowat = q.lowat
  full : q'.full = q.full
  length : q'.bands.length = q.bands.length
  bands : ∀ (i : Nat) r, q'.bands[i]? = some r →
    ∃ r0, q.bands[i]? = some r0 ∧ r = { r0 with wantw := r.wantw }

theorem Quiet.refl (q : Queue ι) : Quiet q q :=
  ⟨rfl, rfl, rfl, rfl, rfl, rfl, rfl, fun _ r hr => ⟨r, hr, rfl⟩⟩

theorem Holds.quiet (h : q.Holds l) (hq : Quiet q q') : q'.Holds l := by
  refine h.congr hq.list hq.msg hq.count hq.hiwat hq.full hq.length fun i r hr => ?_
  obtain ⟨r0, hr0, heq⟩ := hq.bands i r hr
  rw [heq]
  exact ⟨r0, hr0, rfl, rfl, rfl, rfl, rfl⟩

theorem quiet_backenable (q : Queue ι) (band : Nat) : Quiet q (q.backenable band) := by
  unfold backenable
  split
  · split
    · exact { Quiet.refl q with }
    · exact Quiet.refl q
  refine { Quiet.refl q with length := length_setQband, bands := fun i r hr => ?_ }
  rw [getElem?_setQband] at hr
  split at hr
  · obtain ⟨r0, hr0, rfl⟩ := map_eq_some_iff.mp hr
    refine ⟨r0, hr0, ?_⟩
    split
    · rfl
    · rfl
  · exact ⟨r, hr, rfl⟩

theorem quiet_qbackenable (q : Queue ι) (band : Nat) : Quiet q (q.qbackenable band) := by
  unfold qbackenable
  split
  · exact Quiet.refl q
  · exact quiet_backenable q band

theorem quiet_flushEnd (q : Queue ι) : Quiet q q.flushEnd := by
  refine { Quiet.refl q with length := length_map _, bands := fun i r hr => ?_ }
  unfold flushEnd at hr
  rw [getElem?_map] at hr
  obtain ⟨r0, hr0, rfl⟩ := map_eq_some_iff.mp hr
  refine ⟨r0, hr0, ?_⟩
  split
  · rfl
  · rfl

theorem quiet_flushbandEnd (q : Queue ι) : Quiet q q.flushbandEnd :=
  { Quiet.refl q with }

/-! ### Flushing the whole queue -/

/-- A queue without messages. -/
theorem flushDetach_holds (q : Queue ι) : q.flushDetach.Holds [] := by
  refine ⟨Dll.holds_nil _ _, .nil, by simp, by simp, fun i r hr => ?_, rfl, ?_⟩
  · unfold flushDetach at hr
    rw [getElem?_map] at hr
    obtain ⟨r0, hr0, rfl⟩ := map_eq_some_iff.mp hr
    refine ⟨rfl, rfl, rfl, fun hpos => ?_⟩
    dsimp only at hpos ⊢
    simp only [Bool.false_eq_true, false_iff]
    omega
  · intro hpos
    change false = true ↔ q.hiwat ≤ 0
    change 0 < q.hiwat at hpos
    simp only [Bool.false_eq_true, false_iff]
    omega

variable {fuel n pri : Nat}

/-- The messages of a band are next to each other. -/
theorem split_band {msg : ι → Msg} (hpri : pri ≠ 0) (h : Ordered msg l)
    (hctl : ∀ x ∈ l, qpctl ≤ (msg x).dbType → (msg x).band = 0) :
    ∃ a b, l = a ++ (inBand msg pri l ++ b) ∧ (∀ y ∈ a, (msg y).band ≠ pri) ∧
      ∀ y ∈ b, (msg y).band ≠ pri := by
  induction l with
  | nil => exact ⟨[], [], rfl, by simp, by simp⟩
  | cons x l ih =>
    obtain ⟨a, b, heq, ha, hb⟩ :=
        ih (Ordered.right (a := [x]) h) fun y hy => hctl y (mem_cons_of_mem x hy)
    by_cases hx : (msg x).band = pri
    · have hcons : inBand msg pri (x :: l) = x :: inBand msg pri l :=
        filter_cons_of_pos (by simpa using hx)
      rw [hcons]
      rcases hnil : inBand msg pri l with _ | ⟨y, s⟩
      · refine ⟨[], l, rfl, by simp, fun y hy hband => ?_⟩
        have : y ∈ inBand msg pri l := mem_inBand.mpr ⟨hy, hband⟩
        rw [hnil] at this
        cases this
      -- Another message of the band follows directly.
      have hhead := head_inBand h hctl (by rw [hx]; exact hpri)
      rw [hx, hnil, head?_cons] at hhead
      have hanil : a = [] := by
        cases a with
        | nil => rfl
        | cons z a =>
          rw [heq, cons_append, head?_cons, filter_some] at hhead
          split at hhead
          · next hz =>
            have hband : pri = (msg z).band := by simpa using hz
            exact absurd hband.symm (ha z mem_cons_self)
          · cases hhead
      subst hanil
      refine ⟨[], b, ?_, by simp, hb⟩
      rw [hnil] at heq
      rw [heq]
      rfl
    · have hcons : inBand msg pri (x :: l) = inBand msg pri l :=
        filter_cons_of_neg (by simpa using hx)
      refine ⟨x :: a, b, ?_, forall_mem_cons.mpr ⟨hx, ha⟩, hb⟩
      rw [hcons]
      exact congrArg (x :: ·) heq

theorem flushbandFrees_congr (h : q'.msg = q.msg) (pri : Nat) (flag : Bool) :
    q'.flushbandFrees pri flag = q.flushbandFrees pri flag := by
  funext x
  unfold flushbandFrees
  rw [h]

variable [DecidableEq ι]

/-- Nothing changes for a message that is already as it should be. -/
theorem forceBand_eq (h : qpctl ≤ (q.msg x).dbType → (q.msg x).band = 0) :
    (q.forceBand x).msg = q.msg := by
  have hforced : (q.msg x).forced = q.msg x := by
    unfold Msg.forced
    split
    · next hle => rw [← h hle]
    · rfl
  rw [forceBand_msg, hforced, update_eq_self]

/-- The links of a message that is not on the queue may change. -/
theorem Holds.clear (h : q.Holds l) (hx : x ∉ l) : Holds { q with
      list := { q.list with
        next := update q.list.next x none
        prev := update q.list.prev x none } } l := by
  refine { h with list := ⟨h.list.nodup, ?_, ?_⟩ }
  · refine h.list.fwd.congr rfl fun c hc => ?_
    have hne : c ≠ x := fun heq => hx (heq ▸ hc)
    exact congrArg some (update_of_ne hne ..)
  · refine h.list.bwd.congr rfl fun c hc => ?_
    have hne : c ≠ x := fun heq => hx (heq ▸ mem_reverse.mp hc)
    exact congrArg some (update_of_ne hne ..)

/-- One message that a flush has taken off is put back or freed. -/
theorem reput_spec (keep : Msg → Bool) (h : q.Holds l) (hx : x ∉ l)
    (hctl : qpctl ≤ (q.msg x).dbType → (q.msg x).band = 0) (hfuel : l.length < fuel) :
    ∃ q', q.reput fuel keep x = some q' ∧ q'.msg = q.msg ∧
      (∀ y, y ≠ x → y ∉ l → q'.list.next y = q.list.next y) ∧ if keep (q.msg x) then
        ∃ a b, l = a ++ b ∧ q'.Holds (a ++ x :: b) ∧
          (∀ y ∈ a, ¬Outranks (q.msg x) (q.msg y)) ∧ ∀ y ∈ b, Outranks (q.msg x) (q.msg y)
      else q'.Holds l := by
  have hclear := h.clear hx
  unfold reput
  dsimp only
  split
  · obtain ⟨q', heq, a, b, rfl, hholds, hputs, ha, hb⟩ := putq_spec hclear hx hfuel
    have hmsg : q'.msg = q.msg := hputs.msg.trans (forceBand_eq hctl)
    rw [hmsg] at ha hb
    refine ⟨q', heq, hmsg, fun y hy hyl => ?_, a, b, rfl, hholds, ha, hb⟩
    exact (hputs.next y hy hyl).trans (update_of_ne hy ..)
  · exact ⟨_, rfl, rfl, fun y hy _ => update_of_ne hy .., hclear⟩

/-- The messages that a flush has taken off are put back in the same order. -/
theorem reputLoop_spec {keep : Msg → Bool} (h : q.Holds l)
    (hchain : Threaded (links start q.list.next) c) (hnd : (l ++ c).Nodup)
    (hord : Ordered q.msg (l ++ c)) (hctl : ∀ x ∈ c, qpctl ≤ (q.msg x).dbType → (q.msg x).band = 0)
    (hfuel : l.length + c.length < fuel) (hn : c.length < n) :
    ∃ q', reputLoop fuel keep n q start = some q' ∧ q'.msg = q.msg ∧
      q'.Holds (l ++ c.filter fun x => keep (q.msg x)) := by
  induction c generalizing q l start n with
  | nil =>
    cases n with
    | zero => omega
    | succ n =>
      rw [hchain.head_links, head?_nil, reputLoop]
      exact ⟨q, rfl, rfl, by simpa using h⟩
  | cons x c ih =>
    cases n with
    | zero => omega
    | succ n =>
      rw [hchain.head_links, head?_cons, reputLoop]
      rw [length_cons] at hfuel hn
      have hn' : c.length < n := by omega
      have hndx := nodup_cons.mp (nodup_middle.mp hnd)
      have hxl : x ∉ l := fun hx => hndx.1 (mem_append_left _ hx)
      have hxc : x ∉ c := fun hx => hndx.1 (mem_append_right _ hx)
      rcases reput_spec keep h hxl (hctl x mem_cons_self) (by omega : l.length < fuel)
        with ⟨q', heq, hmsg, hnext, hholds⟩
      rw [heq]
      -- The messages that are still off keep their links.
      have hchain' : Threaded (links (q.list.next x) q'.list.next) c := by
        refine hchain.tail_links.congr rfl fun y hy => ?_
        have hyx : y ≠ x := fun hyx => hxc (hyx ▸ hy)
        have hyl : y ∉ l := fun hyl =>
          (nodup_append.mp hnd).2.2 y hyl y (mem_cons_of_mem x hy) rfl
        exact congrArg some (hnext y hyx hyl)
      have hctl' : ∀ y ∈ c, qpctl ≤ (q'.msg y).dbType → (q'.msg y).band = 0 := by
        rw [hmsg]
        exact fun y hy => hctl y (mem_cons_of_mem x hy)
      split at hholds
      · next hkeep =>
        -- Nothing that has been put back is outranked.
        obtain ⟨a, b, rfl, hholds, -, hb⟩ := hholds
        have hbnil : b = [] := by
          rcases eq_nil_or_concat' b with rfl | ⟨b', y, rfl⟩
          · rfl
          · exact absurd (hb y (by simp))
              ((pairwise_append.mp hord).2.2 y (by simp) x mem_cons_self)
        subst hbnil
        rw [append_nil] at hnd hord hfuel
        have hsplit : a ++ [x] ++ c = a ++ x :: c := by simp
        obtain ⟨q'', hloop, hmsg'', hholds''⟩ :=
            ih hholds hchain' (by rw [hsplit]; exact hnd) (by rw [hmsg, hsplit]; exact hord) hctl'
            (by rw [length_append, length_singleton]; omega) hn'
        refine ⟨q'', hloop, hmsg''.trans hmsg, ?_⟩
        rw [hmsg] at hholds''
        rw [filter_cons_of_pos (by simpa using hkeep), append_nil]
        simpa using hholds''
      · next hfree =>
        rcases ih hholds hchain' hndx.2 (by rw [hmsg]; exact hord.remove) hctl' (by omega)
            hn' with ⟨q'', hloop, hmsg'', hholds''⟩
        refine ⟨q'', hloop, hmsg''.trans hmsg, ?_⟩
        rw [hmsg] at hholds''
        rw [filter_cons_of_neg (by simpa using hfree)]
        exact hholds''

/-- A flush that takes all messages off leaves those that are to be kept. -/
theorem reputLoop_flush (keep : Msg → Bool) (h : q.Holds l) (hfuel : l.length < fuel) :
    ∃ q', reputLoop fuel keep fuel q.flushDetach q.list.first = some q' ∧ q'.msg = q.msg ∧
      q'.Holds (l.filter fun x => keep (q.msg x)) :=
  reputLoop_spec (flushDetach_holds q) h.list.fwd h.list.nodup h.ordered h.ctl
    (by simpa using hfuel) hfuel

/-! ### Flushing a band -/

variable {flag : Bool}

/-- The next message that is to be freed is looked for before the end of the
    range and then at the end. -/
theorem flushbandFind_spec (h : Threaded (links start q.list.next) (a ++ b)) (hnd : (a ++ b).Nodup)
    (hfuel : a.length < fuel) : q.flushbandFind pri flag b.head? fuel start =
      some (match a.find? (q.flushbandFrees pri flag) with
        | some m => some (m, false)
        | none => b.head?.bind fun m =>
          if q.flushbandFrees pri flag m then some (m, true) else none) := by
  induction a generalizing start fuel with
  | nil =>
    cases fuel with
    | zero => omega
    | succ n =>
      rw [h.head_links, nil_append]
      unfold flushbandFind
      rw [if_pos rfl]
      rfl
  | cons x a ih =>
    cases fuel with
    | zero => omega
    | succ n =>
      have hne : some x ≠ b.head? := fun heq =>
        (nodup_cons.mp hnd).1 (mem_append_right _ (mem_of_mem_head? heq.symm))
      rw [h.head_links, cons_append, head?_cons, flushbandFind, if_neg hne]
      rw [length_cons] at hfuel
      split
      · next hfree => rw [find?_cons_of_pos hfree]
      · next hkeep => rw [ih h.tail_links (nodup_cons.mp hnd).2 (by omega), find?_cons_of_neg hkeep]

theorem rmvq_holds (h : q.Holds (a ++ x :: b)) :
    (q.rmvq x).Holds (a ++ b) ∧ (q.rmvq x).msg = q.msg := by
  obtain ⟨hholds, htakes⟩ := rmvqNoenab_spec h
  have hquiet := quiet_qbackenable (q.rmvqNoenab x) (q.msg x).band
  exact ⟨hholds.quiet hquiet, hquiet.msg.trans htakes.msg⟩

/-- The loop of `flushband` takes off what is to be freed in the range and at its
    end. -/
theorem flushbandLoop_spec (h : q.Holds (a ++ (c ++ b)))
    (ha : ∀ y ∈ a, q.flushbandFrees pri flag y = false)
    (hb : ∀ y ∈ b.tail, q.flushbandFrees pri flag y = false) (hfuel : c.length < fuel)
    (hn : c.length < n) :
    ∃ q', flushbandLoop fuel pri flag b.head? n q (c ++ b).head? = some q' ∧ q'.msg = q.msg ∧
      q'.Holds ((a ++ (c ++ b)).filter fun y => !q.flushbandFrees pri flag y) := by
  induction n generalizing q a c with
  | zero => omega
  | succ n ih =>
    have hkeepa : a.filter (fun y => !q.flushbandFrees pri flag y) = a :=
      filter_eq_self.mpr fun y hy => by simp [ha y hy]
    have hkeepb : b.tail.filter (fun y => !q.flushbandFrees pri flag y) = b.tail :=
      filter_eq_self.mpr fun y hy => by simp [hb y hy]
    have hthread := h.list.fwd.drop
    rw [flushbandLoop, flushbandFind_spec hthread (nodup_append.mp h.list.nodup).2.1 hfuel]
    rcases hfind : c.find? (q.flushbandFrees pri flag) with _ | x
    · -- Nothing is left before the end of the range.
      have hkeepc : c.filter (fun y => !q.flushbandFrees pri flag y) = c :=
        filter_eq_self.mpr fun y hy => by simpa using find?_eq_none.mp hfind y hy
      cases b with
      | nil =>
        refine ⟨q, rfl, rfl, ?_⟩
        rw [filter_append, filter_append, hkeepa, hkeepc]
        exact h
      | cons z b =>
        rw [tail_cons] at hkeepb
        cases hz : q.flushbandFrees pri flag z with
        | true =>
          rw [← append_assoc] at h
          obtain ⟨hholds, hmsg⟩ := rmvq_holds h
          refine ⟨q.rmvq z, ?_, hmsg, ?_⟩
          · rw [head?_cons, bind_some, if_pos hz]
          · rw [filter_append, filter_append, hkeepa, hkeepc,
              filter_cons_of_neg (by simp [hz]), hkeepb, ← append_assoc]
            exact hholds
        | false =>
          refine ⟨q, ?_, rfl, ?_⟩
          · rw [head?_cons, bind_some, if_neg (by simp [hz])]
          · rw [filter_append, filter_append, hkeepa, hkeepc,
              filter_cons_of_pos (by simp [hz]), hkeepb]
            exact h
    · obtain ⟨hx, c1, c2, rfl, hc1⟩ := find?_eq_some_iff_append.mp hfind
      dsimp only
      have hsplit : a ++ (c1 ++ x :: c2 ++ b) = (a ++ c1) ++ x :: (c2 ++ b) := by simp
      rw [hsplit] at h
      obtain ⟨hholds, hmsg⟩ := rmvq_holds h
      have hfrees := flushbandFrees_congr hmsg pri flag
      rw [length_append, length_cons] at hfuel hn
      have ha' : ∀ y ∈ a ++ c1, (q.rmvq x).flushbandFrees pri flag y = false := by
        rw [hfrees]
        intro y hy
        rcases mem_append.mp hy with hy | hy
        · exact ha y hy
        · simpa using hc1 y hy
      obtain ⟨q', hloop, hmsg', hholds'⟩ :=
          ih hholds ha' (by rw [hfrees]; exact hb) (by omega) (by omega)
      rw [h.list.next_eq, hloop]
      refine ⟨q', rfl, hmsg'.trans hmsg, ?_⟩
      rw [hfrees] at hholds'
      rw [hsplit, filter_append, filter_cons_of_neg (by simp [hx]), ← filter_append]
      exact hholds'

/-- Nothing is to be freed outside the band. -/
theorem flushband_spec (h : q.Holds l) (hpri : pri ≠ 0) (hle : pri ≤ q.bands.length)
    (hfuel : l.length < fuel) : ∃ q', q.flushband fuel pri flag = some q' ∧ q'.msg = q.msg ∧
      q'.Holds (l.filter fun y => !q.flushbandFrees pri flag y) := by
  have hlt : pri - 1 < q.bands.length := by omega
  have hget := getElem?_eq_getElem hlt
  generalize q.bands[pri - 1] = r at hget
  have hok := h.bands (pri - 1) r hget
  rw [Nat.sub_add_cancel (by omega)] at hok
  have hrange : q.flushbandRange pri = r.first.map fun mp =>
      (mp, if some mp = r.last then q.list.next mp else r.last) := by
    rw [flushbandRange, qband, if_neg hpri, hget]
    rfl
  have hother : ∀ y, (q.msg y).band ≠ pri → q.flushbandFrees pri flag y = false := by
    intro y hy
    simp [flushbandFrees, hy]
  unfold flushband
  rw [if_neg (by omega), if_neg hpri, hrange, hok.first, hok.last]
  obtain ⟨a, b, heq, ha, hb⟩ := split_band hpri h.ordered h.ctl
  have ha' : ∀ y ∈ a, q.flushbandFrees pri flag y = false := fun y hy => hother y (ha y hy)
  have hb' : ∀ y ∈ b, q.flushbandFrees pri flag y = false := fun y hy => hother y (hb y hy)
  rcases hs : inBand q.msg pri l with _ | ⟨x, s⟩
  · refine ⟨q, rfl, rfl, ?_⟩
    have hkeep : l.filter (fun y => !q.flushbandFrees pri flag y) = l := by
      refine filter_eq_self.mpr fun y hy => ?_
      rw [heq, hs] at hy
      rcases mem_append.mp hy with hy | hy
      · simp [ha' y hy]
      · simp [hb' y hy]
    rw [hkeep]
    exact h
  · rw [hs] at heq
    rw [head?_cons, map_some]
    rw [heq] at h hfuel ⊢
    rw [length_append, length_append, length_cons] at hfuel
    rcases eq_nil_or_concat' s with rfl | ⟨s', z, rfl⟩
    · -- The only message of the band: the range ends at the one after it.
      rw [getLast?_singleton, if_pos rfl]
      have hnext : q.list.next x = b.head? := h.list.next_eq
      rw [hnext]
      exact flushbandLoop_spec (c := [x]) h ha' (fun y hy => hb' y (mem_of_mem_tail hy))
        (by rw [length_singleton]; omega) (by rw [length_singleton]; omega)
    · have hlast : (x :: (s' ++ [z])).getLast? = some z := by rw [← cons_append, getLast?_concat]
      have hne : some x ≠ some z := by
        intro heqz
        cases heqz
        have hnd := (nodup_append.mp (nodup_append.mp h.list.nodup).2.1).1
        exact (nodup_cons.mp hnd).1 (by simp)
      rw [hlast, if_neg hne]
      have hsplit : x :: (s' ++ [z]) ++ b = (x :: s') ++ z :: b := by simp
      rw [hsplit] at h ⊢
      rw [length_append, length_singleton] at hfuel
      exact flushbandLoop_spec (b := z :: b) h ha' hb'
        (by rw [length_cons]; omega) (by rw [length_cons]; omega)

end Queue

/-! ### The plain priority queue -/

variable [DecidableEq ι]

/-- A plain priority queue. -/
structure Plain (ι : Type) where
  msg : ι → Msg
  list : List ι

inductive Call (ι : Type)
  | putq (bp : ι) (m : Msg)
  | putbq (bp : ι) (m : Msg)
  | getq
  | rmvq (mp : ι)
  | flushq (flag pcprotoFlag : Bool)
  | flushband (pri : Nat) (flag : Bool)

/-- A call on a plain priority queue, with the message it returns. A message can
    not be put on the queue twice and one that is not on the queue can not be
    taken off. -/
def plainCall (p : Plain ι) : Call ι → Option (Plain ι × Option ι)
  | .putq bp m =>
    let msg := update p.msg bp m.forced
    if bp ∈ p.list then none
    else some (⟨msg, (p.list.filter fun y => ¬Outranks (msg bp) (msg y)) ++
      bp :: p.list.filter fun y => Outranks (msg bp) (msg y)⟩, none)
  | .putbq bp m =>
    let msg := update p.msg bp m.forced
    if bp ∈ p.list then none
    else some (⟨msg, (p.list.filter fun y => Outranks (msg y) (msg bp)) ++
      bp :: p.list.filter fun y => ¬Outranks (msg y) (msg bp)⟩, none)
  | .getq =>
    let bp := p.list.find? fun y => !(p.msg y).noget
    some ({ p with list := p.list.filter fun y => bp ≠ some y }, bp)
  | .rmvq mp =>
    if mp ∈ p.list then some ({ p with list := p.list.filter fun y => y ≠ mp }, none) else none
  | .flushq flag pcprotoFlag =>
    some ({ p with list := p.list.filter fun y => flushqKeeps flag pcprotoFlag (p.msg y) },
      none)
  | .flushband pri flag =>
    some ({ p with
      list := p.list.filter fun y =>
        ¬((p.msg y).band = pri ∧ (flag ∨ datamsg (p.msg y).dbType)) }, none)

/-- The same call on the queue of the source. -/
def queueCall (fuel : Nat) (q : Queue ι) : Call ι → Option (Queue ι × Option ι)
  | .putq bp m => (putq fuel { q with msg := update q.msg bp m } bp).map fun q => (q, none)
  | .putbq bp m => (putbq fuel { q with msg := update q.msg bp m } bp).map fun q => (q, none)
  | .getq => q.getq fuel
  | .rmvq mp => some (q.rmvq mp, none)
  | .flushq flag pcprotoFlag => (q.flushqCommon fuel flag pcprotoFlag).map fun q => (q, none)
  | .flushband pri flag => (q.flushband fuel pri flag).map fun q => (q, none)

def plainRun : Plain ι → List (Call ι) → Option (Plain ι × List (Option ι))
  | p, [] => some (p, [])
  | p, c :: cs => (plainCall p c).bind fun r => (plainRun r.1 cs).map fun r' => (r'.1, r.2 :: r'.2)

def queueRun (fuel : Nat) : Queue ι → List (Call ι) → Option (Queue ι × List (Option ι))
  | q, [] => some (q, [])
  | q, c :: cs =>
    (queueCall fuel q c).bind fun r => (queueRun fuel r.1 cs).map fun r' => (r'.1, r.2 :: r'.2)

/-- The queue of the source agrees with a plain one. -/
structure Represents (q : Queue ι) (p : Plain ι) : Prop where
  msg : q.msg = p.msg
  holds : q.Holds p.list

section
variable {q : Queue ι} {p p' : Plain ι} {fuel : Nat} {l a b : List ι} {x : ι}

omit [DecidableEq ι] in
/-- The two sides of a cut. -/
theorem filter_cut {P : ι → Prop} [DecidablePred P] (ha : ∀ y ∈ a, P y) (hb : ∀ y ∈ b, ¬P y) :
    ((a ++ b).filter fun y => P y) = a ∧ ((a ++ b).filter fun y => ¬P y) = b := by
  constructor
  · rw [filter_append, filter_eq_self.mpr fun y hy => by simpa using ha y hy,
      filter_eq_nil_iff.mpr fun y hy => by simpa using hb y hy, append_nil]
  · rw [filter_append, filter_eq_nil_iff.mpr fun y hy => by simpa using ha y hy,
      filter_eq_self.mpr fun y hy => by simpa using hb y hy, nil_append]

/-- A list without one of its members. -/
theorem filter_ne (hnd : (a ++ x :: b).Nodup) : ((a ++ x :: b).filter fun y => y ≠ x) = a ++ b := by
  have hx := (nodup_cons.mp (nodup_middle.mp hnd)).1
  have hne : ∀ y ∈ a ++ b, y ≠ x := fun y hy heq => hx (heq ▸ hy)
  rw [filter_append, filter_cons_of_neg (by simp), ← filter_append]
  exact filter_eq_self.mpr fun y hy => by simpa using hne y hy

/-- The message is forced into band zero if it has high priority. -/
theorem forceBand_store (m : Msg) : (forceBand { q with msg := update q.msg x m } x).msg =
      update q.msg x m.forced := by
  rw [forceBand_msg]
  dsimp only
  rw [update_self, update_idem]

/-- A message has been put at a cut of the list, which is one longer. -/
theorem Represents.put {q' : Queue ι} {m : Msg} {A B : (ι → Msg) → ι → Prop}
    [∀ f, DecidablePred (A f)] [∀ f, DecidablePred (B f)] (h : Represents q p)
    (hputs : Queue.Puts { q with msg := update q.msg x m } q' x p.list) (hl : p.list = a ++ b)
    (hholds : q'.Holds (a ++ x :: b)) (hAB : ∀ f y, ¬A f y ↔ B f y) (ha : ∀ y ∈ a, A q'.msg y)
    (hb : ∀ y ∈ b, B q'.msg y) (hp' : p' = ⟨update p.msg x m.forced,
      (p.list.filter fun y => A (update p.msg x m.forced) y) ++
        x :: p.list.filter fun y => B (update p.msg x m.forced) y⟩) :
    Represents q' p' ∧ p'.list.length ≤ p.list.length + 1 := by
  have hmsg : q'.msg = update p.msg x m.forced := by rw [hputs.msg, forceBand_store, h.msg]
  rw [hmsg] at ha hb
  obtain ⟨hfa, hfb⟩ := filter_cut ha fun y hy => (hAB _ y).mpr (hb y hy)
  simp only [hAB] at hfb
  rw [hl, hfa, hfb] at hp'
  subst hp'
  refine ⟨⟨hmsg, hholds⟩, ?_⟩
  rw [hl, length_append, length_append, length_cons]
  omega

theorem getq_refines (h : Represents q p) (hfuel : p.list.length < fuel) :
    ∃ q', queueCall fuel q .getq = some (q', p.list.find? fun y => !(p.msg y).noget) ∧
      Represents q' { p with list := p.list.filter fun y =>
        (p.list.find? fun y => !(p.msg y).noget) ≠ some y } := by
  obtain ⟨⟨q1, bp⟩, heq, hmsg, hcases⟩ := getqNoenab_spec h.holds hfuel
  -- Back-enabling does not change the messages.
  have hq : ∃ q', q.getq fuel = some (q', bp) ∧ Queue.Quiet q1 q' := by
    unfold getq
    rw [heq]
    dsimp only
    split
    · exact ⟨q1, rfl, Queue.Quiet.refl q1⟩
    · exact ⟨_, rfl, quiet_qbackenable q1 _⟩
  obtain ⟨q', heq', hquiet⟩ := hq
  have hmsg' : q'.msg = p.msg := by rw [hquiet.msg, hmsg, h.msg]
  rw [h.msg] at hcases
  rcases hcases with ⟨rfl, hall, hholds, -⟩ | ⟨a, x, b, rfl, hl, ha, hx, hholds, -⟩
  · have hfind : (p.list.find? fun y => !(p.msg y).noget) = none :=
      find?_eq_none.mpr fun y hy => by simp [hall y hy]
    rw [hfind]
    refine ⟨q', heq', hmsg', ?_⟩
    rw [filter_eq_self.mpr fun y _ => by simp]
    exact hholds.quiet hquiet
  · have hfind : (p.list.find? fun y => !(p.msg y).noget) = some x := by
      rw [hl]
      exact find?_eq_some_iff_append.mpr
        ⟨by simp [hx], a, b, rfl, fun y hy => by simp [ha y hy]⟩
    rw [hfind]
    refine ⟨q', heq', hmsg', ?_⟩
    have hnd := h.holds.list.nodup
    rw [hl] at hnd
    have hfilter : (p.list.filter fun y => some x ≠ some y) = a ++ b := by
      rw [hl, ← filter_ne hnd]
      refine filter_congr fun y _ => ?_
      simp [eq_comm]
    rw [hfilter]
    exact hholds.quiet hquiet

/-- Every call on the queue of the source does what it does on a plain one. It
    adds at most one message. -/
theorem call_refines {c : Call ι} {r : Option ι} (h : Represents q p)
    (hcall : plainCall p c = some (p', r)) (hfuel : p.list.length < fuel) :
    ∃ q', queueCall fuel q c = some (q', r) ∧ Represents q' p' ∧
      p'.list.length ≤ p.list.length + 1 := by
  have hfilter : ∀ P : ι → Bool, (p.list.filter P).length ≤ p.list.length + 1 := fun P =>
    Nat.le_succ_of_le (length_filter_le P p.list)
  cases c with
  | putq x m =>
    rw [plainCall] at hcall
    split at hcall
    · cases hcall
    next hx =>
    cases hcall
    obtain ⟨q', heq, a, b, hl, hholds, hputs, ha, hb⟩ :=
        putq_spec (h.holds.store hx m) hx hfuel
    refine ⟨q', by rw [queueCall, heq, map_some], ?_⟩
    exact h.put (A := fun f y => ¬Outranks (f x) (f y)) (B := fun f y => Outranks (f x) (f y))
      hputs hl hholds (fun _ _ => not_not) ha hb rfl
  | putbq x m =>
    rw [plainCall] at hcall
    split at hcall
    · cases hcall
    next hx =>
    cases hcall
    obtain ⟨q', heq, a, b, hl, hholds, hputs, ha, hb⟩ :=
        putbq_spec (h.holds.store hx m) hx hfuel
    refine ⟨q', by rw [queueCall, heq, map_some], ?_⟩
    exact h.put (A := fun f y => Outranks (f y) (f x)) (B := fun f y => ¬Outranks (f y) (f x))
      hputs hl hholds (fun _ _ => Iff.rfl) ha hb rfl
  | getq =>
    cases hcall
    obtain ⟨q', heq, hrep⟩ := getq_refines h hfuel
    exact ⟨q', heq, hrep, hfilter _⟩
  | rmvq x =>
    rw [plainCall] at hcall
    split at hcall
    · next hx =>
      cases hcall
      obtain ⟨a, b, hl⟩ := append_of_mem hx
      have hholds := h.holds
      rw [hl] at hholds
      obtain ⟨hholds', hmsg⟩ := rmvq_holds hholds
      refine ⟨q.rmvq x, rfl, ⟨hmsg.trans h.msg, ?_⟩, hfilter _⟩
      rw [hl, filter_ne hholds.list.nodup]
      exact hholds'
    · cases hcall
  | flushq flag pcprotoFlag =>
    cases hcall
    rw [queueCall, flushqCommon]
    split
    · next hnone =>
      rw [h.holds.list.first_eq, head?_eq_none_iff] at hnone
      refine ⟨q, rfl, ⟨h.msg, ?_⟩, hfilter _⟩
      have hholds := h.holds
      rw [hnone] at hholds ⊢
      exact hholds
    · obtain ⟨q', heq, hmsg, hholds⟩ :=
          reputLoop_flush (flushqKeeps flag pcprotoFlag) h.holds hfuel
      rw [heq]
      refine ⟨q'.flushEnd, rfl, ⟨(quiet_flushEnd q').msg.trans (hmsg.trans h.msg), ?_⟩,
        hfilter _⟩
      rw [h.msg] at hholds
      exact hholds.quiet (quiet_flushEnd q')
  | flushband pri flag =>
    cases hcall
    have hkeep : ∀ y, decide (¬((p.msg y).band = pri ∧ (flag = true ∨
        datamsg (p.msg y).dbType = true))) = !q.flushbandFrees pri flag y := by
      intro y
      simp [flushbandFrees, h.msg]
    rw [queueCall]
    by_cases hlt : q.bands.length < pri
    · -- There is no message in a band without a record.
      refine ⟨q, ?_, ⟨h.msg, ?_⟩, hfilter _⟩
      · rw [flushband, if_pos hlt]
        rfl
      rw [filter_eq_self.mpr fun y hy => ?_]
      · exact h.holds
      · have := h.holds.nband y hy
        rw [h.msg] at this
        simp only [decide_eq_true_eq, not_and]
        omega
    · by_cases hpri : pri = 0
      · obtain ⟨q', heq, hmsg, hholds⟩ :=
            reputLoop_flush (flushbandKeeps flag) h.holds hfuel
        rw [flushband, if_neg hlt, if_pos hpri, heq]
        refine ⟨q'.flushbandEnd, rfl,
          ⟨(quiet_flushbandEnd q').msg.trans (hmsg.trans h.msg), ?_⟩, hfilter _⟩
        have hfilter : (p.list.filter fun y => decide (¬((p.msg y).band = pri ∧ (flag = true ∨
            datamsg (p.msg y).dbType = true)))) =
            p.list.filter fun y => flushbandKeeps flag (q.msg y) := by
          refine filter_congr fun y _ => ?_
          simp [flushbandKeeps, h.msg, hpri]
        rw [hfilter]
        exact hholds.quiet (quiet_flushbandEnd q')
      · obtain ⟨q', heq, hmsg, hholds⟩ :=
            flushband_spec h.holds hpri (le_of_not_gt hlt) hfuel
        rw [heq]
        refine ⟨q', rfl, ⟨hmsg.trans h.msg, ?_⟩, hfilter _⟩
        rw [filter_congr fun y _ => hkeep y]
        exact hholds

/-- A run on the queue of the source does what it does on a plain one. -/
theorem run_refines {cs : List (Call ι)} {rs : List (Option ι)} (h : Represents q p)
    (hrun : plainRun p cs = some (p', rs)) (hfuel : p.list.length + cs.length < fuel) :
    ∃ q', queueRun fuel q cs = some (q', rs) ∧ Represents q' p' := by
  induction cs generalizing q p rs with
  | nil =>
    cases hrun
    exact ⟨q, rfl, h⟩
  | cons c cs ih =>
    obtain ⟨⟨p1, r⟩, hcall, hrest⟩ := bind_eq_some_iff.mp hrun
    obtain ⟨⟨p2, rs'⟩, hrun', heq⟩ := map_eq_some_iff.mp hrest
    cases heq
    rw [length_cons] at hfuel
    obtain ⟨q1, hq1, hrep1, hlen⟩ := call_refines h hcall (by omega : p.list.length < fuel)
    obtain ⟨q2, hq2, hrep2⟩ := ih hrep1 hrun' (by omega)
    refine ⟨q2, ?_, hrep2⟩
    rw [queueRun, hq1, bind_some, hq2]
    rfl

end

/-- A queue without messages. Records of bands may be there already. -/
structure Queue.Fresh (q : Queue ι) : Prop where
  first : q.list.first = none
  last : q.list.last = none
  count : q.count = 0
  full : q.full = false
  bands : ∀ b ∈ q.bands, b.first = none ∧ b.last = none ∧ b.count = 0 ∧ b.full = false

omit [DecidableEq ι] in
theorem Queue.Fresh.holds {q : Queue ι} (h : q.Fresh) : q.Holds [] := by
  refine ⟨⟨nodup_nil, threaded_nil ?_, threaded_nil ?_⟩, .nil, by simp, by simp,
    fun i r hr => ?_, h.count, ?_⟩
  · exact congrArg some h.first
  · exact congrArg some h.last
  · obtain ⟨h1, h2, h3, h4⟩ := h.bands r (mem_of_getElem? hr)
    refine ⟨h1, h2, h3, fun hpos => ?_⟩
    simp only [h3, h4, Bool.false_eq_true, false_iff]
    omega
  · intro hpos
    simp only [h.count, h.full, Bool.false_eq_true, false_iff]
    omega

/-- Whatever is done with a queue, it is a plain priority queue: it returns the
    same messages, and its pointers, counts and flags are those of the list. The
    bound on the loops is no restriction. -/
theorem queue_refines_plain {q : Queue ι} (hq : q.Fresh) {cs : List (Call ι)} {p : Plain ι}
    {rs : List (Option ι)} (hrun : plainRun ⟨q.msg, []⟩ cs = some (p, rs)) {fuel : Nat}
    (hfuel : cs.length < fuel) :
    ∃ q', queueRun fuel q cs = some (q', rs) ∧ q'.msg = p.msg ∧ q'.Holds p.list := by
  have hrep : Represents q ⟨q.msg, []⟩ := ⟨rfl, hq.holds⟩
  obtain ⟨q', heq, hrep'⟩ := run_refines hrep hrun (by simpa using hfuel)
  exact ⟨q', heq, hrep'.msg, hrep'.holds⟩

/-- A queue without messages and without bands. -/
def emptyQueue : Queue Nat where
  list := ⟨none, none, fun _ => none, fun _ => none⟩
  msg := fun _ => ⟨mData, 0, false, []⟩
  bands := []
  count := 0
  hiwat := 10
  lowat := 5
  full := false
  wantr := false
  wantw := false
  wantwsync := false
  noenb := false
  enab := false

theorem queue_refines_plain_three :
    ∃ q', queueRun 6 emptyQueue [.putq 0 ⟨mData, 0, false, [4]⟩, .putq 1 ⟨mProto, 2, false, [3, 9]⟩,
        .putbq 2 ⟨mPcproto, 7, false, [1]⟩, .getq, .flushband 2 false] =
          some (q', [none, none, none, some 2, none]) ∧
      q'.msg = update (update (update emptyQueue.msg 0
        ⟨mData, 0, false, [4]⟩) 1 ⟨mProto, 2, false, [3, 9]⟩) 2 ⟨mPcproto, 0, false, [1]⟩ ∧
      q'.Holds [0] := by
  have hfresh : emptyQueue.Fresh := ⟨rfl, rfl, rfl, rfl, nofun⟩
  have hrun : plainRun ⟨emptyQueue.msg, []⟩ [.putq 0 ⟨mData, 0, false, [4]⟩,
      .putq 1 ⟨mProto, 2, false, [3, 9]⟩, .putbq 2 ⟨mPcproto, 7, false, [1]⟩, .getq,
      .flushband 2 false] = some (⟨update (update (update emptyQueue.msg 0
        ⟨mData, 0, false, [4]⟩) 1 ⟨mProto, 2, false, [3, 9]⟩) 2 ⟨mPcproto, 0, false, [1]⟩, [0]⟩,
        [none, none, none, some 2, none]) := rfl
  exact queue_refines_plain hfresh hrun (by decide)

/-- A message that is marked stays at the front, and the one behind it is
    returned. -/
theorem getq_not_first :
    ((queueRun 4 emptyQueue [.putq 0 ⟨mData, 0, true, [4]⟩, .putq 1 ⟨mData, 0, false, [3]⟩]).map
        fun r => r.1.list.first) = some (some 0) ∧
      ((queueRun 4 emptyQueue [.putq 0 ⟨mData, 0, true, [4]⟩, .putq 1 ⟨mData, 0, false, [3]⟩,
        .getq]).map fun r => (r.2, r.1.list.first)) = some ([none, none, some 1], some 0) := by
  decide

end Sol7.Streams
