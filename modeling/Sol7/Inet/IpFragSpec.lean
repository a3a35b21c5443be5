import Sol7.Inet.IpFrag

/-!
# Fragments Tile the Datagram

The payloads of the fragments that `ip_wput_frag` sends are, in order, the
payload of the datagram. Each fragment is a header and a piece of the payload
(`IsFrag`), and a list of fragments tiles the payload from an offset on
(`Tiles`). The loop over the later fragments keeps the copied header, which is
never longer than the first one, so all of them fit.

A fragment has to make progress, so there has to be room for eight bytes behind
the header, and the offset of the last fragment has to fit in thirteen bits.
Where the options are copied, every one of them needs a length in the header, and
one that is copied has to end in the header (`Copyable`). The lengths are tested
before a datagram gets here (`optionsOk`), but the length of an option that is the
last byte of the header is read behind the header, there and here.

## Main definitions

* `fragPayload`: The payload of a message.
* `optionsOk`: The test of `ip_wput_options` and `ip_rput_options`.
* `copied`, `Copyable`: The options that are copied, and when they can be.
* `AllCopied`: Options of which none is left out.
* `IsFrag`, `Tiles`: Fragments, and fragments that tile a payload.
* `Datagram`: What is asked of a datagram.

## Theorems

* `ipCarveMp_spec`: Carving splits the bytes of a message.
* `ipWputFragCopyhdr_spec`: The copied header.
* `ipWputFragCopyhdr_safe_iff`: When the copy ends and reads only the header.
* `fragLoop_tiles`: The later fragments.
* `ipWputFrag_tiles`: All fragments.
-/

namespace Sol7.Inet

open List Option Nat

/-! ### Fields of the header -/

section
variable {bytes : List UInt8} {i j v : Nat}

@[simp] theorem length_set16 : (set16 bytes i v).length = bytes.length := by
  rw [set16, length_set, length_set]

theorem get16_set16 (h : i + 1 < bytes.length) : get16 (set16 bytes i v) i = v % 65536 := by
  have hlo : (set16 bytes i v).getD i 0 = UInt8.ofNat (v / 256) := by
    rw [set16, getD_eq_getElem?_getD, getElem?_set_ne (by omega),
      getElem?_set_self (by omega), getD_some]
  have hhi : (set16 bytes i v).getD (i + 1) 0 = UInt8.ofNat v := by
    rw [set16, getD_eq_getElem?_getD, getElem?_set_self (by rw [length_set]; exact h), getD_some]
  rw [get16, hlo, hhi, UInt8.toNat_ofNat', UInt8.toNat_ofNat']
  omega

theorem getD_set16 (h : j < i ∨ i + 1 < j) : (set16 bytes i v).getD j 0 = bytes.getD j 0 := by
  rw [set16, getD_eq_getElem?_getD, getElem?_set_ne (by omega),
    getElem?_set_ne (by omega), getD_eq_getElem?_getD]

theorem get16_set16_of_ne (h : j + 1 < i ∨ i + 1 < j) :
    get16 (set16 bytes i v) j = get16 bytes j := by
  rw [get16, getD_set16 (by omega), getD_set16 (by omega), get16]

variable {rest hdr : List UInt8}

theorem get16_append (h : i + 1 < bytes.length) : get16 (bytes ++ rest) i = get16 bytes i := by
  rw [get16, getD_append _ _ _ _ (by omega), getD_append _ _ _ _ h, get16]

theorem hdrLength_append (h : 0 < bytes.length) : hdrLength (bytes ++ rest) = hdrLength bytes := by
  rw [hdrLength, getD_append _ _ _ _ h, hdrLength]

/-- What is stored in the header of a fragment, and what stays. -/
theorem storeFragHdr_spec (csum : List UInt8 → Nat) (h : 20 ≤ hdr.length) (oaf len : Nat) :
    (storeFragHdr csum hdr oaf len).length = hdr.length ∧
      hdrLength (storeFragHdr csum hdr oaf len) = hdrLength hdr ∧
      iphaFragmentOffsetAndFlags (storeFragHdr csum hdr oaf len) = oaf % 65536 ∧
      iphaLength (storeFragHdr csum hdr oaf len) = len % 65536 := by
  unfold storeFragHdr
  refine ⟨by simp only [length_set16], ?_, ?_, ?_⟩
  · simp only [hdrLength]
    rw [getD_set16 (by omega), getD_set16 (by omega), getD_set16 (by omega), getD_set16 (by omega)]
  · simp only [iphaFragmentOffsetAndFlags]
    rw [get16_set16_of_ne (by omega), get16_set16_of_ne (by omega), get16_set16_of_ne (by omega),
      get16_set16 (by omega)]
  · simp only [iphaLength]
    rw [get16_set16_of_ne (by omega), get16_set16_of_ne (by omega),
      get16_set16 (by rw [length_set16]; omega)]

/-- Offset and flags do not get in each other's way. -/
theorem land_flags {off mf df : Nat} (hoff : off < 8192) (hmf : mf = 0 ∨ mf = iphMF)
    (hdf : df = 0 ∨ df = iphDF) :
    (mf ||| off ||| df) % 65536 &&& iphOffset = off ∧ (mf ||| off ||| df) % 65536 &&& iphMF = mf ∧
      (mf ||| off ||| df) % 65536 &&& iphDF = df := by
  have hlow : off &&& iphOffset = off := by
    change off &&& (2 ^ 13 - 1) = off
    rw [and_two_pow_sub_one_eq_mod]
    exact mod_eq_of_lt hoff
  have hbit : ∀ k, 13 ≤ k → off &&& 2 ^ k = 0 := by
    intro k hk
    have hlt : off < 2 ^ k := calc
      off < 2 ^ 13 := hoff
      _ ≤ 2 ^ k := Nat.pow_le_pow_right (by decide) hk
    rw [and_two_pow, testBit_lt_two_pow hlt, Bool.toNat_false, zero_mul]
  have hmid : off &&& iphMF = 0 := hbit 13 le_rfl
  have hhigh : off &&& iphDF = 0 := hbit 14 (by omega)
  have hlt : mf ||| off ||| df < 2 ^ 16 := by
    refine or_lt_two_pow (or_lt_two_pow ?_ (by omega)) ?_
    · rcases hmf with rfl | rfl <;> decide
    · rcases hdf with rfl | rfl <;> decide
  rw [mod_eq_of_lt (by omega)]
  simp only [and_or_distrib_right, hlow, hmid, hhigh]
  refine ⟨?_, ?_, ?_⟩
  · have h1 : mf &&& iphOffset = 0 := by rcases hmf with rfl | rfl <;> decide
    have h2 : df &&& iphOffset = 0 := by rcases hdf with rfl | rfl <;> decide
    rw [h1, h2, zero_or, or_zero]
  · rcases hmf with rfl | rfl <;> rcases hdf with rfl | rfl <;> decide
  · rcases hmf with rfl | rfl <;> rcases hdf with rfl | rfl <;> decide

end

/-! ### Carving -/

theorem outBytes_cons (mp : OutMblk) (mps : List OutMblk) :
    outBytes (mp :: mps) = mp.data ++ outBytes mps :=
  flatMap_cons

@[simp] theorem outBytes_nil : outBytes [] = [] := rfl

/-- The rest has the same bytes, pulled up or not. -/
theorem outBytes_carveRest (mp : OutMblk) (len : Nat) (mps : List OutMblk) :
    outBytes (carveRest mp len mps) = mp.data.drop len ++ outBytes mps := by
  unfold carveRest
  split
  · rw [outBytes_cons]
  · rw [pullupmsg, outBytes_cons, outBytes_cons, outBytes_nil, append_nil]

theorem carveLoop_spec {mps : List OutMblk} {len : Nat} (h : len ≤ (outBytes mps).length) :
    ∃ r, carveLoop mps len = some r ∧ outBytes r.1 = (outBytes mps).take len ∧
      outBytes r.2 = (outBytes mps).drop len := by
  induction mps generalizing len with
  | nil =>
    have hzero : len = 0 := le_zero.mp h
    subst hzero
    exact ⟨_, by rw [carveLoop], rfl, rfl⟩
  | cons mp mps ih =>
    cases len with
    | zero => exact ⟨_, by rw [carveLoop], rfl, rfl⟩
    | succ len =>
      rw [outBytes_cons] at h ⊢
      rw [length_append] at h
      unfold carveLoop
      split
      · next hgt =>
          refine ⟨_, rfl, ?_, ?_⟩
          · rw [outBytes_cons, outBytes_nil, append_nil, take_append_of_le_length (by omega)]
          · rw [outBytes_carveRest, drop_append_of_le_length (by omega)]
      · next hle =>
          obtain ⟨r, hr, htake, hdrop⟩ := @ih (len + 1 - mp.data.length) (by omega)
          refine ⟨_, by rw [hr, map_some], ?_, ?_⟩
          · rw [outBytes_cons, htake, take_append, take_of_length_le (le_of_not_gt hle)]
          · rw [hdrop, drop_append, drop_of_length_le (le_of_not_gt hle), nil_append]

/-- Carving splits the bytes of a message. -/
theorem ipCarveMp_spec (mps : List OutMblk) (len : Nat) (hpos : 0 < len)
    (h : len ≤ (outBytes mps).length) :
    ∃ r, ipCarveMp mps len = some r ∧ outBytes r.1 = (outBytes mps).take len ∧
      outBytes r.2 = (outBytes mps).drop len := by
  -- The first mblk is treated as the loop treats the others.
  have heq : ipCarveMp mps len = carveLoop mps len := by
    obtain ⟨k, rfl⟩ := exists_eq_succ_of_ne_zero hpos.ne'
    unfold ipCarveMp
    rw [if_neg (succ_ne_zero k)]
    cases mps with
    | nil => rw [carveLoop]
    | cons mp mps => rw [carveLoop]
  rw [heq]
  exact carveLoop_spec h

/-! ### The copied header -/

/-- The test of lengths in `ip_wput_options` and `ip_rput_options`, over the bytes
    from the options on, of which the header has `totallen`. -/
def optionsOk : Nat → List UInt8 → Nat → Bool
  | _, _, 0 => true
  | 0, _, _ => false
  | fuel + 1, opt, totallen =>
    let optval := (opt.getD 0 0).toNat
    if optval = 0 then true
    else
      let optlen := if optval = 1 then 1 else (opt.getD 1 0).toNat
      optlen ≠ 0 && optlen ≤ totallen && optionsOk fuel (opt.drop optlen) (totallen - optlen)

/-- Those options that are to be copied, each as far as its length says. -/
def copied : Nat → List UInt8 → List UInt8
  | fuel + 1, opt :: opts =>
    let optval := opt.toNat
    if optval = 0 then []
    else
      let optlen := if optval = 1 then 1 else (opts.getD 0 0).toNat
      (if optval &&& 0x80 ≠ 0 then (opt :: opts).take optlen else []) ++
        copied fuel ((opt :: opts).drop optlen)
  | _, _ => []

/-- Every option has a length, and none that is to be copied reaches beyond the
    header. -/
def Copyable : Nat → List UInt8 → Prop
  | _, [] => True
  | 0, _ :: _ => False
  | fuel + 1, opt :: opts =>
    let optval := opt.toNat
    optval ≠ 0 → let optlen := if optval = 1 then 1 else (opts.getD 0 0).toNat
      optlen ≠ 0 ∧ (optval &&& 0x80 ≠ 0 → optlen ≤ opts.length + 1) ∧
        Copyable fuel ((opt :: opts).drop optlen)

/-- Every option is to be copied, and only end-of-list follows. -/
def AllCopied : Nat → List UInt8 → Prop
  | _, [] => True
  | 0, _ :: _ => False
  | fuel + 1, opt :: opts =>
    if opt.toNat = 0 then ∀ b ∈ opts, b = 0
    else
      let optlen := (opts.getD 0 0).toNat
      opt.toNat &&& 0x80 ≠ 0 ∧ optlen ≠ 0 ∧ AllCopied fuel ((opt :: opts).drop optlen)

theorem copied_nil (n : Nat) : copied n [] = [] := by cases n <;> rw [copied] <;> simp

/-- An option without length is never passed. -/
theorem copyOptions_stuck {opt : UInt8} {opts : List UInt8} (len : Int) (hlen : ¬len ≤ 0)
    (hval : opt.toNat ≠ 0) (hnop : opt.toNat ≠ 1) (hzero : (opts.getD 0 0).toNat = 0) (fuel : Nat) :
    copyOptions fuel (opt :: opts) len = none := by
  induction fuel with
  | zero =>
    unfold copyOptions
    simp only [hlen, if_false, getD_cons_zero, hval]
  | succ fuel ih =>
    unfold copyOptions
    simp only [hlen, if_false, getD_cons_zero, getD_cons_succ, hval, hnop, hzero, drop_zero,
      Int.sub_zero, cast_zero, ih]
    rfl

/-- One option that is passed. -/
theorem copyOptions_cons (fuel : Nat) {opt : UInt8} {opts rest : List UInt8} {optlen : Nat}
    (hval : opt.toNat ≠ 0)
    (hlen : (if opt.toNat = 1 then 1 else ((opt :: opts ++ rest).getD 1 0).toNat) = optlen) :
    copyOptions (fuel + 1) (opt :: opts ++ rest) (opt :: opts).length =
      (copyOptions fuel ((opt :: opts ++ rest).drop optlen) ((opt :: opts).length - optlen)).map
        ((if opt.toNat &&& 0x80 ≠ 0 then (opt :: opts ++ rest).take optlen else []) ++ ·) := by
  have hpos : ¬((opt :: opts).length : Int) ≤ 0 := by rw [length_cons]; omega
  rw [copyOptions.eq_def]
  simp only [hpos, if_false, cons_append, getD_cons_zero, hval]
  rw [← hlen]
  rfl

theorem copyOptions_end {len : Int} (hlen : len ≤ 0) (fuel : Nat) (rptr : List UInt8) :
    copyOptions fuel rptr len = some [] := by
  unfold copyOptions
  rw [if_pos hlen]

theorem getD_padOptions (opts : List UInt8) (i : Nat) :
    (padOptions opts)[i]?.getD 0 = opts[i]?.getD 0 := by
  rw [padOptions, getElem?_append]
  split
  · rfl
  next hge =>
  rw [getElem?_eq_none (not_lt.mp hge), getElem?_replicate]
  split <;> rfl

/-- Whatever follows the header, the same options are copied, just if they can be. -/
theorem copyOptions_iff {n fuel : Nat} {opts : List UInt8} (pre : List UInt8)
    (hn : opts.length ≤ n) (hfuel : opts.length ≤ fuel) :
    (Copyable n opts → ∀ rest, copyOptions fuel (opts ++ rest) opts.length = some (copied n opts)) ∧
    ((∃ out, ∀ rest, (copyOptions fuel (opts ++ rest) opts.length).map
      (fun o => padOptions (pre ++ o)) = some out) → Copyable n opts) := by
  induction n generalizing fuel opts pre with
  | zero =>
    obtain rfl := length_eq_zero_iff.mp (le_zero.mp hn)
    exact ⟨fun _ rest => copyOptions_end (by simp) _ _, fun _ => trivial⟩
  | succ n ih =>
    cases opts with
    | nil => exact ⟨fun _ rest => copyOptions_end (by simp) _ _, fun _ => trivial⟩
    | cons opt opts =>
      rw [length_cons] at hn hfuel
      obtain ⟨k, rfl⟩ := exists_eq_succ_of_ne_zero (show fuel ≠ 0 by omega)
      by_cases hval : opt.toNat = 0
      · refine ⟨fun _ rest => ?_, fun _ h => absurd hval h⟩
        unfold copyOptions
        simp [copied, hval]
      rw [Copyable, copied]
      simp only [hval, if_false, ne_eq, not_false_eq_true, forall_const]
      generalize hopt : (if opt.toNat = 1 then 1 else (opts.getD 0 0).toNat) = optlen
      by_cases hzero : optlen = 0
      · -- No length in the header, or 0: if nothing follows, the walk does not end.
        refine ⟨fun hc => absurd hzero hc.1, fun ⟨out, hout⟩ => ?_⟩
        have hnop : opt.toNat ≠ 1 := fun h => by rw [if_pos h] at hopt; omega
        rw [if_neg hnop, hzero] at hopt
        have hnone := copyOptions_stuck (opt :: opts).length (by rw [length_cons]; omega)
          hval hnop hopt (k + 1)
        have hsome := hout []
        rw [append_nil, hnone] at hsome
        cases hsome
      have hread : ∀ rest, (if opt.toNat = 1 then 1 else ((opt :: opts ++ rest).getD 1 0).toNat) =
          optlen := by
        intro rest
        cases opts with
        | nil =>
          by_cases hone : opt.toNat = 1
          · rw [← hopt, if_pos hone, if_pos hone]
          · rw [if_neg hone] at hopt
            exact absurd hopt.symm hzero
        | cons o os => exact hopt
      have hstep := fun rest => copyOptions_cons k hval (hread rest)
      simp only [hstep]
      by_cases hle : optlen ≤ (opt :: opts).length
      · have hcast : ((opt :: opts).length : Int) - optlen = ((opt :: opts).drop optlen).length := by
          rw [length_drop]
          omega
        have hsize : ((opt :: opts).drop optlen).length ≤ opts.length := by
          rw [length_drop, length_cons]
          omega
        simp only [drop_append_of_le_length hle, take_append_of_le_length hle, hcast]
        generalize (if ¬opt.toNat &&& 128 = 0 then take optlen (opt :: opts) else []) = c
        obtain ⟨hcopy, hback⟩ :=
            ih (pre ++ c) (hsize.trans (by omega)) (hsize.trans (show _ ≤ k by omega))
        constructor
        · intro hc rest
          rw [hcopy hc.2.2, map_some]
        · rintro ⟨out, hout⟩
          refine ⟨hzero, fun _ => hle, hback ⟨out, fun rest => ?_⟩⟩
          rw [← hout rest, Option.map_map]
          simp only [append_assoc, Function.comp_def]
      · have hdrop : (opt :: opts).drop optlen = [] := drop_eq_nil_of_le (by omega)
        simp only [copyOptions_end (show ((opt :: opts).length : Int) - optlen ≤ 0 by omega), hdrop,
          map_some]
        constructor
        · intro hc rest
          have hno : opt.toNat &&& 0x80 = 0 := by
            by_contra h
            exact hle (hc.2.1 h)
          simp [hno, copied_nil]
        · rintro ⟨out, hout⟩
          refine ⟨hzero, fun hbit => ?_, by cases n <;> trivial⟩
          -- What is copied depends on what follows: nothing, or ones.
          have hnone := hout []
          rw [← hout (replicate optlen 1)] at hnone
          rw [length_cons] at hle
          simp only [ne_eq, hbit, not_false_eq_true, if_true, append_nil, some.injEq] at hnone
          have hbyte := congrArg (·[pre.length + (opts.length + 1)]?.getD 0) hnone
          simp only [getD_padOptions, getElem?_append_right (le_add_right _ _),
            Nat.add_sub_cancel_left, getElem?_take] at hbyte
          rw [if_pos (by omega), if_pos (by omega)] at hbyte
          simp [show 0 < optlen by omega] at hbyte

/-- What is copied begins with an option that is to be copied. -/
theorem head_copied (n : Nat) (opts : List UInt8) :
    ∀ b ∈ (copied n opts).head?, b.toNat &&& 0x80 ≠ 0 := by
  fun_induction copied n opts with
  | case1 => exact nofun
  | case2 fuel opt opts optval hval optlen ih =>
    intro b hb
    by_cases hbit : optval &&& 0x80 ≠ 0
    · rw [if_pos hbit] at hb
      cases hlen : optlen with
      | zero => exact ih b (by simpa [hlen] using hb)
      | succ len =>
        obtain rfl : opt = b := by simpa [hlen] using hb
        exact hbit
    · exact ih b (by simpa [hbit] using hb)
  | case3 => exact nofun

/-- So a first byte that is not of such an option is end-of-list. -/
theorem eq_zero_of_copied {opt : UInt8} {opts o : List UInt8} {n k : Nat}
    (he : opt :: opts = copied n o ++ replicate k 0) (hbit : opt.toNat &&& 0x80 = 0) :
    opt.toNat = 0 := by
  cases hc : copied n o with
  | nil =>
    rw [hc] at he
    rw [(eq_replicate_iff.mp he).2 opt mem_cons_self]
    rfl
  | cons b bs =>
    rw [hc] at he
    exact absurd hbit (head_copied n o opt (by rw [hc, (cons.inj he).1]; rfl))

/-- An option without length is not passed, so nothing is copied. -/
theorem copied_stuck {opt : UInt8} {opts : List UInt8} (hnop : opt.toNat ≠ 1)
    (hzero : (opts.getD 0 0).toNat = 0) (n : Nat) : copied n (opt :: opts) = [] := by
  induction n with
  | zero => rfl
  | succ n ih =>
    simp only [copied, hzero, if_neg hnop, take_zero, drop_zero, ite_self, ih, append_nil]

/-- The options are what is copied of them, and end-of-list. The induction follows
    the walk, which stops at the first option that is not to be copied. -/
theorem allCopied_iff {n : Nat} {opts : List UInt8} (hn : opts.length ≤ n) :
    (∃ k, opts = copied n opts ++ replicate k 0) ↔ AllCopied n opts := by
  induction n generalizing opts with
  | zero =>
    obtain rfl := length_eq_zero_iff.mp (le_zero.mp hn)
    exact ⟨fun _ => trivial, fun _ => ⟨0, rfl⟩⟩
  | succ n ih =>
    cases opts with
    | nil => exact ⟨fun _ => trivial, fun _ => ⟨0, rfl⟩⟩
    | cons opt opts =>
      rw [length_cons] at hn
      rw [AllCopied]
      by_cases hval : opt.toNat = 0
      · have hopt : opt = 0 := UInt8.toNat_inj.mp hval
        rw [copied]
        simp only [hval, if_true, nil_append]
        constructor
        · rintro ⟨k, he⟩ b hb
          exact (eq_replicate_iff.mp he).2 b (mem_cons_of_mem _ hb)
        · intro hall
          exact ⟨_, eq_replicate_iff.mpr ⟨rfl, forall_mem_cons.mpr ⟨hopt, hall⟩⟩⟩
      rw [if_neg hval]
      by_cases hbit : opt.toNat &&& 0x80 = 0
      · exact ⟨fun ⟨k, he⟩ => absurd (eq_zero_of_copied he hbit) hval, fun h => absurd hbit h.1⟩
      have hnop : opt.toNat ≠ 1 := fun h => hbit (by rw [h]; rfl)
      by_cases hzero : (opts.getD 0 0).toNat = 0
      · refine ⟨fun ⟨k, he⟩ => ?_, fun h => absurd hzero h.2.1⟩
        rw [copied_stuck hnop hzero] at he
        have hopt := (eq_replicate_iff.mp he).2 opt mem_cons_self
        exact absurd (by rw [hopt]; rfl) hval
      generalize hlen : (opts.getD 0 0).toNat = optlen at hzero
      have hsize : ((opt :: opts).drop optlen).length ≤ n := by
        rw [length_drop, length_cons]
        omega
      have hsplit := take_append_drop optlen (opt :: opts)
      rw [copied]
      simp only [hval, hnop, hbit, hzero, if_false, hlen, ne_eq, not_false_eq_true, if_true,
        true_and, append_assoc, ← ih hsize]
      exact exists_congr fun k => ⟨fun he => append_cancel_left (hsplit.trans he),
        fun he => hsplit.symm.trans (congrArg (take optlen (opt :: opts) ++ ·) he)⟩

/-- The options that are copied are no longer than all of them. -/
theorem length_copied (n : Nat) (opts : List UInt8) : (copied n opts).length ≤ opts.length := by
  fun_induction copied n opts with
  | case1 => exact zero_le
  | case2 =>
    rw [length_append]
    rw [length_drop] at *
    split
    · rw [length_take]
      omega
    · rw [length_nil]
      omega
  | case3 => exact zero_le

variable {hdr : List UInt8}

theorem hdrLength_bounds (hlen : hdrLength hdr = hdr.length) :
    hdr.length % 4 = 0 ∧ hdr.length ≤ 60 := by
  have hlow : (hdr.getD 0 0).toNat &&& 0xF < 16 := by
    change _ &&& (2 ^ 4 - 1) < 16
    rw [and_two_pow_sub_one_eq_mod]
    omega
  rw [← hlen, hdrLength]
  omega

theorem length_padOptions (opts : List UInt8) :
    (padOptions opts).length = (opts.length + 3) / 4 * 4 := by
  rw [padOptions, length_append, length_replicate]
  omega

/-- The copy where the options are looked at. -/
theorem ipWputFragCopyhdr_eq {offset : Nat} (hmin : 20 ≤ hdr.length)
    (hcond : ¬(hdr.length = ipSimpleHdrLength ∨ offset ≠ 0)) (rest : List UInt8) :
    ipWputFragCopyhdr (hdr ++ rest) hdr.length offset =
      (copyOptions hdr.length (hdr.drop 20 ++ rest) (hdr.drop 20).length).map fun opts =>
        (hdr.take 20 ++ padOptions opts).set 0
          (UInt8.ofNat (0x40 ||| (hdr.take 20 ++ padOptions opts).length >>> 2)) := by
  have hcast : (hdr.length - ipSimpleHdrLength : Int) = (hdr.drop 20).length := by
    rw [length_drop]
    unfold ipSimpleHdrLength
    omega
  unfold ipWputFragCopyhdr
  rw [if_neg hcond, hcast, show ipSimpleHdrLength = 20 from rfl, drop_append_of_le_length hmin,
    take_append_of_le_length hmin]

/-- The copied header is a header, it is no longer than the original one, and
    it has the same offset and flags. -/
theorem ipWputFragCopyhdr_spec (offset : Nat)
    (hlen : hdrLength hdr = hdr.length) (hmin : 20 ≤ hdr.length)
    (hopts : offset = 0 → Copyable hdr.length (hdr.drop 20)) :
    ∃ hdr', (∀ rest, ipWputFragCopyhdr (hdr ++ rest) hdr.length offset = some hdr') ∧
      hdrLength hdr' = hdr'.length ∧ 20 ≤ hdr'.length ∧ hdr'.length ≤ hdr.length ∧
      iphaFragmentOffsetAndFlags hdr' = iphaFragmentOffsetAndFlags hdr ∧
      (offset = 0 → hdr'.drop 20 = padOptions (copied hdr.length (hdr.drop 20))) := by
  have hsmall : (hdr.drop 20).length ≤ hdr.length := by
    rw [length_drop]
    omega
  by_cases hcond : hdr.length = ipSimpleHdrLength ∨ offset ≠ 0
  · refine ⟨hdr, fun rest => ?_, hlen, hmin, le_rfl, rfl, fun hzero => ?_⟩
    · rw [ipWputFragCopyhdr, if_pos hcond, take_left]
    · have hnil : hdr.drop 20 = [] := drop_eq_nil_of_le (hcond.resolve_right (not_not.mpr hzero)).le
      rw [hnil, copied_nil]
      rfl
  have hfour := hdrLength_bounds hlen
  have hout := (copyOptions_iff [] hsmall hsmall).1 (hopts (by tauto))
  have hle := length_copied hdr.length (hdr.drop 20)
  rw [length_drop] at hle
  generalize copied hdr.length (hdr.drop 20) = out at hout hle
  have hsize : (hdr.take 20 ++ padOptions out).length = 20 + (out.length + 3) / 4 * 4 := by
    rw [length_append, length_take, length_padOptions]
    omega
  simp only [ipWputFragCopyhdr_eq hmin hcond, hout, map_some]
  refine ⟨_, fun _ => rfl, ?_, ?_, ?_, ?_, fun _ => ?_⟩
  · rw [length_set, hdrLength, getD_eq_getElem?_getD,
      getElem?_set_self (by omega), getD_some, UInt8.toNat_ofNat', hsize]
    have hbound : (out.length + 3) / 4 ≤ 10 := by omega
    generalize (out.length + 3) / 4 = k at hbound
    interval_cases k <;> decide
  · rw [length_set, hsize]
    omega
  · rw [length_set, hsize]
    omega
  · have hget : ∀ j, 0 < j → j < 20 → ((hdr.take 20 ++ padOptions out).set 0
          (UInt8.ofNat (0x40 ||| (hdr.take 20 ++ padOptions out).length >>> 2))).getD j 0 =
        hdr.getD j 0 := by
      intro j hpos hj
      rw [getD_eq_getElem?_getD, getElem?_set_ne (by omega),
        getElem?_append_left (by rw [length_take]; omega),
        getElem?_take_of_lt hj, getD_eq_getElem?_getD]
    rw [iphaFragmentOffsetAndFlags, get16, hget 6 (by omega) (by omega),
      hget 7 (by omega) (by omega)]
    rfl
  · rw [drop_set_of_lt (by omega), drop_left' (by rw [length_take]; omega)]

/-- The copy holds the options that are to be copied, and end-of-list. -/
def HoldsCopied (hdr out : List UInt8) : Prop :=
  out.length ≤ hdr.length ∧ out.length % 4 = 0 ∧
    ∃ n, out.drop 20 = copied hdr.length (hdr.drop 20) ++ replicate n 0

/-- Whatever follows the header, the copy ends and is as it should be, just if the
    options can be copied; those of a later fragment are all taken, so none of them
    may be one that is not to be copied. -/
theorem ipWputFragCopyhdr_safe_iff (hdr : List UInt8) (hlen : hdrLength hdr = hdr.length)
    (hmin : 20 ≤ hdr.length) (offset : Nat) :
    (∃ out, (∀ rest, ipWputFragCopyhdr (hdr ++ rest) hdr.length offset = some out) ∧
      HoldsCopied hdr out) ↔ if offset = 0 then Copyable hdr.length (hdr.drop 20)
      else AllCopied hdr.length (hdr.drop 20) := by
  have hfour := hdrLength_bounds hlen
  have hsmall : (hdr.drop 20).length ≤ hdr.length := by
    rw [length_drop]
    omega
  by_cases hoff : offset = 0
  · rw [if_pos hoff]
    constructor
    · rintro ⟨out, hout, -⟩
      by_cases hsimple : hdr.length = ipSimpleHdrLength
      · rw [drop_eq_nil_of_le (show hdr.length ≤ 20 from hsimple.le)]
        cases hdr.length <;> trivial
      refine (copyOptions_iff [] hsmall hsmall).2 ⟨out.drop 20, fun rest => ?_⟩
      have hcopy := hout rest
      rw [ipWputFragCopyhdr_eq hmin (by simp [hsimple, hoff])] at hcopy
      obtain ⟨opts, hopts, rfl⟩ := map_eq_some_iff.mp hcopy
      rw [hopts, map_some, drop_set_of_lt (by omega), drop_left' (by rw [length_take]; omega),
        nil_append]
    · intro hopts
      rcases ipWputFragCopyhdr_spec offset hlen hmin fun _ => hopts with ⟨out, hout, hlen', -, hle, -, hdrop⟩
      exact ⟨out, hout, hle, (hdrLength_bounds hlen').1, _, hdrop hoff⟩
  · rw [if_neg hoff, ← allCopied_iff hsmall]
    have hall : ∀ rest, ipWputFragCopyhdr (hdr ++ rest) hdr.length offset = some hdr := by
      intro rest
      rw [ipWputFragCopyhdr, if_pos (.inr hoff), take_left]
    constructor
    · rintro ⟨out, hout, -, -, hcopied⟩
      obtain rfl := some.inj ((hall []).symm.trans (hout []))
      exact hcopied
    · exact fun hcopied => ⟨hdr, hall, le_rfl, hfour.1, hcopied⟩

/-- A source route is copied. -/
theorem ipWputFragCopyhdr_safe_route : ∃ hdr : List UInt8, hdr.drop 20 = [0x83, 3, 4, 0] ∧
    ∃ out, (∀ rest, ipWputFragCopyhdr (hdr ++ rest) hdr.length 0 = some out) ∧
      HoldsCopied hdr out := by
  refine ⟨0x46 :: replicate 19 0 ++ [0x83, 3, 4, 0], rfl,
    (ipWputFragCopyhdr_safe_iff _ (by decide) (by decide) 0).mpr ?_⟩
  exact fun _ => ⟨by decide, fun _ => by decide, absurd rfl⟩

/-- The lengths pass the test with the byte that follows the header, and the copy
    depends on that byte. -/
theorem ipWputFragCopyhdr_reads_on : ∃ hdr : List UInt8, hdrLength hdr = 24 ∧ hdr.length = 24 ∧
    optionsOk 24 (hdr.drop 20 ++ [1]) 4 = true ∧
    (ipWputFragCopyhdr (hdr ++ [1]) 24 0).map (drop 20) = some [0x82, 0, 0, 0] ∧
    (ipWputFragCopyhdr (hdr ++ [2]) 24 0).map (drop 20) = some [0x82, 2, 0, 0] :=
  ⟨0x46 :: replicate 19 0 ++ [1, 1, 1, 0x82], rfl, rfl, by decide +kernel⟩

/-! ### Fragments -/

/-- The payload of a message. -/
def fragPayload (bytes : List UInt8) : List UInt8 := bytes.drop (hdrLength bytes)

/-- A fragment: it fits, its header tells its length, offset and flags, and it
    carries the data. -/
structure IsFrag (maxFrag df off mf : Nat) (data bytes : List UInt8) : Prop where
  payload : fragPayload bytes = data
  fits : bytes.length ≤ maxFrag
  length : iphaLength bytes = bytes.length
  offset : iphaFragmentOffsetAndFlags bytes &&& iphOffset = off
  more : iphaFragmentOffsetAndFlags bytes &&& iphMF = mf
  dont : iphaFragmentOffsetAndFlags bytes &&& iphDF = df

/-- Fragments that tile data from an offset on. All but the last one say that
    there are more. -/
inductive Tiles (maxFrag df mf : Nat) : Nat → List UInt8 → List (List UInt8) → Prop
  | last {off : Nat} {data bytes : List UInt8} (h : IsFrag maxFrag df off mf data bytes) :
      Tiles maxFrag df mf off data [bytes]
  | more {off : Nat} {data rest bytes : List UInt8} {frags : List (List UInt8)}
      (h : IsFrag maxFrag df off iphMF data bytes) (hpos : 0 < data.length)
      (height : data.length % 8 = 0)
      (ht : Tiles maxFrag df mf (off + data.length / 8) rest frags) :
      Tiles maxFrag df mf off (data ++ rest) (bytes :: frags)

section
variable {maxFrag df off mf len dataEnd : Nat} {hdr data : List UInt8}

/-- A header with its fields stored, in front of data. -/
theorem isFrag_store (csum : List UInt8 → Nat) (data : List UInt8)
    (hlen : hdrLength hdr = hdr.length) (hmin : 20 ≤ hdr.length) (hoff : off < 8192)
    (hmf : mf = 0 ∨ mf = iphMF) (hdf : df = 0 ∨ df = iphDF)
    (hfits : hdr.length + data.length ≤ maxFrag) (hsmall : hdr.length + data.length < 65536) :
    IsFrag maxFrag df off mf data
      (storeFragHdr csum hdr (mf ||| off ||| df) (data.length + hdr.length) ++ data) := by
  obtain ⟨hsize, hhdr, hfield, hlength⟩ :=
      storeFragHdr_spec csum hmin (mf ||| off ||| df) (data.length + hdr.length)
  obtain ⟨h1, h2, h3⟩ := land_flags hoff hmf hdf
  have hfield' : iphaFragmentOffsetAndFlags
      (storeFragHdr csum hdr (mf ||| off ||| df) (data.length + hdr.length) ++ data) =
        (mf ||| off ||| df) % 65536 := by
    rw [iphaFragmentOffsetAndFlags, get16_append (by omega), ← hfield]
    rfl
  refine ⟨?_, ?_, ?_, hfield' ▸ h1, hfield' ▸ h2, hfield' ▸ h3⟩
  · rw [fragPayload, hdrLength_append (by omega), hhdr, hlen]
    exact drop_left' hsize
  · rw [length_append, hsize]
    exact hfits
  · rw [iphaLength, get16_append (by omega), length_append, hsize]
    change iphaLength _ = _
    rw [hlength, mod_eq_of_lt (by omega), add_comm]

/-- The later fragments tile what is left. -/
theorem fragLoop_tiles (csum : List UInt8 → Nat) (maxFrag : Nat) (hlen : hdrLength hdr = hdr.length)
    (hmin : 20 ≤ hdr.length) (hdf : df = 0 ∨ df = iphDF) (hpos : 0 < len) (height : len % 8 = 0)
    (hfits : hdr.length + len ≤ maxFrag) (hsmall : hdr.length + len < 65536)
    (hend : dataEnd < 65536) (fuel offset : Nat) (mps : List OutMblk) (hoff : offset % 8 = 0)
    (hdata : (outBytes mps).length = dataEnd - offset) (hmore : offset < dataEnd)
    (hfuel : (outBytes mps).length ≤ fuel) :
    (fragLoop csum hdr df len dataEnd fuel mps offset).done = true ∧
      Tiles maxFrag df (iphaFragmentOffsetAndFlags hdr &&& iphMF) (offset / 8) (outBytes mps)
        ((fragLoop csum hdr df len dataEnd fuel mps offset).sent.map outBytes) := by
  induction fuel generalizing mps offset with
  | zero => omega
  | succ fuel ih =>
    have hshift : offset >>> 3 = offset / 8 := shiftRight_eq_div_pow _ _
    unfold fragLoop
    split
    · next hgt =>
        -- There are more fragments after this one.
        obtain ⟨r, hr, htake, hdrop⟩ := ipCarveMp_spec mps len hpos (by omega)
        have hsize : (outBytes r.1).length = len := by
          rw [htake, length_take]
          omega
        have hrest : (outBytes r.2).length = dataEnd - (offset + len) := by
          rw [hdrop, length_drop]
          omega
        obtain ⟨hdone, htiles⟩ := ih (offset + len) r.2 (by omega) hrest (by omega) (by omega)
        simp only [hr]
        refine ⟨hdone, ?_⟩
        rw [map_cons, outBytes_cons, ← take_append_drop len (outBytes mps), ← htake, ← hdrop]
        refine .more ?_ (by omega) (by omega) ?_
        · simp only [hshift, hlen]
          rw [← hsize]
          exact isFrag_store csum _ hlen hmin (by omega) (.inr rfl) hdf (by omega) (by omega)
        · rw [hsize, show offset / 8 + len / 8 = (offset + len) / 8 by omega]
          exact htiles
    · next hle =>
        obtain ⟨r, hr, htake, _⟩ := ipCarveMp_spec mps (dataEnd - offset) (by omega) (by omega)
        have hall : outBytes r.1 = outBytes mps := by rw [htake, take_of_length_le (by omega)]
        have hmf : iphaFragmentOffsetAndFlags hdr &&& iphMF = 0 ∨
            iphaFragmentOffsetAndFlags hdr &&& iphMF = iphMF := by
          change _ &&& 2 ^ 13 = 0 ∨ _ &&& 2 ^ 13 = 2 ^ 13
          rw [and_two_pow]
          cases testBit _ 13 with
          | false => exact .inl (zero_mul _)
          | true => exact .inr (one_mul _)
        simp only [hr]
        refine ⟨trivial, ?_⟩
        rw [map_cons, map_nil, outBytes_cons, hall]
        refine .last ?_
        simp only [hshift, hlen, ← hdata]
        exact isFrag_store csum _ hlen hmin (by omega) hmf hdf (by omega) (by omega)

/-- The tiles one by one: together they are the data, each fits and tells its
    length, and each tells its offset and whether there are more. -/
theorem Tiles.frags {frags : List (List UInt8)} (h : Tiles maxFrag df mf off data frags) :
    frags.flatMap fragPayload = data ∧
      (∀ f ∈ frags, f.length ≤ maxFrag ∧ iphaLength f = f.length) ∧
      ∀ pre f post, frags = pre ++ f :: post → iphaFragmentOffsetAndFlags f &&& iphOffset =
            off + (pre.flatMap fragPayload).length / 8 ∧
          (post ≠ [] → 0 < (fragPayload f).length ∧ (fragPayload f).length % 8 = 0 ∧
            iphaFragmentOffsetAndFlags f &&& iphMF = iphMF) ∧
          (post = [] → iphaFragmentOffsetAndFlags f &&& iphMF = mf) := by
  induction h with
  | last h =>
    refine ⟨?_, fun f hf => ?_, fun pre f post heq => ?_⟩
    · rw [flatMap_singleton]
      exact h.payload
    · rw [mem_singleton.mp hf]
      exact ⟨h.fits, h.length⟩
    · cases pre with
      | nil =>
        cases heq
        exact ⟨h.offset, absurd rfl, fun _ => h.more⟩
      | cons p ps =>
        rw [cons_append, cons.injEq] at heq
        exact absurd heq.2.symm (append_ne_nil_of_right_ne_nil _ (cons_ne_nil _ _))
  | more h hpos height ht ih =>
    obtain ⟨hconcat, hall, hpos'⟩ := ih
    refine ⟨?_, forall_mem_cons.mpr ⟨⟨h.fits, h.length⟩, hall⟩, fun pre f post heq => ?_⟩
    · rw [flatMap_cons, hconcat, h.payload]
    cases pre with
    | nil =>
      cases heq
      refine ⟨h.offset, fun _ => ?_, fun hnil => ?_⟩
      · rw [h.payload]
        exact ⟨hpos, height, h.more⟩
      · rw [hnil] at ht
        cases ht
    | cons p ps =>
      rw [cons_append, cons.injEq] at heq
      obtain ⟨rfl, heq⟩ := heq
      obtain ⟨hoff, hmore, hlast⟩ := hpos' ps f post heq
      refine ⟨?_, hmore, hlast⟩
      rw [hoff, flatMap_cons, length_append, h.payload]
      omega

end

/-- A datagram without `IPH_DF`: its header, whose options can be copied if they
    have to be and which tells the length of the datagram, and its payload. -/
structure Datagram (hdr payload : List UInt8) : Prop where
  hdrLen : hdrLength hdr = hdr.length
  min : 20 ≤ hdr.length
  options : iphaFragmentOffsetAndFlags hdr &&& iphOffset = 0 → Copyable hdr.length (hdr.drop 20)
  mayFrag : iphaFragmentOffsetAndFlags hdr &&& iphDF = 0
  length : iphaLength hdr = hdr.length + payload.length

theorem get16_lt (bytes : List UInt8) (i : Nat) : get16 bytes i < 65536 := by
  have h1 := (bytes.getD i 0).toNat_lt
  have h2 := (bytes.getD (i + 1) 0).toNat_lt
  rw [get16]
  omega

section
variable (csum : List UInt8 → Nat) (rptr maxFrag fragFlag : Nat)
  (hdr data : List UInt8) (mps : List OutMblk) (h : Datagram hdr (data ++ outBytes mps))
  (hflag : fragFlag = 0 ∨ fragFlag = iphDF) (hlong : maxFrag < iphaLength hdr)
  (hroom : hdr.length + 8 ≤ maxFrag) (hend : 8 * (iphaFragmentOffsetAndFlags hdr &&& iphOffset) +
    (data ++ outBytes mps).length < 65536)
include h hflag hlong hroom hend

/-- The fragments of a datagram tile it, provided that there is room for eight
    bytes behind the header and that offsets do not outgrow thirteen bits. -/
theorem ipWputFrag_spec :
    ∃ r, ipWputFrag csum (⟨rptr, hdr ++ data⟩ :: mps) maxFrag fragFlag = some r ∧ r.done = true ∧
      Tiles maxFrag fragFlag (iphaFragmentOffsetAndFlags hdr &&& iphMF)
        (iphaFragmentOffsetAndFlags hdr &&& iphOffset) (data ++ outBytes mps)
        (r.sent.map outBytes) := by
  have hmin := h.min
  have hlen := h.length
  have hfield : iphaFragmentOffsetAndFlags (hdr ++ data) = iphaFragmentOffsetAndFlags hdr :=
    get16_append (by omega)
  have hlength : iphaLength (hdr ++ data) = iphaLength hdr := get16_append (by omega)
  have hhdr : hdrLength (hdr ++ data) = hdr.length := by rw [hdrLength_append (by omega), h.hdrLen]
  have hmax : iphaLength hdr < 65536 := get16_lt _ _
  have hoff : iphaFragmentOffsetAndFlags hdr &&& iphOffset < 8192 := by
    change _ &&& (2 ^ 13 - 1) < 8192
    rw [and_two_pow_sub_one_eq_mod]
    omega
  rcases ipWputFragCopyhdr_spec (iphaFragmentOffsetAndFlags hdr &&& iphOffset) h.hdrLen h.min
    h.options with ⟨hdr', hcopy, hlen', hmin', hle', hfield', -⟩
  unfold ipWputFrag
  simp only [hfield, hlength, hhdr, h.mayFrag, hcopy, bind_some, take_left, drop_left]
  rw [if_neg (by simp only [ne_eq, not_true_eq_false, not_false_eq_true]), if_neg (by omega),
    if_neg (by omega)]
  generalize iphaFragmentOffsetAndFlags hdr &&& iphOffset = off at hoff hend ⊢
  generalize hn : (maxFrag - hdr.length) / 8 * 8 = n
  have hfirst : ((data ++ outBytes mps).take n).length = n := by
    rw [length_take]
    omega
  -- The first fragment, whose header has been stored in the message.
  have hfrag : IsFrag maxFrag fragFlag off iphMF ((data ++ outBytes mps).take n)
      (storeFragHdr csum hdr (off ||| iphMF ||| fragFlag) (n + hdr.length) ++
        (data ++ outBytes mps).take n) := by
    have := isFrag_store csum ((data ++ outBytes mps).take n) h.hdrLen hmin hoff
      (.inr rfl) hflag (show hdr.length + _ ≤ maxFrag by omega) (by omega)
    rw [hfirst, lor_comm iphMF] at this
    exact this
  have hstore : (storeFragHdr csum hdr (off ||| iphMF ||| fragFlag) (n + hdr.length)).length =
      hdr.length := (storeFragHdr_spec csum hmin _ _).1
  generalize storeFragHdr csum hdr (off ||| iphMF ||| fragFlag) (n + hdr.length) = H at hfrag hstore ⊢
  have hbytes : outBytes (⟨rptr, H ++ data⟩ :: mps) = H ++ (data ++ outBytes mps) := by
    rw [outBytes_cons, append_assoc]
  rcases ipCarveMp_spec (⟨rptr, H ++ data⟩ :: mps) (n + hdr.length) (by omega)
    (by rw [hbytes, length_append, hstore]; omega) with ⟨r, hr, htake, hdrop⟩
  rw [hbytes, add_comm, ← hstore, take_length_add_append] at htake
  rw [hbytes, add_comm, ← hstore, drop_length_add_append] at hdrop
  have hrest : (outBytes r.2).length = 8 * off + iphaLength hdr - hdr.length - (8 * off + n) := by
    rw [hdrop, length_drop]
    omega
  rcases fragLoop_tiles csum maxFrag hlen' hmin' hflag (show 0 < n by omega) (by omega)
    (by omega) (by omega) (show 8 * off + iphaLength hdr - hdr.length < 65536 by omega)
    (iphaLength hdr) (8 * off + n) r.2 (by omega) hrest (by omega) (by omega) with ⟨hdone, htiles⟩
  simp only [hr]
  refine ⟨_, rfl, hdone, ?_⟩
  have hsplit := take_append_drop n (data ++ outBytes mps)
  rw [← hdrop] at hsplit
  rw [hfield', show (8 * off + n) / 8 = off + n / 8 by omega] at htiles
  have htile := Tiles.more hfrag (by omega) (by omega) (by rw [hfirst]; exact htiles)
  rw [hsplit, ← htake] at htile
  exact htile

/-- The payloads of the fragments are in order the payload of the datagram.
    Each fragment fits and tells its length; its offset is that of the datagram
    and what precedes it; all but the last carry a positive multiple of eight
    bytes and say that there are more, and the last one says what the datagram
    says. -/
theorem ipWputFrag_tiles :
    ∃ r, ipWputFrag csum (⟨rptr, hdr ++ data⟩ :: mps) maxFrag fragFlag = some r ∧ r.done = true ∧
      (r.sent.map outBytes).flatMap fragPayload = data ++ outBytes mps ∧
      (∀ f ∈ r.sent.map outBytes, f.length ≤ maxFrag ∧ iphaLength f = f.length) ∧
      ∀ pre f post, r.sent.map outBytes = pre ++ f :: post →
        iphaFragmentOffsetAndFlags f &&& iphOffset =
            (iphaFragmentOffsetAndFlags hdr &&& iphOffset) + (pre.flatMap fragPayload).length / 8 ∧
          (post ≠ [] → 0 < (fragPayload f).length ∧ (fragPayload f).length % 8 = 0 ∧
            iphaFragmentOffsetAndFlags f &&& iphMF = iphMF) ∧
          (post = [] → iphaFragmentOffsetAndFlags f &&& iphMF =
            iphaFragmentOffsetAndFlags hdr &&& iphMF) := by
  obtain ⟨r, hr, hdone, htiles⟩ := ipWputFrag_spec csum rptr _ _ _ _ _ h hflag hlong hroom hend
  exact ⟨r, hr, hdone, htiles.frags⟩

end

/-- The header of a datagram of 40 bytes. -/
def sampleHdr : List UInt8 := [0x45, 0, 0, 40, 0, 1, 0, 0, 64, 17, 0, 0, 10, 0, 0, 1, 10, 0, 0, 2]

/-- Twenty bytes in two mblks, in fragments of at most 36 bytes. -/
theorem ipWputFrag_tiles_sample :
    ∃ r, ipWputFrag (fun _ => 0) [⟨0, sampleHdr ++ [1, 2, 3]⟩, ⟨0, replicate 17 4⟩] 36 0 =
        some r ∧ r.done = true ∧
      (r.sent.map outBytes).flatMap fragPayload = [1, 2, 3] ++ replicate 17 4 := by
  rcases ipWputFrag_tiles (fun _ => 0) 0 36 0 sampleHdr [1, 2, 3] [⟨0, replicate 17 4⟩]
    ⟨by decide, by decide, fun _ => trivial, by decide, by decide⟩ (.inl rfl) (by decide) (by decide)
    (by decide) with ⟨r, hr, hdone, hpayload, _⟩
  exact ⟨r, hr, hdone, hpayload⟩

/-- The same with the greatest offset, and 16 bytes. -/
def lateHdr : List UInt8 := ((sampleHdr.set 3 36).set 6 0x1F).set 7 0xFF

/-- Without room for eight bytes behind the header nothing but the header is sent,
    and behind the greatest offset there is none for a second fragment. -/
theorem ipWputFrag_small_maxFrag :
    (Datagram sampleHdr (replicate 20 4) ∧ 24 < iphaLength sampleHdr ∧
      (ipWputFrag (fun _ => 0) [⟨0, sampleHdr ++ replicate 20 4⟩] 24 0).map (fun r =>
        (r.done, (r.sent.map outBytes).flatMap fragPayload)) = some (false, [])) ∧
    Datagram lateHdr (replicate 16 4) ∧ 28 < iphaLength lateHdr ∧
      (ipWputFrag (fun _ => 0) [⟨0, lateHdr ++ replicate 16 4⟩] 28 0).map (fun r =>
        r.sent.map fun mp => iphaFragmentOffsetAndFlags (outBytes mp) &&& iphOffset) =
          some [8191, 0] :=
  ⟨⟨⟨by decide, by decide, fun _ => trivial, by decide, by decide⟩, by decide, by decide +kernel⟩,
    ⟨by decide, by decide, fun _ => trivial, by decide, by decide⟩, by decide, by decide +kernel⟩

end Sol7.Inet
