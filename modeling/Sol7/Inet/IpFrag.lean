import Sol7.Lib.Bytes

/-!
# Outbound IP Fragmentation

Model of `ip_wput_frag`, `ip_wput_frag_copyhdr` and `ip_carve_mp` (`ip.c`).

A message is a chain of mblks, each with the bytes between `b_rptr` and
`b_wptr`, and with the address `b_rptr`, as `ip_carve_mp` pulls up a message
that has become unaligned. Allocations succeed. The header of a later fragment
is put into the mblk of its data if there is room, and is an mblk of its own
otherwise; the bytes are the same, and it is an mblk of its own here. So is the
transmit header, which is left out.

The header checksum is a parameter, and nothing depends on it.

## Main definitions

* `get16`, `set16`: Fields of the header.
* `ipCarveMp`: `ip_carve_mp`.
* `ipWputFragCopyhdr`: `ip_wput_frag_copyhdr`.
* `ipWputFrag`: `ip_wput_frag`.
-/

namespace Sol7.Inet

/-- An mblk of an outbound message. -/
structure OutMblk where
  rptr : Nat
  data : List UInt8

/-- The bytes of a message. -/
def outBytes (mps : List OutMblk) : List UInt8 := mps.flatMap OutMblk.data

/-! ### The header -/

def ipSimpleHdrLength : Nat := 20

/-- `IPH_DF`, `IPH_MF` and `IPH_OFFSET`. -/
def iphDF : Nat := 0x4000

def iphMF : Nat := 0x2000

def iphOffset : Nat := 0x1FFF

/-- A 16 bit field of a header, in network order. -/
def get16 (bytes : List UInt8) (i : Nat) : Nat :=
  (bytes.getD i 0).toNat * 256 + (bytes.getD (i + 1) 0).toNat

/-- Store a 16 bit field. -/
def set16 (bytes : List UInt8) (i v : Nat) : List UInt8 :=
  (bytes.set i (.ofNat (v / 256))).set (i + 1) (.ofNat v)

/-- The length of a header, from its first byte. -/
def hdrLength (bytes : List UInt8) : Nat := ((bytes.getD 0 0).toNat &&& 0xF) <<< 2

def iphaLength (bytes : List UInt8) : Nat := get16 bytes 2

def iphaFragmentOffsetAndFlags (bytes : List UInt8) : Nat := get16 bytes 6

/-- Store offset and flags, the length, and the checksum, which is taken over a
    header in which it is zero. -/
def storeFragHdr (csum : List UInt8 → Nat) (hdr : List UInt8) (offsetAndFlags len : Nat) :
    List UInt8 :=
  let hdr := set16 (set16 (set16 hdr 6 offsetAndFlags) 2 len) 10 0
  set16 hdr 10 (csum hdr)

/-! ### Carving -/

def ok32Ptr (p : Nat) : Bool := p % 4 == 0

/-- `pullupmsg` of a whole message. -/
def pullupmsg (mps : List OutMblk) : List OutMblk := [⟨0, outBytes mps⟩]

/-- The rest of an mblk of which `len` bytes have been taken, pulled up if it
    is unaligned now. -/
def carveRest (mp : OutMblk) (len : Nat) (mps : List OutMblk) : List OutMblk :=
  if ok32Ptr (mp.rptr + len) then ⟨mp.rptr + len, mp.data.drop len⟩ :: mps
  else pullupmsg (⟨mp.rptr + len, mp.data.drop len⟩ :: mps)

/-- The loop of `ip_carve_mp` that eats through as many mblks as it needs: the
    mblks that are taken, and what is left. There is no result if the message
    is too short. -/
def carveLoop : List OutMblk → Nat → Option (List OutMblk × List OutMblk)
  | mps, 0 => some ([], mps)
  | [], _ + 1 => none
  | mp :: mps, len + 1 =>
    if mp.data.length > len + 1 then
      some ([⟨mp.rptr, mp.data.take (len + 1)⟩], carveRest mp (len + 1) mps)
    else
      (carveLoop mps (len + 1 - mp.data.length)).map fun r => (mp :: r.1, r.2)

/-- `ip_carve_mp`. Nothing is carved off for a length of zero. -/
def ipCarveMp (mpp : List OutMblk) (len : Nat) : Option (List OutMblk × List OutMblk) :=
  if len = 0 then none
  else
    match mpp with
    | [] => none
    | mp0 :: mps =>
      if mp0.data.length > len then
        some ([⟨mp0.rptr, mp0.data.take len⟩], carveRest mp0 len mps)
      else
        (carveLoop mps (len - mp0.data.length)).map fun r => (mp0 :: r.1, r.2)

/-! ### The copied header -/

/-- The walk over the options: those with the copy bit are copied. `len` is
    what is left of the header, and an option may claim more than that. There is
    no result for an option without length, where the walk does not end. -/
def copyOptions : Nat → List UInt8 → Int → Option (List UInt8)
  | fuel, rptr, len =>
    if len ≤ 0 then some []
    else
      let optval := (rptr.getD 0 0).toNat
      if optval = 0 then some []
      else
        let optlen := if optval = 1 then 1 else (rptr.getD 1 0).toNat
        let copied := if optval &&& 0x80 ≠ 0 then rptr.take optlen else []
        match fuel with
        | 0 => none
        | fuel + 1 => (copyOptions fuel (rptr.drop optlen) (len - optlen)).map (copied ++ ·)

/-- Fill with `IPOPT_EOL` to the next word boundary. -/
def padOptions (opts : List UInt8) : List UInt8 :=
  opts ++ List.replicate ((4 - opts.length % 4) % 4) 0

/-- `ip_wput_frag_copyhdr`: the header with those options that are to be
    copied. -/
def ipWputFragCopyhdr (rptr : List UInt8) (hdrLen offset : Nat) : Option (List UInt8) :=
  if hdrLen = ipSimpleHdrLength ∨ offset ≠ 0 then some (rptr.take hdrLen)
  else
    (copyOptions hdrLen (rptr.drop ipSimpleHdrLength) (hdrLen - ipSimpleHdrLength : Int)).map
      fun opts =>
        let hdr := rptr.take ipSimpleHdrLength ++ padOptions opts
        hdr.set 0 (.ofNat (0x40 ||| hdr.length >>> 2))

/-! ### Fragmentation -/

/-- What becomes of a datagram: the messages that were sent, and whether it was
    sent as a whole. -/
structure FragResult where
  sent : List (List OutMblk)
  done : Bool

/-- The loop over the later fragments. `hdr` is the copied header, `len` the
    number of bytes in a fragment. -/
def fragLoop (csum : List UInt8 → Nat) (hdr : List UInt8) (fragFlag len dataEnd : Nat) :
    Nat → List OutMblk → Nat → FragResult
  | 0, _, _ => ⟨[], false⟩
  | fuel + 1, mps, offset =>
    if dataEnd - offset > len then
      match ipCarveMp mps len with
      | none => ⟨[], false⟩
      | some r =>
        let u1 := iphMF ||| offset >>> 3 ||| fragFlag
        let rest := fragLoop csum hdr fragFlag len dataEnd fuel r.2 (offset + len)
        ⟨(⟨0, storeFragHdr csum hdr u1 (len + hdrLength hdr)⟩ :: r.1) :: rest.sent, rest.done⟩
    else
      match ipCarveMp mps (dataEnd - offset) with
      | none => ⟨[], false⟩
      | some r =>
        -- A fragment of a fragment may have `IPH_MF` set.
        let u1 := iphaFragmentOffsetAndFlags hdr &&& iphMF ||| offset >>> 3 ||| fragFlag
        ⟨[⟨0, storeFragHdr csum hdr u1 (dataEnd - offset + hdrLength hdr)⟩ :: r.1], true⟩

/-- `ip_wput_frag`. The header is in the first mblk. `max_frag` is unsigned, so
    the test of the source, which is about the length of the datagram, succeeds
    only if `max_frag` is not smaller than that. A `max_frag` that is smaller
    than the header makes the length of a fragment negative, and there is no
    result. -/
def ipWputFrag (csum : List UInt8 → Nat) (mpOrig : List OutMblk) (maxFrag fragFlag : Nat) :
    Option FragResult :=
  match mpOrig with
  | [] => none
  | mp :: mps =>
    let offset := iphaFragmentOffsetAndFlags mp.data
    if offset &&& iphDF ≠ 0 then some ⟨[], false⟩
    else
      let offset := offset &&& iphOffset
      let length := iphaLength mp.data
      if length ≤ maxFrag ∧ maxFrag - length < 8 then some ⟨[], false⟩
      else
        let hdrLen := hdrLength mp.data
        (ipWputFragCopyhdr mp.data hdrLen offset).bind fun hdr =>
          if maxFrag < hdrLen then none
          else
            let dataEnd := 8 * offset + length - hdrLen
            let len := (maxFrag - hdrLen) / 8 * 8
            let first := storeFragHdr csum (mp.data.take hdrLen) (offset ||| iphMF ||| fragFlag)
              (len + hdrLen) ++ mp.data.drop hdrLen
            match ipCarveMp (⟨mp.rptr, first⟩ :: mps) (len + hdrLen) with
            | none => some ⟨[], false⟩
            | some r =>
              let rest := fragLoop csum hdr fragFlag len dataEnd length r.2 (8 * offset + len)
              some ⟨r.1 :: rest.sent, rest.done⟩

end Sol7.Inet
