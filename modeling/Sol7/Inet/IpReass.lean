import Sol7.Inet.IpFrag
import Sol7.Inet.TcpReass
import Sol7.Lib.Spans

/-!
# The IP Reassembly Queue

Model of the fragment path of `ip_rput_local`, and of `ip_reassemble` (`ip.c`).

As long as the fragments of a datagram arrive in order they are only linked to
each other, and `ipf_end` is the offset of the next one. When a fragment does
not fit there, the mblks on the queue are marked with their offsets, and from
then on `ip_reassemble` keeps them sorted and counts the holes. The datagram is
complete when no hole is left.

An mblk has an address, so that the pointer `ipf_tail_mp` can be followed, and
the bytes between `b_rptr` and `b_wptr`. The offsets of an mblk on the queue are
0 until it is marked. Allocations succeed. The checksum, the byte counts and the
length of the stripped header do not bear on the queue, and are left out. The
queue is that of one datagram: the hash table finds it by identification, source
and protocol.

What has been received is kept as history, and nothing branches on it.

## Main definitions

* `IpPiece`, `Ipf`: An mblk on the queue, and the queue.
* `elimPieces`, `fillHole`: The overlap with what follows, and the search for a
  place.
* `Ipf.ipReassemble`: `ip_reassemble`.
* `IpReass.arrive`: The fragment path of `ip_rput_local`.
* `ipReass`: The runs in which the fragments of a datagram arrive.
-/

namespace Sol7.Inet

/-- An mblk on the queue, with `IP_REASS_START` and `IP_REASS_END`. -/
structure IpPiece where
  addr : Nat
  start : Nat
  stop : Nat
  data : List UInt8
deriving DecidableEq

/-- The queue of a datagram. `tail` is `ipf_tail_mp`, and `stop` is `ipf_end`,
    which is 0 once the easy way has been given up. -/
structure Ipf where
  mps : List IpPiece
  tail : Option Nat
  stop : Nat
  holeCnt : Int
deriving DecidableEq

/-- Mark the mblks that arrived in order. The first one has the header. -/
def markPieces : Nat → List IpPiece → List IpPiece
  | _, [] => []
  | u1, mp1 :: mps =>
    let stop := if u1 ≠ 0 then u1 + mp1.data.length else mp1.data.length - hdrLength mp1.data
    { mp1 with start := u1, stop := stop } :: markPieces stop mps

/-- A hole behind `mp1` is covered by what ends at `stop`. -/
def coversHole (stop : Nat) (mp1 : IpPiece) : List IpPiece → Bool
  | [] => false
  | mp2 :: _ => mp1.stop ≠ mp2.start && stop ≥ mp2.start

/-- Check for overlap of an mblk with those that follow: the mblk, what is left
    behind it, the hole count, and whether the mblk now hangs off the end. -/
def elimPieces (more : Bool) (mp : IpPiece) :
    List IpPiece → Int → IpPiece × List IpPiece × Int × Bool
  | [], cnt => (mp, [], cnt, true)
  | mp1 :: mps, cnt =>
    if mp.stop ≤ mp1.start then (mp, mp1 :: mps, cnt, false)
    else if mp.stop < mp1.stop then
      ({ mp with
          data := mp.data.take (mp.data.length - (mp.stop - mp1.start)), stop := mp1.start },
        mp1 :: mps, cnt, false)
    else elimPieces more mp mps (if coversHole mp.stop mp1 mps || !more then cnt - 1 else cnt)

/-- Link an mblk between `mp1` and what follows, where it fills a hole. -/
def fillHole (more : Bool) (tail : Option Nat) (cnt : Int) (mp mp1 mp2 : IpPiece)
    (mps : List IpPiece) : List IpPiece × Int × Option Nat :=
  let cnt := if mp.start > mp1.stop then cnt + 1 else cnt
  if mp.stop ≥ mp2.start then
    let r := elimPieces more mp (mp2 :: mps) (cnt - 1)
    (mp1 :: r.1 :: r.2.1, r.2.2.1, if r.2.2.2 then some mp.addr else tail)
  else (mp1 :: mp :: mp2 :: mps, cnt, tail)

/-- The search for the place of an mblk that starts behind the start of the
    first one and before the end of the last one. There is no result if a nil
    pointer is followed. -/
def findPlace (more : Bool) (tail : Option Nat) (cnt : Int) :
    List IpPiece → IpPiece → Option (List IpPiece × Int × Option Nat)
  | [], _ => none
  | [mp1], mp =>
    if mp.start < mp1.stop then
      if mp.stop ≤ mp1.stop then some ([mp1], cnt, tail)
      else
        some ([mp1, { mp with start := mp1.stop, data := mp.data.drop (mp1.stop - mp.start) }],
          if more then cnt else cnt - 1, some mp.addr)
    else none
  | mp1 :: mp2 :: mps, mp =>
    if mp.start < mp1.stop ∧ mp.stop ≤ mp1.stop then some (mp1 :: mp2 :: mps, cnt, tail)
    else
      -- What the mblk before has already is trimmed off the beginning.
      let mp := if mp.start < mp1.stop then
        { mp with start := mp1.stop, data := mp.data.drop (mp1.stop - mp.start) } else mp
      if mp.start ≥ mp2.start then
        (findPlace more tail cnt (mp2 :: mps) mp).map fun r => (mp1 :: r.1, r.2)
      else some (fillHole more tail cnt mp mp1 mp2 mps)

namespace Ipf

variable (s : Ipf)

/-- Put an mblk on the queue. `last` is that no mblk of the fragment follows. -/
def put (more last : Bool) (mp : IpPiece) : Option Ipf :=
  match s.tail with
  | none =>
    some { s with
      mps := [mp], tail := some mp.addr
      holeCnt := if mp.start = 0 ∨ more = false then (if last then 1 else 2) else 2 }
  | some t => (s.mps.find? fun p => p.addr = t).bind fun tailMp =>
    if mp.start ≥ tailMp.stop then
      some { s with
        mps := Spans.linkAfter IpPiece.addr t [mp] s.mps, tail := some mp.addr
        holeCnt :=
          if more then (if mp.start ≠ tailMp.stop then s.holeCnt + 1 else s.holeCnt)
          else if mp.start = tailMp.stop ∧ last then s.holeCnt - 1 else s.holeCnt }
    else
      match s.mps with
      | [] => none
      | mp1 :: mps =>
        if mp.start < mp1.start then
          let cnt :=
            if mp.start = 0 then (if mp.stop ≥ mp1.start then s.holeCnt - 1 else s.holeCnt)
            else if mp.stop < mp1.start then s.holeCnt + 1 else s.holeCnt
          let r := elimPieces more mp (mp1 :: mps) cnt
          some { s with
            mps := r.1 :: r.2.1, holeCnt := r.2.2.1
            tail := if r.2.2.2 then some mp.addr else s.tail }
        else
          (findPlace more s.tail s.holeCnt (mp1 :: mps) mp).map fun r =>
            { s with mps := r.1, holeCnt := r.2.1, tail := r.2.2 }

/-- The walk through the new pieces. An empty one is freed. -/
def putAll (more : Bool) : Ipf → List Mblk → Nat → Option Ipf
  | s, [], _ => some s
  | s, mp :: mps, start =>
    let stop := start + mp.data.length - (if start = 0 then hdrLength mp.data else 0)
    if start = stop then putAll more s mps stop
    else
      (s.put more mps.isEmpty ⟨mp.addr, start, stop, mp.data⟩).bind fun s =>
        putAll more s mps stop

/-- Brand a queue as a hard case, forever. -/
def harden : Ipf :=
  if s.stop ≠ 0 then { s with mps := markPieces 0 s.mps, holeCnt := 1, stop := 0 } else s

/-- `ip_reassemble`: the queue, and whether the datagram is complete. -/
def ipReassemble (mps : List Mblk) (offset : Nat) (more : Bool) : Option (Ipf × Bool) :=
  (putAll more s.harden mps offset).map fun s => (s, s.holeCnt = 0)

end Ipf

/-! ### The fragment path -/

/-- A fragment: its offset in units of eight bytes and the flag `IPH_MF`, its
    `ipha_length`, and its mblks. -/
structure Fragment where
  units : Nat
  more : Bool
  iphaLength : Nat
  mps : List Mblk

namespace Fragment

variable (f : Fragment)

/-- The offset in bytes. -/
def offset : Nat := f.units * 8

/-- The length of the header, from the first mblk. -/
def hdrLen : Nat := hdrLength (f.mps.head?.map Mblk.data |>.getD [])

/-- Where the data ends. -/
def stop : Nat := f.offset + (f.iphaLength - f.hdrLen)

/-- The mblks without the header, unless this is the first piece. -/
def strip : List Mblk :=
  match f.mps with
  | [] => []
  | mp :: mps => if f.offset ≠ 0 then { mp with data := mp.data.drop f.hdrLen } :: mps else mp :: mps

end Fragment

/-- An mblk that is linked to the queue without offsets. -/
def unmarked (mp : Mblk) : IpPiece := ⟨mp.addr, 0, 0, mp.data⟩

/-- The state of one datagram: its queue, if there is one, whether it has been
    declared complete, and as history what was received. -/
structure IpReass where
  ipf : Option Ipf
  done : Bool
  got : List Fragment

namespace IpReass

variable (s : IpReass)

/-- A queue is new. The hole count is not set here, nor read before it is. -/
def newIpf (f : Fragment) : Option Ipf :=
  if f.offset = 0 then
    some ⟨f.strip.map unmarked, Spans.lastKey IpPiece.addr (f.strip.map unmarked), f.stop, 0⟩
  else
    ((⟨[], none, 0, 0⟩ : Ipf).ipReassemble f.strip f.offset f.more).map Prod.fst

/-- The fragment path of `ip_rput_local`: the queue, if there still is one, and
    whether the datagram is complete. -/
def fragmentPath (f : Fragment) : Option (Option Ipf × Bool) :=
  match s.ipf with
  | none => (newIpf f).map fun ipf => (some ipf, false)
  | some ipf =>
    if f.offset ≠ 0 ∧ ipf.stop = f.offset then
      -- The new fragment fits at the end.
      ipf.tail.map fun t =>
        if f.more then
          (some { ipf with
            mps := Spans.linkAfter IpPiece.addr t (f.strip.map unmarked) ipf.mps, stop := f.stop
            tail := Spans.lastKey IpPiece.addr (f.strip.map unmarked) }, false)
        else (none, true)
    else
      (ipf.ipReassemble f.strip f.offset f.more).map fun r =>
        if r.2 then (none, true) else (some r.1, false)

/-- A fragment arrives. One without data is freed. -/
def arrive (f : Fragment) : Option IpReass :=
  if f.iphaLength - f.hdrLen = 0 then some s
  else
    (s.fragmentPath f).map fun r => { s with ipf := r.1, done := r.2, got := f :: s.got }

/-- The mblks on the queue. -/
def queue : List IpPiece := (s.ipf.map Ipf.mps).getD []

/-- The mblks of a fragment: the first one has the header and some data, none is
    empty, and all are new. -/
structure Whole (f : Fragment) : Prop where
  header : f.hdrLen < (f.mps.head?.map Mblk.data |>.getD []).length
  data : ∀ mp ∈ f.mps, mp.data ≠ []
  length : msgdsize f.mps = f.iphaLength
  addrs : (f.mps.map Mblk.addr).Nodup
  fresh : ∀ mp ∈ f.mps, ∀ p ∈ s.queue, mp.addr ≠ p.addr

instance (f : Fragment) : Decidable (s.Whole f) :=
  decidable_of_iff (_ ∧ _ ∧ _ ∧ _ ∧ _)
    ⟨fun h => ⟨h.1, h.2.1, h.2.2.1, h.2.2.2.1, h.2.2.2.2⟩,
      fun h => ⟨h.header, h.data, h.length, h.addrs, h.fresh⟩⟩

/-- A fragment of a datagram whose data ends at `size`: the flag is clear if and
    only if it has the end. -/
structure OfDatagram (size : Nat) (f : Fragment) : Prop where
  stop_le : f.stop ≤ size
  more_iff : f.more = true ↔ f.stop < size
  units : f.more = true → f.stop % 8 = 0
  fragment : f.offset ≠ 0 ∨ f.more = true

instance (size : Nat) (f : Fragment) : Decidable (OfDatagram size f) :=
  decidable_of_iff (_ ∧ _ ∧ _ ∧ _)
    ⟨fun h => ⟨h.1, h.2.1, h.2.2.1, h.2.2.2⟩, fun h => ⟨h.stop_le, h.more_iff, h.units, h.fragment⟩⟩

/-- A byte of the datagram has been received. -/
def Received (x : Nat) : Prop := ∃ f ∈ s.got, f.offset ≤ x ∧ x < f.stop

/-- The received pieces cover the datagram, to the end of the last fragment. -/
def Complete : Prop := ∃ last ∈ s.got, last.more = false ∧ ∀ x < last.stop, s.Received x

instance (x : Nat) : Decidable (s.Received x) := inferInstanceAs (Decidable (∃ f ∈ s.got, _))

instance : Decidable s.Complete := inferInstanceAs (Decidable (∃ last ∈ s.got, _))

end IpReass

/-- The runs in which fragments of one datagram arrive, until it is declared
    complete. -/
def ipReass (size : Nat) : System IpReass Fragment where
  init s := s.ipf = none ∧ s.done = false ∧ s.got = []
  step s f := if s.done = false ∧ s.Whole f ∧ IpReass.OfDatagram size f then s.arrive f else none

end Sol7.Inet
