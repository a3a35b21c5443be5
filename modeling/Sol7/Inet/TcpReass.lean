import Sol7.Lib.Bytes
import Sol7.Lib.System

/-!
# The TCP Reassembly Queue

Model of `tcp_reass` and `tcp_reass_elim_overlap` (`tcp.c`), which keep the
segments that arrived out of order.

A message is a chain of mblks. An mblk has an address, so that the pointer
`tcp_reass_tail` can be followed, and the bytes between `b_rptr` and `b_wptr`.
On the queue it also has its sequence numbers, which the source keeps in
`b_next` and `b_prev`.

The caller hands in a segment, and moves `tcp_rnxt` over the bytes that are
returned. What has been received and what has been returned is kept as
history, and nothing branches on it.

## Main definitions

* `Mblk`, `ReassMblk`: An mblk, and an mblk on the queue.
* `elimOverlap`: `tcp_reass_elim_overlap`.
* `TcpReass.tcpReass`: `tcp_reass`.
* `tcpStream`: The runs of a connection that receives a stream.
-/

namespace Sol7.Inet

/-- An mblk: its address and the bytes it holds. -/
structure Mblk where
  addr : Nat
  data : List UInt8

def msgdsize (mps : List Mblk) : Nat := (mps.map fun mp => mp.data.length).sum

theorem msgdsize_cons (mp : Mblk) (mps : List Mblk) :
    msgdsize (mp :: mps) = mp.data.length + msgdsize mps := rfl

/-- The bytes of a message. -/
def msgData (mps : List Mblk) : List UInt8 := mps.flatMap Mblk.data

def seqLt (a b : BitVec 32) : Bool := (a - b).toInt < 0

def seqLeq (a b : BitVec 32) : Bool := (a - b).toInt ≤ 0

def seqGt (a b : BitVec 32) : Bool := 0 < (a - b).toInt

def seqGeq (a b : BitVec 32) : Bool := 0 ≤ (a - b).toInt

/-- An mblk on the reassembly queue, with `TCP_REASS_SEQ` and
    `TCP_REASS_END`. -/
structure ReassMblk where
  addr : Nat
  seq : BitVec 32
  endSeq : BitVec 32
  data : List UInt8

/-- `tcp_reass_elim_overlap` for an mblk and what follows it: the mblk, what
    is left behind it, and whether it has become the tail. -/
def elimOverlap (mp : ReassMblk) : List ReassMblk → ReassMblk × List ReassMblk × Bool
  | [] => (mp, [], true)
  | mp1 :: mps =>
    if !seqGt mp.endSeq mp1.seq then (mp, mp1 :: mps, false)
    else if !seqGeq mp.endSeq mp1.endSeq then
      ({ mp with
          data := mp.data.take (mp.data.length - (mp.endSeq - mp1.seq).toNat)
          endSeq := mp1.seq }, mp1 :: mps, false)
    else elimOverlap mp mps

/-- The queue, and the next sequence number that is expected. -/
structure TcpReass where
  head : List ReassMblk
  tail : Option Nat
  rnxt : BitVec 32

/-- `TCP_REASS_END` of the mblk at an address. -/
def endSeqAt (addr : Nat) : List ReassMblk → BitVec 32
  | [] => 0
  | mp :: mps => if mp.addr = addr then mp.endSeq else endSeqAt addr mps

/-- Link an mblk behind the one at an address. -/
def linkAfter (addr : Nat) (mp : ReassMblk) : List ReassMblk → List ReassMblk
  | [] => []
  | mp1 :: mps => if mp1.addr = addr then [mp1, mp] else mp1 :: linkAfter addr mp mps

/-- Link an mblk between `mp1` and what follows, and trim the overlap with the
    following mblks and then with the preceding one. -/
def linkBetween (tail : Option Nat) (mp mp1 : ReassMblk) (mp2 : List ReassMblk) :
    List ReassMblk × Option Nat :=
  let next := elimOverlap mp mp2
  let prev := elimOverlap mp1 (next.1 :: next.2.1)
  (prev.1 :: prev.2.1, if prev.2.2 then some mp1.addr else if next.2.2 then some mp.addr else tail)

/-- Find the slot of an mblk that fits somewhere behind `mp1`. -/
def insertSlot (tail : Option Nat) (mp mp1 : ReassMblk) :
    List ReassMblk → List ReassMblk × Option Nat
  | [] => linkBetween tail mp mp1 []
  | mp2 :: mps =>
    if seqLeq mp.seq mp2.seq then linkBetween tail mp mp1 (mp2 :: mps)
    else (mp1 :: (insertSlot tail mp mp2 mps).1, (insertSlot tail mp mp2 mps).2)

namespace TcpReass

variable (s : TcpReass)

/-- Put an mblk on the queue. -/
def insert (mp : ReassMblk) : TcpReass :=
  match s.tail with
  | none => { s with head := [mp], tail := some mp.addr }
  | some t =>
    if seqGeq mp.seq (endSeqAt t s.head) then
      { s with head := linkAfter t mp s.head, tail := some mp.addr }
    else
      match s.head with
      | [] => s
      | mp1 :: mps =>
        if seqLt mp.seq mp1.seq then
          { s with
            head := (elimOverlap mp (mp1 :: mps)).1 :: (elimOverlap mp (mp1 :: mps)).2.1
            tail := if (elimOverlap mp (mp1 :: mps)).2.2 then some mp.addr else s.tail }
        else
          { s with
            head := (insertSlot s.tail mp mp1 mps).1
            tail := (insertSlot s.tail mp mp1 mps).2 }

/-- The walk through the new pieces, and whether an ACK is needed because of a
    fresh gap. Empty pieces are freed. -/
def insertAll : TcpReass → List Mblk → BitVec 32 → TcpReass × Bool
  | s, [], _ => (s, false)
  | s, mp :: mps, start =>
    let endSeq := start + BitVec.ofNat 32 mp.data.length
    if start = endSeq then insertAll s mps endSeq
    else
      let rest := insertAll (s.insert ⟨mp.addr, start, endSeq, mp.data⟩) mps endSeq
      (rest.1, s.tail.isNone || rest.2)

/-- Eat what is contiguous off the queue. -/
def eat (mp1 : ReassMblk) : List ReassMblk → List ReassMblk × List ReassMblk
  | [] => ([mp1], [])
  | mp :: mps =>
    if mp1.endSeq ≠ mp.seq then ([mp1], mp :: mps)
    else (mp1 :: (eat mp mps).1, (eat mp mps).2)

/-- `tcp_reass`: the queue, the message that is returned, and whether
    `TH_ACK_NEEDED` is set. There is no result if a nil pointer is
    followed. -/
def tcpReass (mps : List Mblk) (start : BitVec 32) : Option (TcpReass × List Mblk × Bool) :=
  let t := s.insertAll mps start
  match t.1.head with
  | [] => none
  | mp1 :: rest =>
    if mp1.seq ≠ t.1.rnxt then some (t.1, [], t.2)
    else
      let r := eat mp1 rest
      some ({ t.1 with head := r.2, tail := if r.2.isEmpty then none else t.1.tail },
        r.1.map fun mp => ⟨mp.addr, mp.data⟩, t.2 || !r.2.isEmpty)

end TcpReass

/-! ### Runs -/

/-- A segment: the position of its first byte in the stream, and its mblks. -/
structure Segment where
  pos : Nat
  mps : List Mblk

/-- A connection: the queue, and as history the position at which the stream
    began, the segments that were received and the bytes that were returned. -/
structure TcpStream where
  reass : TcpReass
  first : Nat
  got : List Segment
  out : List UInt8

namespace TcpStream

variable (stream : Nat → UInt8) (s : TcpStream)

/-- The position of `tcp_rnxt` in the stream. -/
def nxt : Nat := s.first + s.out.length

/-- A segment that may arrive: it is not empty, it carries bytes of the stream,
    it lies in the window, and its mblks are new. -/
def Fits (seg : Segment) : Prop :=
  0 < msgdsize seg.mps ∧ msgData seg.mps = readAt stream seg.pos (msgdsize seg.mps) ∧
    s.nxt ≤ seg.pos ∧ seg.pos + msgdsize seg.mps < s.nxt + 2 ^ 31 ∧
    (seg.mps.map Mblk.addr).Nodup ∧ ∀ mp ∈ seg.mps, ∀ p ∈ s.reass.head, mp.addr ≠ p.addr

instance (seg : Segment) : Decidable (s.Fits stream seg) :=
  inferInstanceAs (Decidable (_ ∧ _ ∧ _ ∧ _ ∧ _ ∧ _))

/-- A segment arrives. The caller moves `tcp_rnxt` over what is returned. -/
def arrive (seg : Segment) : Option TcpStream :=
  (s.reass.tcpReass seg.mps (BitVec.ofNat 32 seg.pos)).map fun r =>
    { s with
      reass := { r.1 with rnxt := r.1.rnxt + BitVec.ofNat 32 (msgdsize r.2.1) }
      got := seg :: s.got
      out := s.out ++ msgData r.2.1 }

/-- A byte of the stream has been received. -/
def Received (n : Nat) : Prop := ∃ seg ∈ s.got, seg.pos ≤ n ∧ n < seg.pos + msgdsize seg.mps

/-- Nothing has been received. -/
structure Init : Prop where
  head : s.reass.head = []
  tail : s.reass.tail = none
  rnxt : s.reass.rnxt = BitVec.ofNat 32 s.first
  got : s.got = []
  out : s.out = []

end TcpStream

/-- The runs of a connection on which a stream arrives. -/
def tcpStream (stream : Nat → UInt8) : System TcpStream Segment where
  init := TcpStream.Init
  step s seg := if s.Fits stream seg then s.arrive seg else none

end Sol7.Inet
