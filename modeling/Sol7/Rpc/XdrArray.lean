import Sol7.Rpc.XdrStream

/-!
# Arrays of Arbitrary Elements

`xdr_array` takes a number of elements from the message, allocates room for
them and has them decoded one after the other by a routine of its caller. The
size of the room is a product of two `u_int` values and wraps. It is right
exactly if the product does not.

Releasing the array computes the same product again, so it always releases what
was allocated.

## Main definitions

* `xdrArray`: The routine, in all three modes.
* `Roomy`: The room is large enough and is released whole.

## Theorems

* `arrayLoop_elements`: The addresses that the element routine is given.
* `xdrArray_decode`, `xdrArray_free`: What decoding and releasing does.
* `xdr_array_roomy_iff`: When the room is large enough.
-/

namespace Sol7.Rpc

/-- The mode of a handle. -/
inductive XdrOp
  | encode
  | decode
  | free
deriving DecidableEq

section
variable {σ : Type} (ops : XdrOps σ) (put : XdrPut σ)

/-- `xdr_u_int`. The value is the one in memory, before and after. -/
def xdrUInt (op : XdrOp) (s : σ) (up : Nat) : σ × Option Nat :=
  match op with
  | .encode => ((put.putint32 s up).1, if (put.putint32 s up).2 then some up else none)
  | .decode => ops.getint32 s
  | .free => (s, some up)

/-- What a call of `xdr_array` has done. -/
structure ArrayResult (σ : Type) where
  stream : σ
  /-- The pointer to the array, null if it is zero. -/
  addrp : Nat
  sizep : Nat
  /-- The address and the size of what was allocated. -/
  allocated : Option (Nat × Nat)
  /-- The addresses the element routine was called with. -/
  elements : List Nat
  /-- The address and the size of what was released. -/
  freed : Option (Nat × Nat)
  ok : Bool

/-- The loop over the elements, which ends early when one fails. -/
def arrayLoop (elproc : σ → Nat → σ × Bool) (elsize : Nat) : Nat → σ → Nat → σ × Bool × List Nat
  | 0, s, _ => (s, true, [])
  | n + 1, s, target =>
    let r := elproc s target
    if r.2 then
      let rest := arrayLoop elproc elsize n r.1 (target + elsize)
      (rest.1, rest.2.1, target :: rest.2.2)
    else (r.1, false, [target])

/-- `xdr_array`, where `alloc` is the address that `mem_alloc` returns for a
    size. -/
def xdrArray (alloc : Nat → Nat) (elproc : σ → Nat → σ × Bool) (op : XdrOp) (s : σ)
    (addrp sizep maxsize elsize : Nat) : ArrayResult σ :=
  match xdrUInt ops put op s sizep with
  | (s, none) => ⟨s, addrp, sizep, none, [], none, false⟩
  | (s, some c) =>
    if maxsize < c ∧ op ≠ .free then ⟨s, addrp, c, none, [], none, false⟩
    else
      let nodesize := c * elsize % 2 ^ 32
      if addrp = 0 ∧ op = .decode ∧ c = 0 then ⟨s, addrp, c, none, [], none, true⟩
      else if addrp = 0 ∧ op = .free then ⟨s, addrp, c, none, [], none, true⟩
      else
        let fresh := addrp = 0 ∧ op = .decode
        let target := if fresh then alloc nodesize else addrp
        let r := arrayLoop elproc elsize c s target
        { stream := r.1
          addrp := if op = .free then 0 else target
          sizep := c
          allocated := if fresh then some (target, nodesize) else none
          elements := r.2.2
          freed := if op = .free then some (addrp, nodesize) else none
          ok := r.2.1 }

/-- Every element is inside what was allocated for `c` of them, and releasing
    the same array releases what was allocated. An allocation of nothing may
    have returned null. -/
def Roomy (alloc : Nat → Nat) (r : ArrayResult σ) (c elsize : Nat) : Prop :=
  ∃ a n, r.allocated = some (a, n) ∧ c * elsize ≤ n ∧
    (∀ addr ∈ r.elements, a ≤ addr ∧ addr + elsize ≤ a + n) ∧
    ∀ (elproc : σ → Nat → σ × Bool) (s : σ) (maxsize : Nat), r.addrp ≠ 0 →
      (xdrArray ops put alloc elproc .free s r.addrp r.sizep maxsize elsize).freed = some (a, n)

variable {ops put} {alloc : Nat → Nat} {elproc : σ → Nat → σ × Bool} {elsize : Nat}

/-- The addresses that the element routine is given. -/
theorem arrayLoop_elements (n : Nat) (s : σ) (target : Nat) :
    ∀ addr ∈ (arrayLoop elproc elsize n s target).2.2, ∃ i < n, addr = target + i * elsize := by
  induction n generalizing s target with
  | zero =>
    intro addr haddr
    cases haddr
  | succ n ih =>
    intro addr haddr
    rw [arrayLoop] at haddr
    split at haddr
    · rcases List.mem_cons.mp haddr with rfl | haddr
      · exact ⟨0, by omega, by omega⟩
      · obtain ⟨i, hi, rfl⟩ := ih _ _ addr haddr
        refine ⟨i + 1, by omega, ?_⟩
        rw [add_mul]
        omega
    · rcases List.mem_singleton.mp haddr with rfl
      exact ⟨0, by omega, by omega⟩

/-- Decoding into a fresh array. -/
theorem xdrArray_decode (put : XdrPut σ) (alloc : Nat → Nat) (elproc : σ → Nat → σ × Bool)
    (sizep elsize : Nat) {s s' : σ} {c maxsize : Nat} (hget : ops.getint32 s = (s', some c))
    (hpos : 0 < c) (hle : c ≤ maxsize) :
    xdrArray ops put alloc elproc .decode s 0 sizep maxsize elsize =
      { stream := (arrayLoop elproc elsize c s' (alloc (c * elsize % 2 ^ 32))).1
        addrp := alloc (c * elsize % 2 ^ 32)
        sizep := c
        allocated := some (alloc (c * elsize % 2 ^ 32), c * elsize % 2 ^ 32)
        elements := (arrayLoop elproc elsize c s' (alloc (c * elsize % 2 ^ 32))).2.2
        freed := none
        ok := (arrayLoop elproc elsize c s' (alloc (c * elsize % 2 ^ 32))).2.1 } := by
  unfold xdrArray xdrUInt
  rw [hget]
  simp [not_lt.mpr hle, Nat.pos_iff_ne_zero.mp hpos]

/-- Releasing an array. -/
theorem xdrArray_free (s : σ) {addrp : Nat} (sizep maxsize : Nat) (haddr : addrp ≠ 0) :
    (xdrArray ops put alloc elproc .free s addrp sizep maxsize elsize).freed =
      some (addrp, sizep * elsize % 2 ^ 32) := by
  unfold xdrArray xdrUInt
  simp [haddr]

/-- When `xdr_array` allocates the array itself, the room is large enough for
    all elements exactly if the product of their number and their size can be
    held in a `u_int`. -/
theorem xdr_array_roomy_iff {s s' : σ} {c elsize : BitVec 32} {maxsize : Nat} (sizep : Nat)
    (hget : ops.getint32 s = (s', some c.toNat)) (hpos : 0 < c.toNat) (hle : c.toNat ≤ maxsize) :
    Roomy ops put alloc
        (xdrArray ops put alloc elproc .decode s 0 sizep maxsize elsize.toNat) c.toNat elsize.toNat ↔
      c.toNat * elsize.toNat < 2 ^ 32 := by
  rw [xdrArray_decode put alloc elproc sizep elsize.toNat hget hpos hle]
  constructor
  · rintro ⟨a, n, halloc, hn, -⟩
    obtain ⟨-, rfl⟩ := Prod.mk.inj (Option.some.inj halloc)
    omega
  intro hlt
  rw [Nat.mod_eq_of_lt hlt]
  refine ⟨_, _, rfl, le_rfl, fun addr haddr => ?_, fun elproc' s'' maxsize' haddr => ?_⟩
  · -- The last element ends where the array does.
    obtain ⟨i, hi, rfl⟩ := arrayLoop_elements _ _ _ addr haddr
    have hlast : (i + 1) * elsize.toNat ≤ c.toNat * elsize.toNat := Nat.mul_le_mul_right _ hi
    rw [add_mul] at hlast
    omega
  · rw [xdrArray_free _ _ _ haddr, Nat.mod_eq_of_lt hlt]

end

/-- A handle on a buffer of memory that is only read. -/
def readOnly : XdrPut XdrMem where
  putint32 s _ := (s, false)
  putbytes s _ := (s, false)

theorem xdr_array_roomy_two : Roomy xdrmemOps readOnly (fun _ => 64)
        (xdrArray xdrmemOps readOnly (fun _ => 64) (fun s _ => (s, true)) .decode
          ⟨fun i => if i = 3 then 2 else 0, 4, 0, 4⟩ 0 0 10 (8#32).toNat) (2#32).toNat
        (8#32).toNat ↔ (2#32).toNat * (8#32).toNat < 2 ^ 32 := by
  have hget : xdrmemOps.getint32 ⟨fun i => if i = 3 then 2 else 0, 4, 0, 4⟩ =
      (⟨fun i => if i = 3 then 2 else 0, 4, 4, 0⟩, some (2#32).toNat) := rfl
  exact xdr_array_roomy_iff 0 hget (by decide) (by decide)

/-- With `2 ^ 29 + 1` elements of eight bytes the room is for one of them. -/
theorem xdr_array_cramped : (xdrmemOps.getint32
      ⟨fun i => if i = 0 then 0x20 else if i = 3 then 1 else 0, 4, 0, 4⟩).2 = some (2 ^ 29 + 1) ∧
    (xdrArray xdrmemOps readOnly (fun _ => 64) (fun s _ => (s, false)) .decode
      ⟨fun i => if i = 0 then 0x20 else if i = 3 then 1 else 0, 4, 0, 4⟩ 0 0 (2 ^ 32 - 1)
      8).allocated = some (64, 8) ∧ ¬Roomy xdrmemOps readOnly (fun _ => 64)
      (xdrArray xdrmemOps readOnly (fun _ => 64) (fun s _ => (s, false)) .decode
        ⟨fun i => if i = 0 then 0x20 else if i = 3 then 1 else 0, 4, 0, 4⟩ 0 0 (2 ^ 32 - 1) 8)
      (2 ^ 29 + 1) 8 := by
  have hget : xdrmemOps.getint32
      ⟨fun i => if i = 0 then 0x20 else if i = 3 then 1 else 0, 4, 0, 4⟩ =
      (⟨fun i => if i = 0 then 0x20 else if i = 3 then 1 else 0, 4, 4, 0⟩, some (2 ^ 29 + 1)) := rfl
  refine ⟨congrArg Prod.snd hget, by decide, ?_⟩
  rintro ⟨a, n, halloc, hn, -⟩
  obtain ⟨-, rfl⟩ := Prod.mk.inj (Option.some.inj halloc)
  revert hn
  decide

end Sol7.Rpc
