import Mathlib

/-!
# Purging the Directory Name Lookup Cache

`dnlc_purge_vfsp` walks the hash chains in order and frees the entries that refer to a file
system, up to a count. The loop over a chain ends when the count is reached, and the loop
over the chains goes on: each later chain that has such an entry loses one more.

## Main definitions

* `Dnlc.purgeChain`, `Dnlc.purgeLoop`, `Dnlc.dnlcPurgeVfsp`: The loops of a purge.
* `Dnlc.Purged`: What a loop has freed.

## Theorems

* `Dnlc.purgeLoop_count_iff`: When the loop over the chains keeps the count.
* `Dnlc.dnlcPurgeVfsp_count_iff`: When a purge frees as many entries as it should.
-/

namespace Sol7.Dnlc

open List

/-- The vnodes of a `struct ncache`, or `NULL`. -/
structure Ncache (V : Type) where
  dp : Option V
  vp : Option V

variable {α V F : Type} [DecidableEq F]

/-- The test of an entry. -/
def Ncache.refs (vfs : V → F) (vfsp : F) (ncp : Ncache V) : Bool :=
  ncp.dp.any (vfs · == vfsp) || ncp.vp.any (vfs · == vfsp)

/-- The loop over one chain: what stays in the chain, what is freed, and how many entries
    have been freed so far. -/
def purgeChain (refs : α → Bool) (count : Nat) : List α → Nat → List α × List α × Nat
  | [], n => ([], [], n)
  | ncp :: np, n =>
    if refs ncp then
      -- The `break`.
      if count ≠ 0 ∧ n + 1 ≥ count then (np, [ncp], n + 1)
      else
        let r := purgeChain refs count np (n + 1)
        (r.1, ncp :: r.2.1, r.2.2)
    else
      let r := purgeChain refs count np n
      (ncp :: r.1, r.2)

/-- The loop over the chains. -/
def purgeLoop (refs : α → Bool) (count : Nat) : List (List α) → Nat → List (List α) × List α × Nat
  | [], n => ([], [], n)
  | nch :: rest, n =>
    let r := purgeChain refs count nch n
    let r' := purgeLoop refs count rest r.2.2
    (r.1 :: r'.1, r.2.1 ++ r'.2.1, r'.2.2)

/-- `dnlc_purge_vfsp`: what is left in the chains, what has been freed, and what is
    returned. -/
def dnlcPurgeVfsp (doingcache : Bool) (vfs : V → F) (vfsp : F) (count : Nat)
    (cache : List (List (Ncache V))) : List (List (Ncache V)) × List (Ncache V) × Nat :=
  if !doingcache then (cache, [], 0) else purgeLoop (Ncache.refs vfs vfsp) count cache 0

/-- What a loop has freed: entries that pass the test, and it has counted them. -/
structure Purged (refs : α → Bool) (n : Nat) (old new freed : List α) (n' : Nat) : Prop where
  perm : (new ++ freed).Perm old
  refs : ∀ ncp ∈ freed, refs ncp = true
  length : n' = n + freed.length

section
variable (refs : α → Bool) {count : Nat} (hcount : 0 < count)
include hcount

/-- A chain stops at the count, or passes it by one entry. -/
theorem purgeChain_spec (nch : List α) (n : Nat) :
    Purged refs n nch (purgeChain refs count nch n).1 (purgeChain refs count nch n).2.1
        (purgeChain refs count nch n).2.2 ∧
      (purgeChain refs count nch n).2.2 = min (n + nch.countP refs) (max count (n + 1)) := by
  fun_induction purgeChain refs count nch n with
  | case1 n => exact ⟨⟨.refl _, nofun, rfl⟩, by simp only [countP_nil]; omega⟩
  | case2 ncp np n hrefs hlast =>
    refine ⟨⟨perm_append_singleton _ _, by simpa using hrefs, rfl⟩, ?_⟩
    rw [countP_cons_of_pos hrefs]
    change n + 1 = _
    omega
  | case3 ncp np n hrefs hlast r ih =>
    obtain ⟨⟨hperm, hall, hlen⟩, hmin⟩ := ih
    refine ⟨⟨perm_middle.trans (hperm.cons _), forall_mem_cons.mpr ⟨hrefs, hall⟩, ?_⟩, ?_⟩
    · exact hlen.trans (add_right_comm ..)
    · rw [countP_cons_of_pos hrefs]
      exact hmin.trans (by omega)
  | case4 ncp np n hrefs r ih =>
    rw [countP_cons_of_neg hrefs]
    exact ⟨⟨ih.1.perm.cons _, ih.1.refs, ih.1.length⟩, ih.2⟩

theorem purgeLoop_purged (cache : List (List α)) (n : Nat) :
    Purged refs n cache.flatten (purgeLoop refs count cache n).1.flatten
      (purgeLoop refs count cache n).2.1 (purgeLoop refs count cache n).2.2 := by
  fun_induction purgeLoop refs count cache n with
  | case1 => exact ⟨.refl _, nofun, rfl⟩
  | case2 nch rest n r r' ih =>
    have h := (purgeChain_spec refs hcount nch n).1
    refine ⟨Perm.trans ?_ (h.perm.append ih.perm), forall_mem_append.mpr ⟨h.refs, ih.refs⟩, ?_⟩
    · simp only [flatten_cons, append_assoc]
      exact (perm_append_left_iff _).mpr (perm_append_comm_assoc _ _ _)
    · rw [length_append, ← add_assoc, ← h.length]
      exact ih.length

/-- The loop over the chains frees enough, and not more if there is nothing to free behind
    the chains that reach the count. -/
theorem purgeLoop_count_iff (cache : List (List α)) (n : Nat) :
    max n (min count (n + cache.flatten.countP refs)) ≤ (purgeLoop refs count cache n).2.2 ∧
      ((purgeLoop refs count cache n).2.2 = max n (min count (n + cache.flatten.countP refs)) ↔
        ∀ i, count ≤ n + (cache.take i).flatten.countP refs →
          (cache.drop i).flatten.countP refs = 0) := by
  fun_induction purgeLoop refs count cache n with
  | case1 n =>
    simp only [flatten_nil, countP_nil, drop_nil, implies_true, iff_true]
    omega
  | case2 nch rest n r r' ih =>
    have hchain : r.2.2 = _ := (purgeChain_spec refs hcount nch n).2
    subst r'
    -- The chain itself may be the first that should be left alone.
    rw [← Nat.and_forall_add_one]
    simp only [take_zero, drop_zero, flatten_nil, countP_nil, take_succ_cons, drop_succ_cons,
      flatten_cons, countP_append, add_zero]
    by_cases hlast : count ≤ n ∧ nch.countP refs ≠ 0
    · omega
    have hiff : ∀ k, count ≤ n + (nch.countP refs + k) ↔ count ≤ r.2.2 + k := by omega
    simp only [hiff]
    rw [show max n (min count _) = max r.2.2 (min count (r.2.2 + rest.flatten.countP refs)) by
      omega]
    refine ⟨ih.1, ih.2.trans ⟨fun h => ⟨fun hn => ?_, h⟩, fun h => h.2⟩⟩
    have hzero : rest.flatten.countP refs = 0 := h 0 (by omega)
    omega

end

/-- `dnlc_purge_vfsp` frees as many entries of the file system as it is asked for, or all
    there are, and returns their number, if and only if no entry of the file system is in a
    chain behind those that reach the count, or in any chain of a cache that is off. -/
theorem dnlcPurgeVfsp_count_iff (doingcache : Bool) (vfs : V → F) (vfsp : F) (count : Nat)
    (hcount : 0 < count) (cache : List (List (Ncache V))) : let refs := Ncache.refs vfs vfsp
    let r := dnlcPurgeVfsp doingcache vfs vfsp count cache
    ((r.1.flatten ++ r.2.1).Perm cache.flatten ∧ (∀ ncp ∈ r.2.1, refs ncp = true) ∧
        r.2.1.length = min count (cache.flatten.countP refs) ∧ r.2.2 = r.2.1.length) ↔
      ∀ i, doingcache = false ∨ count ≤ (cache.take i).flatten.countP refs →
        (cache.drop i).flatten.countP refs = 0 := by
  intro refs r
  cases doingcache with
  | false =>
    refine ⟨fun h i _ => ?_, fun h => ⟨by simp [r, dnlcPurgeVfsp], nofun, ?_, rfl⟩⟩
    · have hlen : 0 = min count (cache.flatten.countP refs) := h.2.2.1
      rw [← take_append_drop i cache, flatten_append, countP_append] at hlen
      omega
    · have h0 : cache.flatten.countP refs = 0 := h 0 (.inl rfl)
      rw [h0, Nat.min_zero]
      rfl
  | true =>
    obtain ⟨hperm, hrefs, hlength⟩ := purgeLoop_purged refs hcount cache 0
    have hiff := (purgeLoop_count_iff refs hcount cache 0).2
    simp only [zero_add, Nat.zero_max] at hlength hiff
    simp only [reduceCtorEq, false_or]
    rw [← hiff, hlength]
    exact ⟨fun h => h.2.2.1, fun h => ⟨hperm, hrefs, h, hlength⟩⟩

/-- Two entries in one chain and a count of one. -/
theorem dnlcPurgeVfsp_count_iff_one :
    (dnlcPurgeVfsp true id () 1 [[⟨some (), none⟩, ⟨some (), none⟩]]).2.1.length = 1 :=
  ((dnlcPurgeVfsp_count_iff true id () 1 (by decide) _).mpr fun i => by cases i <;> simp).2.2.1

/-- Two chains with an entry each and a count of one. -/
theorem dnlcPurgeVfsp_two :
    (dnlcPurgeVfsp true id () 1 [[⟨some (), none⟩], [⟨some (), none⟩]]).2.2 = 2 := by
  decide

end Sol7.Dnlc
