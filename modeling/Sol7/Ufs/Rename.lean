import Sol7.Lib.System

/-!
# Renames Keep the Directory Tree

A directory may be moved into another one, and its `..` entry is rewritten. Before that the
way from the new place up to the root is walked by the `..` entries, and if the directory
itself is on it, the rename fails. The walk ends because the directories are a tree, and
the directories stay a tree because of the walk.

Link counts matter here: a directory with no links is taken for removed, and one whose
name is reused has to have no subdirectories.

## Main definitions

* `Rename.Fs`: Directories with their subdirectories, `..` entries and link counts.
* `Rename.ufsDircheckpath`, `Rename.ufsDirfixdotdot`: The walk, and the new `..` entry.
* `Rename.ufsRename`: A rename, by `ufsDirenter` and `ufsDirremove`.
* `Rename.Tree`: The directories are a tree with right `..` entries and link counts.

## Theorems

* `Rename.ufsDircheckpath_isSome`, `Rename.ufsDircheckpath_sound`: The walk ends, and what
  it says.
* `Rename.Tree.rmdir`, `Rename.Tree.move`: The two changes of a rename.
* `Rename.rename_keeps_tree`: Every run of renames.
-/

namespace Sol7.Rename

open List Option Function

open Prod (fst snd)

variable {N : Type} [DecidableEq N]

/-- The entries of each directory that name directories, without `.` and `..` and in no
    order, the names of other files, the `..` entries and the link counts. -/
structure Fs (N : Type) where
  ents : Nat → List (N × Nat)
  files : Nat → List N
  dotdot : Nat → Nat
  nlink : Nat → Nat

/-- `UFSROOTINO` -/
def rootino : Nat := 2

def maxlink : Nat := 32767

inductive Errno where
  | einval | enotdir | enoent | emlink | eexist | esame | fault
  deriving DecidableEq

/-- The loop of `ufs_dircheckpath` over at most so many directories. -/
def dircheckpathLoop (fs : Fs N) (source : Nat) : Nat → Nat → Option (Option Errno)
  | 0, _ => none
  | fuel + 1, ip =>
    if fs.nlink ip = 0 then some (some .enotdir)
    else if fs.dotdot ip = source then some (some .einval)
    else if fs.dotdot ip = rootino then some none
    else dircheckpathLoop fs source fuel (fs.dotdot ip)

def ufsDircheckpath (fuel : Nat) (fs : Fs N) (source target : Nat) : Option (Option Errno) :=
  if target = source then some (some .einval)
  else if target = rootino then some none
  else dircheckpathLoop fs source fuel target

def ufsDirfixdotdot (fs : Fs N) (dp opdp npdp : Nat) : Except Errno (Fs N) :=
  -- A removed directory and one that is there already are no error.
  if fs.nlink dp = 0 ∨ fs.dotdot dp = npdp then .ok fs
  else if fs.nlink npdp = maxlink then .error .emlink
  else
    let nlink := update fs.nlink npdp (fs.nlink npdp + 1)
    .ok { fs with
      dotdot := update fs.dotdot dp npdp
      nlink := if nlink opdp ≠ 0 then update nlink opdp (nlink opdp - 1) else nlink }

/-- The directory that a name stands for. -/
def Fs.look (fs : Fs N) (dp : Nat) (nm : N) : Option Nat :=
  ((fs.ents dp).find? (·.1 = nm)).map snd

def Fs.unlink (fs : Fs N) (dp : Nat) (nm : N) : Fs N :=
  { fs with ents := update fs.ents dp ((fs.ents dp).filter (·.1 ≠ nm)) }

/-- A slot of a directory gets a name and an inode. -/
def Fs.setEntry (fs : Fs N) (dp : Nat) (nm : N) (ip : Nat) : Fs N :=
  { fs with ents := update fs.ents dp ((nm, ip) :: (fs.ents dp).filter (·.1 ≠ nm)) }

/-- `ufs_dirrename`, where the name stands for another directory. -/
def ufsDirrename (fs : Fs N) (sdp sip tdp : Nat) (nm : N) (tip : Nat) : Except Errno (Fs N) :=
  if sip = tip then .error .esame
  else if fs.ents tip ≠ [] ∨ fs.files tip ≠ [] ∨ 2 < fs.nlink tip then .error .eexist
  else
    let fs := fs.setEntry tdp nm sip
    let fs := { fs with nlink := update fs.nlink tip (fs.nlink tip - 2) }
    if fs.nlink tip ≠ 0 then .error .fault
    else
      let fs := { fs with nlink := update fs.nlink tdp (fs.nlink tdp - 1) }
      if sdp ≠ tdp then ufsDirfixdotdot fs sip sdp tdp else .ok fs

def ufsDiraddentry (fs : Fs N) (sdp sip tdp : Nat) (nm : N) : Except Errno (Fs N) :=
  match ufsDirfixdotdot fs sip sdp tdp with
  | .error e => .error e
  | .ok fs => .ok (fs.setEntry tdp nm sip)

/-- `ufs_direnter` of a directory for a rename. -/
def ufsDirenter (fuel : Nat) (fs : Fs N) (sdp sip tdp : Nat) (nm : N) :
    Option (Except Errno (Fs N)) :=
  if fs.nlink sip = 0 then some (.error .enoent)
  else if fs.nlink sip = maxlink then some (.error .emlink)
  else
    let fs := { fs with nlink := update fs.nlink sip (fs.nlink sip + 1) }
    if fs.nlink tdp = 0 then some (.error .enoent)
    else if sip = tdp then some (.error .einval)
    else
      (if sdp ≠ tdp then ufsDircheckpath fuel fs sip tdp else some none).map fun err =>
        match err with
        | some e => .error e
        | none =>
          match fs.look tdp nm with
          | some tip => ufsDirrename fs sdp sip tdp nm tip
          | none => if nm ∈ fs.files tdp then .error .enotdir else ufsDiraddentry fs sdp sip tdp nm

/-- `ufs_dirremove` of the old name, if it still is one of the directory. -/
def ufsDirremove (fs : Fs N) (dp : Nat) (nm : N) (oip : Nat) : Fs N :=
  if fs.look dp nm = some oip then
    { fs.unlink dp nm with nlink := update fs.nlink oip (fs.nlink oip - 1) }
  else fs

/-- `ufs_rename` of a directory. -/
def ufsRename (fuel : Nat) (fs : Fs N) (sdp : Nat) (snm : N) (tdp : Nat) (tnm : N) :
    Option (Except Errno (Fs N)) :=
  match fs.look sdp snm with
  | none => some (.error .enoent)
  | some sip =>
    (ufsDirenter fuel fs sdp sip tdp tnm).map fun r =>
      match r with
      | .error e => .error e
      | .ok fs => .ok (ufsDirremove fs sdp snm sip)

structure Label (N : Type) where
  fuel : Nat
  sdp : Nat
  snm : N
  tdp : Nat
  tnm : N

/-- A directory is reached by going up. -/
def Above (dotdot : Nat → Nat) (a c : Nat) : Prop := ∃ k, dotdot^[k] c = a

/-- The directories that have links are a tree: each one but the root has one name, in the
    directory of its `..` entry, and the root is above it. -/
structure Tree (fs : Fs N) : Prop where
  root : fs.nlink rootino ≠ 0 ∧ fs.dotdot rootino = rootino
  named : ∀ c, fs.nlink c ≠ 0 → c ≠ rootino → ∃ nm, (nm, c) ∈ fs.ents (fs.dotdot c)
  child : ∀ d nm c, (nm, c) ∈ fs.ents d →
    fs.nlink d ≠ 0 ∧ fs.nlink c ≠ 0 ∧ c ≠ rootino ∧ fs.dotdot c = d
  keys : ∀ d, ((fs.ents d).map fst).Nodup
  once : ∀ d, ((fs.ents d).map snd).Nodup
  links : ∀ d, fs.nlink d ≠ 0 → fs.nlink d = 2 + (fs.ents d).length
  above : ∀ c, fs.nlink c ≠ 0 → Above fs.dotdot rootino c

/-- Successful renames of directories of a tree. -/
def system (N : Type) [DecidableEq N] : System (Fs N) (Label N) where
  init := Tree
  step := fun fs a =>
    match ufsRename a.fuel fs a.sdp a.snm a.tdp a.tnm with
    | some (.ok fs) => some fs
    | _ => none

variable {N : Type} {fs : Fs N} {d c sdp sip tdp tip source fuel : Nat} {nm snm tnm : N}

/-! ### The walk -/

variable {dotdot : Nat → Nat}

theorem above_iff {a : Nat} (hne : c ≠ a) : Above dotdot a c ↔ Above dotdot a (dotdot c) := by
  constructor
  · rintro ⟨k, hk⟩
    cases k with
    | zero => exact absurd hk hne
    | succ k => exact ⟨k, hk⟩
  · rintro ⟨k, hk⟩
    exact ⟨k + 1, hk⟩

/-- Nothing but the root is above the root. -/
theorem above_root {a : Nat} (hroot : dotdot rootino = rootino) (h : Above dotdot a rootino) :
    rootino = a := by
  obtain ⟨k, hk⟩ := h
  rwa [iterate_fixed hroot] at hk

/-- The walk ends at the root at the latest. -/
theorem ufsDircheckpath_isSome {k : Nat} (hk : fs.dotdot^[k] c = rootino) (hfuel : k ≤ fuel) :
    (ufsDircheckpath fuel fs source c).isSome = true := by
  induction k generalizing c fuel with
  | zero =>
    obtain rfl : c = rootino := hk
    unfold ufsDircheckpath
    split
    · rfl
    · rfl
  | succ k ih =>
    obtain ⟨n, rfl⟩ := Nat.exists_eq_add_of_le' hfuel
    unfold ufsDircheckpath
    split
    · rfl
    split
    · rfl
    -- A turn of the loop is the same check at the parent.
    change (if fs.nlink c = 0 then some (some Errno.enotdir)
      else ufsDircheckpath (n + k) fs source (fs.dotdot c)).isSome = true
    split
    · rfl
    · exact ih hk (Nat.le_add_left k n)

/-- The answer is whether the source is the target or above it. -/
theorem ufsDircheckpath_sound {r : Option Errno}
    (hr : ufsDircheckpath fuel fs source c = some r) (hroot : fs.dotdot rootino = rootino)
    (hlinks : ∀ c, fs.nlink c ≠ 0 → fs.nlink (fs.dotdot c) ≠ 0) (hc : fs.nlink c ≠ 0) :
    r = some .einval ∧ Above fs.dotdot source c ∨ r = none ∧ ¬Above fs.dotdot source c := by
  induction fuel using Nat.strongRecOn generalizing c with
  | ind fuel ih =>
    unfold ufsDircheckpath at hr
    split at hr
    · next hself => exact .inl ⟨(some.inj hr).symm, 0, hself⟩
    next hself =>
    split at hr
    · next htop =>
      refine .inr ⟨(some.inj hr).symm, fun habove => hself ?_⟩
      exact htop.trans (above_root hroot (htop ▸ habove))
    cases fuel with
    | zero => cases hr
    | succ n =>
      rw [dircheckpathLoop, if_neg hc] at hr
      rw [above_iff hself]
      exact ih n (Nat.lt_succ_self n) hr (hlinks c hc)

/-! ### The tree -/

/-- The parent of a directory has links. -/
theorem Tree.parent (h : Tree fs) (hc : fs.nlink c ≠ 0) : fs.nlink (fs.dotdot c) ≠ 0 := by
  by_cases hroot : c = rootino
  · rw [hroot, h.root.2]
    exact h.root.1
  · obtain ⟨nm, hin⟩ := h.named c hc hroot
    exact (h.child _ _ _ hin).1

/-- A name is that of one directory, and a directory has one name in its parent. -/
theorem Tree.unique (h : Tree fs) (hin : (nm, c) ∈ fs.ents d) (e : N × Nat) (he : e ∈ fs.ents d) :
    nm = e.1 ↔ c = e.2 := by
  constructor
  · intro heq
    exact congrArg snd (inj_on_of_nodup_map (h.keys d) hin he heq)
  · intro heq
    exact congrArg fst (inj_on_of_nodup_map (h.once d) hin he heq)

variable [DecidableEq N]

theorem Tree.look_eq (h : Tree fs) : fs.look d nm = some c ↔ (nm, c) ∈ fs.ents d := by
  have hkeys := h.keys d
  unfold Fs.look
  generalize fs.ents d = l at hkeys
  induction l with
  | nil => simp
  | cons e l ih => grind

/-- One name goes. -/
theorem length_filter_ne {l : List (N × Nat)} (hkeys : (l.map fst).Nodup)
    (hin : (nm, c) ∈ l) : (l.filter (·.1 ≠ nm)).length + 1 = l.length := by
  induction l with
  | nil => simp at hin
  | cons e l ih => grind [filter_eq_self]

/-- A directory without subdirectories is removed. -/
theorem Tree.rmdir (h : Tree fs) (hin : (nm, c) ∈ fs.ents d) (hleaf : fs.ents c = []) :
    Tree { fs.unlink d nm with nlink := update (update fs.nlink c 0) d (fs.nlink d - 1) } := by
  obtain ⟨hd, hc, hcroot, hdot⟩ := h.child d nm c hin
  have hlen := length_filter_ne (h.keys d) hin
  have huniq := h.unique hin
  obtain ⟨hroot, hnamed, hchild, hkeys, honce, hlinks, habove⟩ := h
  unfold Fs.unlink
  constructor
  case keys =>
    intro d'
    simp only [update_apply]
    split
    · exact (hkeys d).sublist (filter_sublist.map _)
    · exact hkeys d'
  case once =>
    intro d'
    simp only [update_apply]
    split
    · exact (honce d).sublist (filter_sublist.map _)
    · exact honce d'
  case named =>
    intro c' hc' hroot'
    obtain ⟨nm', hin'⟩ := hnamed c' (by grind) hroot'
    exact ⟨nm', by grind⟩
  all_goals simp only [update_apply]
  all_goals grind

/-- Going up from a directory that the moved one is not above has not changed, and from
    there on the moved one is below. -/
theorem above_move (hnot : ¬Above dotdot sip tdp) (htdp : Above dotdot rootino tdp)
    (hc : Above dotdot rootino c) : Above (update dotdot sip tdp) rootino c := by
  have hsame : ∀ k, (update dotdot sip tdp)^[k] tdp = dotdot^[k] tdp := by
    intro k
    induction k with
    | zero => rfl
    | succ k ih =>
      rw [iterate_succ_apply', iterate_succ_apply', ih]
      exact update_of_ne (fun heq => hnot ⟨k, heq⟩) ..
  obtain ⟨k, hk⟩ := hc
  induction k generalizing c with
  | zero => exact ⟨0, hk⟩
  | succ k ih =>
    by_cases hsip : c = sip
    · obtain ⟨j, hj⟩ := htdp
      refine ⟨j + 1, ?_⟩
      rw [iterate_succ_apply, hsip, update_self, hsame, hj]
    · obtain ⟨j, hj⟩ := ih hk
      refine ⟨j + 1, ?_⟩
      rwa [iterate_succ_apply, update_of_ne hsip]

/-- The link counts after the parent of a directory has changed. -/
def moveLinks (nlink : Nat → Nat) (sdp tdp : Nat) : Nat → Nat :=
  if sdp = tdp then nlink else update (update nlink tdp (nlink tdp + 1)) sdp (nlink sdp - 1)

/-- A directory gets a new name in a directory that it is not above. -/
theorem Tree.move (h : Tree fs) (hin : (snm, sip) ∈ fs.ents sdp) (htdp : fs.nlink tdp ≠ 0)
    (hnot : sdp ≠ tdp → ¬Above fs.dotdot sip tdp) (hnew : ∀ e ∈ fs.ents tdp, e.1 ≠ tnm) :
    Tree ({ fs with
      ents := update fs.ents tdp ((tnm, sip) :: fs.ents tdp)
      dotdot := update fs.dotdot sip tdp
      nlink := moveLinks fs.nlink sdp tdp }.unlink sdp snm) := by
  obtain ⟨hd, hc, hcroot, hdot⟩ := h.child sdp snm sip hin
  have hlen := length_filter_ne (h.keys sdp) hin
  have huniq := h.unique hin
  have habove : ∀ c, fs.nlink c ≠ 0 → Above (update fs.dotdot sip tdp) rootino c := by
    intro c hc
    by_cases hsame : sdp = tdp
    · rw [← hsame, ← hdot, update_eq_self]
      exact h.above c hc
    · exact above_move (hnot hsame) (h.above tdp htdp) (h.above c hc)
  obtain ⟨hroot, hnamed, hchild, hkeys, honce, hlinks, -⟩ := h
  unfold Fs.unlink moveLinks
  constructor
  case keys =>
    intro d'
    grind
  case once =>
    intro d'
    grind
  case named =>
    intro c' hc' hroot'
    by_cases hsip : c' = sip
    · exact ⟨tnm, by grind⟩
    · obtain ⟨nm', hin'⟩ := hnamed c' (by grind) hroot'
      exact ⟨nm', by grind⟩
  all_goals simp only [update_apply]
  all_goals grind

/-! ### Renames -/

theorem look_eq_none (h : fs.look d nm = none) : ∀ e ∈ fs.ents d, e.1 ≠ nm := by
  unfold Fs.look at h
  simpa using h

variable {fs' : Fs N}

omit [DecidableEq N] in
/-- What `ufs_dirfixdotdot` does to a directory with links. -/
theorem ufsDirfixdotdot_ok (hfix : ufsDirfixdotdot fs sip sdp tdp = .ok fs')
    (hsip : fs.nlink sip ≠ 0) (hsdp : fs.nlink sdp ≠ 0) (hdot : fs.dotdot sip = sdp) :
    fs' = { fs with
      dotdot := update fs.dotdot sip tdp
      nlink := moveLinks fs.nlink sdp tdp } := by
  unfold ufsDirfixdotdot at hfix
  unfold moveLinks
  by_cases hsame : sdp = tdp
  · rw [if_pos (.inr (hdot.trans hsame))] at hfix
    cases hfix
    rw [if_pos hsame, ← hsame, ← hdot, update_eq_self]
  rw [if_neg (by simp [hsip, hdot, hsame])] at hfix
  split at hfix
  · cases hfix
  · rw [if_neg hsame]
    simp only [update_of_ne hsame, hsdp, ne_eq, not_false_eq_true, if_true] at hfix
    exact (Except.ok.inj hfix).symm

/-- The old name goes, and with it the link that the rename has held. -/
theorem Tree.remove (h : Tree fs) (hin : (snm, sip) ∈ fs.ents sdp) (htdp : fs.nlink tdp ≠ 0)
    (hnot : sdp ≠ tdp → ¬Above fs.dotdot sip tdp) (hnew : ∀ e ∈ fs.ents tdp, e.1 ≠ tnm) :
    Tree (ufsDirremove { fs with
      ents := update fs.ents tdp ((tnm, sip) :: fs.ents tdp)
      dotdot := update fs.dotdot sip tdp
      nlink := moveLinks (update fs.nlink sip (fs.nlink sip + 1)) sdp tdp } sdp snm sip) := by
  obtain ⟨-, hsip, hroot, hdot⟩ := h.child sdp snm sip hin
  rw [ufsDirremove, if_pos]
  · have hm := h.move hin htdp hnot hnew
    refine Eq.mp (congrArg Tree ?_) hm
    unfold Fs.unlink moveLinks
    congr 1
    funext c
    grind
  · have hlook := h.look_eq.mpr hin
    unfold Fs.look at hlook ⊢
    grind

/-- The name stands for a directory, which has no subdirectories and goes first. -/
theorem Tree.dirrename (h : Tree fs) (hin : (snm, sip) ∈ fs.ents sdp)
    (htip : (tnm, tip) ∈ fs.ents tdp) (hne : sip ≠ tdp)
    (hnot : sdp ≠ tdp → ¬Above fs.dotdot sip tdp)
    (hr : ufsDirrename { fs with nlink := update fs.nlink sip (fs.nlink sip + 1) } sdp sip tdp tnm
      tip = .ok fs') : Tree (ufsDirremove fs' sdp snm sip) := by
  unfold ufsDirrename at hr
  split at hr
  · cases hr
  split at hr
  · cases hr
  next hsip hleaf =>
  dsimp only at hr
  split at hr
  · cases hr
  next hgone =>
  rw [not_or, not_not] at hleaf
  obtain ⟨hsdp, -, -, hdot⟩ := h.child _ _ _ hin
  obtain ⟨htdp, hlinked, -, -⟩ := h.child _ _ _ htip
  have huniq := h.unique htip
  have hone := h.links tdp htdp
  have hb := h.rmdir htip hleaf.1
  -- A rename in one directory is one that keeps the `..` entry.
  generalize hg : ({ ents := _, files := _, dotdot := _, nlink := _ } : Fs N) = g at hr
  have hdot' : g.dotdot sip = sdp := hg ▸ hdot
  have hfix : ufsDirfixdotdot g sip sdp tdp = .ok fs' := by
    unfold ufsDirfixdotdot at hr ⊢
    grind
  have hin' : (snm, sip) ∈ (fs.unlink tdp tnm).ents sdp := by
    unfold Fs.unlink
    grind
  have hnew : ∀ e ∈ (fs.unlink tdp tnm).ents tdp, e.1 ≠ tnm := by
    unfold Fs.unlink
    grind
  have hremove := hb.remove hin' (by grind) hnot hnew
  refine Eq.mp (congrArg (fun fs => Tree (ufsDirremove fs sdp snm sip)) ?_) hremove
  have hlinks : g.nlink = update (update (update fs.nlink tip 0) tdp (fs.nlink tdp - 1)) sip
      (fs.nlink sip + 1) := by
    subst hg
    funext c
    unfold Fs.setEntry
    grind
  rw [ufsDirfixdotdot_ok hfix (by rw [hlinks]; grind) (by rw [hlinks]; grind) hdot']
  rw [hlinks, ← hg]
  unfold Fs.unlink Fs.setEntry
  simp only [update_self, update_idem]
  rw [update_of_ne hne, update_of_ne hsip]

/-- The name is new, or that of a directory without subdirectories that goes first. -/
theorem Tree.enter (h : Tree fs) (hin : (snm, sip) ∈ fs.ents sdp)
    (henter : ufsDirenter fuel fs sdp sip tdp tnm = some (.ok fs')) :
    Tree (ufsDirremove fs' sdp snm sip) := by
  obtain ⟨hsdp, hsip, -, hdot⟩ := h.child sdp snm sip hin
  have hbump : ∀ c, update fs.nlink sip (fs.nlink sip + 1) c ≠ 0 ↔ fs.nlink c ≠ 0 := by grind
  unfold ufsDirenter at henter
  simp only [hsip, if_false] at henter
  split at henter
  · cases henter
  split at henter
  · cases henter
  next htdp =>
  split at henter
  · cases henter
  next hne =>
  obtain ⟨err, hcheck, hr⟩ := map_eq_some_iff.mp henter
  split at hr
  · cases hr
  have hnot : sdp ≠ tdp → ¬Above fs.dotdot sip tdp := by
    intro hmoved
    rw [if_pos hmoved] at hcheck
    rcases ufsDircheckpath_sound hcheck h.root.2
      (fun c hc => (hbump _).mpr (h.parent ((hbump c).mp hc))) htdp with hc | hc
    · cases hc.1
    · exact hc.2
  split at hr
  · next tip hlook => exact h.dirrename hin (h.look_eq.mp hlook) hne hnot hr
  next hlook =>
  have hnew := look_eq_none hlook
  split at hr
  · cases hr
  unfold ufsDiraddentry at hr
  split at hr
  · cases hr
  next hfix =>
  obtain rfl := ufsDirfixdotdot_ok hfix ((hbump sip).mpr hsip) ((hbump sdp).mpr hsdp) hdot
  cases hr
  have hkept : (fs.ents tdp).filter (·.1 ≠ tnm) = fs.ents tdp :=
    filter_eq_self.mpr fun e he => decide_eq_true (hnew e he)
  unfold Fs.setEntry
  rw [hkept]
  exact h.remove hin ((hbump tdp).mp htdp) hnot hnew

/-- A rename that succeeds keeps the tree. -/
theorem Tree.rename (h : Tree fs) (hr : ufsRename fuel fs sdp snm tdp tnm = some (.ok fs')) :
    Tree fs' := by
  unfold ufsRename at hr
  split at hr
  · cases hr
  next sip hlook =>
  obtain ⟨r, henter, hr⟩ := map_eq_some_iff.mp hr
  split at hr
  · cases hr
  · cases hr
    exact h.enter (h.look_eq.mp hlook) henter

/-- The check ends on every tree and says whether the source is the target or above it, and
    after every run of renames the directories still are a tree. -/
theorem rename_keeps_tree (hr : (system N).Reachable fs) :
    Tree fs ∧ ∀ source target, fs.nlink target ≠ 0 → ∃ k, ∀ fuel, k ≤ fuel →
      (Above fs.dotdot source target →
        ufsDircheckpath fuel fs source target = some (some .einval)) ∧
      (¬Above fs.dotdot source target → ufsDircheckpath fuel fs source target = some none) := by
  have h : Tree fs := by
    refine System.Reachable.invariant (system N) Tree (fun _ hi => hi) ?_ fs hr
    intro fs fs' a h hs
    simp only [system] at hs
    split at hs
    · next hrename =>
      cases hs
      exact h.rename hrename
    · cases hs
  refine ⟨h, fun source target htarget => ?_⟩
  obtain ⟨k, hk⟩ := h.above target htarget
  refine ⟨k, fun fuel hfuel => ?_⟩
  obtain ⟨r, hcheck⟩ := isSome_iff_exists.mp (ufsDircheckpath_isSome hk hfuel)
  have hsound := ufsDircheckpath_sound hcheck h.root.2 (fun _ => h.parent) htarget
  rw [hcheck]
  grind

/-- One of two directories is moved into the other and then is below it. -/
theorem rename_keeps_tree_two :
    ∃ fs fs' : Fs Nat, (system Nat).exec fs [⟨1, 2, 0, 4, 7⟩] = some fs' ∧ fs'.dotdot 3 = 4 ∧
      Tree fs' ∧ ∃ k, ufsDircheckpath k fs' 4 3 = some (some .einval) := by
  let fs : Fs Nat :=
    { ents := fun d => if d = 2 then [(0, 3), (1, 4)] else []
      files := fun _ => []
      dotdot := fun _ => 2
      nlink := fun c => if c = 2 then 4 else if c = 3 ∨ c = 4 then 2 else 0 }
  have hinit : Tree fs := by
    constructor
    case above => exact fun c _ => ⟨1, rfl⟩
    all_goals simp only [fs, rootino]
    all_goals grind
  have hsome : ((system Nat).exec fs [⟨1, 2, 0, 4, 7⟩]).isSome = true := by decide
  have hr := System.reachable_get (system Nat) _ fs hinit hsome
  obtain ⟨htree, hcheck⟩ := rename_keeps_tree hr
  obtain ⟨k, hk⟩ := hcheck 4 3 (Nat.succ_ne_zero 1)
  exact ⟨fs, _, (some_get hsome).symm, rfl, htree, k, (hk k le_rfl).1 ⟨1, rfl⟩⟩

end Sol7.Rename
