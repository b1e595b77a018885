import Eecs482.FileServerHandlers

/-!
# Searching a directory

`check_existance` scans the direntries of a directory block by block.  On a
fixed image it is a pure function, and on a directory of the tree it finds the
entry of a name exactly when the directory lists it; otherwise it may have seen
an unused entry on the way.
-/

namespace Eecs482
namespace FileServer

/-- A used entry with the given name. -/
def FsDirentry.Matches (entry : FsDirentry) (name : Name) : Prop :=
  entry.inodeBlock ≠ 0 ∧ cString entry.name = name

/-- The entry at position `j` of data block `k` of an inode. -/
def entryAt (disk : Disk) (inode : FsInode) (k : ℕ) (j : Fin fsDirentries) :
    FsDirentry :=
  asEntries (disk (inode.block k)) j

theorem mem_dataBlocks_iff {inode : FsInode} {x : BlockNo} :
    x ∈ inode.dataBlocks ↔ ∃ k, k < inode.size.toNat ∧ inode.block k = x := by
  simp [FsInode.dataBlocks]

theorem block_mem_dataBlocks
    {inode : FsInode} {k : ℕ} (hk : k < inode.size.toNat) :
    inode.block k ∈ inode.dataBlocks :=
  mem_dataBlocks_iff.mpr ⟨k, hk, rfl⟩

theorem mem_entriesAt_iff
    {disk : Disk} {x : BlockNo} {entry : FsDirentry} :
    entry ∈ entriesAt disk x ↔
      (∃ j, asEntries (disk x) j = entry) ∧ entry.inodeBlock ≠ 0 := by
  rw [entriesAt, List.mem_filter, List.mem_ofFn]
  simp

/-- The entries of a directory by their positions. -/
theorem mem_direntries_iff
    {disk : Disk} {b : BlockNo} {entry : FsDirentry}
    (hdir : (inodeAt disk b).type = dirType) :
    entry ∈ direntries disk b ↔
      (∃ k j, k < (inodeAt disk b).size.toNat ∧
        entryAt disk (inodeAt disk b) k j = entry) ∧ entry.inodeBlock ≠ 0 := by
  rw [direntries, if_pos hdir, List.mem_flatMap]
  constructor
  · rintro ⟨x, hx, hentry⟩
    obtain ⟨k, hk, rfl⟩ := mem_dataBlocks_iff.mp hx
    obtain ⟨⟨j, hj⟩, hused⟩ := mem_entriesAt_iff.mp hentry
    exact ⟨⟨k, j, hk, hj⟩, hused⟩
  · rintro ⟨⟨k, j, hk, hj⟩, hused⟩
    exact ⟨_, block_mem_dataBlocks hk, mem_entriesAt_iff.mpr ⟨⟨j, hj⟩, hused⟩⟩

/-! ## The scan of one block -/

/-- The result of a search that has found the entry at position `j` of data
block `k`. -/
def foundAt
    (disk : Disk) (inode : FsInode) (result : TargetInode) (k : ℕ)
    (j : Fin fsDirentries) : TargetInode := {
  result with
  inodeBlock := (entryAt disk inode k j).inodeBlock
  valid := true
  firstEmptyBlock := UInt32.ofNat k
  firstEmptyEntryIndex := j }

/-- The unused entry a search has seen, if it has seen one.  Block 125 is the
mark for none, so an entry seen there does not count. -/
def SlotSeen
    (disk : Disk) (inode : FsInode) (result : TargetInode)
    (output : Option Entries) : Prop :=
  result.firstEmptyBlock = noEmptyBlock ∨
    (result.firstEmptyBlock ∈ inode.dataBlocks ∧
      output = some (asEntries (disk result.firstEmptyBlock)) ∧
      (asEntries (disk result.firstEmptyBlock)
        result.firstEmptyEntryIndex).inodeBlock = 0)

/-- A search that has not found the name. -/
structure Passed
    (disk : Disk) (inode : FsInode) (start : TargetInode)
    (output : Option Entries) (result : TargetInode)
    (output' : Option Entries) : Prop where
  inodeBlock : result.inodeBlock = start.inodeBlock
  valid : result.valid = start.valid
  parent : result.parentInodeBlock = start.parentInodeBlock
  isSome : output'.isSome = output.isSome
  slot : SlotSeen disk inode start output → SlotSeen disk inode result output'

theorem Passed.refl
    (disk : Disk) (inode : FsInode) (result : TargetInode)
    (output : Option Entries) :
    Passed disk inode result output result output :=
  ⟨rfl, rfl, rfl, rfl, id⟩

theorem Passed.trans
    {disk : Disk} {inode : FsInode} {r₁ r₂ r₃ : TargetInode}
    {o₁ o₂ o₃ : Option Entries} (h : Passed disk inode r₁ o₁ r₂ o₂)
    (h' : Passed disk inode r₂ o₂ r₃ o₃) :
    Passed disk inode r₁ o₁ r₃ o₃ :=
  ⟨h'.inodeBlock.trans h.inodeBlock, h'.valid.trans h.valid,
    h'.parent.trans h.parent, h'.isSome.trans h.isSome,
    fun hslot => h'.slot (h.slot hslot)⟩

theorem foundAt_of_passed
    {disk : Disk} {inode : FsInode} {start result : TargetInode}
    {output output' : Option Entries}
    (h : Passed disk inode start output result output')
    (k : ℕ) (j : Fin fsDirentries) :
    foundAt disk inode result k j = foundAt disk inode start k j := by
  simp [foundAt, h.parent]

/-- The scan of the entries of one block: it stops at the first match, or has
passed all of them. -/
theorem checkEntries_spec
    (disk : Disk) {inode : FsInode} (name : Name) {k : ℕ}
    (hk : k < inode.size.toNat) (positions : List (Fin fsDirentries))
    (result : TargetInode) (output : Option Entries) :
    (∃ j ∈ positions, (entryAt disk inode k j).Matches name ∧
      checkEntries name k (inode.block k) (asEntries (disk (inode.block k)))
          positions result output =
        (true, foundAt disk inode result k j,
          output.map fun _ => asEntries (disk (inode.block k)))) ∨
    (∃ result' output', (∀ j ∈ positions,
        ¬(entryAt disk inode k j).Matches name) ∧
      checkEntries name k (inode.block k) (asEntries (disk (inode.block k)))
          positions result output = (false, result', output') ∧
      Passed disk inode result output result' output') := by
  induction positions generalizing result output with
  | nil =>
      exact Or.inr ⟨result, output, by simp, rfl, Passed.refl _ _ _ _⟩
  | cons j rest ih =>
      simp only [checkEntries]
      split
      · rename_i hmatch
        exact Or.inl ⟨j, List.mem_cons_self, hmatch, rfl⟩
      · rename_i hmatch
        split
        · rename_i hfree
          obtain ⟨hsome, hzero, hnone⟩ := hfree
          have hstep : Passed disk inode result output
              { result with
                firstEmptyBlock := inode.block k
                firstEmptyEntryIndex := j }
              (some (asEntries (disk (inode.block k)))) :=
            ⟨rfl, rfl, rfl, by simp [hsome],
              fun _ => Or.inr ⟨block_mem_dataBlocks hk, rfl, hzero⟩⟩
          rcases ih { result with
              firstEmptyBlock := inode.block k
              firstEmptyEntryIndex := j }
              (some (asEntries (disk (inode.block k)))) with
            ⟨j', hj', hfound, heq⟩ | ⟨result', output', hnot, heq, hpassed⟩
          · refine Or.inl ⟨j', List.mem_cons_of_mem j hj', hfound, ?_⟩
            rw [heq, foundAt_of_passed hstep]
            obtain ⟨entries, rfl⟩ := Option.isSome_iff_exists.mp hsome
            rfl
          · refine Or.inr ⟨result', output', ?_, heq, hstep.trans hpassed⟩
            simpa using ⟨hmatch, hnot⟩
        · rcases ih result output with
            ⟨j', hj', hfound, heq⟩ | ⟨result', output', hnot, heq, hpassed⟩
          · exact Or.inl ⟨j', List.mem_cons_of_mem j hj', hfound, heq⟩
          · refine Or.inr ⟨result', output', ?_, heq, hpassed⟩
            simpa using ⟨hmatch, hnot⟩

/-! ## The scan of all blocks -/

/-- What `checkBlocks` computes when the disk does not change. -/
def scanBlocks (disk : Disk) (inode : FsInode) (targetName : Name) :
    (remaining i : ℕ) → TargetInode → Option Entries →
      TargetInode × Option Entries
  | 0, _, result, output => (result, output)
  | remaining + 1, i, result, output =>
      match checkEntries targetName i (inode.block i)
          (asEntries (disk (inode.block i))) (List.finRange fsDirentries)
          result output with
      | (true, result, output) => (result, output)
      | (false, result, output) =>
          scanBlocks disk inode targetName remaining (i + 1) result output

theorem scanBlocks_spec
    (disk : Disk) (inode : FsInode) (name : Name) (remaining i : ℕ)
    (hbound : i + remaining ≤ inode.size.toNat)
    (result : TargetInode) (output : Option Entries) :
    (∃ k j, i ≤ k ∧ k < i + remaining ∧
      (entryAt disk inode k j).Matches name ∧
      scanBlocks disk inode name remaining i result output =
        (foundAt disk inode result k j,
          output.map fun _ => asEntries (disk (inode.block k)))) ∨
    ((∀ k j, i ≤ k → k < i + remaining →
        ¬(entryAt disk inode k j).Matches name) ∧
      Passed disk inode result output
        (scanBlocks disk inode name remaining i result output).1
        (scanBlocks disk inode name remaining i result output).2) := by
  induction remaining generalizing i result output with
  | zero =>
      refine Or.inr ⟨fun k j hlow hhigh => ?_, Passed.refl _ _ _ _⟩
      omega
  | succ remaining ih =>
      have hi : i < inode.size.toNat := by omega
      rcases checkEntries_spec disk name hi
          (List.finRange fsDirentries) result output with
        ⟨j, _, hmatch, heq⟩ | ⟨result', output', hnot, heq, hpassed⟩
      · refine Or.inl ⟨i, j, le_refl i, by omega, hmatch, ?_⟩
        simp only [scanBlocks, heq]
      · have hnot : ∀ j, ¬(entryAt disk inode i j).Matches name :=
          fun j => hnot j (List.mem_finRange j)
        have hscan : scanBlocks disk inode name (remaining + 1) i result output =
            scanBlocks disk inode name remaining (i + 1) result' output' := by
          simp only [scanBlocks, heq]
        rw [hscan]
        rcases ih (i + 1) (by omega) result' output' with
          ⟨k, j, hlow, hhigh, hmatch, heq'⟩ | ⟨hrest, hpassed'⟩
        · refine Or.inl ⟨k, j, by omega, by omega, hmatch, ?_⟩
          rw [heq', foundAt_of_passed hpassed]
          congr 1
          have hsome := hpassed.isSome
          cases output <;> cases output' <;> simp_all
        · refine Or.inr ⟨fun k j hlow hhigh => ?_, hpassed.trans hpassed'⟩
          rcases Nat.eq_or_lt_of_le hlow with rfl | hlow
          · exact hnot j
          · exact hrest k j hlow (by omega)

/-- What `checkExistance` computes when the disk does not change. -/
def scan
    (disk : Disk) (inode : FsInode) (result : TargetInode) (targetName : Name)
    (output : Option Entries) : TargetInode × Option Entries :=
  scanBlocks disk inode targetName inode.size.toNat 0
    { result with valid := false } output

section Directory

variable {disk : Disk} {p : BlockNo} {name : Name}
variable (hwf : WellFormed disk) (hreach : Reach disk p)
variable (hdir : (inodeAt disk p).type = dirType)
include hwf hreach hdir

/-- Two used entries of one name are one entry. -/
theorem childOf_of_matches
    {k : ℕ} {j : Fin fsDirentries} (hk : k < (inodeAt disk p).size.toNat)
    (hmatch : (entryAt disk (inodeAt disk p) k j).Matches name) :
    childOf disk p name =
      some (entryAt disk (inodeAt disk p) k j).inodeBlock := by
  rw [← hmatch.2]
  exact childOf_of_mem (hwf.names_nodup p hreach)
    ((mem_direntries_iff hdir).mpr ⟨⟨k, j, hk, rfl⟩, hmatch.1⟩)

/-- A listed name is found. -/
theorem scan_of_childOf_some
    {c : BlockNo} (hchild : childOf disk p name = some c)
    (result : TargetInode) (output : Option Entries) :
    ∃ k j, k < (inodeAt disk p).size.toNat ∧
      (entryAt disk (inodeAt disk p) k j).Matches name ∧
      (entryAt disk (inodeAt disk p) k j).inodeBlock = c ∧
      scan disk (inodeAt disk p) result name output =
        (foundAt disk (inodeAt disk p) result k j,
          output.map fun _ =>
            asEntries (disk ((inodeAt disk p).block k))) := by
  rcases scanBlocks_spec disk (inodeAt disk p) name
      (inodeAt disk p).size.toNat 0 (by omega) { result with valid := false }
      output with ⟨k, j, _, hk, hmatch, heq⟩ | ⟨hnot, _⟩
  · have hk : k < (inodeAt disk p).size.toNat := by omega
    refine ⟨k, j, hk, hmatch, ?_, heq⟩
    rw [childOf_of_matches hwf hreach hdir hk hmatch] at hchild
    exact Option.some.inj hchild
  · obtain ⟨entry, hentry, hname, _⟩ := childOf_eq_some hchild
    obtain ⟨⟨k, j, hk, rfl⟩, hused⟩ := (mem_direntries_iff hdir).mp hentry
    exact absurd ⟨hused, hname⟩ (hnot k j (Nat.zero_le k) (by omega))

/-- A name that is not listed is not found. -/
theorem scan_of_childOf_none
    (hchild : childOf disk p name = none)
    (result : TargetInode) (output : Option Entries) :
    Passed disk (inodeAt disk p) { result with valid := false } output
      (scan disk (inodeAt disk p) result name output).1
      (scan disk (inodeAt disk p) result name output).2 := by
  rcases scanBlocks_spec disk (inodeAt disk p) name
      (inodeAt disk p).size.toNat 0 (by omega) { result with valid := false }
      output with ⟨k, j, _, hk, hmatch, _⟩ | ⟨_, hpassed⟩
  · rw [childOf_of_matches hwf hreach hdir (by omega) hmatch] at hchild
    cases hchild
  · exact hpassed

end Directory

/-! ## Whether a search has seen an unused entry -/

/-- A data block of the directory has an unused entry that a search sees. -/
def SpareSlot (disk : Disk) (inode : FsInode) : Prop :=
  ∃ k j, k < inode.size.toNat ∧ inode.block k ≠ noEmptyBlock ∧
    (entryAt disk inode k j).inodeBlock = 0

theorem checkEntries_firstEmptyBlock
    {name : Name} {k : ℕ} (block : BlockNo) (entries : Entries)
    (positions : List (Fin fsDirentries))
    (hnot : ∀ j ∈ positions, ¬(entries j).Matches name)
    (result : TargetInode) {output : Option Entries} (houtput : output.isSome) :
    (checkEntries name k block entries positions result
        output).2.1.firstEmptyBlock = noEmptyBlock ↔
      result.firstEmptyBlock = noEmptyBlock ∧
        (block = noEmptyBlock ∨ ∀ j ∈ positions, (entries j).inodeBlock ≠ 0) := by
  induction positions generalizing result output with
  | nil => simp [checkEntries]
  | cons j rest ih =>
      have hj := hnot j List.mem_cons_self
      have hrest := fun j' hj' => hnot j' (List.mem_cons_of_mem j hj')
      unfold FsDirentry.Matches at hj
      simp only [checkEntries, if_neg hj]
      by_cases hfree : (entries j).inodeBlock = 0
      · by_cases hfirst : result.firstEmptyBlock = noEmptyBlock
        · rw [if_pos ⟨houtput, hfree, hfirst⟩, ih hrest _ rfl]
          simp only [List.mem_cons, forall_eq_or_imp, hfree, hfirst]
          tauto
        · rw [if_neg (fun h => hfirst h.2.2), ih hrest _ houtput]
          simp [hfirst]
      · rw [if_neg (fun h => hfree h.2.1), ih hrest _ houtput]
        simp [hfree]

theorem scanBlocks_firstEmptyBlock
    {disk : Disk} {inode : FsInode} {name : Name} (remaining i : ℕ)
    (hbound : i + remaining ≤ inode.size.toNat)
    (hnot : ∀ k j, i ≤ k → k < i + remaining →
      ¬(entryAt disk inode k j).Matches name)
    (result : TargetInode) {output : Option Entries} (houtput : output.isSome) :
    (scanBlocks disk inode name remaining i result
        output).1.firstEmptyBlock = noEmptyBlock ↔
      result.firstEmptyBlock = noEmptyBlock ∧
        ∀ k, i ≤ k → k < i + remaining → inode.block k = noEmptyBlock ∨
          ∀ j, (entryAt disk inode k j).inodeBlock ≠ 0 := by
  induction remaining generalizing i result output with
  | zero =>
      simp only [scanBlocks, Nat.add_zero, iff_self_and]
      intro _ k hlow hhigh
      omega
  | succ remaining ih =>
      have hi : i < inode.size.toNat := by omega
      have hnone : ∀ j, ¬(entryAt disk inode i j).Matches name :=
        fun j => hnot i j (le_refl i) (by omega)
      have hfirst := checkEntries_firstEmptyBlock (k := i) (inode.block i)
        (asEntries (disk (inode.block i))) (List.finRange fsDirentries)
        (fun j _ => hnone j) result houtput
      rcases checkEntries_spec disk name hi (List.finRange fsDirentries)
          result output with
        ⟨j, _, hmatch, _⟩ | ⟨result', output', _, heq, hpassed⟩
      · exact absurd hmatch (hnone j)
      · rw [heq] at hfirst
        simp only [scanBlocks, heq]
        rw [ih (i + 1) (by omega)
          (fun k j hlow hhigh => hnot k j (by omega) (by omega)) result'
          (hpassed.isSome.trans houtput), hfirst, and_assoc]
        refine and_congr_right fun _ => ?_
        constructor
        · rintro ⟨hhere, hlater⟩ k hlow hhigh
          rcases Nat.eq_or_lt_of_le hlow with rfl | hlow
          · exact hhere.imp_right fun h j => h j (List.mem_finRange j)
          · exact hlater k hlow (by omega)
        · intro hall
          refine ⟨(hall i (le_refl i) (by omega)).imp_right fun h j _ => h j,
            fun k hlow hhigh => hall k (by omega) (by omega)⟩

/-- A search that fails has found no spare slot exactly when there is none. -/
theorem scan_full_iff
    {disk : Disk} {p : BlockNo} {name : Name} (hwf : WellFormed disk)
    (hreach : Reach disk p) (hdir : (inodeAt disk p).type = dirType)
    (hchild : childOf disk p name = none) (entries : Entries) :
    (scan disk (inodeAt disk p) {} name (some entries)).1.firstEmptyBlock =
        noEmptyBlock ↔
      ¬SpareSlot disk (inodeAt disk p) := by
  rw [scan, scanBlocks_firstEmptyBlock _ 0 (by omega) (fun k j _ hk hmatch => ?_)
    _ rfl]
  · simp only [SpareSlot, not_exists, not_and, true_and]
    constructor
    · intro hall k j hk hblock
      exact (hall k (Nat.zero_le k) (by omega)).resolve_left hblock j
    · intro hall k _ hk
      by_cases hblock : (inodeAt disk p).block k = noEmptyBlock
      · exact Or.inl hblock
      · exact Or.inr fun j => hall k j (by omega) hblock
  · rw [childOf_of_matches hwf hreach hdir (by omega) hmatch] at hchild
    cases hchild

end FileServer
end Eecs482
