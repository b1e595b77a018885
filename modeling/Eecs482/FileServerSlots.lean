import Eecs482.FileServerRefinement

/-!
# Where a new entry goes

`check_existance` reports the first unused entry it meets by the number of its
disk block, and `handle_create` takes block number 125 for the mark that there
is none.  A create whose checks pass therefore fills the first unused entry of
the directory, and grows the directory only when there is none, exactly as long
as that entry does not lie in disk block 125.
-/

namespace Eecs482
namespace FileServer

open Machine

/-! ## The first unused entry -/

/-- Some data block of the directory has an unused entry. -/
def HasUnused (disk : Disk) (inode : FsInode) : Prop :=
  ∃ k j, k < inode.size.toNat ∧ (entryAt disk inode k j).inodeBlock = 0

/-- Entry `j` of data block `k` is the first unused one in scan order. -/
structure FirstUnused
    (disk : Disk) (inode : FsInode) (k : ℕ) (j : Fin fsDirentries) : Prop where
  block_lt : k < inode.size.toNat
  unused : (entryAt disk inode k j).inodeBlock = 0
  before : ∀ k' j', k' < k → (entryAt disk inode k' j').inodeBlock ≠ 0
  beside : ∀ j', j' < j → (entryAt disk inode k j').inodeBlock ≠ 0

theorem exists_firstUnused
    {disk : Disk} {inode : FsInode} (hunused : HasUnused disk inode) :
    ∃ k j, FirstUnused disk inode k j := by
  classical
  have hblock : ∃ k, ∃ j, k < inode.size.toNat ∧
      (entryAt disk inode k j).inodeBlock = 0 := hunused
  have hentry : ∃ m, ∃ hm : m < fsDirentries,
      (entryAt disk inode (Nat.find hblock) ⟨m, hm⟩).inodeBlock = 0 := by
    obtain ⟨j, _, hj⟩ := Nat.find_spec hblock
    exact ⟨j.val, j.isLt, hj⟩
  obtain ⟨hlt, hzero⟩ := Nat.find_spec hentry
  obtain ⟨_, hsize, _⟩ := Nat.find_spec hblock
  refine ⟨Nat.find hblock, ⟨Nat.find hentry, hlt⟩, hsize, hzero, ?_, ?_⟩
  · intro k j hk hzero'
    exact Nat.find_min hblock hk ⟨j, Nat.lt_trans hk hsize, hzero'⟩
  · intro j hj hzero'
    exact Nat.find_min hentry hj ⟨j.isLt, hzero'⟩

/-! ## What the search reports -/

section Search

variable {name : Name} {result : TargetInode} {output : Option Entries}

/-- Without a match the scan of a block changes nothing when it has reported an
entry before, or finds no unused one. -/
theorem checkEntries_stays
    {k : ℕ} {block : BlockNo} {entries : Entries}
    {positions : List (Fin fsDirentries)}
    (hnot : ∀ j ∈ positions, ¬(entries j).Matches name)
    (hstays : result.firstEmptyBlock ≠ noEmptyBlock ∨
      ∀ j ∈ positions, (entries j).inodeBlock ≠ 0) :
    checkEntries name k block entries positions result output =
      (false, result, output) := by
  induction positions with
  | nil => rfl
  | cons j rest ih =>
      have hj := hnot j List.mem_cons_self
      unfold FsDirentry.Matches at hj
      have hskip : ¬(output.isSome ∧ (entries j).inodeBlock = 0 ∧
          result.firstEmptyBlock = noEmptyBlock) := by
        rintro ⟨_, hzero, hnone⟩
        rcases hstays with hseen | hused
        · exact hseen hnone
        · exact hused j List.mem_cons_self hzero
      simp only [checkEntries, if_neg hj, if_neg hskip]
      apply ih
      · intro j' hj'
        exact hnot j' (List.mem_cons_of_mem j hj')
      · exact hstays.imp_right fun hused j' hj' =>
          hused j' (List.mem_cons_of_mem j hj')

/-- The first unused entry of a block is reported, unless the block is the mark
for none. -/
theorem checkEntries_first
    {k : ℕ} {block : BlockNo} {entries : Entries}
    {before after : List (Fin fsDirentries)} {j : Fin fsDirentries}
    (hnot : ∀ j, ¬(entries j).Matches name)
    (hbefore : ∀ j' ∈ before, (entries j').inodeBlock ≠ 0)
    (hj : (entries j).inodeBlock = 0) (hblock : block ≠ noEmptyBlock)
    (hnone : result.firstEmptyBlock = noEmptyBlock) (houtput : output.isSome) :
    checkEntries name k block entries (before ++ j :: after) result output =
      (false, { result with firstEmptyBlock := block, firstEmptyEntryIndex := j },
        some entries) := by
  induction before with
  | nil =>
      have hmatch := hnot j
      unfold FsDirentry.Matches at hmatch
      simp only [List.nil_append, checkEntries, if_neg hmatch,
        if_pos (And.intro houtput (And.intro hj hnone))]
      exact checkEntries_stays (fun j' _ => hnot j') (Or.inl hblock)
  | cons j' rest ih =>
      have hmatch := hnot j'
      unfold FsDirentry.Matches at hmatch
      have hused := hbefore j' List.mem_cons_self
      simp only [List.cons_append, checkEntries, if_neg hmatch]
      rw [if_neg fun h => hused h.2.1]
      exact ih fun j'' hj'' => hbefore j'' (List.mem_cons_of_mem j' hj'')

theorem exists_finRange_split (j : Fin fsDirentries) :
    ∃ before after, List.finRange fsDirentries = before ++ j :: after ∧
      ∀ j' ∈ before, j' < j := by
  obtain ⟨before, after, hsplit⟩ := List.append_of_mem (List.mem_finRange j)
  refine ⟨before, after, hsplit, ?_⟩
  intro j' hj'
  have hsorted := List.pairwise_lt_finRange fsDirentries
  rw [hsplit, List.pairwise_append] at hsorted
  exact hsorted.2.2 j' hj' j List.mem_cons_self

variable {disk : Disk} {inode : FsInode}
variable (hnot : ∀ k j, k < inode.size.toNat →
  ¬(entryAt disk inode k j).Matches name)
include hnot

theorem scanBlocks_stays
    (hseen : result.firstEmptyBlock ≠ noEmptyBlock) (remaining i : ℕ)
    (hbound : i + remaining ≤ inode.size.toNat) :
    scanBlocks disk inode name remaining i result output = (result, output) := by
  induction remaining generalizing i with
  | zero => rfl
  | succ remaining ih =>
      have hblock : checkEntries name i (inode.block i)
          (asEntries (disk (inode.block i))) (List.finRange fsDirentries) result
          output = (false, result, output) := by
        apply checkEntries_stays
        · intro j _
          exact hnot i j (by omega)
        · exact Or.inl hseen
      simp only [scanBlocks, hblock]
      exact ih (i + 1) (by omega)

theorem scanBlocks_first
    {k : ℕ} {j : Fin fsDirentries} (hfirst : FirstUnused disk inode k j)
    (hblock : inode.block k ≠ noEmptyBlock)
    (hnone : result.firstEmptyBlock = noEmptyBlock) (houtput : output.isSome)
    (remaining i : ℕ) (hlow : i ≤ k) (hhigh : k < i + remaining)
    (hbound : i + remaining ≤ inode.size.toNat) :
    scanBlocks disk inode name remaining i result output =
      ({ result with
          firstEmptyBlock := inode.block k
          firstEmptyEntryIndex := j },
        some (asEntries (disk (inode.block k)))) := by
  induction remaining generalizing i with
  | zero => omega
  | succ remaining ih =>
      rcases Nat.eq_or_lt_of_le hlow with rfl | hlow
      · obtain ⟨before, after, hsplit, hbefore⟩ := exists_finRange_split j
        have hfound : checkEntries name i (inode.block i)
            (asEntries (disk (inode.block i))) (List.finRange fsDirentries)
            result output =
            (false,
              { result with
                firstEmptyBlock := inode.block i
                firstEmptyEntryIndex := j },
              some (asEntries (disk (inode.block i)))) := by
          rw [hsplit]
          apply checkEntries_first
          · intro j'
            exact hnot i j' hfirst.block_lt
          · intro j' hj'
            exact hfirst.beside j' (hbefore j' hj')
          · exact hfirst.unused
          · exact hblock
          · exact hnone
          · exact houtput
        simp only [scanBlocks, hfound]
        apply scanBlocks_stays hnot hblock
        omega
      · have hfull : checkEntries name i (inode.block i)
            (asEntries (disk (inode.block i))) (List.finRange fsDirentries)
            result output = (false, result, output) := by
          apply checkEntries_stays
          · intro j' _
            exact hnot i j' (by omega)
          · exact Or.inr fun j' _ => hfirst.before i j' hlow
        simp only [scanBlocks, hfull]
        exact ih (i + 1) hlow (by omega) (by omega)

end Search

section Directory

variable {disk : Disk} {p : BlockNo} {name : Name}
variable (hwf : WellFormed disk) (hreach : Reach disk p)
variable (hdir : (inodeAt disk p).type = dirType)
variable (habsent : childOf disk p name = none)
include hwf hreach hdir habsent

theorem not_matches_of_absent
    (k : ℕ) (j : Fin fsDirentries) (hk : k < (inodeAt disk p).size.toNat) :
    ¬(entryAt disk (inodeAt disk p) k j).Matches name := by
  intro hmatch
  rw [childOf_of_matches hwf hreach hdir hk hmatch] at habsent
  cases habsent

/-- A search that fails reports the first unused entry. -/
theorem scan_of_firstUnused
    {k : ℕ} {j : Fin fsDirentries}
    (hfirst : FirstUnused disk (inodeAt disk p) k j)
    (hblock : (inodeAt disk p).block k ≠ noEmptyBlock) (entries : Entries) :
    scan disk (inodeAt disk p) {} name (some entries) =
      ({ firstEmptyBlock := (inodeAt disk p).block k
         firstEmptyEntryIndex := j },
        some (asEntries (disk ((inodeAt disk p).block k)))) := by
  have hlt := hfirst.block_lt
  exact scanBlocks_first (not_matches_of_absent hwf hreach hdir habsent) hfirst
    hblock rfl rfl _ 0 (Nat.zero_le k) (by omega) (by omega)

end Directory

/-! ## Creating in a directory -/

/-- What becomes of a create in the directory at `p` that grows the directory
only when it is full. -/
structure GrowsWhenFull
    (disk : Disk) (free : List BlockNo) (p : BlockNo) (name : Name) (i : ℕ)
    (final : Server) : Prop where
  /-- It succeeds if and only if there is a block for the inode, and a place for
  the entry or a block to make one. -/
  succeeds : Responded i final ↔ free ≠ [] ∧
    (HasUnused disk (inodeAt disk p) ∨
      ((inodeAt disk p).size.toNat < fsMaxFileBlocks ∧ 2 ≤ free.length))
  /-- The new name goes into the first unused entry; only the block of the inode
  is allocated and the directory does not change. -/
  fills : Responded i final → ∀ k j, FirstUnused disk (inodeAt disk p) k j →
    final.disk p = disk p ∧
      cString (entryAt final.disk (inodeAt disk p) k j).name = name ∧
      free = (entryAt final.disk (inodeAt disk p) k j).inodeBlock ::
        final.freeBlocks

/-- The first unused entry, if there is one, does not lie in the block whose
number marks that there is none. -/
def FirstSeen (disk : Disk) (inode : FsInode) : Prop :=
  ∀ k j, FirstUnused disk inode k j → inode.block k ≠ noEmptyBlock

theorem FirstSeen.spareSlot
    {disk : Disk} {inode : FsInode} (hseen : FirstSeen disk inode)
    (hunused : HasUnused disk inode) : SpareSlot disk inode := by
  obtain ⟨k, j, hfirst⟩ := exists_firstUnused hunused
  exact ⟨k, j, hfirst.block_lt, hseen k j hfirst, hfirst.unused⟩

section Create

variable {i : ℕ} {s t : Server} {stack : Stack} {type : Byte} {path : Path}
variable {user name : Name} {p : BlockNo}
variable (hwf : WellFormed s.disk) (hfree : FreeList s.disk s.freeBlocks)
variable (hdir : EditableDir s.disk user path p)
variable (habsent : childOf s.disk p name = none)
variable (hend : CreateEnd stack type user name p
  (scan s.disk (inodeAt s.disk p) {} name (some stack.parentEntries)) i s t)
include hfree hdir hend

/-- A create that grows the directory only when it is full has seen the first
unused entry. -/
theorem CreateEnd.firstSeen
    (hgrows : GrowsWhenFull s.disk s.freeBlocks p name i t)
    (hspace : s.freeBlocks ≠ []) : FirstSeen s.disk (inodeAt s.disk p) := by
  intro k j hfirst hmark
  have hunused : HasUnused s.disk (inodeAt s.disk p) :=
    ⟨k, j, hfirst.block_lt, hfirst.unused⟩
  cases hend with
  | noInode hempty _ => exact hspace hempty
  | @slot n free hqueue hslot hdisk hrest hresponded =>
      obtain ⟨_, _, htaken⟩ := hgrows.fills hresponded k j hfirst
      rw [hqueue, List.cons.injEq] at htaken
      have hn := (hfree.mem_iff n).mp (by rw [hqueue]; exact List.mem_cons_self)
      have hblock : (inodeAt s.disk p).block k ≠ n := by
        rintro rfl
        exact hn.2.2 ⟨p, hdir.reach, dataBlocks_subset_refs s.disk p
          (block_mem_dataBlocks hfirst.block_lt)⟩
      rw [entryAt, hdisk, hmark, Function.update_of_ne hslot.symm,
        Function.update_of_ne (hmark ▸ hblock), ← hmark] at htaken
      exact hn.1 (htaken.1.trans hfirst.unused)
  | full _ _ _ hsilent =>
      exact hsilent (hgrows.succeeds.mpr ⟨hspace, Or.inl hunused⟩)
  | grown hqueue _ _ hrest hresponded =>
      obtain ⟨_, _, htaken⟩ := hgrows.fills hresponded k j hfirst
      rw [hqueue, hrest] at htaken
      have hlength := congrArg List.length htaken
      simp at hlength

include hwf habsent

/-- A create whose search sees the first unused entry. -/
theorem CreateEnd.growsWhenFull
    (hlength : name.length ≤ fsMaxFileName) (hnul : (0 : Byte) ∉ name)
    (hseen : FirstSeen s.disk (inodeAt s.disk p)) :
    GrowsWhenFull s.disk s.freeBlocks p name i t := by
  have hspare := scan_full_iff hwf hdir.reach hdir.dir habsent
    stack.parentEntries
  cases hend with
  | noInode hempty hsilent =>
      constructor
      · exact iff_of_false hsilent fun h => h.1 hempty
      · intro hresponded
        exact absurd hresponded hsilent
  | @slot n free hqueue hslot hdisk hrest hresponded =>
      obtain ⟨k, j, hk, _, hzero⟩ := not_not.mp (mt hspare.mpr hslot)
      constructor
      · apply iff_of_true hresponded
        rw [hqueue]
        exact ⟨List.cons_ne_nil _ _, Or.inl ⟨k, j, hk, hzero⟩⟩
      · intro _ k j hfirst
        have hblock := block_mem_dataBlocks hfirst.block_lt
        have hn := (hfree.mem_iff n).mp (by rw [hqueue]; exact List.mem_cons_self)
        have hfresh : Fresh s.disk n := hn
        rw [scan_of_firstUnused hwf hdir.reach hdir.dir habsent hfirst
          (hseen k j hfirst)] at hdisk
        have hentry : entryAt t.disk (inodeAt s.disk p) k j =
            { name := strcpy (entryAt s.disk (inodeAt s.disk p) k j).name name
              inodeBlock := n } := by
          rw [entryAt, hdisk, Function.update_self, asEntries_ofEntries]
          simp [newEntries, entryAt]
        refine ⟨?_, ?_, ?_⟩
        · have hpx : p ≠ (inodeAt s.disk p).block k := by
            intro heq
            rw [← heq] at hblock
            exact hwf.inode_notMem_dataBlocks hdir.reach hdir.reach hblock
          have hpn : p ≠ n := by
            rintro rfl
            exact hfresh.not_reach hdir.reach
          rw [hdisk, Function.update_of_ne hpx, Function.update_of_ne hpn]
        · rw [hentry]
          apply cString_strcpy
          · omega
          · exact hnul
        · rw [hentry, hqueue, hrest]
  | full hqueue hnone hspace hsilent =>
      constructor
      · apply iff_of_false hsilent
        rintro ⟨_, hunused | ⟨hroom, htwo⟩⟩
        · exact hspare.mp hnone (hseen.spareSlot hunused)
        · rcases hspace with rfl | hlimit
          · simp [hqueue] at htwo
          · omega
      · intro hresponded
        exact absurd hresponded hsilent
  | grown hqueue hnone hroom _ hresponded =>
      constructor
      · apply iff_of_true hresponded
        rw [hqueue]
        exact ⟨List.cons_ne_nil _ _, Or.inr ⟨hroom, by simp⟩⟩
      · intro _ k j hfirst
        exact absurd ⟨k, j, hfirst.block_lt, hseen k j hfirst, hfirst.unused⟩
          (hspare.mp hnone)

end Create

/-- Every user may edit the root. -/
theorem EditableDir.root
    {disk : Disk} (hwf : WellFormed disk) (howner : ownerAt disk 0 = [])
    {user : Name} : EditableDir disk user [] 0 where
  resolved := rfl
  above := by
    intro front hfront hroot
    exact absurd (List.prefix_nil.mp hfront) hroot
  dir := hwf.root_dir
  owner := Or.inr howner

/-- A create whose path, owner, type and name checks pass, with no other request
running, grows the directory only when it is full if and only if there is no
free block at all or its search sees the first unused entry. -/
theorem create_growsWhenFull_iff
    (disk : Disk) (free : List BlockNo) (hwf : WellFormed disk)
    (hfree : FreeList disk free) (i : ℕ) (stack : Stack) {req : List Byte}
    {fields : RequestFields} {type : Byte} {path : Path} {name : Name}
    {p : BlockNo} (htype : createType req = some type)
    (hpath : pathParser fields.pathname = some (path ++ [name]))
    (hdir : EditableDir disk fields.username path p)
    (habsent : childOf disk p name = none) :
    ∃ final, machine.alone i
        (machine.program ⟨.create req fields, stack⟩)
        (arrived disk free i ⟨.create req fields, stack⟩) = some ((), final) ∧
      (GrowsWhenFull disk free p name i final ↔
        (free ≠ [] → FirstSeen disk (inodeAt disk p))) := by
  have hrest := atRest_arrived disk free i ⟨.create req fields, stack⟩
  obtain ⟨⟨⟩, final, hrun, hend⟩ := ends_handleCreate_end stack hrest hwf htype
    hpath hdir habsent
  refine ⟨final, hrun, ?_⟩
  obtain ⟨_, hlength, hnul⟩ := pathParser_split hpath
  rw [List.getLastD_concat] at hlength hnul
  constructor
  · intro hgrows
    exact CreateEnd.firstSeen hfree hdir hend hgrows
  · intro hseen
    by_cases hspace : free = []
    · subst hspace
      cases hend with
      | noInode _ hsilent =>
          constructor
          · exact iff_of_false hsilent fun h => h.1 rfl
          · intro hresponded
            exact absurd hresponded hsilent
      | slot hqueue => cases hqueue
      | full hqueue => cases hqueue
      | grown hqueue => cases hqueue
    · exact CreateEnd.growsWhenFull hwf hfree hdir habsent hend hlength hnul
        (hseen hspace)

/-- The fields of `FS_CREATE u /b`. -/
def createFields : RequestFields where
  username := [117]
  pathname := [47, 98]
  username_ne_nil := by decide
  username_length := by decide
  username_noNul := by decide
  pathname_ne_nil := by decide
  pathname_length := by decide
  pathname_noNul := by decide

/-- `FS_CREATE u /b f` on the empty file system. -/
theorem create_growsWhenFull_freshDisk :
    ∃ free final, FreeList freshDisk free ∧
      machine.alone 0
        (machine.program ⟨.create [space, fileType] createFields, freshStack⟩)
        (arrived freshDisk free 0
          ⟨.create [space, fileType] createFields, freshStack⟩) =
        some ((), final) ∧
      GrowsWhenFull freshDisk free 0 [98] 0 final := by
  obtain ⟨free, _, hfree⟩ := exists_freeList wellFormed_freshDisk
  have hdir : EditableDir freshDisk createFields.username [] 0 := by
    apply EditableDir.root wellFormed_freshDisk
    rw [ownerAt, inodeAt_freshDisk_zero]
    decide
  have habsent : childOf freshDisk 0 [98] = none := by
    rw [childOf_eq_none_iff, direntries_freshDisk_zero]
    intro entry hentry
    cases hentry
  obtain ⟨final, hrun, hiff⟩ := create_growsWhenFull_iff freshDisk free
    wellFormed_freshDisk hfree 0 freshStack
    (by decide : createType [space, fileType] = some fileType)
    (by decide : pathParser createFields.pathname = some ([] ++ [[98]])) hdir habsent
  refine ⟨free, final, hfree, hrun, hiff.mpr ?_⟩
  intro _ k j hfirst
  have hlt := hfirst.block_lt
  rw [inodeAt_freshDisk_zero] at hlt
  exact absurd hlt (Nat.not_lt_zero k)

/-! ## A directory whose data block is block 125 -/

section Shifted

/-- The new inode and the new directory block of the first create on the empty
file system, when the queue begins with blocks 1 and 125. -/
def unlinkedDisk : Disk :=
  Function.update
    (Function.update freshDisk 1 (ofInode (newInode freshStack fileType [117])))
    noEmptyBlock (ofEntries (newEntries freshStack.parentEntries true 0 [97] 1))

/-- The empty file system after the create of `/a`. -/
def shiftedDisk : Disk :=
  Function.update unlinkedDisk 0
    (ofInode ((inodeAt unlinkedDisk 0).append noEmptyBlock))

theorem not_used_freshDisk (x : BlockNo) : ¬Used freshDisk x := by
  rintro ⟨b, hb, hx⟩
  rw [reach_freshDisk hb, refs, dataBlocks_freshDisk_zero,
    direntries_freshDisk_zero] at hx
  cases hx

theorem agree_unlinkedDisk (b : BlockNo) (hb : Reach freshDisk b) :
    Agree freshDisk unlinkedDisk b := by
  rw [reach_freshDisk hb]
  constructor
  · unfold unlinkedDisk
    rw [Function.update_of_ne (by decide), Function.update_of_ne (by decide)]
  · intro x hx
    rw [dataBlocks_freshDisk_zero] at hx
    cases hx

theorem fresh_unlinkedDisk
    {x : BlockNo} (hzero : x ≠ 0) (hrange : x.toNat < fsDiskSize) :
    Fresh unlinkedDisk x := by
  refine ⟨hzero, hrange, ?_⟩
  rw [used_of_agree agree_unlinkedDisk]
  exact not_used_freshDisk x

theorem inodeAt_unlinkedDisk_zero : inodeAt unlinkedDisk 0 = inodeAt freshDisk 0 :=
  (agree_unlinkedDisk 0 (Reach.root _)).inodeAt

/-- The first create links the new inode and the new block. -/
theorem addsEntry_shiftedDisk :
    AddsEntry unlinkedDisk shiftedDisk 0
      (newEntries freshStack.parentEntries true 0 [97] 1 0) [noEmptyBlock] := by
  have hwf := wellFormed_of_agree agree_unlinkedDisk wellFormed_freshDisk
  have hwritten : unlinkedDisk 1 =
      ofInode (newInode freshStack fileType createFields.username) := by
    unfold unlinkedDisk
    rw [Function.update_of_ne (by decide), Function.update_self]
    rfl
  have hentries : entriesAt unlinkedDisk noEmptyBlock =
      [newEntries freshStack.parentEntries true 0 [97] 1 0] := by
    rw [entriesAt_eq, unlinkedDisk, Function.update_self, asEntries_ofEntries]
    exact usedEntries_newEntries _ 0 [97] (by decide)
  have habsent : childOf unlinkedDisk 0 [97] = none := by
    rw [(agree_unlinkedDisk 0 (Reach.root _)).childOf, childOf_eq_none_iff,
      direntries_freshDisk_zero]
    intro entry hentry
    cases hentry
  apply addsEntry_in_new_block hwf (Reach.root _) hwf.root_dir
  · rw [inodeAt_unlinkedDisk_zero, inodeAt_freshDisk_zero]
    decide
  · exact fresh_unlinkedDisk (by decide) (by decide)
  · show (1 : BlockNo) ≠ noEmptyBlock
    decide
  · exact hentries
  · exact NewEntry.of_strcpy _ (by decide) (by decide) habsent
  · exact NewInode.of_written (fresh_unlinkedDisk (by decide) (by decide))
      (Or.inr rfl) hwritten

theorem wellFormed_shiftedDisk : WellFormed shiftedDisk :=
  addsEntry_shiftedDisk.wellFormed
    (wellFormed_of_agree agree_unlinkedDisk wellFormed_freshDisk)

theorem inodeAt_shiftedDisk_zero :
    inodeAt shiftedDisk 0 = (inodeAt freshDisk 0).append noEmptyBlock := by
  rw [shiftedDisk, inodeAt, Function.update_self, asInode_ofInode,
    inodeAt_unlinkedDisk_zero]

/-- The second entry of the block is the first unused one. -/
theorem firstUnused_shiftedDisk :
    FirstUnused shiftedDisk (inodeAt shiftedDisk 0) 0 1 := by
  have hblock : (inodeAt shiftedDisk 0).block 0 = noEmptyBlock := by
    rw [inodeAt_shiftedDisk_zero, inodeAt_freshDisk_zero]
    decide
  have hentry : ∀ j, entryAt shiftedDisk (inodeAt shiftedDisk 0) 0 j =
      newEntries freshStack.parentEntries true 0 [97] 1 j := by
    intro j
    rw [entryAt, hblock, shiftedDisk, Function.update_of_ne (by decide),
      unlinkedDisk, Function.update_self, asEntries_ofEntries]
  constructor
  · rw [inodeAt_shiftedDisk_zero, inodeAt_freshDisk_zero]
    decide
  · rw [hentry]
    rfl
  · intro k' j' hk'
    omega
  · intro j' hj'
    have hzero : j' = 0 := by
      apply Fin.ext
      have hlt : j'.val < 1 := hj'
      simpa using hlt
    rw [hentry, hzero]
    decide

theorem editableDir_shiftedDisk :
    EditableDir shiftedDisk createFields.username [] 0 := by
  apply EditableDir.root wellFormed_shiftedDisk
  rw [ownerAt, inodeAt_shiftedDisk_zero, inodeAt_freshDisk_zero]
  decide

theorem childOf_shiftedDisk : childOf shiftedDisk 0 [98] = none := by
  rw [childOf_eq_none_iff]
  intro entry hentry
  rw [addsEntry_shiftedDisk.direntries.mem_iff,
    (agree_unlinkedDisk 0 (Reach.root _)).direntries, direntries_freshDisk_zero,
    List.mem_singleton] at hentry
  rw [hentry]
  decide

/-- `FS_CREATE u /b f` on the empty file system after the create of `/a`. -/
theorem not_create_growsWhenFull :
    WellFormed shiftedDisk ∧ EditableDir shiftedDisk createFields.username [] 0 ∧
      childOf shiftedDisk 0 [98] = none ∧
      ∃ free final, FreeList shiftedDisk free ∧
        machine.alone 0
          (machine.program ⟨.create [space, fileType] createFields, freshStack⟩)
          (arrived shiftedDisk free 0
            ⟨.create [space, fileType] createFields, freshStack⟩) =
          some ((), final) ∧
        ¬GrowsWhenFull shiftedDisk free 0 [98] 0 final := by
  obtain ⟨free, _, hfree⟩ := exists_freeList wellFormed_shiftedDisk
  have hspace : free ≠ [] := by
    have htwo : (2 : BlockNo) ∈ free := by
      rw [hfree.mem_iff, addsEntry_shiftedDisk.used_iff
        (wellFormed_of_agree agree_unlinkedDisk wellFormed_freshDisk)]
      refine ⟨by decide, by decide, ?_⟩
      rintro (hused | hmem)
      · exact (fresh_unlinkedDisk (by decide) (by decide)).2.2 hused
      · revert hmem
        decide
    exact List.ne_nil_of_mem htwo
  have hrest := atRest_arrived shiftedDisk free 0
    ⟨.create [space, fileType] createFields, freshStack⟩
  have htype : createType [space, fileType] = some fileType := by decide
  have hpath : pathParser createFields.pathname = some ([] ++ [[98]]) := by decide
  obtain ⟨⟨⟩, final, hrun, hend⟩ := ends_handleCreate_end freshStack hrest
    wellFormed_shiftedDisk htype hpath editableDir_shiftedDisk childOf_shiftedDisk
  refine ⟨wellFormed_shiftedDisk, editableDir_shiftedDisk, childOf_shiftedDisk,
    free, final, hfree, hrun, ?_⟩
  intro hgrows
  have hseen : FirstSeen shiftedDisk (inodeAt shiftedDisk 0) :=
    CreateEnd.firstSeen hfree editableDir_shiftedDisk hend hgrows hspace
  apply hseen 0 1 firstUnused_shiftedDisk
  rw [inodeAt_shiftedDisk_zero, inodeAt_freshDisk_zero]
  decide

end Shifted

end FileServer
end Eecs482
