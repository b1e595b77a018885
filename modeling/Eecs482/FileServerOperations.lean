import Eecs482.FileServerWrites

/-!
# The commit writes as operations of the path tree

Under the conditions a handler has checked, its commit write is the operation
it was asked for: the path tree changes as the operation says, and the blocks
of the tree change by the ones the handler has reserved or is about to free.
-/

namespace Eecs482
namespace FileServer

variable {disk : Disk} {p x : BlockNo} {user name : Name} {path : Path}

/-- A directory in which the user may create and delete. -/
structure EditableDir
    (disk : Disk) (user : Name) (path : Path) (p : BlockNo) : Prop where
  resolved : resolve disk path = some p
  above : (treeOf disk).OwnedAbove user path
  dir : (inodeAt disk p).type = dirType
  owner : ownerAt disk p = user ∨ ownerAt disk p = []

/-- A file the user may read and write. -/
structure OwnedFile
    (disk : Disk) (user : Name) (path : Path) (p : BlockNo) : Prop where
  resolved : resolve disk path = some p
  above : (treeOf disk).OwnedAbove user path
  file : (inodeAt disk p).type = fileType
  owner : ownerAt disk p = user

theorem EditableDir.reach (h : EditableDir disk user path p) : Reach disk p :=
  ⟨path, h.resolved⟩

theorem OwnedFile.reach (h : OwnedFile disk user path p) : Reach disk p :=
  ⟨path, h.resolved⟩

theorem OwnedFile.type_ne (h : OwnedFile disk user path p) :
    (inodeAt disk p).type ≠ dirType := by
  rw [h.file]
  exact fileType_ne_dirType

theorem EditableDir.treeOf (h : EditableDir disk user path p) :
    FileServer.treeOf disk path = some (.dir (ownerAt disk p)) := by
  simp [FileServer.treeOf, h.resolved, nodeAt, h.dir]

theorem OwnedFile.treeOf (h : OwnedFile disk user path p) :
    FileServer.treeOf disk path =
      some (.file user ((dataBlocks disk p).map disk)) := by
  simp [FileServer.treeOf, h.resolved, nodeAt, h.file, h.owner,
    fileType_ne_dirType]

/-- What was seen under a lock still holds. -/
theorem Pin.Holds.editableDir
    {pin : Pin} (h : pin.Holds disk)
    (hseen : EditableDir pin.image user pin.path pin.block) :
    EditableDir disk user pin.path pin.block where
  resolved := h.resolve
  above := h.ownedAbove hseen.above
  dir := by rw [h.agree.inodeAt, hseen.dir]
  owner := by
    rw [h.agree.ownerAt]
    exact hseen.owner

theorem Pin.Holds.ownedFile
    {pin : Pin} (h : pin.Holds disk)
    (hseen : OwnedFile pin.image user pin.path pin.block) :
    OwnedFile disk user pin.path pin.block where
  resolved := h.resolve
  above := h.ownedAbove hseen.above
  file := by rw [h.agree.inodeAt, hseen.file]
  owner := by
    rw [h.agree.ownerAt]
    exact hseen.owner

/-! ## Create -/

section Create

variable {n : BlockNo} {type : Byte} {entry : FsDirentry}

theorem EditableDir.absent
    (h : EditableDir disk user path p) (habsent : childOf disk p name = none) :
    FileServer.treeOf disk (path ++ [name]) = none := by
  rw [FileServer.treeOf, resolve, LabelledWalk.walk_snoc_of_walk h.resolved,
    habsent]
  rfl

theorem NewInode.nodeAt_of_eq
    {disk' : Disk} (h : NewInode disk n type user) (hsame : disk' n = disk n) :
    FileServer.nodeAt disk' n = .fresh type user := by
  have hinode : inodeAt disk' n = inodeAt disk n := by
    rw [inodeAt, hsame, inodeAt]
  have hsize : (inodeAt disk' n).size = 0 := by rw [hinode, h.size_eq]
  rw [← h.nodeAt]
  unfold FileServer.nodeAt
  rw [hinode, ownerAt, hinode, ownerAt,
    (refs_eq_nil_of_size_eq_zero hsize).1,
    (refs_eq_nil_of_size_eq_zero h.size_eq).1]
  rfl

theorem applies_create
    {disk' : Disk} {extra : List BlockNo} (hwf : WellFormed disk)
    (hdir : EditableDir disk user path p)
    (hentry : NewEntry disk p entry n name)
    (hadds : AddsEntry disk disk' p entry extra)
    (hnode : FileServer.nodeAt disk' n = .fresh type user) :
    (FsOp.create user (path ++ [name]) type).Applies (treeOf disk) none
      (treeOf disk') := by
  have htree := hadds.treeOf hwf hdir.resolved
  rw [hentry.name_eq, hentry.block_eq, hnode] at htree
  rw [htree]
  exact .create hdir.above hdir.treeOf hdir.owner (hdir.absent hentry.absent)

/-- The commit write of `handle_create` into a free slot. -/
theorem effect_create_in_slot
    (hwf : WellFormed disk) (hdir : EditableDir disk user path p)
    (hx : x ∈ dataBlocks disk p) {slot : Fin fsDirentries}
    (hslot : (asEntries (disk x) slot).inodeBlock = 0)
    (hentry : NewEntry disk p entry n name)
    (hinode : NewInode disk n type user) :
    Effect disk
      (Function.update disk x
        (ofEntries (Function.update (asEntries (disk x)) slot entry)))
      p (.create user (path ++ [name]) type) [n] [] := by
  have hadds := addsEntry_in_slot hwf hdir.reach hdir.dir hx hslot hentry hinode
  have hnx : n ≠ x := by
    rintro rfl
    exact hinode.fresh.2.2 ⟨p, hdir.reach, dataBlocks_subset_refs disk p hx⟩
  have heffect := Effect.of_addsEntry hadds hwf
    (applies_create hwf hdir hentry hadds
      (hinode.nodeAt_of_eq (Function.update_of_ne hnx _ _)))
  rwa [hentry.block_eq] at heffect

/-- The commit write of `handle_create` when the directory grows. -/
theorem effect_create_in_new_block
    (hwf : WellFormed disk) (hdir : EditableDir disk user path p)
    (hsize : (inodeAt disk p).size.toNat < fsMaxFileBlocks)
    (hx : Fresh disk x) (hnx : n ≠ x) (hentries : entriesAt disk x = [entry])
    (hentry : NewEntry disk p entry n name)
    (hinode : NewInode disk n type user) :
    Effect disk
      (Function.update disk p (ofInode ((inodeAt disk p).append x)))
      p (.create user (path ++ [name]) type) [n, x] [] := by
  have hadds := addsEntry_in_new_block hwf hdir.reach hdir.dir hsize hx hnx
    hentries hentry hinode
  have hnp : n ≠ p := by
    rintro rfl
    exact hinode.fresh.not_reach hdir.reach
  have heffect := Effect.of_addsEntry hadds hwf
    (applies_create hwf hdir hentry hadds
      (hinode.nodeAt_of_eq (Function.update_of_ne hnp _ _)))
  rwa [hentry.block_eq] at heffect

end Create

/-! ## Delete -/

section Delete

variable {k : ℕ} {j : Fin fsDirentries}

/-- The entry at a position of the directory, whose inode is the user's and
not a directory with entries. -/
structure Deletable
    (disk : Disk) (user : Name) (p : BlockNo) (k : ℕ) (j : Fin fsDirentries)
    (name : Name) : Prop where
  index : k < (inodeAt disk p).size.toNat
  entry : (entryAt disk (inodeAt disk p) k j).Matches name
  owner : ownerAt disk (entryAt disk (inodeAt disk p) k j).inodeBlock = user
  empty : ¬((inodeAt disk
      (entryAt disk (inodeAt disk p) k j).inodeBlock).type = dirType ∧
    (inodeAt disk (entryAt disk (inodeAt disk p) k j).inodeBlock).size > 0)

theorem Deletable.leaf (h : Deletable disk user p k j name) :
    direntries disk (entryAt disk (inodeAt disk p) k j).inodeBlock = [] := by
  by_cases htype : (inodeAt disk
      (entryAt disk (inodeAt disk p) k j).inodeBlock).type = dirType
  · have hsize : (inodeAt disk
        (entryAt disk (inodeAt disk p) k j).inodeBlock).size = 0 := by
      by_contra hne
      refine h.empty ⟨htype, ?_⟩
      rw [gt_iff_lt, UInt32.lt_iff_toNat_lt]
      exact Nat.pos_of_ne_zero fun hzero => hne (UInt32.toNat_inj.mp hzero)
    exact (refs_eq_nil_of_size_eq_zero hsize).2.1
  · rw [direntries, if_neg htype]

theorem Deletable.resolve
    {disk' : Disk} {extra : List BlockNo} (hdelete : Deletable disk user p k j name)
    (hwf : WellFormed disk) (hdir : EditableDir disk user path p)
    (hremoves : RemovesEntry disk disk' p
      (entryAt disk (inodeAt disk p) k j) extra) :
    FileServer.resolve disk (path ++ [name]) =
      some (entryAt disk (inodeAt disk p) k j).inodeBlock := by
  rw [FileServer.resolve, LabelledWalk.walk_snoc_of_walk hdir.resolved,
    ← hdelete.entry.2]
  exact hremoves.childOf_old hwf

theorem applies_delete
    {disk' : Disk} {extra : List BlockNo} (hwf : WellFormed disk)
    (hdir : EditableDir disk user path p)
    (hdelete : Deletable disk user p k j name)
    (hremoves : RemovesEntry disk disk' p
      (entryAt disk (inodeAt disk p) k j) extra) :
    (FsOp.delete user (path ++ [name])).Applies (treeOf disk) none
      (treeOf disk') := by
  have htree := hremoves.treeOf hwf hdir.resolved
  have hresolve := hdelete.resolve hwf hdir hremoves
  rw [hdelete.entry.2] at htree
  rw [htree]
  have hnode : treeOf disk (path ++ [name]) =
      some (nodeAt disk (entryAt disk (inodeAt disk p) k j).inodeBlock) := by
    rw [treeOf, hresolve, Option.map_some]
  refine .delete hdir.above hdir.treeOf hdir.owner hnode ?_ ?_
  · rw [← hdelete.owner, nodeAt]
    split <;> rfl
  · intro child
    rw [treeOf, resolve, LabelledWalk.walk_snoc_of_walk hresolve,
      childOf_eq_none_of_direntries_nil hdelete.leaf]
    rfl

/-- The commit write of `handle_delete` when the block keeps other entries. -/
theorem effect_delete_from_block
    (hwf : WellFormed disk) (hdir : EditableDir disk user path p)
    (hdelete : Deletable disk user p k j name)
    (hother : ∃ j', j' ≠ j ∧
      (entryAt disk (inodeAt disk p) k j').inodeBlock ≠ 0) :
    Effect disk
      (Function.update disk ((inodeAt disk p).block k)
        (ofEntries (Function.update
          (asEntries (disk ((inodeAt disk p).block k))) j
          { entryAt disk (inodeAt disk p) k j with inodeBlock := 0 })))
      p (.delete user (path ++ [name])) []
      (dataBlocks disk (entryAt disk (inodeAt disk p) k j).inodeBlock ++
        [(entryAt disk (inodeAt disk p) k j).inodeBlock]) := by
  have hremoves := removesEntry_from_block hwf hdir.reach hdir.dir hdelete.index
    hdelete.entry.1 hdelete.leaf hother
  exact Effect.of_removesEntry hremoves hwf List.perm_append_comm
    (hdelete.resolve hwf hdir hremoves) (applies_delete hwf hdir hdelete hremoves)

/-- The commit write of `handle_delete` when the directory shrinks. -/
theorem effect_delete_with_block
    (hwf : WellFormed disk) (hdir : EditableDir disk user path p)
    (hdelete : Deletable disk user p k j name)
    (honly : ∀ j', j' ≠ j →
      (entryAt disk (inodeAt disk p) k j').inodeBlock = 0) :
    Effect disk
      (Function.update disk p (ofInode ((inodeAt disk p).removeBlock k)))
      p (.delete user (path ++ [name])) []
      ((inodeAt disk p).block k ::
        (dataBlocks disk (entryAt disk (inodeAt disk p) k j).inodeBlock ++
          [(entryAt disk (inodeAt disk p) k j).inodeBlock])) := by
  have hremoves := removesEntry_with_block hwf hdir.reach hdir.dir hdelete.index
    hdelete.entry.1 hdelete.leaf honly
  exact Effect.of_removesEntry hremoves hwf
    ((List.Perm.cons _ List.perm_append_comm).trans (List.Perm.swap _ _ _))
    (hdelete.resolve hwf hdir hremoves) (applies_delete hwf hdir hdelete hremoves)

end Delete

/-! ## Read and write -/

section Blocks

variable {index : ℕ} {data : Block}

theorem dataBlocks_get
    (hindex : index < (inodeAt disk p).size.toNat) :
    (dataBlocks disk p)[index]? = some ((inodeAt disk p).block index) := by
  simp [dataBlocks, FsInode.dataBlocks, hindex]

/-- A read of a block of the file. -/
theorem applies_read
    (hfile : OwnedFile disk user path p)
    (hindex : index < (inodeAt disk p).size.toNat) :
    (FsOp.readBlock user path index).Applies (treeOf disk)
      (some (disk ((inodeAt disk p).block index))) (treeOf disk) := by
  refine .readBlock hfile.above hfile.treeOf ?_
  rw [List.getElem?_map, dataBlocks_get hindex]
  rfl

theorem applies_write
    {disk' : Disk} {extra : List BlockNo} (hwf : WellFormed disk)
    (hfile : OwnedFile disk user path p)
    (hedits : EditsFile disk disk' p extra)
    (hindex : index ≤ (inodeAt disk p).size.toNat)
    (hbound : index < fsMaxFileBlocks)
    (hblocks : (dataBlocks disk' p).map disk' =
      writeAt ((dataBlocks disk p).map disk) index data) :
    (FsOp.writeBlock user path index data).Applies (treeOf disk) none
      (treeOf disk') := by
  have htree := hedits.treeOf hwf hfile.resolved
  rw [hfile.owner, hblocks] at htree
  rw [htree]
  exact .writeBlock hfile.above hfile.treeOf (by simpa using hindex) hbound

/-- The commit write of `handle_writeblock` at the end of the file. -/
theorem effect_append
    (hwf : WellFormed disk) (hfile : OwnedFile disk user path p)
    (hsize : (inodeAt disk p).size.toNat < fsMaxFileBlocks)
    (hx : Fresh disk x) (hdata : disk x = data) :
    Effect disk
      (Function.update disk p (ofInode ((inodeAt disk p).append x)))
      p (.writeBlock user path (inodeAt disk p).size.toNat data) [x] [] := by
  have hedits := editsFile_append hwf hfile.reach hfile.type_ne hsize hx
  refine Effect.of_editsFile hedits hwf
    (applies_write hwf hfile hedits (le_refl _) hsize ?_)
  have hxp : x ≠ p := by
    rintro rfl
    exact hx.not_reach hfile.reach
  have hsame : (dataBlocks disk p).map (Function.update disk p
      (ofInode ((inodeAt disk p).append x))) = (dataBlocks disk p).map disk := by
    apply List.map_congr_left
    intro y hy
    refine Function.update_of_ne ?_ _ _
    rintro rfl
    exact hwf.inode_notMem_dataBlocks hfile.reach hfile.reach hy
  rw [hedits.dataBlocks, List.map_append, hsame, List.map_singleton,
    Function.update_of_ne hxp, hdata, writeAt, if_pos (by simp)]

/-- The commit write of `handle_writeblock` inside the file. -/
theorem effect_overwrite
    (hwf : WellFormed disk) (hfile : OwnedFile disk user path p)
    (hindex : index < (inodeAt disk p).size.toNat) (data : Block) :
    Effect disk
      (Function.update disk ((inodeAt disk p).block index) data)
      p (.writeBlock user path index data) [] [] := by
  have hx : (inodeAt disk p).block index ∈ dataBlocks disk p :=
    block_mem_dataBlocks hindex
  have hedits := editsFile_overwrite hwf hfile.reach hfile.type_ne hx data
  have hbound : index < fsMaxFileBlocks :=
    lt_of_lt_of_le hindex (hwf.size_le p hfile.reach)
  refine Effect.of_editsFile hedits hwf
    (applies_write hwf hfile hedits (le_of_lt hindex) hbound ?_)
  have hnodup : (dataBlocks disk p).Nodup :=
    (List.nodup_append.mp (hwf.refs_nodup p hfile.reach)).1
  have hlength : index < (dataBlocks disk p).length := by
    rwa [length_dataBlocks]
  have hget : (dataBlocks disk p)[index] = (inodeAt disk p).block index := by
    simp [dataBlocks, FsInode.dataBlocks]
  rw [hedits.dataBlocks, List.append_nil, writeAt,
    if_neg (by simpa using Nat.ne_of_lt hindex), ← hget]
  apply List.ext_getElem
  · simp
  · intro k hk hk'
    rw [List.getElem_map, List.getElem_set, List.getElem_map]
    by_cases hkey : index = k
    · subst hkey
      simp
    · rw [if_neg hkey, Function.update_of_ne]
      intro heq
      exact hkey (hnodup.getElem_inj_iff.mp heq).symm

end Blocks

end FileServer
end Eecs482
