import Eecs482.FileServerLookup
import Eecs482.FileServerEffect

/-!
# The commit writes of the handlers

Each commit write of a handler, as a change of one block of the disk, is one of
the edits of the tree: an entry set in a free slot, a directory grown by a
block, an entry cleared, a directory shrunk by a block, a file grown by a
block, a data block overwritten.
-/

namespace Eecs482
namespace FileServer

variable {disk : Disk} {p x : BlockNo}

/-! ## Lists of entries -/

/-- Replacing one element of a list replaces at most one element of what a
filter keeps. -/
theorem filter_replace_perm
    {β : Type*} (keep : β → Bool) (before after : List β) (a b : β) :
    ((before ++ a :: after).filter keep ++ [b].filter keep).Perm
      ((before ++ b :: after).filter keep ++ [a].filter keep) := by
  have hsplit : ∀ c, (before ++ c :: after).filter keep =
      before.filter keep ++ ([c].filter keep ++ after.filter keep) := by
    intro c
    rw [← List.filter_append, ← List.filter_append, List.singleton_append]
  rw [hsplit a, hsplit b, List.append_assoc, List.append_assoc (before.filter keep)]
  refine List.Perm.append_left _ ?_
  calc
    (([a].filter keep ++ after.filter keep) ++ [b].filter keep).Perm
      ([b].filter keep ++ ([a].filter keep ++ after.filter keep)) :=
      List.perm_append_comm
    _ |>.Perm ([b].filter keep ++ (after.filter keep ++ [a].filter keep)) :=
      List.Perm.append_left _ List.perm_append_comm
    _ |>.Perm _ := by rw [List.append_assoc]

theorem ofFn_update
    {β : Type*} {n : ℕ} (f : Fin n → β) (i : Fin n) (a : β) :
    List.ofFn (Function.update f i a) = (List.ofFn f).set i a := by
  apply List.ext_getElem
  · simp
  · intro k hk hk'
    rw [List.getElem_ofFn, List.getElem_set]
    by_cases hki : i.val = k
    · subst hki
      simp
    · rw [if_neg hki, List.getElem_ofFn, Function.update_of_ne]
      intro heq
      exact hki (congrArg Fin.val heq).symm

/-- The used entries of a block. -/
def usedEntries (entries : Entries) : List FsDirentry :=
  (List.ofFn entries).filter (·.inodeBlock ≠ 0)

theorem entriesAt_eq (disk : Disk) (x : BlockNo) :
    entriesAt disk x = usedEntries (asEntries (disk x)) := rfl

theorem usedEntries_update_perm
    (entries : Entries) (i : Fin fsDirentries) (entry : FsDirentry) :
    (usedEntries (Function.update entries i entry) ++
        [entries i].filter (·.inodeBlock ≠ 0)).Perm
      (usedEntries entries ++ [entry].filter (·.inodeBlock ≠ 0)) := by
  have hi : i.val < (List.ofFn entries).length := by
    rw [List.length_ofFn]
    exact i.isLt
  have hold : List.ofFn entries = (List.ofFn entries).take i ++
      entries i :: (List.ofFn entries).drop (i + 1) := by
    rw [← List.getElem_ofFn hi, List.cons_getElem_drop_succ,
      List.take_append_drop]
  unfold usedEntries
  rw [ofFn_update, List.set_eq_take_append_cons_drop, if_pos hi]
  conv_rhs => rw [hold]
  exact filter_replace_perm _ _ _ _ _

theorem usedEntries_set
    (entries : Entries) {i : Fin fsDirentries} (entry : FsDirentry)
    (hfree : (entries i).inodeBlock = 0) (hused : entry.inodeBlock ≠ 0) :
    (usedEntries (Function.update entries i entry)).Perm
      (entry :: usedEntries entries) := by
  have h := usedEntries_update_perm entries i entry
  simp only [List.filter_singleton, hfree, hused, ne_eq, not_true_eq_false,
    decide_false, not_false_eq_true, decide_true, cond_true,
    cond_false, List.append_nil] at h
  exact h.trans (List.perm_append_singleton _ _)

theorem usedEntries_clear
    (entries : Entries) {i : Fin fsDirentries} (entry : FsDirentry)
    (hused : (entries i).inodeBlock ≠ 0) (hfree : entry.inodeBlock = 0) :
    (usedEntries entries).Perm
      (entries i :: usedEntries (Function.update entries i entry)) := by
  have h := usedEntries_update_perm entries i entry
  simp only [List.filter_singleton, hfree, hused, ne_eq, not_true_eq_false,
    decide_false, not_false_eq_true, decide_true, cond_true,
    cond_false, List.append_nil] at h
  exact h.symm.trans (List.perm_append_singleton _ _)

/-! ## Writing one data block of a directory -/

/-- One block of a directory is rewritten: the other entries stay. -/
theorem direntries_write
    (hwf : WellFormed disk) (hp : Reach disk p)
    (hdir : (inodeAt disk p).type = dirType) (hx : x ∈ dataBlocks disk p)
    (entries : Entries) :
    ∃ rest, (direntries disk p).Perm
        (usedEntries (asEntries (disk x)) ++ rest) ∧
      (direntries (Function.update disk x (ofEntries entries)) p).Perm
        (usedEntries entries ++ rest) := by
  have hxp : x ≠ p := by
    rintro rfl
    exact hwf.inode_notMem_dataBlocks hp hp hx
  have hinode : inodeAt (Function.update disk x (ofEntries entries)) p =
      inodeAt disk p := by
    rw [inodeAt, Function.update_of_ne hxp.symm, inodeAt]
  have hdata : dataBlocks (Function.update disk x (ofEntries entries)) p =
      dataBlocks disk p := by
    rw [dataBlocks, hinode, dataBlocks]
  have hnodup : (dataBlocks disk p).Nodup :=
    (List.nodup_append.mp (hwf.refs_nodup p hp)).1
  have hperm := List.perm_cons_erase hx
  refine ⟨((dataBlocks disk p).erase x).flatMap (entriesAt disk), ?_, ?_⟩
  · rw [direntries, if_pos hdir]
    simpa [entriesAt_eq] using hperm.flatMap_right (entriesAt disk)
  · rw [direntries, hinode, if_pos hdir, hdata]
    have hsame : ((dataBlocks disk p).erase x).flatMap
        (entriesAt (Function.update disk x (ofEntries entries))) =
        ((dataBlocks disk p).erase x).flatMap (entriesAt disk) := by
      apply List.flatMap_congr
      intro y hy
      have hyx : y ≠ x := (hnodup.mem_erase_iff.mp hy).1
      rw [entriesAt, entriesAt, Function.update_of_ne hyx]
    refine (hperm.flatMap_right _).trans ?_
    rw [List.flatMap_cons, hsame, entriesAt_eq, Function.update_self,
      asEntries_ofEntries]

theorem EditsInode.of_data
    (hwf : WellFormed disk) (hp : Reach disk p) (hx : x ∈ dataBlocks disk p)
    (block : Block) : EditsInode disk (Function.update disk x block) p := by
  have hxp : x ≠ p := by
    rintro rfl
    exact hwf.inode_notMem_dataBlocks hp hp hx
  have hinode : inodeAt (Function.update disk x block) p = inodeAt disk p := by
    rw [inodeAt, Function.update_of_ne hxp.symm, inodeAt]
  refine ⟨hp, by rw [hinode], by rw [hinode], ?_, fun b hb hne => ?_⟩
  · rw [hinode]
    exact hwf.size_le p hp
  · exact hwf.agree_update_of_ne hb hp hne (Or.inr hx)

theorem dataBlocks_update_data
    (hwf : WellFormed disk) (hp : Reach disk p) (hx : x ∈ dataBlocks disk p)
    (block : Block) :
    dataBlocks (Function.update disk x block) p = dataBlocks disk p := by
  have hxp : x ≠ p := by
    rintro rfl
    exact hwf.inode_notMem_dataBlocks hp hp hx
  rw [dataBlocks, inodeAt, Function.update_of_ne hxp.symm]
  rfl

/-- A write to a data block of a directory keeps it occupied when an entry of
the block is used. -/
theorem occupiedAt_update_data
    (hwf : WellFormed disk) (hp : Reach disk p) (hx : x ∈ dataBlocks disk p)
    {entries : Entries} (hentries : usedEntries entries ≠ [])
    (hoccupied : OccupiedAt disk p) :
    OccupiedAt (Function.update disk x (ofEntries entries)) p := by
  have hedit := EditsInode.of_data hwf hp hx (ofEntries entries)
  intro hdir y hy
  rw [hedit.type] at hdir
  rw [dataBlocks_update_data hwf hp hx] at hy
  rw [entriesAt_eq]
  by_cases hyx : y = x
  · rw [hyx, Function.update_self, asEntries_ofEntries]
    exact hentries
  · rw [Function.update_of_ne hyx, ← entriesAt_eq]
    exact hoccupied hdir y hy

/-- A block that is neither 0 nor used, and on the disk. -/
def Fresh (disk : Disk) (x : BlockNo) : Prop :=
  x ≠ 0 ∧ x.toNat < fsDiskSize ∧ ¬Used disk x

theorem Fresh.not_reach (h : Fresh disk x) : ¬Reach disk x :=
  fun hx => hx.zero_or_used.elim h.1 h.2.2

/-- The inode of a new file or directory has been written to block `n`. -/
structure NewInode (disk : Disk) (n : BlockNo) (type : Byte) (user : Name) :
    Prop where
  fresh : Fresh disk n
  type_eq : (inodeAt disk n).type = type
  type_cases : type = dirType ∨ type = fileType
  owner_eq : ownerAt disk n = user
  owner_terminated : Terminated (inodeAt disk n).owner
  size_eq : (inodeAt disk n).size = 0

theorem NewInode.nodeAt
    {n : BlockNo} {type : Byte} {user : Name} (h : NewInode disk n type user) :
    FileServer.nodeAt disk n = .fresh type user := by
  unfold FileServer.nodeAt Node.fresh
  rw [h.type_eq, h.owner_eq, (refs_eq_nil_of_size_eq_zero h.size_eq).1]
  rfl

section Create

variable {n : BlockNo} {type : Byte} {user name : Name}

/-- The entry of a new file fits the tree. -/
structure NewEntry
    (disk : Disk) (p : BlockNo) (entry : FsDirentry) (n : BlockNo)
    (name : Name) : Prop where
  block_eq : entry.inodeBlock = n
  name_eq : cString entry.name = name
  terminated : Terminated entry.name
  absent : childOf disk p name = none

/-- Create, with a free slot in block `x` of the directory. -/
theorem addsEntry_in_slot
    (hwf : WellFormed disk) (hp : Reach disk p)
    (hdir : (inodeAt disk p).type = dirType) (hx : x ∈ dataBlocks disk p)
    {slot : Fin fsDirentries}
    (hslot : (asEntries (disk x) slot).inodeBlock = 0)
    {entry : FsDirentry} (hentry : NewEntry disk p entry n name)
    (hinode : NewInode disk n type user) :
    AddsEntry disk
      (Function.update disk x
        (ofEntries (Function.update (asEntries (disk x)) slot entry)))
      p entry [] := by
  have hnx : n ≠ x := by
    rintro rfl
    exact hinode.fresh.2.2 ⟨p, hp, dataBlocks_subset_refs disk p hx⟩
  have hkept : inodeAt (Function.update disk x
      (ofEntries (Function.update (asEntries (disk x)) slot entry)))
      entry.inodeBlock = inodeAt disk n := by
    rw [hentry.block_eq, inodeAt, Function.update_of_ne hnx, inodeAt]
  have hused : entry.inodeBlock ≠ 0 := by
    rw [hentry.block_eq]
    exact hinode.fresh.1
  obtain ⟨rest, hold, hnew⟩ := direntries_write hwf hp hdir hx
    (Function.update (asEntries (disk x)) slot entry)
  refine {
    toEditsInode := EditsInode.of_data hwf hp hx _
    dir := hdir
    dataBlocks := by rw [dataBlocks_update_data hwf hp hx]; exact .refl _
    direntries := ?_
    occupied := ?_
    name_new := ?_
    name_terminated := hentry.terminated
    leaf_size := by rw [hkept, hinode.size_eq]
    leaf_type := by rw [hkept, hinode.type_eq]; exact hinode.type_cases
    leaf_owner := by rw [hkept]; exact hinode.owner_terminated
    fresh_nodup := by simp
    fresh := ?_ }
  · calc
      (direntries _ p).Perm (usedEntries _ ++ rest) := hnew
      _ |>.Perm (entry :: usedEntries (asEntries (disk x)) ++ rest) :=
        List.Perm.append_right rest (usedEntries_set _ _ hslot hused)
      _ |>.Perm (entry :: direntries disk p) := by
        rw [List.cons_append]
        exact List.Perm.cons entry hold.symm
  · refine occupiedAt_update_data hwf hp hx ?_
    intro hnil
    have hset := usedEntries_set (asEntries (disk x)) entry hslot hused
    rw [hnil] at hset
    exact absurd hset.symm.eq_nil (List.cons_ne_nil _ _)
  · intro other hother
    rw [hentry.name_eq]
    exact childOf_eq_none_iff.mp hentry.absent other hother
  · intro y hy
    rw [List.mem_singleton.mp hy, hentry.block_eq]
    exact hinode.fresh

end Create

/-! ## Inodes that grow and shrink -/

theorem block_append (inode : FsInode) (b : BlockNo) (k : ℕ) :
    (inode.append b).block k =
      if k = inode.size.toNat ∧ k < fsMaxFileBlocks then b else inode.block k := by
  unfold FsInode.append FsInode.block
  by_cases hk : k < fsMaxFileBlocks <;> simp [hk]

theorem size_append
    {inode : FsInode} (hsize : inode.size.toNat < fsMaxFileBlocks)
    (b : BlockNo) : (inode.append b).size.toNat = inode.size.toNat + 1 := by
  change inode.size.toNat < 124 at hsize
  simp only [FsInode.append, UInt32.toNat_add, UInt32.reduceToNat]
  omega

theorem dataBlocks_append
    {inode : FsInode} (hsize : inode.size.toNat < fsMaxFileBlocks)
    (b : BlockNo) :
    (inode.append b).dataBlocks = inode.dataBlocks ++ [b] := by
  unfold FsInode.dataBlocks
  rw [size_append hsize, List.range_succ, List.map_append]
  congr 1
  · apply List.map_congr_left
    intro k hk
    rw [block_append, if_neg]
    have := List.mem_range.mp hk
    omega
  · rw [List.map_singleton, block_append, if_pos ⟨rfl, hsize⟩]

theorem shiftBlocks_fields (count i : ℕ) (inode : FsInode) :
    (shiftBlocks count i inode).type = inode.type ∧
      (shiftBlocks count i inode).owner = inode.owner := by
  induction count generalizing i inode with
  | zero => exact ⟨rfl, rfl⟩
  | succ count ih => exact ih (i + 1) _

theorem shiftBlocks_block (count i : ℕ) (inode : FsInode) (k : ℕ) :
    (shiftBlocks count i inode).block k =
      if i ≤ k ∧ k < i + count then inode.block (k + 1) else inode.block k := by
  induction count generalizing i inode with
  | zero =>
      rw [if_neg (by omega)]
      rfl
  | succ count ih =>
      have hstep : ∀ m, FsInode.block { inode with
          blocks := fun j =>
            if j.val = i then inode.block (i + 1) else inode.blocks j } m =
          if m = i then inode.block (i + 1) else inode.block m := by
        intro m
        unfold FsInode.block
        by_cases hm : m < fsMaxFileBlocks
        · simp only [hm, dif_pos]
        · have hm' : ¬i + 1 < fsMaxFileBlocks ∨ m ≠ i := by
            change ¬m < 124 at hm
            change ¬i + 1 < 124 ∨ m ≠ i
            omega
          rcases hm' with hi | hne
          · simp [hm, hi]
          · simp [hm, hne]
      rw [shiftBlocks, ih, hstep, hstep]
      by_cases hlow : i + 1 ≤ k ∧ k < i + 1 + count
      · rw [if_pos hlow, if_neg (by omega), if_pos (by omega)]
      · rw [if_neg hlow]
        by_cases hki : k = i
        · subst hki
          rw [if_pos rfl, if_pos (by omega)]
        · rw [if_neg hki, if_neg (by omega)]

theorem size_removeBlock
    {inode : FsInode} {k : ℕ} (hk : k < inode.size.toNat) :
    (inode.removeBlock k).size.toNat = inode.size.toNat - 1 := by
  have hle : (1 : UInt32) ≤ inode.size := by
    rw [UInt32.le_iff_toNat_le]
    simp only [UInt32.reduceToNat]
    omega
  simp only [FsInode.removeBlock, UInt32.toNat_sub_of_le _ _ hle, UInt32.reduceToNat]

theorem dataBlocks_removeBlock
    {inode : FsInode} {k : ℕ} (hk : k < inode.size.toNat) :
    (inode.removeBlock k).dataBlocks = inode.dataBlocks.eraseIdx k := by
  have hsize := size_removeBlock hk
  have hsize' : (inode.size - 1).toNat = inode.size.toNat - 1 := hsize
  apply List.ext_getElem
  · rw [List.length_eraseIdx]
    simp only [FsInode.dataBlocks, List.length_map, List.length_range, hsize,
      if_pos hk]
  · intro m hm hm'
    rw [List.getElem_eraseIdx]
    simp only [FsInode.dataBlocks, List.length_map, List.length_range, hsize,
      List.getElem_map, List.getElem_range] at hm ⊢
    have hblock : (inode.removeBlock k).block m =
        (shiftBlocks ((inode.size - 1).toNat - k) k inode).block m := rfl
    rw [hblock, shiftBlocks_block, hsize']
    by_cases hlow : m < k
    · rw [if_neg (by omega), dif_pos hlow]
    · rw [if_pos (by omega), dif_neg hlow]

theorem EditsInode.of_inode
    (hwf : WellFormed disk) (hp : Reach disk p) {inode : FsInode}
    (htype : inode.type = (inodeAt disk p).type)
    (howner : inode.owner = (inodeAt disk p).owner)
    (hsize : inode.size.toNat ≤ fsMaxFileBlocks) :
    EditsInode disk (Function.update disk p (ofInode inode)) p := by
  have hinode : inodeAt (Function.update disk p (ofInode inode)) p = inode := by
    rw [inodeAt, Function.update_self, asInode_ofInode]
  refine ⟨hp, by rw [hinode, htype], by rw [hinode, howner], by rwa [hinode],
    fun b hb hne => ?_⟩
  exact hwf.agree_update_of_ne hb hp hne (Or.inl rfl)

theorem dataBlocks_update_inode (inode : FsInode) :
    dataBlocks (Function.update disk p (ofInode inode)) p =
      inode.dataBlocks := by
  rw [dataBlocks, inodeAt, Function.update_self, asInode_ofInode]

/-- The data blocks of a directory list the same entries after its inode has
been written. -/
theorem flatMap_entriesAt_update_inode
    (hwf : WellFormed disk) (hp : Reach disk p) {blocks : List BlockNo}
    (hblocks : blocks ⊆ dataBlocks disk p) (block : Block) :
    blocks.flatMap (entriesAt (Function.update disk p block)) =
      blocks.flatMap (entriesAt disk) := by
  apply List.flatMap_congr
  intro y hy
  have hyp : y ≠ p := by
    rintro rfl
    exact hwf.inode_notMem_dataBlocks hp hp (hblocks hy)
  rw [entriesAt, entriesAt, Function.update_of_ne hyp]

/-- Create, with a new data block `x` for the directory. -/
theorem addsEntry_in_new_block
    {n : BlockNo} {type : Byte} {user name : Name}
    (hwf : WellFormed disk) (hp : Reach disk p)
    (hdir : (inodeAt disk p).type = dirType)
    (hsize : (inodeAt disk p).size.toNat < fsMaxFileBlocks)
    (hx : Fresh disk x) (hnx : n ≠ x) {entry : FsDirentry}
    (hentries : entriesAt disk x = [entry])
    (hentry : NewEntry disk p entry n name)
    (hinode : NewInode disk n type user) :
    AddsEntry disk
      (Function.update disk p (ofInode ((inodeAt disk p).append x)))
      p entry [x] := by
  have hxp : x ≠ p := by
    rintro rfl
    exact hx.not_reach hp
  have hnp : n ≠ p := by
    rintro rfl
    exact hinode.fresh.not_reach hp
  have hkept : inodeAt (Function.update disk p
      (ofInode ((inodeAt disk p).append x))) entry.inodeBlock =
      inodeAt disk n := by
    rw [hentry.block_eq, inodeAt, Function.update_of_ne hnp, inodeAt]
  have hdata : dataBlocks (Function.update disk p
      (ofInode ((inodeAt disk p).append x))) p = dataBlocks disk p ++ [x] := by
    rw [dataBlocks_update_inode, dataBlocks_append hsize]
    rfl
  have hedit : EditsInode disk (Function.update disk p
      (ofInode ((inodeAt disk p).append x))) p :=
    EditsInode.of_inode hwf hp rfl rfl (by rw [size_append hsize]; omega)
  refine {
    toEditsInode := hedit
    dir := hdir
    dataBlocks := by rw [hdata]; exact List.perm_append_comm
    direntries := ?_
    occupied := ?_
    name_new := ?_
    name_terminated := hentry.terminated
    leaf_size := by rw [hkept, hinode.size_eq]
    leaf_type := by rw [hkept, hinode.type_eq]; exact hinode.type_cases
    leaf_owner := by rw [hkept]; exact hinode.owner_terminated
    fresh_nodup := by rw [hentry.block_eq]; simpa using hnx
    fresh := ?_ }
  · have hsame : entriesAt (Function.update disk p
        (ofInode ((inodeAt disk p).append x))) x = [entry] := by
      rw [entriesAt, Function.update_of_ne hxp, ← hentries, entriesAt]
    rw [direntries, hedit.type, if_pos hdir, hdata, List.flatMap_append,
      List.flatMap_singleton, hsame,
      flatMap_entriesAt_update_inode hwf hp (List.Subset.refl _), direntries,
      if_pos hdir]
    exact List.perm_append_singleton _ _
  · intro hoccupied _ y hy
    rw [hdata] at hy
    rcases List.mem_append.mp hy with hy | hy
    · have hyp : y ≠ p := by
        rintro rfl
        exact hwf.inode_notMem_dataBlocks hp hp hy
      rw [entriesAt, Function.update_of_ne hyp]
      exact hoccupied hdir y hy
    · rw [List.mem_singleton.mp hy, entriesAt, Function.update_of_ne hxp,
        ← entriesAt, hentries]
      exact List.cons_ne_nil _ _
  · intro other hother
    rw [hentry.name_eq]
    exact childOf_eq_none_iff.mp hentry.absent other hother
  · intro y hy
    rw [hentry.block_eq] at hy
    rcases List.mem_cons.mp hy with rfl | hy
    · exact hinode.fresh
    · rw [List.mem_singleton.mp hy]
      exact hx

/-! ## Delete -/

section Delete

variable {k : ℕ} {j : Fin fsDirentries}
variable (hwf : WellFormed disk) (hp : Reach disk p)
variable (hdir : (inodeAt disk p).type = dirType)
variable (hk : k < (inodeAt disk p).size.toNat)
variable (hused : (entryAt disk (inodeAt disk p) k j).inodeBlock ≠ 0)
variable (hleaf : direntries disk
  (entryAt disk (inodeAt disk p) k j).inodeBlock = [])
include hwf hp hdir hk hused hleaf

/-- Delete, with other used entries in the block. -/
theorem removesEntry_from_block
    (hother : ∃ j', j' ≠ j ∧
      (entryAt disk (inodeAt disk p) k j').inodeBlock ≠ 0) :
    RemovesEntry disk
      (Function.update disk ((inodeAt disk p).block k)
        (ofEntries (Function.update
          (asEntries (disk ((inodeAt disk p).block k))) j
          { entryAt disk (inodeAt disk p) k j with inodeBlock := 0 })))
      p (entryAt disk (inodeAt disk p) k j) [] := by
  have hx : (inodeAt disk p).block k ∈ dataBlocks disk p :=
    block_mem_dataBlocks hk
  obtain ⟨rest, hold, hnew⟩ := direntries_write hwf hp hdir hx
    (Function.update (asEntries (disk ((inodeAt disk p).block k))) j
      { entryAt disk (inodeAt disk p) k j with inodeBlock := 0 })
  refine {
    toEditsInode := EditsInode.of_data hwf hp hx _
    dir := hdir
    dataBlocks := by rw [dataBlocks_update_data hwf hp hx]; exact .refl _
    direntries := ?_
    occupied := ?_
    leaf := hleaf }
  · calc
      (direntries disk p).Perm
          (usedEntries (asEntries (disk ((inodeAt disk p).block k))) ++ rest) :=
        hold
      _ |>.Perm ((entryAt disk (inodeAt disk p) k j :: usedEntries _) ++ rest) :=
        List.Perm.append_right rest (usedEntries_clear _ _ hused rfl)
      _ |>.Perm _ := by
        rw [List.cons_append]
        exact List.Perm.cons _ hnew.symm
  · obtain ⟨j', hne, hused'⟩ := hother
    have hmem : entryAt disk (inodeAt disk p) k j' ∈ usedEntries
        (Function.update (asEntries (disk ((inodeAt disk p).block k))) j
          { entryAt disk (inodeAt disk p) k j with inodeBlock := 0 }) := by
      rw [usedEntries, List.mem_filter, List.mem_ofFn]
      exact ⟨⟨j', Function.update_of_ne hne _ _⟩, by simpa using hused'⟩
    exact occupiedAt_update_data hwf hp hx (List.ne_nil_of_mem hmem)

/-- Delete, with the last used entry of the block. -/
theorem removesEntry_with_block
    (honly : ∀ j', j' ≠ j →
      (entryAt disk (inodeAt disk p) k j').inodeBlock = 0) :
    RemovesEntry disk
      (Function.update disk p (ofInode ((inodeAt disk p).removeBlock k)))
      p (entryAt disk (inodeAt disk p) k j) [(inodeAt disk p).block k] := by
  have hdata : dataBlocks (Function.update disk p
      (ofInode ((inodeAt disk p).removeBlock k))) p =
      (dataBlocks disk p).eraseIdx k := by
    rw [dataBlocks_update_inode, dataBlocks_removeBlock hk]
    rfl
  have hlength : k < (dataBlocks disk p).length := by
    rwa [length_dataBlocks]
  have hget : (dataBlocks disk p)[k] = (inodeAt disk p).block k := by
    simp [dataBlocks, FsInode.dataBlocks]
  have hperm : (dataBlocks disk p).Perm
      ((inodeAt disk p).block k :: (dataBlocks disk p).eraseIdx k) := by
    rw [← hget]
    exact (List.getElem_cons_eraseIdx_perm hlength).symm
  have hentries : entriesAt disk ((inodeAt disk p).block k) =
      [entryAt disk (inodeAt disk p) k j] := by
    have hclear := usedEntries_clear
      (asEntries (disk ((inodeAt disk p).block k))) (i := j)
      { entryAt disk (inodeAt disk p) k j with inodeBlock := 0 }
      hused rfl
    have hnone : usedEntries (Function.update
        (asEntries (disk ((inodeAt disk p).block k))) j
        { entryAt disk (inodeAt disk p) k j with inodeBlock := 0 }) = [] := by
      unfold usedEntries
      rw [List.filter_eq_nil_iff]
      intro entry hentry
      obtain ⟨j', rfl⟩ := List.mem_ofFn.mp hentry
      by_cases hj : j' = j
      · subst hj
        simp
      · simpa [Function.update_of_ne hj, entryAt] using honly j' hj
    rw [hnone] at hclear
    exact List.perm_singleton.mp hclear
  have hshift := shiftBlocks_fields
    (((inodeAt disk p).size - 1).toNat - k) k (inodeAt disk p)
  have hedit : EditsInode disk (Function.update disk p
      (ofInode ((inodeAt disk p).removeBlock k))) p := by
    refine EditsInode.of_inode hwf hp hshift.1 hshift.2 ?_
    rw [size_removeBlock hk]
    have := hwf.size_le p hp
    omega
  refine {
    toEditsInode := hedit
    dir := hdir
    dataBlocks := by rw [hdata, List.singleton_append]; exact hperm
    direntries := ?_
    occupied := ?_
    leaf := hleaf }
  · rw [direntries, if_pos hdir, direntries, hedit.type, if_pos hdir, hdata,
      flatMap_entriesAt_update_inode hwf hp List.eraseIdx_subset]
    simpa [hentries] using hperm.flatMap_right (entriesAt disk)
  · intro hoccupied _ y hy
    rw [hdata] at hy
    have hy : y ∈ FileServer.dataBlocks disk p := List.eraseIdx_subset hy
    have hyp : y ≠ p := by
      rintro rfl
      exact hwf.inode_notMem_dataBlocks hp hp hy
    rw [entriesAt, Function.update_of_ne hyp]
    exact hoccupied hdir y hy

end Delete

/-! ## Write -/

section Write

variable (hwf : WellFormed disk) (hp : Reach disk p)
variable (hfile : (inodeAt disk p).type ≠ dirType)
include hwf hp hfile

theorem editsFile_append
    (hsize : (inodeAt disk p).size.toNat < fsMaxFileBlocks)
    (hx : Fresh disk x) :
    EditsFile disk
      (Function.update disk p (ofInode ((inodeAt disk p).append x))) p [x] where
  toEditsInode :=
    EditsInode.of_inode hwf hp rfl rfl (by rw [size_append hsize]; omega)
  file := hfile
  dataBlocks := by
    rw [dataBlocks_update_inode, dataBlocks_append hsize]
    rfl
  fresh_nodup := List.nodup_singleton x
  fresh := by
    intro y hy
    rw [List.mem_singleton.mp hy]
    exact hx

theorem editsFile_overwrite
    (hx : x ∈ dataBlocks disk p) (block : Block) :
    EditsFile disk (Function.update disk x block) p [] where
  toEditsInode := EditsInode.of_data hwf hp hx block
  file := hfile
  dataBlocks := by
    rw [dataBlocks_update_data hwf hp hx, List.append_nil]
  fresh_nodup := List.nodup_nil
  fresh := by simp

end Write

end FileServer
end Eecs482
