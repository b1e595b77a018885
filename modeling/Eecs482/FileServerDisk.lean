import Eecs482.FileServerTree
import Eecs482.LabelledWalk
import Mathlib.Data.List.Nodup
import Mathlib.Data.List.Perm.Basic

/-!
# Disk images and the trees they denote

A disk image is read as a graph: an inode refers to its data blocks and, when
it is a directory, its used direntries refer to further inodes by name.  The
path tree of the image is what walking these names from inode 0 finds.  An
image is well formed when the walk visits a tree: every block is referred to at
most once.
-/

namespace Eecs482
namespace FileServer

open LabelledWalk

abbrev Disk := BlockNo → Block

/-- `inode.blocks[i]`. -/
def FsInode.block (inode : FsInode) (i : ℕ) : BlockNo :=
  if h : i < fsMaxFileBlocks then inode.blocks ⟨i, h⟩ else 0

/-- The first `size` blocks of an inode. -/
def FsInode.dataBlocks (inode : FsInode) : List BlockNo :=
  (List.range inode.size.toNat).map inode.block

def inodeAt (disk : Disk) (b : BlockNo) : FsInode :=
  asInode (disk b)

def dataBlocks (disk : Disk) (b : BlockNo) : List BlockNo :=
  (inodeAt disk b).dataBlocks

def ownerAt (disk : Disk) (b : BlockNo) : Name :=
  cString (inodeAt disk b).owner

/-- The used direntries of one directory data block, in order. -/
def entriesAt (disk : Disk) (block : BlockNo) : List FsDirentry :=
  (List.ofFn (asEntries (disk block))).filter (·.inodeBlock ≠ 0)

/-- The used direntries of a directory, in the order they are scanned. -/
def direntries (disk : Disk) (b : BlockNo) : List FsDirentry :=
  if (inodeAt disk b).type = dirType then
    (dataBlocks disk b).flatMap (entriesAt disk)
  else []

/-- The inode a directory lists under a name. -/
def childOf (disk : Disk) (b : BlockNo) (name : Name) : Option BlockNo :=
  ((direntries disk b).find? fun entry => cString entry.name = name).map
    FsDirentry.inodeBlock

/-- All blocks an inode refers to: its data blocks and the inodes it lists. -/
def refs (disk : Disk) (b : BlockNo) : List BlockNo :=
  dataBlocks disk b ++ (direntries disk b).map FsDirentry.inodeBlock

/-- The inode a path names. -/
def resolve (disk : Disk) (path : Path) : Option BlockNo :=
  walk (childOf disk) 0 path

/-- The inode can be reached from inode 0. -/
def Reach (disk : Disk) (b : BlockNo) : Prop :=
  Visits (childOf disk) 0 b

/-- The block is an inode, directory data block or file data block of the tree
below inode 0. -/
def Used (disk : Disk) (x : BlockNo) : Prop :=
  ∃ b, Reach disk b ∧ x ∈ refs disk b

def nodeAt (disk : Disk) (b : BlockNo) : Node :=
  if (inodeAt disk b).type = dirType then .dir (ownerAt disk b)
  else .file (ownerAt disk b) ((dataBlocks disk b).map disk)

/-- The path tree read off a disk image. -/
def treeOf (disk : Disk) : PathTree := fun path =>
  (resolve disk path).map (nodeAt disk)

/-- A disk image that holds a file system. -/
structure WellFormed (disk : Disk) : Prop where
  root_dir : (inodeAt disk 0).type = dirType
  type_cases : ∀ b, Reach disk b →
    (inodeAt disk b).type = dirType ∨ (inodeAt disk b).type = fileType
  size_le : ∀ b, Reach disk b →
    (inodeAt disk b).size.toNat ≤ fsMaxFileBlocks
  owner_terminated : ∀ b, Reach disk b → Terminated (inodeAt disk b).owner
  name_terminated : ∀ b, Reach disk b → ∀ entry ∈ direntries disk b,
    Terminated entry.name
  names_nodup : ∀ b, Reach disk b →
    ((direntries disk b).map fun entry => cString entry.name).Nodup
  refs_range : ∀ b, Reach disk b → ∀ x ∈ refs disk b,
    x ≠ 0 ∧ x.toNat < fsDiskSize
  refs_nodup : ∀ b, Reach disk b → (refs disk b).Nodup
  refs_disjoint : ∀ b c, Reach disk b → Reach disk c → b ≠ c →
    (refs disk b).Disjoint (refs disk c)

/-- Every data block of the directory at `b` has a used entry. -/
def OccupiedAt (disk : Disk) (b : BlockNo) : Prop :=
  (inodeAt disk b).type = dirType →
    ∀ x ∈ dataBlocks disk b, entriesAt disk x ≠ []

/-- No directory data block is empty. -/
def Occupied (disk : Disk) : Prop :=
  ∀ b, Reach disk b → OccupiedAt disk b

@[simp] theorem length_dataBlocks (disk : Disk) (b : BlockNo) :
    (dataBlocks disk b).length = (inodeAt disk b).size.toNat := by
  simp [dataBlocks, FsInode.dataBlocks]

theorem dataBlocks_subset_refs (disk : Disk) (b : BlockNo) :
    dataBlocks disk b ⊆ refs disk b :=
  List.subset_append_left _ _

theorem Reach.root (disk : Disk) : Reach disk 0 :=
  visits_root _ _

/-! ## Looking a name up -/

theorem childOf_eq_some
    {disk : Disk} {b c : BlockNo} {name : Name}
    (h : childOf disk b name = some c) :
    ∃ entry ∈ direntries disk b, cString entry.name = name ∧
      entry.inodeBlock = c := by
  obtain ⟨entry, hfind, hblock⟩ := Option.map_eq_some_iff.mp h
  exact ⟨entry, List.mem_of_find?_eq_some hfind,
    by simpa using List.find?_some hfind, hblock⟩

theorem childOf_eq_none_iff
    {disk : Disk} {b : BlockNo} {name : Name} :
    childOf disk b name = none ↔
      ∀ entry ∈ direntries disk b, cString entry.name ≠ name := by
  simp [childOf, List.find?_eq_none]

/-- Unique names make the first match the only one. -/
theorem childOf_of_mem
    {disk : Disk} {b : BlockNo} {entry : FsDirentry}
    (hnames : ((direntries disk b).map fun e => cString e.name).Nodup)
    (hmem : entry ∈ direntries disk b) :
    childOf disk b (cString entry.name) = some entry.inodeBlock := by
  cases hfind : (direntries disk b).find?
      (fun e => cString e.name = cString entry.name) with
  | none =>
      have := List.find?_eq_none.mp hfind entry hmem
      simp at this
  | some found =>
      have hfound := List.mem_of_find?_eq_some hfind
      have hname : cString found.name = cString entry.name := by
        simpa using List.find?_some hfind
      have heq := List.inj_on_of_nodup_map hnames hfound hmem hname
      simp [childOf, hfind, heq]

theorem childOf_mem_refs
    {disk : Disk} {b c : BlockNo} {name : Name}
    (h : childOf disk b name = some c) : c ∈ refs disk b := by
  obtain ⟨entry, hmem, _, rfl⟩ := childOf_eq_some h
  exact List.mem_append_right _ (List.mem_map_of_mem hmem)

theorem childOf_mem_childBlocks
    {disk : Disk} {b c : BlockNo} {name : Name}
    (h : childOf disk b name = some c) :
    c ∈ (direntries disk b).map FsDirentry.inodeBlock := by
  obtain ⟨entry, hmem, _, rfl⟩ := childOf_eq_some h
  exact List.mem_map_of_mem hmem

theorem isDir_of_mem_direntries
    {disk : Disk} {b : BlockNo} {entry : FsDirentry}
    (h : entry ∈ direntries disk b) : (inodeAt disk b).type = dirType := by
  unfold direntries at h
  split at h
  · assumption
  · simp at h

/-! ## The tree of a well-formed image -/

theorem WellFormed.isTree {disk : Disk} (hwf : WellFormed disk) :
    IsTree (childOf disk) 0 := by
  refine ⟨fun b name hb hchild => ?_, fun b name b' name' c hb hb' h h' => ?_⟩
  · exact (hwf.refs_range b hb 0 (childOf_mem_refs hchild)).1 rfl
  · have hbb : b = b' := by
      by_contra hne
      exact hwf.refs_disjoint b b' hb hb' hne (childOf_mem_refs h)
        (childOf_mem_refs h')
    subst hbb
    obtain ⟨entry, hmem, rfl, rfl⟩ := childOf_eq_some h
    obtain ⟨entry', hmem', rfl, heq⟩ := childOf_eq_some h'
    have hnodup := (List.nodup_append.mp (hwf.refs_nodup b hb)).2.1
    have := List.inj_on_of_nodup_map hnodup hmem' hmem heq
    exact ⟨rfl, by rw [this]⟩

/-- A reachable inode is not a data block of the tree. -/
theorem WellFormed.inode_notMem_dataBlocks
    {disk : Disk} (hwf : WellFormed disk) {b c : BlockNo}
    (hb : Reach disk b) (hc : Reach disk c) : b ∉ dataBlocks disk c := by
  intro hmem
  rcases Visits.root_or_child hb with rfl | ⟨parent, name, hparent, hchild⟩
  · exact (hwf.refs_range c hc 0 (dataBlocks_subset_refs disk c hmem)).1 rfl
  · have heq : parent = c := by
      by_contra hne
      exact hwf.refs_disjoint parent c hparent hc hne (childOf_mem_refs hchild)
        (dataBlocks_subset_refs disk c hmem)
    subst heq
    have hnodup := hwf.refs_nodup parent hparent
    exact List.disjoint_of_nodup_append hnodup hmem
      (childOf_mem_childBlocks hchild)

/-! ## Images which agree on an inode -/

/-- The images have the same inode `b` and the same contents of its data
blocks. -/
def Agree (disk disk' : Disk) (b : BlockNo) : Prop :=
  disk' b = disk b ∧ ∀ x ∈ dataBlocks disk b, disk' x = disk x

namespace Agree

variable {disk disk' disk'' : Disk} {b : BlockNo}

theorem refl (disk : Disk) (b : BlockNo) : Agree disk disk b :=
  ⟨rfl, fun _ _ => rfl⟩

theorem inodeAt (h : Agree disk disk' b) :
    FileServer.inodeAt disk' b = FileServer.inodeAt disk b := by
  unfold FileServer.inodeAt
  rw [h.1]

theorem dataBlocks (h : Agree disk disk' b) :
    FileServer.dataBlocks disk' b = FileServer.dataBlocks disk b := by
  unfold FileServer.dataBlocks
  rw [h.inodeAt]

theorem trans (h : Agree disk disk' b) (h' : Agree disk' disk'' b) :
    Agree disk disk'' b := by
  refine ⟨h'.1.trans h.1, fun x hx => ?_⟩
  rw [h'.2 x (by rw [h.dataBlocks]; exact hx), h.2 x hx]

theorem symm (h : Agree disk disk' b) : Agree disk' disk b := by
  refine ⟨h.1.symm, fun x hx => ?_⟩
  rw [h.dataBlocks] at hx
  exact (h.2 x hx).symm

theorem ownerAt (h : Agree disk disk' b) :
    FileServer.ownerAt disk' b = FileServer.ownerAt disk b := by
  unfold FileServer.ownerAt
  rw [h.inodeAt]

theorem direntries (h : Agree disk disk' b) :
    FileServer.direntries disk' b = FileServer.direntries disk b := by
  unfold FileServer.direntries
  rw [h.inodeAt, h.dataBlocks]
  split
  · apply List.flatMap_congr
    intro x hx
    unfold entriesAt
    rw [h.2 x hx]
  · rfl

theorem childOf (h : Agree disk disk' b) :
    FileServer.childOf disk' b = FileServer.childOf disk b := by
  funext name
  unfold FileServer.childOf
  rw [h.direntries]

theorem refs (h : Agree disk disk' b) :
    FileServer.refs disk' b = FileServer.refs disk b := by
  unfold FileServer.refs
  rw [h.dataBlocks, h.direntries]

theorem nodeAt (h : Agree disk disk' b) :
    FileServer.nodeAt disk' b = FileServer.nodeAt disk b := by
  unfold FileServer.nodeAt
  rw [h.inodeAt, h.ownerAt, h.dataBlocks]
  congr 2
  apply List.map_congr_left
  intro x hx
  exact h.2 x hx

theorem occupiedAt (h : Agree disk disk' b) :
    FileServer.OccupiedAt disk' b ↔ FileServer.OccupiedAt disk b := by
  unfold FileServer.OccupiedAt
  rw [h.inodeAt, h.dataBlocks]
  refine imp_congr_right fun _ => forall₂_congr fun x hx => ?_
  rw [entriesAt, h.2 x hx, entriesAt]

end Agree

/-- Writing a block that is neither the inode nor one of its data blocks. -/
theorem agree_update
    {disk : Disk} {b x : BlockNo} {block : Block}
    (hinode : x ≠ b) (hdata : x ∉ dataBlocks disk b) :
    Agree disk (Function.update disk x block) b := by
  refine ⟨Function.update_of_ne hinode.symm _ _, fun y hy => ?_⟩
  exact Function.update_of_ne (by rintro rfl; exact hdata hy) _ _

/-- Distinct inodes of the tree have no block in common. -/
theorem WellFormed.agree_update_of_ne
    {disk : Disk} (hwf : WellFormed disk) {b c x : BlockNo} {block : Block}
    (hb : Reach disk b) (hc : Reach disk c) (hne : b ≠ c)
    (hx : x = c ∨ x ∈ dataBlocks disk c) :
    Agree disk (Function.update disk x block) b := by
  rcases hx with rfl | hx
  · exact agree_update hne.symm (hwf.inode_notMem_dataBlocks hc hb)
  · refine agree_update ?_ fun hmem => ?_
    · rintro rfl
      exact hwf.inode_notMem_dataBlocks hb hc hx
    · exact hwf.refs_disjoint b c hb hc hne (dataBlocks_subset_refs disk b hmem)
        (dataBlocks_subset_refs disk c hx)

/-- Writing a block outside the tree leaves every reachable inode alone. -/
theorem agree_update_of_not_used
    {disk : Disk} {b x : BlockNo} {block : Block}
    (hb : Reach disk b) (hzero : x ≠ 0) (hx : ¬Used disk x) :
    Agree disk (Function.update disk x block) b := by
  apply agree_update
  · rintro rfl
    rcases Visits.root_or_child hb with rfl | ⟨parent, name, hparent, hchild⟩
    · exact hzero rfl
    · exact hx ⟨parent, hparent, childOf_mem_refs hchild⟩
  · intro hmem
    exact hx ⟨b, hb, dataBlocks_subset_refs disk b hmem⟩

/-! ## Images which agree on the whole tree -/

section SameTree

variable {disk disk' : Disk} (hagree : ∀ b, Reach disk b → Agree disk disk' b)
include hagree

theorem resolve_of_agree (path : Path) :
    resolve disk' path = resolve disk path :=
  walk_congr (fun b hb => (hagree b hb).childOf) path

theorem reach_of_agree (b : BlockNo) : Reach disk' b ↔ Reach disk b :=
  exists_congr fun path => by
    change resolve disk' path = some b ↔ resolve disk path = some b
    rw [resolve_of_agree hagree]

theorem used_of_agree (x : BlockNo) : Used disk' x ↔ Used disk x := by
  refine exists_congr fun b => ?_
  rw [reach_of_agree hagree]
  refine and_congr_right fun hb => ?_
  rw [(hagree b hb).refs]

theorem treeOf_of_agree : treeOf disk' = treeOf disk := by
  funext path
  unfold treeOf
  rw [resolve_of_agree hagree]
  cases hpath : resolve disk path with
  | none => rfl
  | some b => simp [(hagree b ⟨path, hpath⟩).nodeAt]

theorem occupied_of_agree (hoccupied : Occupied disk) : Occupied disk' := by
  intro b hb
  have hb := (reach_of_agree hagree b).mp hb
  exact (hagree b hb).occupiedAt.mpr (hoccupied b hb)

theorem wellFormed_of_agree (hwf : WellFormed disk) : WellFormed disk' := by
  have hreach := reach_of_agree hagree
  constructor
  · rw [(hagree 0 (Reach.root disk)).inodeAt]
    exact hwf.root_dir
  · intro b hb
    rw [(hagree b ((hreach b).mp hb)).inodeAt]
    exact hwf.type_cases b ((hreach b).mp hb)
  · intro b hb
    rw [(hagree b ((hreach b).mp hb)).inodeAt]
    exact hwf.size_le b ((hreach b).mp hb)
  · intro b hb
    rw [(hagree b ((hreach b).mp hb)).inodeAt]
    exact hwf.owner_terminated b ((hreach b).mp hb)
  · intro b hb
    rw [(hagree b ((hreach b).mp hb)).direntries]
    exact hwf.name_terminated b ((hreach b).mp hb)
  · intro b hb
    rw [(hagree b ((hreach b).mp hb)).direntries]
    exact hwf.names_nodup b ((hreach b).mp hb)
  · intro b hb
    rw [(hagree b ((hreach b).mp hb)).refs]
    exact hwf.refs_range b ((hreach b).mp hb)
  · intro b hb
    rw [(hagree b ((hreach b).mp hb)).refs]
    exact hwf.refs_nodup b ((hreach b).mp hb)
  · intro b c hb hc hne
    rw [(hagree b ((hreach b).mp hb)).refs, (hagree c ((hreach c).mp hc)).refs]
    exact hwf.refs_disjoint b c ((hreach b).mp hb) ((hreach c).mp hc) hne

end SameTree

end FileServer
end Eecs482
