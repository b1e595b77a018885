import Eecs482.FileServerDisk

/-!
# What one commit write does to the tree

A commit write changes one reachable inode, or one of its data blocks, and
nothing else in the tree.  Three shapes occur: a directory gains an entry for a
new empty inode, a directory loses the entry of a leaf, a file changes its
blocks.  Each is described once, by how the block and entry lists of the one
inode change; reachability, the path tree, the set of used blocks and
well-formedness all follow.
-/

namespace Eecs482
namespace FileServer

open LabelledWalk

variable {disk disk' : Disk} {p : BlockNo}

/-- Only inode `p` and its data blocks change, and `p` keeps its type and
owner. -/
structure EditsInode (disk disk' : Disk) (p : BlockNo) : Prop where
  reach : Reach disk p
  type : (inodeAt disk' p).type = (inodeAt disk p).type
  owner : (inodeAt disk' p).owner = (inodeAt disk p).owner
  size_le : (inodeAt disk' p).size.toNat ≤ fsMaxFileBlocks
  frame : ∀ b, Reach disk b → b ≠ p → Agree disk disk' b

theorem EditsInode.ownerAt (hedit : EditsInode disk disk' p) :
    FileServer.ownerAt disk' p = FileServer.ownerAt disk p := by
  unfold FileServer.ownerAt
  rw [hedit.owner]

theorem EditsInode.type_eq
    (hedit : EditsInode disk disk' p) {b : BlockNo} (hb : Reach disk b) :
    (inodeAt disk' b).type = (inodeAt disk b).type := by
  by_cases hbp : b = p
  · rw [hbp]
    exact hedit.type
  · rw [(hedit.frame b hb hbp).inodeAt]

theorem EditsInode.owner_eq
    (hedit : EditsInode disk disk' p) {b : BlockNo} (hb : Reach disk b) :
    (inodeAt disk' b).owner = (inodeAt disk b).owner := by
  by_cases hbp : b = p
  · rw [hbp]
    exact hedit.owner
  · rw [(hedit.frame b hb hbp).inodeAt]

theorem EditsInode.size_le_of_reach
    (hedit : EditsInode disk disk' p) (hwf : WellFormed disk)
    {b : BlockNo} (hb : Reach disk b) :
    (inodeAt disk' b).size.toNat ≤ fsMaxFileBlocks := by
  by_cases hbp : b = p
  · rw [hbp]
    exact hedit.size_le
  · rw [(hedit.frame b hb hbp).inodeAt]
    exact hwf.size_le b hb

/-- Only the edited inode can lose its used entries. -/
theorem EditsInode.occupiedAt_of_reach
    (hedit : EditsInode disk disk' p) (hoccupied : Occupied disk)
    (hp : OccupiedAt disk' p) {b : BlockNo} (hb : Reach disk b) :
    OccupiedAt disk' b := by
  by_cases hbp : b = p
  · rw [hbp]
    exact hp
  · exact (hedit.frame b hb hbp).occupiedAt.mpr (hoccupied b hb)

theorem Reach.zero_or_used {b : BlockNo} (hb : Reach disk b) :
    b = 0 ∨ Used disk b := by
  rcases Visits.root_or_child hb with hroot | ⟨parent, name, hparent, hchild⟩
  · exact Or.inl hroot
  · exact Or.inr ⟨parent, hparent, childOf_mem_refs hchild⟩

/-- A lookup depends only on the entries with that name. -/
theorem childOf_congr
    {b : BlockNo} {name : Name}
    (hnames' : ((direntries disk' b).map fun e => cString e.name).Nodup)
    (hsame : ∀ entry, cString entry.name = name →
      (entry ∈ direntries disk' b ↔ entry ∈ direntries disk b)) :
    childOf disk' b name = childOf disk b name := by
  cases hold : childOf disk b name with
  | none =>
      rw [childOf_eq_none_iff] at hold ⊢
      intro entry hentry hname
      exact hold entry ((hsame entry hname).mp hentry) hname
  | some c =>
      obtain ⟨entry, hentry, rfl, rfl⟩ := childOf_eq_some hold
      exact childOf_of_mem hnames' ((hsame entry rfl).mpr hentry)

theorem childOf_eq_none_of_direntries_nil
    {b : BlockNo} (h : direntries disk b = []) (name : Name) :
    childOf disk b name = none := by
  simp [childOf, h]

/-- A size-zero inode refers to nothing. -/
theorem refs_eq_nil_of_size_eq_zero
    {b : BlockNo} (h : (inodeAt disk b).size = 0) :
    dataBlocks disk b = [] ∧ direntries disk b = [] ∧ refs disk b = [] := by
  have hdata : dataBlocks disk b = [] := by
    rw [← List.length_eq_zero_iff, length_dataBlocks, h]
    rfl
  have hentries : direntries disk b = [] := by
    unfold direntries
    rw [hdata]
    split <;> rfl
  exact ⟨hdata, hentries, by rw [refs, hdata, hentries]; rfl⟩

/-! ## A directory gains an entry -/

/-- Directory `p` lists a new entry, its inode is new and empty, and `extra`
are the data blocks the directory has grown by. -/
structure AddsEntry
    (disk disk' : Disk) (p : BlockNo) (entry : FsDirentry)
    (extra : List BlockNo) : Prop extends EditsInode disk disk' p where
  dir : (inodeAt disk p).type = dirType
  dataBlocks : (dataBlocks disk' p).Perm (extra ++ dataBlocks disk p)
  direntries : (direntries disk' p).Perm (entry :: direntries disk p)
  occupied : OccupiedAt disk p → OccupiedAt disk' p
  name_new : ∀ other ∈ FileServer.direntries disk p,
    cString other.name ≠ cString entry.name
  name_terminated : Terminated entry.name
  leaf_size : (inodeAt disk' entry.inodeBlock).size = 0
  leaf_type : (inodeAt disk' entry.inodeBlock).type = dirType ∨
    (inodeAt disk' entry.inodeBlock).type = fileType
  leaf_owner : Terminated (inodeAt disk' entry.inodeBlock).owner
  fresh_nodup : (entry.inodeBlock :: extra).Nodup
  fresh : ∀ x ∈ entry.inodeBlock :: extra,
    x ≠ 0 ∧ x.toNat < fsDiskSize ∧ ¬Used disk x

namespace AddsEntry

variable {entry : FsDirentry} {extra : List BlockNo}
variable (h : AddsEntry disk disk' p entry extra)
include h

theorem leaf_not_reach : ¬Reach disk entry.inodeBlock := by
  intro hreach
  have hfresh := h.fresh entry.inodeBlock List.mem_cons_self
  rcases Reach.zero_or_used hreach with hzero | hused
  · exact hfresh.1 hzero
  · exact hfresh.2.2 hused

theorem leaf_ne : entry.inodeBlock ≠ p := by
  intro heq
  exact h.leaf_not_reach (heq ▸ h.reach)

theorem leaf_direntries : FileServer.direntries disk' entry.inodeBlock = [] :=
  (refs_eq_nil_of_size_eq_zero h.leaf_size).2.1

theorem names_nodup (hwf : WellFormed disk) :
    ((FileServer.direntries disk' p).map fun e => cString e.name).Nodup := by
  rw [(h.direntries.map _).nodup_iff, List.map_cons, List.nodup_cons]
  refine ⟨?_, hwf.names_nodup p h.reach⟩
  intro hmem
  obtain ⟨other, hother, hname⟩ := List.mem_map.mp hmem
  exact h.name_new other hother hname

theorem childOf_new (hwf : WellFormed disk) :
    childOf disk' p (cString entry.name) = some entry.inodeBlock :=
  childOf_of_mem (h.names_nodup hwf) (h.direntries.mem_iff.mpr List.mem_cons_self)

theorem childOf_old :
    childOf disk p (cString entry.name) = none :=
  childOf_eq_none_iff.mpr h.name_new

theorem childOf_other (hwf : WellFormed disk)
    {name : Name} (hname : name ≠ cString entry.name) :
    childOf disk' p name = childOf disk p name := by
  apply childOf_congr (h.names_nodup hwf)
  intro other hother
  rw [h.direntries.mem_iff, List.mem_cons]
  constructor
  · rintro (rfl | hmem)
    · exact absurd hother.symm hname
    · exact hmem
  · exact Or.inr

theorem resolve (hwf : WellFormed disk)
    {path : Path} (hpath : resolve disk path = some p) (word : Path) :
    FileServer.resolve disk' word =
      if word = path ++ [cString entry.name] then some entry.inodeBlock
      else FileServer.resolve disk word := by
  apply walk_insert_leaf hwf.isTree hpath h.childOf_old (h.childOf_new hwf)
  · intro other hother
    exact h.childOf_other hwf hother
  · intro b hb hreach
    exact (h.frame b hreach hb).childOf
  · exact childOf_eq_none_of_direntries_nil h.leaf_direntries

theorem reach_iff (hwf : WellFormed disk) (b : BlockNo) :
    Reach disk' b ↔ Reach disk b ∨ b = entry.inodeBlock := by
  obtain ⟨path, hpath⟩ := h.reach
  constructor
  · rintro ⟨word, hword⟩
    change FileServer.resolve disk' word = some b at hword
    rw [h.resolve hwf hpath] at hword
    split at hword
    · exact Or.inr (Option.some.inj hword).symm
    · exact Or.inl ⟨word, hword⟩
  · rintro (⟨word, hword⟩ | rfl)
    · refine ⟨word, ?_⟩
      change FileServer.resolve disk' word = some b
      rw [h.resolve hwf hpath, if_neg]
      · exact hword
      · rintro rfl
        rw [walk_snoc_of_walk hpath, h.childOf_old] at hword
        cases hword
    · refine ⟨path ++ [cString entry.name], ?_⟩
      change FileServer.resolve disk' _ = _
      rw [h.resolve hwf hpath, if_pos rfl]

theorem refs_perm :
    (refs disk' p).Perm ((entry.inodeBlock :: extra) ++ refs disk p) := by
  unfold refs
  refine (h.dataBlocks.append (h.direntries.map _)).trans ?_
  rw [List.map_cons, List.cons_append, List.append_assoc]
  calc
    (extra ++ (FileServer.dataBlocks disk p ++ entry.inodeBlock ::
        (FileServer.direntries disk p).map FsDirentry.inodeBlock)).Perm
      (extra ++ (entry.inodeBlock :: (FileServer.dataBlocks disk p ++
        (FileServer.direntries disk p).map FsDirentry.inodeBlock))) :=
      List.Perm.append_left _ List.perm_middle
    _ |>.Perm _ := List.perm_middle

theorem refs_of_reach {b : BlockNo} (hb : Reach disk b) (hne : b ≠ p) :
    refs disk' b = refs disk b :=
  (h.frame b hb hne).refs

theorem used_iff (hwf : WellFormed disk) (x : BlockNo) :
    Used disk' x ↔ Used disk x ∨ x ∈ entry.inodeBlock :: extra := by
  constructor
  · rintro ⟨b, hb, hx⟩
    rcases (h.reach_iff hwf b).mp hb with hb | rfl
    · by_cases hbp : b = p
      · subst hbp
        rcases List.mem_append.mp (h.refs_perm.mem_iff.mp hx) with hx | hx
        · exact Or.inr hx
        · exact Or.inl ⟨b, hb, hx⟩
      · rw [h.refs_of_reach hb hbp] at hx
        exact Or.inl ⟨b, hb, hx⟩
    · rw [(refs_eq_nil_of_size_eq_zero h.leaf_size).2.2] at hx
      simp at hx
  · rintro (⟨b, hb, hx⟩ | hx)
    · refine ⟨b, (h.reach_iff hwf b).mpr (Or.inl hb), ?_⟩
      by_cases hbp : b = p
      · subst hbp
        exact h.refs_perm.mem_iff.mpr (List.mem_append_right _ hx)
      · rw [h.refs_of_reach hb hbp]
        exact hx
    · exact ⟨p, (h.reach_iff hwf p).mpr (Or.inl h.reach),
        h.refs_perm.mem_iff.mpr (List.mem_append_left _ hx)⟩

theorem nodeAt_of_reach {b : BlockNo} (hb : Reach disk b) :
    nodeAt disk' b = nodeAt disk b := by
  by_cases hbp : b = p
  · subst hbp
    unfold nodeAt
    rw [h.type, h.toEditsInode.ownerAt, if_pos h.dir, if_pos h.dir]
  · exact (h.frame b hb hbp).nodeAt

theorem treeOf (hwf : WellFormed disk)
    {path : Path} (hpath : FileServer.resolve disk path = some p) :
    treeOf disk' =
      Function.update (treeOf disk) (path ++ [cString entry.name])
        (some (nodeAt disk' entry.inodeBlock)) := by
  funext word
  unfold FileServer.treeOf
  rw [h.resolve hwf hpath]
  by_cases hword : word = path ++ [cString entry.name]
  · subst hword
    simp
  · rw [if_neg hword, Function.update_of_ne hword]
    cases hold : FileServer.resolve disk word with
    | none => rfl
    | some b => simp [h.nodeAt_of_reach ⟨word, hold⟩]

theorem wellFormed (hwf : WellFormed disk) : WellFormed disk' := by
  have hreach := h.reach_iff hwf
  have hleaf := refs_eq_nil_of_size_eq_zero h.leaf_size
  have hfreshRefs : ∀ b, Reach disk b →
      (entry.inodeBlock :: extra).Disjoint (refs disk b) := by
    intro b hb x hx hxb
    exact (h.fresh x hx).2.2 ⟨b, hb, hxb⟩
  have hdisjoint : ∀ b, Reach disk b → b ≠ p →
      (refs disk' p).Disjoint (refs disk' b) := by
    intro b hb hbp x hxp hxb
    rw [h.refs_of_reach hb hbp] at hxb
    rcases List.mem_append.mp (h.refs_perm.mem_iff.mp hxp) with hx | hx
    · exact hfreshRefs b hb hx hxb
    · exact hwf.refs_disjoint p b h.reach hb hbp.symm hx hxb
  constructor
  · rw [h.toEditsInode.type_eq (Reach.root disk)]
    exact hwf.root_dir
  · intro b hb
    rcases (hreach b).mp hb with hb | rfl
    · rw [h.toEditsInode.type_eq hb]
      exact hwf.type_cases b hb
    · exact h.leaf_type
  · intro b hb
    rcases (hreach b).mp hb with hb | rfl
    · exact h.toEditsInode.size_le_of_reach hwf hb
    · simp [h.leaf_size]
  · intro b hb
    rcases (hreach b).mp hb with hb | rfl
    · rw [h.toEditsInode.owner_eq hb]
      exact hwf.owner_terminated b hb
    · exact h.leaf_owner
  · intro b hb other hother
    rcases (hreach b).mp hb with hb | rfl
    · by_cases hbp : b = p
      · subst hbp
        rcases List.mem_cons.mp (h.direntries.mem_iff.mp hother) with rfl | hold
        · exact h.name_terminated
        · exact hwf.name_terminated b hb other hold
      · rw [(h.frame b hb hbp).direntries] at hother
        exact hwf.name_terminated b hb other hother
    · rw [hleaf.2.1] at hother
      simp at hother
  · intro b hb
    rcases (hreach b).mp hb with hb | rfl
    · by_cases hbp : b = p
      · subst hbp
        exact h.names_nodup hwf
      · rw [(h.frame b hb hbp).direntries]
        exact hwf.names_nodup b hb
    · rw [hleaf.2.1]
      simp
  · intro b hb x hx
    rcases (hreach b).mp hb with hb | rfl
    · by_cases hbp : b = p
      · subst hbp
        rcases List.mem_append.mp (h.refs_perm.mem_iff.mp hx) with hx | hx
        · exact ⟨(h.fresh x hx).1, (h.fresh x hx).2.1⟩
        · exact hwf.refs_range b hb x hx
      · rw [h.refs_of_reach hb hbp] at hx
        exact hwf.refs_range b hb x hx
    · rw [hleaf.2.2] at hx
      simp at hx
  · intro b hb
    rcases (hreach b).mp hb with hb | rfl
    · by_cases hbp : b = p
      · subst hbp
        rw [h.refs_perm.nodup_iff]
        exact List.Nodup.append h.fresh_nodup (hwf.refs_nodup b hb)
          (hfreshRefs b hb)
      · rw [h.refs_of_reach hb hbp]
        exact hwf.refs_nodup b hb
    · rw [hleaf.2.2]
      exact List.nodup_nil
  · intro b c hb hc hne
    rcases (hreach b).mp hb with hb | rfl
    · rcases (hreach c).mp hc with hc | rfl
      · by_cases hbp : b = p
        · subst hbp
          exact hdisjoint c hc hne.symm
        · by_cases hcp : c = p
          · subst hcp
            exact List.disjoint_symm (hdisjoint b hb hbp)
          · rw [h.refs_of_reach hb hbp, h.refs_of_reach hc hcp]
            exact hwf.refs_disjoint b c hb hc hne
      · rw [hleaf.2.2]
        exact List.disjoint_nil_right _
    · rw [hleaf.2.2]
      exact List.disjoint_nil_left _

theorem keeps_occupied (hwf : WellFormed disk) (hoccupied : Occupied disk) :
    Occupied disk' := by
  intro b hb
  rcases (h.reach_iff hwf b).mp hb with hb | rfl
  · exact h.toEditsInode.occupiedAt_of_reach hoccupied
      (h.occupied (hoccupied p h.reach)) hb
  · intro _ x hx
    rw [(refs_eq_nil_of_size_eq_zero h.leaf_size).1] at hx
    cases hx

end AddsEntry

/-! ## A directory loses the entry of a leaf -/

/-- Directory `p` no longer lists `entry`, whose inode lists nothing, and
`extra` are the data blocks the directory has shrunk by. -/
structure RemovesEntry
    (disk disk' : Disk) (p : BlockNo) (entry : FsDirentry)
    (extra : List BlockNo) : Prop extends EditsInode disk disk' p where
  dir : (inodeAt disk p).type = dirType
  dataBlocks : (dataBlocks disk p).Perm (extra ++ dataBlocks disk' p)
  direntries : (direntries disk p).Perm (entry :: direntries disk' p)
  occupied : OccupiedAt disk p → OccupiedAt disk' p
  leaf : FileServer.direntries disk entry.inodeBlock = []

namespace RemovesEntry

variable {entry : FsDirentry} {extra : List BlockNo}
variable (h : RemovesEntry disk disk' p entry extra)
include h

theorem entry_mem : entry ∈ FileServer.direntries disk p :=
  h.direntries.mem_iff.mpr List.mem_cons_self

theorem childOf_old (hwf : WellFormed disk) :
    childOf disk p (cString entry.name) = some entry.inodeBlock :=
  childOf_of_mem (hwf.names_nodup p h.reach) h.entry_mem

theorem leaf_reach (hwf : WellFormed disk) : Reach disk entry.inodeBlock :=
  Visits.child h.reach (h.childOf_old hwf)

theorem leaf_ne : entry.inodeBlock ≠ p := by
  intro heq
  have hmem := h.entry_mem
  rw [← heq, h.leaf] at hmem
  simp at hmem

theorem names_nodup_cons (hwf : WellFormed disk) :
    ((entry :: FileServer.direntries disk' p).map
      fun e => cString e.name).Nodup :=
  (h.direntries.map _).nodup_iff.mp (hwf.names_nodup p h.reach)

theorem names_nodup (hwf : WellFormed disk) :
    ((FileServer.direntries disk' p).map fun e => cString e.name).Nodup :=
  (List.nodup_cons.mp (h.names_nodup_cons hwf)).2

theorem childOf_new (hwf : WellFormed disk) :
    childOf disk' p (cString entry.name) = none := by
  rw [childOf_eq_none_iff]
  intro other hother hname
  exact (List.nodup_cons.mp (h.names_nodup_cons hwf)).1
    (List.mem_map.mpr ⟨other, hother, hname⟩)

theorem childOf_other (hwf : WellFormed disk)
    {name : Name} (hname : name ≠ cString entry.name) :
    childOf disk' p name = childOf disk p name := by
  apply childOf_congr (h.names_nodup hwf)
  intro other hother
  rw [h.direntries.mem_iff, List.mem_cons]
  constructor
  · exact Or.inr
  · rintro (rfl | hmem)
    · exact absurd hother.symm hname
    · exact hmem

theorem resolve (hwf : WellFormed disk)
    {path : Path} (hpath : resolve disk path = some p) (word : Path) :
    FileServer.resolve disk' word =
      if word = path ++ [cString entry.name] then none
      else FileServer.resolve disk word := by
  apply walk_erase_leaf hwf.isTree hpath (h.childOf_old hwf)
    (childOf_eq_none_of_direntries_nil h.leaf) (h.childOf_new hwf)
  · intro other hother
    exact h.childOf_other hwf hother
  · intro b hb _ hreach
    exact (h.frame b hreach hb).childOf

theorem reach_iff (hwf : WellFormed disk) (b : BlockNo) :
    Reach disk' b ↔ Reach disk b ∧ b ≠ entry.inodeBlock := by
  obtain ⟨path, hpath⟩ := h.reach
  have hleafPath : FileServer.resolve disk (path ++ [cString entry.name]) =
      some entry.inodeBlock := by
    rw [FileServer.resolve, walk_snoc_of_walk hpath, h.childOf_old hwf]
  constructor
  · rintro ⟨word, hword⟩
    change FileServer.resolve disk' word = some b at hword
    rw [h.resolve hwf hpath] at hword
    split at hword
    · cases hword
    · rename_i hne
      refine ⟨⟨word, hword⟩, ?_⟩
      rintro rfl
      exact hne (hwf.isTree.walk_injective hword hleafPath)
  · rintro ⟨⟨word, hword⟩, hne⟩
    refine ⟨word, ?_⟩
    change FileServer.resolve disk' word = some b
    rw [h.resolve hwf hpath, if_neg]
    · exact hword
    · rintro rfl
      exact hne (Option.some.inj (hword.symm.trans hleafPath))

theorem refs_perm :
    (refs disk p).Perm ((entry.inodeBlock :: extra) ++ refs disk' p) := by
  unfold refs
  refine (h.dataBlocks.append (h.direntries.map _)).trans ?_
  rw [List.map_cons, List.cons_append, List.append_assoc]
  calc
    (extra ++ (FileServer.dataBlocks disk' p ++ entry.inodeBlock ::
        (FileServer.direntries disk' p).map FsDirentry.inodeBlock)).Perm
      (extra ++ (entry.inodeBlock :: (FileServer.dataBlocks disk' p ++
        (FileServer.direntries disk' p).map FsDirentry.inodeBlock))) :=
      List.Perm.append_left _ List.perm_middle
    _ |>.Perm _ := List.perm_middle

theorem refs_of_reach {b : BlockNo} (hb : Reach disk b) (hne : b ≠ p) :
    refs disk' b = refs disk b :=
  (h.frame b hb hne).refs

theorem refs_leaf :
    refs disk entry.inodeBlock =
      FileServer.dataBlocks disk entry.inodeBlock := by
  rw [refs, h.leaf, List.map_nil, List.append_nil]

theorem refs_subset : refs disk' p ⊆ refs disk p := fun _ hx =>
  h.refs_perm.mem_iff.mpr (List.mem_append_right _ hx)

/-- The blocks the removal takes out of the tree. -/
theorem used_iff (hwf : WellFormed disk) (x : BlockNo) :
    Used disk' x ↔ Used disk x ∧
      x ∉ entry.inodeBlock :: extra ++
        FileServer.dataBlocks disk entry.inodeBlock := by
  have hnodup := h.refs_perm.nodup_iff.mp (hwf.refs_nodup p h.reach)
  have hleafReach := h.leaf_reach hwf
  constructor
  · rintro ⟨b, hb, hx⟩
    obtain ⟨hb, hbleaf⟩ := (h.reach_iff hwf b).mp hb
    rw [List.mem_append, not_or]
    by_cases hbp : b = p
    · subst hbp
      refine ⟨⟨b, hb, h.refs_subset hx⟩, fun hmem => ?_, fun hmem => ?_⟩
      · exact List.disjoint_of_nodup_append hnodup hmem hx
      · rw [← h.refs_leaf] at hmem
        exact hwf.refs_disjoint b _ hb hleafReach hbleaf (h.refs_subset hx) hmem
    · rw [h.refs_of_reach hb hbp] at hx
      refine ⟨⟨b, hb, hx⟩, fun hmem => ?_, fun hmem => ?_⟩
      · exact hwf.refs_disjoint b p hb h.reach hbp hx
          (h.refs_perm.mem_iff.mpr (List.mem_append_left _ hmem))
      · rw [← h.refs_leaf] at hmem
        exact hwf.refs_disjoint b _ hb hleafReach hbleaf hx hmem
  · rintro ⟨⟨b, hb, hx⟩, hout⟩
    rw [List.mem_append, not_or] at hout
    have hbleaf : b ≠ entry.inodeBlock := by
      rintro rfl
      rw [h.refs_leaf] at hx
      exact hout.2 hx
    refine ⟨b, (h.reach_iff hwf b).mpr ⟨hb, hbleaf⟩, ?_⟩
    by_cases hbp : b = p
    · subst hbp
      exact (List.mem_append.mp (h.refs_perm.mem_iff.mp hx)).resolve_left hout.1
    · rw [h.refs_of_reach hb hbp]
      exact hx

/-- The blocks the removal takes out are distinct blocks of the old tree. -/
theorem removed_nodup (hwf : WellFormed disk) :
    (entry.inodeBlock :: extra ++
      FileServer.dataBlocks disk entry.inodeBlock).Nodup := by
  have hnodup := h.refs_perm.nodup_iff.mp (hwf.refs_nodup p h.reach)
  have hleafReach := h.leaf_reach hwf
  refine List.Nodup.append (List.nodup_append.mp hnodup).1 ?_ ?_
  · rw [← h.refs_leaf]
    exact hwf.refs_nodup _ hleafReach
  · intro x hx hleaf
    rw [← h.refs_leaf] at hleaf
    exact hwf.refs_disjoint p _ h.reach hleafReach h.leaf_ne.symm
      (h.refs_perm.mem_iff.mpr (List.mem_append_left _ hx)) hleaf

theorem removed_used (hwf : WellFormed disk) :
    ∀ x ∈ entry.inodeBlock :: extra ++
      FileServer.dataBlocks disk entry.inodeBlock, Used disk x := by
  intro x hx
  rcases List.mem_append.mp hx with hx | hx
  · exact ⟨p, h.reach, h.refs_perm.mem_iff.mpr (List.mem_append_left _ hx)⟩
  · exact ⟨entry.inodeBlock, h.leaf_reach hwf,
      dataBlocks_subset_refs disk _ hx⟩

theorem nodeAt_of_reach {b : BlockNo} (hb : Reach disk b) :
    nodeAt disk' b = nodeAt disk b := by
  by_cases hbp : b = p
  · subst hbp
    unfold nodeAt
    rw [h.type, h.toEditsInode.ownerAt, if_pos h.dir, if_pos h.dir]
  · exact (h.frame b hb hbp).nodeAt

theorem treeOf (hwf : WellFormed disk)
    {path : Path} (hpath : FileServer.resolve disk path = some p) :
    treeOf disk' =
      Function.update (treeOf disk) (path ++ [cString entry.name]) none := by
  funext word
  unfold FileServer.treeOf
  rw [h.resolve hwf hpath]
  by_cases hword : word = path ++ [cString entry.name]
  · subst hword
    simp
  · rw [if_neg hword, Function.update_of_ne hword]
    cases hold : FileServer.resolve disk word with
    | none => rfl
    | some b => simp [h.nodeAt_of_reach ⟨word, hold⟩]

theorem wellFormed (hwf : WellFormed disk) : WellFormed disk' := by
  have hreach := h.reach_iff hwf
  have hsubset : ∀ b, Reach disk b → refs disk' b ⊆ refs disk b := by
    intro b hb
    by_cases hbp : b = p
    · subst hbp
      exact h.refs_subset
    · rw [h.refs_of_reach hb hbp]
      exact fun _ hx => hx
  constructor
  · rw [h.toEditsInode.type_eq (Reach.root disk)]
    exact hwf.root_dir
  · intro b hb
    obtain ⟨hb, _⟩ := (hreach b).mp hb
    rw [h.toEditsInode.type_eq hb]
    exact hwf.type_cases b hb
  · intro b hb
    exact h.toEditsInode.size_le_of_reach hwf ((hreach b).mp hb).1
  · intro b hb
    obtain ⟨hb, _⟩ := (hreach b).mp hb
    rw [h.toEditsInode.owner_eq hb]
    exact hwf.owner_terminated b hb
  · intro b hb other hother
    obtain ⟨hb, _⟩ := (hreach b).mp hb
    by_cases hbp : b = p
    · subst hbp
      exact hwf.name_terminated b hb other
        (h.direntries.mem_iff.mpr (List.mem_cons_of_mem _ hother))
    · rw [(h.frame b hb hbp).direntries] at hother
      exact hwf.name_terminated b hb other hother
  · intro b hb
    obtain ⟨hb, _⟩ := (hreach b).mp hb
    by_cases hbp : b = p
    · subst hbp
      exact h.names_nodup hwf
    · rw [(h.frame b hb hbp).direntries]
      exact hwf.names_nodup b hb
  · intro b hb x hx
    obtain ⟨hb, _⟩ := (hreach b).mp hb
    exact hwf.refs_range b hb x (hsubset b hb hx)
  · intro b hb
    obtain ⟨hb, _⟩ := (hreach b).mp hb
    by_cases hbp : b = p
    · subst hbp
      exact (List.nodup_append.mp
        (h.refs_perm.nodup_iff.mp (hwf.refs_nodup b hb))).2.1
    · rw [h.refs_of_reach hb hbp]
      exact hwf.refs_nodup b hb
  · intro b c hb hc hne x hxb hxc
    obtain ⟨hb, _⟩ := (hreach b).mp hb
    obtain ⟨hc, _⟩ := (hreach c).mp hc
    exact hwf.refs_disjoint b c hb hc hne (hsubset b hb hxb) (hsubset c hc hxc)

theorem keeps_occupied (hwf : WellFormed disk) (hoccupied : Occupied disk) :
    Occupied disk' := fun b hb =>
  h.toEditsInode.occupiedAt_of_reach hoccupied
    (h.occupied (hoccupied p h.reach)) ((h.reach_iff hwf b).mp hb).1

end RemovesEntry

/-! ## A file changes its blocks -/

/-- File `p` has grown by the blocks of `extra`; any of its data blocks may
have a new content. -/
structure EditsFile
    (disk disk' : Disk) (p : BlockNo) (extra : List BlockNo) : Prop
    extends EditsInode disk disk' p where
  file : (inodeAt disk p).type ≠ dirType
  dataBlocks : dataBlocks disk' p = dataBlocks disk p ++ extra
  fresh_nodup : extra.Nodup
  fresh : ∀ x ∈ extra, x ≠ 0 ∧ x.toNat < fsDiskSize ∧ ¬Used disk x

namespace EditsFile

variable {extra : List BlockNo}
variable (h : EditsFile disk disk' p extra)
include h

theorem direntries_of_reach {b : BlockNo} (hb : Reach disk b) :
    direntries disk' b = direntries disk b := by
  by_cases hbp : b = p
  · subst hbp
    unfold direntries
    rw [h.type, if_neg h.file, if_neg h.file]
  · exact (h.frame b hb hbp).direntries

theorem resolve (word : Path) :
    FileServer.resolve disk' word = FileServer.resolve disk word := by
  apply walk_congr
  intro b hb
  funext name
  unfold childOf
  rw [h.direntries_of_reach hb]

theorem reach_iff (b : BlockNo) : Reach disk' b ↔ Reach disk b :=
  exists_congr fun path => by
    change FileServer.resolve disk' path = some b ↔
      FileServer.resolve disk path = some b
    rw [h.resolve]

theorem refs_of_reach {b : BlockNo} (hb : Reach disk b) (hne : b ≠ p) :
    refs disk' b = refs disk b :=
  (h.frame b hb hne).refs

theorem refs_perm : (refs disk' p).Perm (extra ++ refs disk p) := by
  unfold refs
  rw [h.dataBlocks, h.direntries_of_reach h.reach, ← List.append_assoc]
  exact List.Perm.append_right _ List.perm_append_comm

theorem used_iff (x : BlockNo) : Used disk' x ↔ Used disk x ∨ x ∈ extra := by
  constructor
  · rintro ⟨b, hb, hx⟩
    have hb := (h.reach_iff b).mp hb
    by_cases hbp : b = p
    · subst hbp
      rcases List.mem_append.mp (h.refs_perm.mem_iff.mp hx) with hx | hx
      · exact Or.inr hx
      · exact Or.inl ⟨b, hb, hx⟩
    · rw [h.refs_of_reach hb hbp] at hx
      exact Or.inl ⟨b, hb, hx⟩
  · rintro (⟨b, hb, hx⟩ | hx)
    · refine ⟨b, (h.reach_iff b).mpr hb, ?_⟩
      by_cases hbp : b = p
      · subst hbp
        exact h.refs_perm.mem_iff.mpr (List.mem_append_right _ hx)
      · rw [h.refs_of_reach hb hbp]
        exact hx
    · exact ⟨p, (h.reach_iff p).mpr h.reach,
        h.refs_perm.mem_iff.mpr (List.mem_append_left _ hx)⟩

theorem nodeAt_self :
    nodeAt disk' p =
      .file (ownerAt disk p) ((FileServer.dataBlocks disk' p).map disk') := by
  unfold nodeAt
  rw [h.type, if_neg h.file, h.toEditsInode.ownerAt]

theorem treeOf (hwf : WellFormed disk)
    {path : Path} (hpath : FileServer.resolve disk path = some p) :
    treeOf disk' =
      Function.update (treeOf disk) path
        (some (.file (ownerAt disk p)
          ((FileServer.dataBlocks disk' p).map disk'))) := by
  funext word
  unfold FileServer.treeOf
  rw [h.resolve]
  by_cases hword : word = path
  · subst hword
    rw [hpath, Function.update_self, Option.map_some, h.nodeAt_self]
  · rw [Function.update_of_ne hword]
    cases hold : FileServer.resolve disk word with
    | none => rfl
    | some b =>
        have hbp : b ≠ p := by
          rintro rfl
          exact hword (hwf.isTree.walk_injective hold hpath)
        simp [(h.frame b ⟨word, hold⟩ hbp).nodeAt]

theorem wellFormed (hwf : WellFormed disk) : WellFormed disk' := by
  have hreach := h.reach_iff
  have hfreshRefs : ∀ b, Reach disk b → extra.Disjoint (refs disk b) := by
    intro b hb x hx hxb
    exact (h.fresh x hx).2.2 ⟨b, hb, hxb⟩
  have hdisjoint : ∀ b, Reach disk b → b ≠ p →
      (refs disk' p).Disjoint (refs disk' b) := by
    intro b hb hbp x hxp hxb
    rw [h.refs_of_reach hb hbp] at hxb
    rcases List.mem_append.mp (h.refs_perm.mem_iff.mp hxp) with hx | hx
    · exact hfreshRefs b hb hx hxb
    · exact hwf.refs_disjoint p b h.reach hb hbp.symm hx hxb
  constructor
  · rw [h.toEditsInode.type_eq (Reach.root disk)]
    exact hwf.root_dir
  · intro b hb
    have hb := (hreach b).mp hb
    rw [h.toEditsInode.type_eq hb]
    exact hwf.type_cases b hb
  · intro b hb
    exact h.toEditsInode.size_le_of_reach hwf ((hreach b).mp hb)
  · intro b hb
    have hb := (hreach b).mp hb
    rw [h.toEditsInode.owner_eq hb]
    exact hwf.owner_terminated b hb
  · intro b hb
    have hb := (hreach b).mp hb
    rw [h.direntries_of_reach hb]
    exact hwf.name_terminated b hb
  · intro b hb
    have hb := (hreach b).mp hb
    rw [h.direntries_of_reach hb]
    exact hwf.names_nodup b hb
  · intro b hb x hx
    have hb := (hreach b).mp hb
    by_cases hbp : b = p
    · subst hbp
      rcases List.mem_append.mp (h.refs_perm.mem_iff.mp hx) with hx | hx
      · exact ⟨(h.fresh x hx).1, (h.fresh x hx).2.1⟩
      · exact hwf.refs_range b hb x hx
    · rw [h.refs_of_reach hb hbp] at hx
      exact hwf.refs_range b hb x hx
  · intro b hb
    have hb := (hreach b).mp hb
    by_cases hbp : b = p
    · subst hbp
      rw [h.refs_perm.nodup_iff]
      exact List.Nodup.append h.fresh_nodup (hwf.refs_nodup b hb)
        (hfreshRefs b hb)
    · rw [h.refs_of_reach hb hbp]
      exact hwf.refs_nodup b hb
  · intro b c hb hc hne
    have hb := (hreach b).mp hb
    have hc := (hreach c).mp hc
    by_cases hbp : b = p
    · subst hbp
      exact hdisjoint c hc hne.symm
    · by_cases hcp : c = p
      · subst hcp
        exact List.disjoint_symm (hdisjoint b hb hbp)
      · rw [h.refs_of_reach hb hbp, h.refs_of_reach hc hcp]
        exact hwf.refs_disjoint b c hb hc hne

theorem keeps_occupied (hoccupied : Occupied disk) : Occupied disk' := by
  intro b hb
  refine h.toEditsInode.occupiedAt_of_reach hoccupied (fun htype => ?_)
    ((h.reach_iff b).mp hb)
  rw [h.type] at htype
  exact absurd htype h.file

end EditsFile

end FileServer
end Eecs482
