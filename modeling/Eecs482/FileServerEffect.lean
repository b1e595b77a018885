import Eecs482.FileServerEdit

/-!
# Commit writes seen from the other handlers

A handler that holds the lock of an inode pins it: it remembers the path of the
inode and the disk image it saw.  The inode and the way down to it look the
same until the lock is released, whatever is committed elsewhere.  `Effect`
collects what a commit write does for all parties: the operation on the path
tree, the blocks that enter and leave the tree, and the pins it keeps.
-/

namespace Eecs482
namespace FileServer

open LabelledWalk

/-- Where a path leads, with the type and owner found there. -/
def trail (disk : Disk) (path : Path) : Option (BlockNo × Byte × Name) :=
  (resolve disk path).map fun b => (b, (inodeAt disk b).type, ownerAt disk b)

/-- An inode of the tree as it was found in `image`. -/
structure Pin where
  path : Path
  block : BlockNo
  image : Disk
  wf : WellFormed image
  resolved : resolve image path = some block

/-- The inode of the pin has not changed, nor the way down to it. -/
structure Pin.Holds (pin : Pin) (disk : Disk) : Prop where
  agree : Agree pin.image disk pin.block
  above : ∀ front, front <+: pin.path → trail disk front = trail pin.image front

theorem trail_eq_some
    {disk : Disk} {path : Path} {b : BlockNo} {type : Byte} {owner : Name}
    (h : trail disk path = some (b, type, owner)) :
    resolve disk path = some b ∧ (inodeAt disk b).type = type ∧
      ownerAt disk b = owner := by
  obtain ⟨c, hc, heq⟩ := Option.map_eq_some_iff.mp h
  simp only [Prod.mk.injEq] at heq
  obtain ⟨rfl, rfl, rfl⟩ := heq
  exact ⟨hc, rfl, rfl⟩

theorem trail_of_resolve
    {disk : Disk} {path : Path} {b : BlockNo}
    (h : resolve disk path = some b) :
    trail disk path = some (b, (inodeAt disk b).type, ownerAt disk b) := by
  simp [trail, h]

/-- A directory of the path tree shows in the trail. -/
theorem treeOf_eq_dir_iff
    {disk : Disk} {path : Path} {owner : Name} :
    treeOf disk path = some (.dir owner) ↔
      ∃ b, trail disk path = some (b, dirType, owner) := by
  constructor
  · intro h
    obtain ⟨b, hb, hnode⟩ := Option.map_eq_some_iff.mp h
    unfold nodeAt at hnode
    split at hnode
    · rename_i htype
      cases hnode
      exact ⟨b, by rw [trail_of_resolve hb, htype]⟩
    · cases hnode
  · rintro ⟨b, hb⟩
    obtain ⟨hresolve, htype, rfl⟩ := trail_eq_some hb
    simp [treeOf, hresolve, nodeAt, htype]

theorem treeOf_eq_dir_of_trail_eq
    {disk disk' : Disk} {path : Path}
    (h : trail disk' path = trail disk path) {owner : Name} :
    treeOf disk' path = some (.dir owner) ↔
      treeOf disk path = some (.dir owner) := by
  rw [treeOf_eq_dir_iff, treeOf_eq_dir_iff, h]

namespace Pin

variable {pin : Pin} {disk disk' : Disk}

theorem reach (pin : Pin) : Reach pin.image pin.block :=
  ⟨pin.path, pin.resolved⟩

theorem Holds.resolve (h : pin.Holds disk) :
    FileServer.resolve disk pin.path = some pin.block := by
  have htrail := h.above pin.path (List.prefix_refl _)
  rw [trail_of_resolve pin.resolved] at htrail
  exact (trail_eq_some htrail).1

theorem Holds.reach (h : pin.Holds disk) : Reach disk pin.block :=
  ⟨pin.path, h.resolve⟩

theorem Holds.ownedAbove
    (h : pin.Holds disk) {user : Name}
    (howned : (treeOf pin.image).OwnedAbove user pin.path) :
    (treeOf disk).OwnedAbove user pin.path := by
  intro front hpre hroot hself
  rw [treeOf_eq_dir_of_trail_eq (h.above front hpre)]
  exact howned front hpre hroot hself

/-- Pin an inode of the current image. -/
def ofResolve
    (path : Path) (b : BlockNo) (disk : Disk) (hwf : WellFormed disk)
    (hresolve : FileServer.resolve disk path = some b) : Pin where
  path := path
  block := b
  image := disk
  wf := hwf
  resolved := hresolve

theorem holds_image (pin : Pin) : pin.Holds pin.image :=
  ⟨Agree.refl _ _, fun _ _ => rfl⟩

end Pin

/-- Every pin on inode `b` survives the change. -/
def Steady (disk disk' : Disk) (b : BlockNo) : Prop :=
  Agree disk disk' b ∧ ∀ path, resolve disk path = some b →
    ∀ front, front <+: path → trail disk' front = trail disk front

theorem Pin.Holds.steady
    {pin : Pin} {disk disk' : Disk} (h : pin.Holds disk)
    (hsteady : Steady disk disk' pin.block) : pin.Holds disk' := by
  refine ⟨h.agree.trans hsteady.1, fun front hpre => ?_⟩
  rw [hsteady.2 pin.path h.resolve front hpre, h.above front hpre]

/-- A change that keeps the way down to `b` and all types and owners on it is
steady there. -/
theorem Steady.of_resolve
    {disk disk' : Disk} {b : BlockNo} (hagree : Agree disk disk' b)
    (hresolve : ∀ path front, resolve disk path = some b → front <+: path →
      resolve disk' front = resolve disk front)
    (htype : ∀ c, Reach disk c →
      (inodeAt disk' c).type = (inodeAt disk c).type)
    (howner : ∀ c, Reach disk c →
      (inodeAt disk' c).owner = (inodeAt disk c).owner) :
    Steady disk disk' b := by
  refine ⟨hagree, fun path hpath front hpre => ?_⟩
  obtain ⟨c, hc⟩ := walk_prefix_isSome hpre hpath
  have hc : resolve disk front = some c := hc
  unfold trail ownerAt
  rw [hresolve path front hpath hpre, hc, Option.map_some, Option.map_some,
    htype c ⟨front, hc⟩, howner c ⟨front, hc⟩]

/-- Writing outside the tree is steady everywhere. -/
theorem steady_of_agree
    {disk disk' : Disk} (hagree : ∀ b, Reach disk b → Agree disk disk' b)
    {b : BlockNo} (hb : Reach disk b) : Steady disk disk' b := by
  apply Steady.of_resolve (hagree b hb)
  · intro path front _ _
    exact resolve_of_agree hagree front
  · intro c hc
    rw [(hagree c hc).inodeAt]
  · intro c hc
    rw [(hagree c hc).inodeAt]

/-- What a commit write at inode `p` means. -/
structure Effect
    (disk disk' : Disk) (p : BlockNo) (op : FsOp)
    (attached detached : List BlockNo) : Prop where
  wf : WellFormed disk'
  occupied : Occupied disk → Occupied disk'
  applies : op.Applies (treeOf disk) none (treeOf disk')
  used : ∀ x, Used disk' x ↔
    (Used disk x ∨ x ∈ attached) ∧ x ∉ detached
  attached_fresh : ∀ x ∈ attached, ¬Used disk x
  detached_nodup : detached.Nodup
  detached_used : ∀ x ∈ detached, Used disk x
  reach : ∀ b, Reach disk b → Reach disk' b ∨ b ∈ detached
  steady : ∀ b, Reach disk b → b ≠ p → b ∉ detached → Steady disk disk' b
  entries : ∀ b, Reach disk b → ∀ entry ∈ direntries disk b,
    resolve disk op.path ≠ some entry.inodeBlock → entry ∈ direntries disk' b

/-- Only the edited directory can lose entries. -/
theorem EditsInode.mem_direntries
    {disk disk' : Disk} {p : BlockNo} (h : EditsInode disk disk' p)
    {entry : FsDirentry}
    (hedited : entry ∈ direntries disk p → entry ∈ direntries disk' p)
    {b : BlockNo} (hb : Reach disk b) (hentry : entry ∈ direntries disk b) :
    entry ∈ direntries disk' b := by
  by_cases hbp : b = p
  · subst hbp
    exact hedited hentry
  · rwa [(h.frame b hb hbp).direntries]

theorem Effect.of_addsEntry
    {disk disk' : Disk} {p : BlockNo} {entry : FsDirentry}
    {extra : List BlockNo} {op : FsOp}
    (h : AddsEntry disk disk' p entry extra) (hwf : WellFormed disk)
    (happlies : op.Applies (treeOf disk) none (treeOf disk')) :
    Effect disk disk' p op (entry.inodeBlock :: extra) [] := by
  obtain ⟨path, hpath⟩ := h.reach
  refine ⟨h.wellFormed hwf, h.keeps_occupied hwf, happlies, fun x => ?_,
    fun x hx => (h.fresh x hx).2.2,
    List.nodup_nil, by simp, fun b hb => ?_, fun b hb hne _ => ?_,
    fun b hb entry hentry _ => ?_⟩
  · rw [h.used_iff hwf]
    simp
  · exact Or.inl ((h.reach_iff hwf b).mpr (Or.inl hb))
  · apply Steady.of_resolve (h.frame b hb hne)
    · intro word front hword hpre
      rw [h.resolve hwf hpath, if_neg]
      rintro rfl
      obtain ⟨c, hc⟩ := walk_prefix_isSome hpre hword
      rw [walk_snoc_of_walk hpath, h.childOf_old] at hc
      cases hc
    · exact fun c => h.toEditsInode.type_eq
    · exact fun c => h.toEditsInode.owner_eq
  · exact h.toEditsInode.mem_direntries
      (fun hmem => h.direntries.mem_iff.mpr (List.mem_cons_of_mem _ hmem)) hb hentry

theorem Effect.of_removesEntry
    {disk disk' : Disk} {p : BlockNo} {entry : FsDirentry}
    {extra detached : List BlockNo} {op : FsOp}
    (h : RemovesEntry disk disk' p entry extra) (hwf : WellFormed disk)
    (hdetached : detached.Perm
      (entry.inodeBlock :: extra ++ dataBlocks disk entry.inodeBlock))
    (htarget : resolve disk op.path = some entry.inodeBlock)
    (happlies : op.Applies (treeOf disk) none (treeOf disk')) :
    Effect disk disk' p op [] detached := by
  obtain ⟨path, hpath⟩ := h.reach
  have hleaf : entry.inodeBlock ∈ detached :=
    hdetached.mem_iff.mpr (by simp)
  refine ⟨h.wellFormed hwf, h.keeps_occupied hwf, happlies, fun x => ?_, by simp,
    hdetached.nodup_iff.mpr (h.removed_nodup hwf),
    fun x hx => h.removed_used hwf x (hdetached.mem_iff.mp hx),
    fun b hb => ?_, fun b hb hne hout => ?_, fun b hb other hother hpath => ?_⟩
  · rw [h.used_iff hwf, hdetached.mem_iff]
    simp
  · by_cases hb' : b = entry.inodeBlock
    · exact Or.inr (hb' ▸ hleaf)
    · exact Or.inl ((h.reach_iff hwf b).mpr ⟨hb, hb'⟩)
  · apply Steady.of_resolve (h.frame b hb hne)
    · intro word front hword hpre
      rw [h.resolve hwf hpath, if_neg]
      rintro rfl
      have hfront : resolve disk (path ++ [cString entry.name]) =
          some entry.inodeBlock := by
        rw [resolve, walk_snoc_of_walk hpath, h.childOf_old hwf]
      obtain ⟨rest, rfl⟩ := hpre
      cases rest with
      | nil =>
          rw [List.append_nil, hfront] at hword
          exact hout (Option.some.inj hword ▸ hleaf)
      | cons name rest =>
          have hpre : path ++ [cString entry.name] ++ [name] <+:
              path ++ [cString entry.name] ++ name :: rest := by
            simp
          obtain ⟨c, hc⟩ := walk_prefix_isSome hpre hword
          rw [walk_snoc_of_walk hfront,
            childOf_eq_none_of_direntries_nil h.leaf] at hc
          cases hc
    · exact fun c => h.toEditsInode.type_eq
    · exact fun c => h.toEditsInode.owner_eq
  · refine h.toEditsInode.mem_direntries (fun hmem => ?_) hb hother
    rcases List.mem_cons.mp (h.direntries.mem_iff.mp hmem) with rfl | hmem
    · exact absurd htarget hpath
    · exact hmem

theorem Effect.of_editsFile
    {disk disk' : Disk} {p : BlockNo} {extra : List BlockNo} {op : FsOp}
    (h : EditsFile disk disk' p extra) (hwf : WellFormed disk)
    (happlies : op.Applies (treeOf disk) none (treeOf disk')) :
    Effect disk disk' p op extra [] := by
  refine ⟨h.wellFormed hwf, h.keeps_occupied, happlies, fun x => ?_,
    fun x hx => (h.fresh x hx).2.2,
    List.nodup_nil, by simp, fun b hb => ?_, fun b hb hne _ => ?_,
    fun b hb entry hentry _ => ?_⟩
  · rw [h.used_iff]
    simp
  · exact Or.inl ((h.reach_iff b).mpr hb)
  · apply Steady.of_resolve (h.frame b hb hne)
    · intro word front _ _
      exact h.resolve front
    · exact fun c => h.toEditsInode.type_eq
    · exact fun c => h.toEditsInode.owner_eq
  · rwa [h.direntries_of_reach hb]

end FileServer
end Eecs482
