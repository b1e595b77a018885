import Eecs482.FileServerLookup
import Mathlib.Data.List.Pairwise

/-!
# Building the list of free blocks

`init_free_blocks` walks the directories of the image breadth first and removes
every block it meets from the set of all blocks.  On a well-formed image the
walk ends, and what is left are the blocks outside the tree.
-/

namespace Eecs482
namespace FileServer

/-- The blocks 1 to `FS_DISKSIZE - 1`, in increasing order. -/
def allBlocks : List BlockNo :=
  (List.range (fsDiskSize - 1)).map fun k => UInt32.ofNat (k + 1)

/-- What the walk does with the direntries of one block: the queue of
directory blocks to visit and the blocks that may be free. -/
def initEntries (disk : Disk) :
    List FsDirentry → List BlockNo → List BlockNo →
      List BlockNo × List BlockNo
  | [], queue, all => (queue, all)
  | entry :: rest, queue, all =>
      if entry.inodeBlock = 0 then initEntries disk rest queue all
      else
        let all := all.erase entry.inodeBlock
        let inode := inodeAt disk entry.inodeBlock
        if inode.type = fileType then
          initEntries disk rest queue (all.diff inode.dataBlocks)
        else if inode.type = dirType then
          initEntries disk rest (queue ++ inode.dataBlocks) all
        else initEntries disk rest queue all

/-- The loop over the queue of directory blocks; `none` when the fuel does not
reach to its end. -/
def initLoop (disk : Disk) :
    (fuel : ℕ) → List BlockNo → List BlockNo → Option (List BlockNo)
  | _, [], all => some all
  | 0, _ :: _, _ => none
  | fuel + 1, dirBlock :: queue, all =>
      let (queue, all) := initEntries disk
        (List.ofFn (asEntries (disk dirBlock))) queue (all.erase dirBlock)
      initLoop disk fuel queue all

/-- `init_free_blocks`. -/
def initFreeBlocks (disk : Disk) (fuel : ℕ) : Option (List BlockNo) :=
  initLoop disk fuel (inodeAt disk 0).dataBlocks allBlocks

/-! ## The walk -/

theorem mem_allBlocks {x : BlockNo} :
    x ∈ allBlocks ↔ x ≠ 0 ∧ x.toNat < fsDiskSize := by
  rw [allBlocks, List.mem_map]
  constructor
  · rintro ⟨k, hk, rfl⟩
    have hk : k < 4095 := List.mem_range.mp hk
    have htoNat : (UInt32.ofNat (k + 1)).toNat = k + 1 := by
      rw [UInt32.toNat_ofNat']
      omega
    refine ⟨?_, ?_⟩
    · intro hzero
      rw [hzero] at htoNat
      simp at htoNat
    · rw [htoNat]
      change k + 1 < 4096
      omega
  · rintro ⟨hzero, hrange⟩
    have hpos : x.toNat ≠ 0 := fun h => hzero (UInt32.toNat_inj.mp h)
    refine ⟨x.toNat - 1, ?_, ?_⟩
    · rw [List.mem_range]
      change x.toNat < 4096 at hrange
      change x.toNat - 1 < 4095
      omega
    · rw [Nat.sub_add_cancel (Nat.pos_of_ne_zero hpos)]
      exact UInt32.ofNat_toNat

theorem nodup_allBlocks : allBlocks.Nodup := by
  refine List.Nodup.map_on ?_ List.nodup_range
  intro k hk m hm heq
  have hk : k < 4095 := List.mem_range.mp hk
  have hm : m < 4095 := List.mem_range.mp hm
  have htoNat := congrArg UInt32.toNat heq
  simp only [UInt32.toNat_ofNat'] at htoNat
  omega

/-- The inodes a directory block lists, in order. -/
def listed (disk : Disk) (x : BlockNo) : List BlockNo :=
  (entriesAt disk x).map FsDirentry.inodeBlock

/-- The data blocks of the directories among some inodes. -/
def dirBlocks (disk : Disk) (inodes : List BlockNo) : List BlockNo :=
  inodes.flatMap fun c =>
    if (inodeAt disk c).type = dirType then dataBlocks disk c else []

/-- The data blocks of the files among some inodes. -/
def fileBlocks (disk : Disk) (inodes : List BlockNo) : List BlockNo :=
  inodes.flatMap fun c =>
    if (inodeAt disk c).type = fileType then dataBlocks disk c else []

theorem mem_dirBlocks {disk : Disk} {inodes : List BlockNo} {x : BlockNo} :
    x ∈ dirBlocks disk inodes ↔
      ∃ c ∈ inodes, (inodeAt disk c).type = dirType ∧ x ∈ dataBlocks disk c := by
  rw [dirBlocks, List.mem_flatMap]
  refine exists_congr fun c => and_congr_right fun _ => ?_
  split <;> simp [*]

theorem mem_fileBlocks {disk : Disk} {inodes : List BlockNo} {x : BlockNo} :
    x ∈ fileBlocks disk inodes ↔
      ∃ c ∈ inodes, (inodeAt disk c).type = fileType ∧ x ∈ dataBlocks disk c := by
  rw [fileBlocks, List.mem_flatMap]
  refine exists_congr fun c => and_congr_right fun _ => ?_
  split <;> simp [*]

/-- One block of entries: the queue grows by the blocks of the directories, and
the inodes and the blocks of the files are taken out. -/
theorem initEntries_spec
    (disk : Disk) (entries : List FsDirentry) (queue all : List BlockNo)
    (hnodup : all.Nodup) :
    (initEntries disk entries queue all).1 = queue ++ dirBlocks disk
        ((entries.filter (·.inodeBlock ≠ 0)).map FsDirentry.inodeBlock) ∧
      (initEntries disk entries queue all).2.Sublist all ∧
      ∀ y, y ∈ (initEntries disk entries queue all).2 ↔
        y ∈ all ∧
        y ∉ (entries.filter (·.inodeBlock ≠ 0)).map FsDirentry.inodeBlock ∧
        y ∉ fileBlocks disk
          ((entries.filter (·.inodeBlock ≠ 0)).map FsDirentry.inodeBlock) := by
  induction entries generalizing queue all with
  | nil => simp [initEntries, dirBlocks, fileBlocks]
  | cons entry rest ih =>
      by_cases hzero : entry.inodeBlock = 0
      · simp only [initEntries, if_pos hzero]
        have hfilter : (entry :: rest).filter (·.inodeBlock ≠ 0) =
            rest.filter (·.inodeBlock ≠ 0) :=
          List.filter_cons_of_neg (by simp [hzero])
        rw [hfilter]
        exact ih queue all hnodup
      · have hfilter : (entry :: rest).filter (·.inodeBlock ≠ 0) =
            entry :: rest.filter (·.inodeBlock ≠ 0) :=
          List.filter_cons_of_pos (by simp [hzero])
        rw [hfilter, List.map_cons]
        have hdir : ∀ inodes, dirBlocks disk (entry.inodeBlock :: inodes) =
            (if (inodeAt disk entry.inodeBlock).type = dirType then
              dataBlocks disk entry.inodeBlock else []) ++
                dirBlocks disk inodes := fun _ => rfl
        have hfile : ∀ inodes, fileBlocks disk (entry.inodeBlock :: inodes) =
            (if (inodeAt disk entry.inodeBlock).type = fileType then
              dataBlocks disk entry.inodeBlock else []) ++
                fileBlocks disk inodes := fun _ => rfl
        have herase := hnodup.erase entry.inodeBlock
        simp only [initEntries, if_neg hzero, hdir, hfile]
        by_cases htypeFile : (inodeAt disk entry.inodeBlock).type = fileType
        · have hnotDir : (inodeAt disk entry.inodeBlock).type ≠ dirType := by
            rw [htypeFile]
            exact fileType_ne_dirType
          rw [if_pos htypeFile, if_neg hnotDir, if_pos htypeFile]
          obtain ⟨hqueue, hsub, hmem⟩ := ih queue
            ((all.erase entry.inodeBlock).diff
              (inodeAt disk entry.inodeBlock).dataBlocks) (herase.diff)
          refine ⟨by simpa using hqueue,
            hsub.trans ((List.diff_sublist _ _).trans List.erase_sublist), ?_⟩
          intro y
          rw [hmem, herase.mem_sdiff_iff, hnodup.mem_erase_iff,
            List.mem_cons, List.mem_append, not_or, not_or]
          change (((y ≠ entry.inodeBlock ∧ y ∈ all) ∧
            y ∉ dataBlocks disk entry.inodeBlock) ∧ _) ↔ _
          tauto
        · rw [if_neg htypeFile, if_neg htypeFile, List.nil_append]
          by_cases htypeDir : (inodeAt disk entry.inodeBlock).type = dirType
          · rw [if_pos htypeDir, if_pos htypeDir]
            obtain ⟨hqueue, hsub, hmem⟩ := ih
              (queue ++ (inodeAt disk entry.inodeBlock).dataBlocks)
              (all.erase entry.inodeBlock) herase
            refine ⟨by rw [hqueue, List.append_assoc]; rfl,
              hsub.trans List.erase_sublist, ?_⟩
            intro y
            rw [hmem, hnodup.mem_erase_iff, List.mem_cons, not_or]
            tauto
          · rw [if_neg htypeDir, if_neg htypeDir, List.nil_append]
            obtain ⟨hqueue, hsub, hmem⟩ := ih queue
              (all.erase entry.inodeBlock) herase
            refine ⟨hqueue, hsub.trans List.erase_sublist, ?_⟩
            intro y
            rw [hmem, hnodup.mem_erase_iff, List.mem_cons, not_or]
            tauto

/-- The inodes met when the directory blocks `visited` have been read. -/
def met (disk : Disk) (visited : List BlockNo) : List BlockNo :=
  0 :: visited.flatMap (listed disk)

theorem met_snoc (disk : Disk) (visited : List BlockNo) (x : BlockNo) :
    met disk (visited ++ [x]) = met disk visited ++ listed disk x := by
  simp [met]

/-- Where the walk stands: the directory blocks read so far and those in the
queue are the blocks of the directories met, and `all` has lost what has been
met. -/
structure Walks
    (disk : Disk) (visited queue all : List BlockNo) : Prop where
  blocks : (visited ++ queue).Perm (dirBlocks disk (met disk visited))
  reach : ∀ c ∈ met disk visited, Reach disk c
  nodup : (met disk visited).Nodup
  sublist : all.Sublist allBlocks
  mem_all : ∀ y, y ∈ all ↔ y ∈ allBlocks ∧ y ∉ visited ∧
    y ∉ visited.flatMap (listed disk) ∧ y ∉ fileBlocks disk (met disk visited)

section WellFormed

variable {disk : Disk}

theorem listed_subset_refs
    {d x : BlockNo} (hdir : (inodeAt disk d).type = dirType)
    (hx : x ∈ dataBlocks disk d) : listed disk x ⊆ refs disk d := by
  intro c hc
  obtain ⟨entry, hentry, rfl⟩ := List.mem_map.mp hc
  refine List.mem_append_right _ (List.mem_map_of_mem ?_)
  rw [direntries, if_pos hdir]
  exact List.mem_flatMap.mpr ⟨x, hx, hentry⟩

/-- When the queue is empty every inode of the tree has been met. -/
theorem Walks.met_of_reach
    {visited all : List BlockNo} (h : Walks disk visited [] all)
    {c : BlockNo} (hc : Reach disk c) : c ∈ met disk visited := by
  obtain ⟨path, hpath⟩ := hc
  induction path using List.reverseRecOn generalizing c with
  | nil =>
      have hroot : 0 = c := by simpa using hpath
      rw [← hroot]
      exact List.mem_cons_self
  | append_singleton front name ih =>
      rw [LabelledWalk.walk_snoc] at hpath
      obtain ⟨d, hd, hchild⟩ := Option.bind_eq_some_iff.mp hpath
      obtain ⟨entry, hentry, _, rfl⟩ := childOf_eq_some hchild
      have hdir := isDir_of_mem_direntries hentry
      rw [direntries, if_pos hdir] at hentry
      obtain ⟨x, hx, hentry⟩ := List.mem_flatMap.mp hentry
      have hvisited : x ∈ visited := by
        have := h.blocks.mem_iff.mpr (mem_dirBlocks.mpr ⟨d, ih hd, hdir, hx⟩)
        simpa using this
      exact List.mem_cons_of_mem _ (List.mem_flatMap.mpr
        ⟨x, hvisited, List.mem_map_of_mem hentry⟩)

variable (hwf : WellFormed disk)
include hwf

/-- The data blocks of distinct inodes are distinct. -/
theorem nodup_dirBlocks
    {inodes : List BlockNo} (hreach : ∀ c ∈ inodes, Reach disk c)
    (hnodup : inodes.Nodup) : (dirBlocks disk inodes).Nodup := by
  rw [dirBlocks, List.nodup_flatMap]
  refine ⟨fun c hc => ?_, ?_⟩
  · split
    · exact (List.nodup_append.mp (hwf.refs_nodup c (hreach c hc))).1
    · exact List.nodup_nil
  · refine List.Pairwise.imp_of_mem ?_ hnodup
    intro b c hb hc hne y hyb hyc
    have hmem : ∀ d, y ∈ (if (inodeAt disk d).type = dirType then
        dataBlocks disk d else []) → y ∈ refs disk d := by
      intro d hd
      split at hd
      · exact dataBlocks_subset_refs disk d hd
      · simp at hd
    exact hwf.refs_disjoint b c (hreach b hb) (hreach c hc) hne (hmem b hyb)
      (hmem c hyc)

theorem listed_reach
    {d x c : BlockNo} (hd : Reach disk d)
    (hdir : (inodeAt disk d).type = dirType) (hx : x ∈ dataBlocks disk d)
    (hc : c ∈ listed disk x) : Reach disk c := by
  obtain ⟨entry, hentry, rfl⟩ := List.mem_map.mp hc
  have hmem : entry ∈ direntries disk d := by
    rw [direntries, if_pos hdir]
    exact List.mem_flatMap.mpr ⟨x, hx, hentry⟩
  exact LabelledWalk.Visits.child hd
    (childOf_of_mem (hwf.names_nodup d hd) hmem)

/-- The inodes listed in the blocks of one directory. -/
theorem nodup_listed
    {d : BlockNo} (hd : Reach disk d)
    (hdir : (inodeAt disk d).type = dirType) :
    ((dataBlocks disk d).flatMap (listed disk)).Nodup := by
  have hnodup := (List.nodup_append.mp (hwf.refs_nodup d hd)).2.1
  rw [direntries, if_pos hdir, List.map_flatMap] at hnodup
  exact hnodup

/-- One directory block is read. -/
theorem Walks.step
    {visited queue all : List BlockNo} {x : BlockNo}
    (h : Walks disk visited (x :: queue) all) :
    Walks disk (visited ++ [x])
      (initEntries disk (List.ofFn (asEntries (disk x))) queue (all.erase x)).1
      (initEntries disk (List.ofFn (asEntries (disk x))) queue
        (all.erase x)).2 := by
  have hall : all.Nodup := h.sublist.nodup nodup_allBlocks
  obtain ⟨hqueue, hsub, hmem⟩ := initEntries_spec disk
    (List.ofFn (asEntries (disk x))) queue (all.erase x) (hall.erase x)
  change _ = queue ++ dirBlocks disk (listed disk x) at hqueue
  change ∀ y, _ ↔ y ∈ all.erase x ∧ y ∉ listed disk x ∧
    y ∉ fileBlocks disk (listed disk x) at hmem
  obtain ⟨d, hdmet, hdir, hxd⟩ := mem_dirBlocks.mp
    (h.blocks.mem_iff.mp (List.mem_append_right visited List.mem_cons_self))
  have hd := h.reach d hdmet
  have hvisited : (visited ++ x :: queue).Nodup :=
    h.blocks.nodup_iff.mpr (nodup_dirBlocks hwf h.reach h.nodup)
  have hxvisited : x ∉ visited := fun hx =>
    List.disjoint_of_nodup_append hvisited hx List.mem_cons_self
  have hblocks : dirBlocks disk (met disk (visited ++ [x])) =
      dirBlocks disk (met disk visited) ++ dirBlocks disk (listed disk x) := by
    rw [met_snoc, dirBlocks, List.flatMap_append]
    rfl
  have hfiles : fileBlocks disk (met disk (visited ++ [x])) =
      fileBlocks disk (met disk visited) ++ fileBlocks disk (listed disk x) := by
    rw [met_snoc, fileBlocks, List.flatMap_append]
    rfl
  constructor
  · rw [hqueue, hblocks, ← List.append_assoc]
    refine List.Perm.append_right _ ?_
    rw [List.append_assoc, List.singleton_append]
    exact h.blocks
  · intro c hc
    rw [met_snoc] at hc
    rcases List.mem_append.mp hc with hc | hc
    · exact h.reach c hc
    · exact listed_reach hwf hd hdir hxd hc
  · rw [met_snoc]
    refine List.Nodup.append h.nodup ?_ ?_
    · exact (List.nodup_flatMap.mp (nodup_listed hwf hd hdir)).1 x hxd
    · intro c hc hcx
      have hcd := listed_subset_refs hdir hxd hcx
      rcases List.mem_cons.mp hc with rfl | hc
      · exact (hwf.refs_range d hd 0 hcd).1 rfl
      · obtain ⟨x', hx', hcx'⟩ := List.mem_flatMap.mp hc
        obtain ⟨d', hdmet', hdir', hxd'⟩ := mem_dirBlocks.mp
          (h.blocks.mem_iff.mp (List.mem_append_left _ hx'))
        have hd' := h.reach d' hdmet'
        have heq : d = d' := by
          by_contra hne
          exact hwf.refs_disjoint d d' hd hd' hne hcd
            (listed_subset_refs hdir' hxd' hcx')
        subst heq
        have hxx : x ≠ x' := by
          rintro rfl
          exact hxvisited hx'
        have hpairwise := (List.nodup_flatMap.mp (nodup_listed hwf hd hdir)).2
        have : Std.Symm (Function.onFun List.Disjoint (listed disk)) :=
          ⟨fun _ _ hdisjoint => List.disjoint_symm hdisjoint⟩
        exact hpairwise.forall hxd hxd' hxx hcx hcx'
  · exact hsub.trans (List.erase_sublist.trans h.sublist)
  · intro y
    rw [hmem, hall.mem_erase_iff, h.mem_all, hfiles, List.flatMap_append,
      List.flatMap_singleton, List.mem_append, List.mem_append, List.mem_append,
      List.mem_singleton]
    constructor
    · rintro ⟨⟨hne, hall, hvisited, hlisted, hfile⟩, hlistedx, hfilex⟩
      exact ⟨hall, fun h => h.elim hvisited hne,
        fun h => h.elim hlisted hlistedx, fun h => h.elim hfile hfilex⟩
    · rintro ⟨hall, hvisited, hlisted, hfile⟩
      simp only [not_or] at hvisited hlisted hfile
      exact ⟨⟨hvisited.2, hall, hvisited.1, hlisted.1, hfile.1⟩, hlisted.2,
        hfile.2⟩

/-- The walk from the root. -/
theorem Walks.start :
    Walks disk [] (inodeAt disk 0).dataBlocks allBlocks where
  blocks := by
    rw [dirBlocks, met, List.flatMap_nil, List.flatMap_singleton,
      if_pos hwf.root_dir]
    exact .refl _
  reach := by
    intro c hc
    have hc : c = 0 := by simpa [met] using hc
    rw [hc]
    exact Reach.root disk
  nodup := by simp [met]
  sublist := .refl _
  mem_all := by
    intro y
    have hnotFile : (inodeAt disk 0).type ≠ fileType := by
      rw [hwf.root_dir]
      exact fileType_ne_dirType.symm
    simp [fileBlocks, met, hnotFile]

/-- The directory blocks read are distinct blocks of the disk, so the fuel
lasts. -/
theorem Walks.visited_lt
    {visited queue all : List BlockNo} {x : BlockNo}
    (h : Walks disk visited (x :: queue) all) :
    visited.length + 1 < fsDiskSize := by
  have hnodup : (visited ++ x :: queue).Nodup :=
    h.blocks.nodup_iff.mpr (nodup_dirBlocks hwf h.reach h.nodup)
  have hsubset : visited ++ x :: queue ⊆ allBlocks := by
    intro y hy
    obtain ⟨d, hdmet, _, hyd⟩ := mem_dirBlocks.mp (h.blocks.mem_iff.mp hy)
    exact mem_allBlocks.mpr (hwf.refs_range d (h.reach d hdmet) y
      (dataBlocks_subset_refs disk d hyd))
  have hle := (List.subperm_of_subset hnodup hsubset).length_le
  have hlength : allBlocks.length = 4095 := by
    rw [allBlocks, List.length_map, List.length_range]
    rfl
  rw [hlength, List.length_append, List.length_cons] at hle
  change visited.length + 1 < 4096
  omega

/-- When the queue is empty the blocks left over are those outside the tree. -/
theorem Walks.done
    {visited all : List BlockNo} (h : Walks disk visited [] all) (y : BlockNo) :
    y ∈ all ↔ y ≠ 0 ∧ y.toNat < fsDiskSize ∧ ¬Used disk y := by
  have hused : Used disk y ↔ y ∈ visited ∨
      y ∈ visited.flatMap (listed disk) ∨
      y ∈ fileBlocks disk (met disk visited) := by
    constructor
    · rintro ⟨b, hb, hy⟩
      have hmet := h.met_of_reach hb
      have hdirData : (inodeAt disk b).type = dirType → y ∈ dataBlocks disk b →
          y ∈ visited := by
        intro hdir hdata
        have := h.blocks.mem_iff.mpr (mem_dirBlocks.mpr ⟨b, hmet, hdir, hdata⟩)
        simpa using this
      rcases List.mem_append.mp hy with hdata | hlisted
      · rcases hwf.type_cases b hb with hdir | hfile
        · exact Or.inl (hdirData hdir hdata)
        · exact Or.inr (Or.inr (mem_fileBlocks.mpr ⟨b, hmet, hfile, hdata⟩))
      · obtain ⟨entry, hentry, rfl⟩ := List.mem_map.mp hlisted
        have hdir := isDir_of_mem_direntries hentry
        have hreach := LabelledWalk.Visits.child hb
          (childOf_of_mem (hwf.names_nodup b hb) hentry)
        rcases List.mem_cons.mp (h.met_of_reach hreach) with hzero | hmem
        · exact absurd hzero (hwf.refs_range b hb _ hy).1
        · exact Or.inr (Or.inl hmem)
    · rintro (hvisited | hlisted | hfile)
      · obtain ⟨d, hdmet, _, hyd⟩ := mem_dirBlocks.mp
          (h.blocks.mem_iff.mp (List.mem_append_left _ hvisited))
        exact ⟨d, h.reach d hdmet, dataBlocks_subset_refs disk d hyd⟩
      · obtain ⟨x, hx, hyx⟩ := List.mem_flatMap.mp hlisted
        obtain ⟨d, hdmet, hdir, hxd⟩ := mem_dirBlocks.mp
          (h.blocks.mem_iff.mp (List.mem_append_left _ hx))
        exact ⟨d, h.reach d hdmet, listed_subset_refs hdir hxd hyx⟩
      · obtain ⟨c, hcmet, _, hyc⟩ := mem_fileBlocks.mp hfile
        exact ⟨c, h.reach c hcmet, dataBlocks_subset_refs disk c hyc⟩
  rw [h.mem_all, mem_allBlocks, hused]
  tauto

/-- The walk ends when the fuel covers the blocks not read yet. -/
theorem initLoop_spec
    (fuel : ℕ) {visited queue all : List BlockNo}
    (h : Walks disk visited queue all)
    (hfuel : fsDiskSize ≤ fuel + visited.length) :
    ∃ free, initLoop disk fuel queue all = some free ∧
      free.Sublist allBlocks ∧
      ∀ y, y ∈ free ↔ y ≠ 0 ∧ y.toNat < fsDiskSize ∧ ¬Used disk y := by
  induction fuel generalizing visited queue all with
  | zero =>
      cases queue with
      | nil => exact ⟨all, rfl, h.sublist, h.done hwf⟩
      | cons x queue =>
          have := h.visited_lt hwf
          omega
  | succ fuel ih =>
      cases queue with
      | nil => exact ⟨all, rfl, h.sublist, h.done hwf⟩
      | cons x queue =>
          refine ih (h.step hwf) ?_
          rw [List.length_append, List.length_singleton]
          omega

/-- On a well-formed image `init_free_blocks` ends, and lists the blocks
outside the tree, each once and in increasing order. -/
theorem initFreeBlocks_spec {fuel : ℕ} (hfuel : fsDiskSize ≤ fuel) :
    ∃ free, initFreeBlocks disk fuel = some free ∧ free.Sublist allBlocks ∧
      ∀ y, y ∈ free ↔ y ≠ 0 ∧ y.toNat < fsDiskSize ∧ ¬Used disk y :=
  initLoop_spec hwf fuel (Walks.start hwf) (by simpa using hfuel)

end WellFormed

end FileServer
end Eecs482
