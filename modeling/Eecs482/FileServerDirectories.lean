import Eecs482.FileServerAccess
import Eecs482.FileServerAlone
import Eecs482.FileServerCalls
import Mathlib.Data.List.OfFn

/-!
# Directories of a running server

In every state of every run each data block of a directory has a used entry, and
no two entries of a directory have one name.  So a directory is empty exactly
when it has no data block, which is what `handle_delete` tests, and a delete takes
the name it is about, and nothing else, from what `check_existance` finds.
-/

namespace Eecs482
namespace FileServer

open Machine LabelledWalk

/-! ## Entries by position -/

/-- The directory at `p` has an entry. -/
def HasEntry (disk : Disk) (p : BlockNo) : Prop :=
  ∃ k j, k < (inodeAt disk p).size.toNat ∧
    (entryAt disk (inodeAt disk p) k j).inodeBlock ≠ 0

/-- Every data block of the directory at `p` has a used entry, and the names of
the used entries are distinct. -/
structure InOrder (disk : Disk) (p : BlockNo) : Prop where
  occupied : ∀ k, k < (inodeAt disk p).size.toNat →
    ∃ j, (entryAt disk (inodeAt disk p) k j).inodeBlock ≠ 0
  distinct : ∀ k j k' j', k < (inodeAt disk p).size.toNat →
    k' < (inodeAt disk p).size.toNat →
    (entryAt disk (inodeAt disk p) k j).inodeBlock ≠ 0 →
    (entryAt disk (inodeAt disk p) k' j').inodeBlock ≠ 0 →
    cString (entryAt disk (inodeAt disk p) k j).name =
      cString (entryAt disk (inodeAt disk p) k' j').name →
    k = k' ∧ j = j'

section Position

variable {disk : Disk} {p : BlockNo}

theorem entry_injective
    {x : BlockNo} (hnames : (entriesAt disk x).Pairwise
      fun e e' => cString e.name ≠ cString e'.name)
    {j j' : Fin fsDirentries} (hj : (asEntries (disk x) j).inodeBlock ≠ 0)
    (hj' : (asEntries (disk x) j').inodeBlock ≠ 0)
    (hname : cString (asEntries (disk x) j).name =
      cString (asEntries (disk x) j').name) : j = j' := by
  unfold entriesAt at hnames
  rw [List.pairwise_filter, List.pairwise_ofFn] at hnames
  rcases Nat.lt_trichotomy j.val j'.val with hlt | heq | hgt
  · exact absurd hname (hnames hlt (by simpa using hj) (by simpa using hj'))
  · exact Fin.ext heq
  · exact absurd hname.symm (hnames hgt (by simpa using hj') (by simpa using hj))

theorem block_injective
    (hdir : (inodeAt disk p).type = dirType)
    (hnames : ((direntries disk p).map fun e => cString e.name).Nodup)
    {k k' : ℕ} {j j' : Fin fsDirentries} (hlt : k < k')
    (hk' : k' < (inodeAt disk p).size.toNat)
    (hj : (entryAt disk (inodeAt disk p) k j).inodeBlock ≠ 0)
    (hj' : (entryAt disk (inodeAt disk p) k' j').inodeBlock ≠ 0) :
    cString (entryAt disk (inodeAt disk p) k j).name ≠
      cString (entryAt disk (inodeAt disk p) k' j').name := by
  unfold List.Nodup at hnames
  rw [List.pairwise_map, direntries, if_pos hdir, List.pairwise_flatMap] at hnames
  have hblocks := hnames.2
  unfold dataBlocks FsInode.dataBlocks at hblocks
  rw [List.pairwise_map, List.pairwise_iff_getElem] at hblocks
  have hpair := hblocks k k' (by simp; omega) (by simpa using hk') hlt
  simp only [List.getElem_range] at hpair
  apply hpair
  · exact mem_entriesAt_iff.mpr ⟨⟨j, rfl⟩, hj⟩
  · exact mem_entriesAt_iff.mpr ⟨⟨j', rfl⟩, hj'⟩

theorem inOrder_of_occupied
    (hwf : WellFormed disk) (hoccupied : Occupied disk) (hp : Reach disk p)
    (hdir : (inodeAt disk p).type = dirType) : InOrder disk p := by
  have hnames := hwf.names_nodup p hp
  constructor
  · intro k hk
    have hsome := hoccupied p hp hdir _ (block_mem_dataBlocks hk)
    obtain ⟨entry, hentry⟩ := List.exists_mem_of_ne_nil _ hsome
    obtain ⟨⟨j, rfl⟩, hused⟩ := mem_entriesAt_iff.mp hentry
    exact ⟨j, hused⟩
  · intro k j k' j' hk hk' hj hj' hname
    have hkk : k = k' := by
      rcases Nat.lt_trichotomy k k' with hlt | heq | hgt
      · exact absurd hname (block_injective hdir hnames hlt hk' hj hj')
      · exact heq
      · exact absurd hname.symm (block_injective hdir hnames hgt hk hj' hj)
    subst hkk
    refine ⟨rfl, entry_injective ?_ hj hj' hname⟩
    unfold List.Nodup at hnames
    rw [List.pairwise_map, direntries, if_pos hdir, List.pairwise_flatMap] at hnames
    exact hnames.1 _ (block_mem_dataBlocks hk)

/-- A directory has an entry exactly when it has a data block. -/
theorem InOrder.hasEntry_iff (h : InOrder disk p) :
    HasEntry disk p ↔ (inodeAt disk p).size > 0 := by
  rw [gt_iff_lt, UInt32.lt_iff_toNat_lt]
  constructor
  · rintro ⟨k, _, hk, _⟩
    exact Nat.lt_of_le_of_lt (Nat.zero_le k) hk
  · intro hsize
    obtain ⟨j, hj⟩ := h.occupied 0 hsize
    exact ⟨0, j, hsize, hj⟩

end Position

/-! ## What `check_existance` finds -/

/-- Called for the name on the directory at `p`, `check_existance` reports the
inode of `answer`, or that there is none. -/
def Reports (s : Server) (p : BlockNo) (name : Name) (answer : Option BlockNo) :
    Prop :=
  ∀ (i : ℕ) (result : TargetInode) (output : Option Entries),
    ∃ found output', machine.alone i
        (checkExistance result (inodeAt s.disk p) name output) s =
          some ((found, output'), s) ∧
      answer = if found.valid then some found.inodeBlock else none

theorem reports_iff
    {s : Server} {p : BlockNo} {name : Name} {answer : Option BlockNo}
    (hwf : WellFormed s.disk) (hp : Reach s.disk p)
    (hdir : (inodeAt s.disk p).type = dirType) :
    Reports s p name answer ↔ answer = childOf s.disk p name := by
  have hrun : ∀ (i : ℕ) (result : TargetInode) (output : Option Entries),
      machine.alone i (checkExistance result (inodeAt s.disk p) name output) s =
        some (scan s.disk (inodeAt s.disk p) result name output, s) := by
    intro i result output
    have hends : machine.Ends i
        (checkExistance result (inodeAt s.disk p) name output >>= Prog.ret) s
        (fun found t => found = scan s.disk (inodeAt s.disk p) result name output ∧
          t = s) :=
      ends_checkExistance _ _ (Ends.ret ⟨rfl, rfl⟩)
    obtain ⟨_, _, hrun, rfl, rfl⟩ := hends
    rwa [Prog.bind_ret] at hrun
  have hscan : ∀ (result : TargetInode) (output : Option Entries),
      childOf s.disk p name =
        if (scan s.disk (inodeAt s.disk p) result name output).1.valid then
          some (scan s.disk (inodeAt s.disk p) result name output).1.inodeBlock
        else none := by
    intro result output
    cases hchild : childOf s.disk p name with
    | some c =>
        obtain ⟨k, j, _, _, hblock, hfound⟩ := scan_of_childOf_some hwf hp hdir
          hchild result output
        rw [hfound, ← hblock]
        rfl
    | none =>
        have hpassed := scan_of_childOf_none hwf hp hdir hchild result output
        rw [hpassed.valid]
        rfl
  constructor
  · intro hreports
    obtain ⟨found, output', halone, hanswer⟩ := hreports 0 {} none
    rw [hrun, Option.some.injEq, Prod.mk.injEq] at halone
    rw [hanswer, hscan {} none, halone.1]
  · intro hanswer i result output
    exact ⟨_, _, hrun i result output, hanswer.trans (hscan result output)⟩

/-! ## The test of a delete -/

/-- The scope of `write_child_lock` refuses the node at `q` if and only if it is
another user's, or a directory that passes for one with entries. -/
theorem deleteChild_refuses_iff
    {i : ℕ} {s : Server} {user : Name} {target info : TargetInode}
    {parentInode : FsInode} {entries : Entries} :
    (∃ t, machine.alone i (deleteChild user target info parentInode entries) s =
        some (none, t)) ↔
      ownerAt s.disk info.inodeBlock ≠ user ∨
        ((inodeAt s.disk info.inodeBlock).type = dirType ∧
          (inodeAt s.disk info.inodeBlock).size > 0) := by
  obtain ⟨rest, hrest, heq⟩ :=
    deleteChild_split user target info parentInode entries
  have hread : ∀ t, machine.alone i
      (deleteChild user target info parentInode entries) s = some (none, t) ↔
      machine.alone i
        (if ownerAt s.disk info.inodeBlock ≠ user ∨
            ((inodeAt s.disk info.inodeBlock).type = dirType ∧
              (inodeAt s.disk info.inodeBlock).size > 0) then
          return none
        else rest (s.disk info.inodeBlock)) s = some (none, t) := by
    intro t
    rw [heq]
    rfl
  simp only [hread]
  split
  · rename_i hrefused
    exact iff_of_true ⟨s, rfl⟩ hrefused
  · rename_i haccepted
    apply iff_of_false _ haccepted
    rintro ⟨t, hrun⟩
    have hsome := alone_returns (hrest _) hrun
    cases hsome

/-! ## The entry a delete removes -/

theorem type_of_treeOf
    {disk : Disk} {p : BlockNo} {path : Path} {owner : Name}
    (hp : resolve disk path = some p) (hnode : treeOf disk path = some (.dir owner)) :
    (inodeAt disk p).type = dirType := by
  obtain ⟨b, htrail⟩ := treeOf_eq_dir_iff.mp hnode
  obtain ⟨hb, htype, _⟩ := trail_eq_some htrail
  obtain rfl : p = b := Option.some.inj (hp.symm.trans hb)
  exact htype

theorem Effect.childOf_delete
    {disk disk' : Disk} {p : BlockNo} {user name : Name} {path : Path}
    {attached detached : List BlockNo}
    (h : Effect disk disk' p (.delete user (path ++ [name])) attached detached)
    (hwf : WellFormed disk) (hp : resolve disk path = some p) (other : Name) :
    resolve disk' path = some p ∧ (inodeAt disk p).type = dirType ∧
      (inodeAt disk' p).type = dirType ∧
      childOf disk' p other =
        if other = name then none else childOf disk p other := by
  have htarget : ∀ c, childOf disk p other = some c → other ≠ name →
      resolve disk (path ++ [name]) ≠ some c := by
    intro c hc hne hresolve
    have hother : resolve disk (path ++ [other]) = some c := by
      rw [resolve, walk_snoc_of_walk hp, hc]
    have hsame := hwf.isTree.walk_injective hother hresolve
    exact hne (by simpa using hsame)
  have hself : resolve disk (path ++ [name]) ≠ some p := by
    intro hresolve
    have hsame := hwf.isTree.walk_injective hp hresolve
    simpa using congrArg List.length hsame
  have hp' : resolve disk' path = some p := h.resolve_of_ne hp hself
  obtain ⟨owner, hparent⟩ := h.applies.delete_parent
  rw [List.dropLast_concat] at hparent
  have hparent' : treeOf disk' path = some (.dir owner) := by
    rw [h.applies.delete_eq, Function.update_of_ne (by simp), hparent]
  refine ⟨hp', type_of_treeOf hp hparent, type_of_treeOf hp' hparent', ?_⟩
  have htree : treeOf disk' (path ++ [other]) =
      if other = name then none else treeOf disk (path ++ [other]) := by
    rw [h.applies.delete_eq]
    by_cases hname : other = name
    · rw [if_pos hname, hname, Function.update_self]
    · rw [if_neg hname, Function.update_of_ne (by simpa using hname)]
  have hnone : ∀ {d : Disk}, resolve d path = some p →
      (treeOf d (path ++ [other]) = none ↔ childOf d p other = none) := by
    intro d hd
    rw [treeOf, resolve, walk_snoc_of_walk hd, Option.map_eq_none_iff]
  by_cases hname : other = name
  · rw [if_pos hname] at htree ⊢
    exact (hnone hp').mp htree
  · rw [if_neg hname] at htree ⊢
    cases hchild : childOf disk p other with
    | some c =>
        exact h.childOf_of_ne ⟨path, hp⟩ ⟨path, hp'⟩ hchild (htarget c hchild hname)
    | none =>
        rw [(hnone hp).mpr hchild] at htree
        exact (hnone hp').mp htree

/-! ## Over whole runs -/

/-- What the emptiness test of `handle_delete` rests on, and what a delete does
to a directory. -/
structure EmptinessKept (c : Config fsInterface Server) : Prop where
  inOrder : ∀ p, Reach c.shared.disk p →
    (inodeAt c.shared.disk p).type = dirType → InOrder c.shared.disk p
  /-- `handle_delete` refuses the user's directory at `info.inodeBlock` if and only
  if it has an entry. -/
  refuses : ∀ (i : ℕ) (user : Name) (target info : TargetInode)
    (parentInode : FsInode) (entries : Entries),
    Reach c.shared.disk info.inodeBlock →
    (inodeAt c.shared.disk info.inodeBlock).type = dirType →
    ownerAt c.shared.disk info.inodeBlock = user →
    ((∃ t, machine.alone i
        (deleteChild user target info parentInode entries) c.shared =
          some (none, t)) ↔
      HasEntry c.shared.disk info.inodeBlock)
  /-- When a delete takes effect, `check_existance` no longer finds its name in the
  directory, and finds the others as before. -/
  removes : ∀ (i : ℕ) (b : BlockNo) (block : Block) (note : Commit)
    (next : Unit → FsProg Unit) (shared : Server) (request : Request)
    (user name : Name) (path : Path) (p : BlockNo),
    c.thread i = some (.call (.diskWriteblock b block (some note)) next) →
    machine.exec i (.diskWriteblock b block (some note)) c.shared =
      some ((), shared) →
    c.shared.request i = some request →
    request.op = some (.delete user (path ++ [name])) →
    resolve c.shared.disk path = some p →
    resolve shared.disk path = some p ∧
      ∀ other answer, Reports shared p other answer ↔
        if other = name then answer = none
        else Reports c.shared p other answer

/-- From an image on which no directory data block is empty. -/
theorem emptinessKept (disk : Disk) (hwf : WellFormed disk) (hoccupied : Occupied disk) :
    ∃ boot, initServer disk = some boot ∧
      ∀ c, machine.Reachable boot c → EmptinessKept c := by
  obtain ⟨boot, hinit, hboot⟩ := exists_started hwf
  refine ⟨boot, hinit, fun c hreach => ?_⟩
  have hinv := run_inv hboot hreach
  have hinOrder : ∀ p, Reach c.shared.disk p →
      (inodeAt c.shared.disk p).type = dirType → InOrder c.shared.disk p :=
    fun p hp hdir =>
      inOrder_of_occupied hinv.wf (hinv.occupied hoccupied) hp hdir
  constructor
  · exact hinOrder
  · intro i user target info parentInode entries hq hdir howner
    rw [deleteChild_refuses_iff, (hinOrder _ hq hdir).hasEntry_iff]
    simp [howner, hdir]
  · intro i b block note next shared request user name path p hthread hexec hrequest
      hop hp
    have hguard := (run_invariant hboot hreach).guard hthread
    obtain ⟨⟨request', op, p', hrequest', hop', hhome, _, heffect⟩, _⟩ := hguard
    rw [hrequest, Option.some.injEq] at hrequest'
    subst hrequest'
    rw [hop, Option.some.injEq] at hop'
    subst hop'
    have hhome : resolve c.shared.disk path = some p' := by
      simpa [FsOp.home] using hhome
    obtain rfl : p = p' := Option.some.inj (hp.symm.trans hhome)
    have hdisk : shared.disk = Function.update c.shared.disk b block :=
      @Server.exec_disk i (.diskWriteblock b block (some note)) _ _ () hexec
    rw [← hdisk] at heffect
    refine ⟨(heffect.childOf_delete hinv.wf hp name).1, ?_⟩
    intro other answer
    obtain ⟨hp', hdir, hdir', hchild⟩ := heffect.childOf_delete hinv.wf hp other
    rw [reports_iff heffect.wf ⟨path, hp'⟩ hdir',
      reports_iff hinv.wf ⟨path, hp⟩ hdir, hchild]
    split <;> rfl

/-- Thread 0 has created the file, and thread 1 may delete it. -/
theorem emptinessKept_freshDisk :
    ∃ rest c, initServer freshDisk = some (freshServer rest) ∧
      playFresh rest (creating 18) = some c ∧ InFlight c 1 ∧
      commitOrder c.shared.events = [0] ∧ EmptinessKept c := by
  obtain ⟨rest, hinit, hkept⟩ := exists_freshServer
    (emptinessKept freshDisk wellFormed_freshDisk occupied_freshDisk)
  obtain ⟨c, hplay, hdeletes, horder⟩ :
      ∃ c, playFresh rest (creating 18) = some c ∧ InFlight c 1 ∧
        commitOrder c.shared.events = [0] := ⟨_, rfl, ⟨_, _, rfl⟩, rfl⟩
  exact ⟨rest, c, hinit, hplay, hdeletes, horder, hkept c (reachable_of_playFresh hplay)⟩

end FileServer
end Eecs482
