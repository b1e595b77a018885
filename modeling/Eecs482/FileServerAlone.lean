import Eecs482.FileServerProgress
import Eecs482.SoloRun

/-!
# The walk of a handler running alone

While one handler runs alone the image changes only by its own writes.  The
walk to a target whose ancestors are directories of the user then succeeds and
ends with the lock of the target.
-/

namespace Eecs482
namespace FileServer

open Machine

variable {i : ℕ} {s t : Server} {α : Type} {Post : α → Server → Prop}

theorem ends_call
    {op : FsCall} {next : fsInterface.Answer op → FsProg α}
    {answer : fsInterface.Answer op}
    (hexec : Server.exec i op s = some (answer, t))
    (hnext : machine.Ends i (next answer) t Post) :
    machine.Ends i (call op >>= next) s Post :=
  Ends.call hexec hnext

theorem ends_read
    {b : BlockNo} {next : Block → FsProg α}
    (hnext : machine.Ends i (next (s.disk b)) s Post) :
    machine.Ends i (call (.diskReadblock b false) >>= next) s Post :=
  ends_call rfl hnext

/-! ## Searching a directory -/

theorem ends_checkBlocks
    {inode : FsInode} {name : Name} (remaining k : ℕ) (result : TargetInode)
    (output : Option Entries) {next : TargetInode × Option Entries → FsProg α}
    (hnext : machine.Ends i
      (next (scanBlocks s.disk inode name remaining k result output)) s Post) :
    machine.Ends i
      (checkBlocks inode name remaining k result output >>= next) s Post := by
  induction remaining generalizing k result output with
  | zero => exact hnext
  | succ remaining ih =>
      simp only [checkBlocks, Prog.bind_assoc]
      refine ends_read ?_
      simp only [scanBlocks] at hnext
      rcases hscan : checkEntries name k (inode.block k)
          (asEntries (s.disk (inode.block k))) (List.finRange fsDirentries)
          result output with ⟨stop, result', output'⟩
      cases stop with
      | true =>
          simp only [hscan] at hnext ⊢
          exact hnext
      | false =>
          simp only [hscan] at hnext ⊢
          exact ih (k + 1) result' output' hnext

/-- `check_existance` is the pure scan. -/
theorem ends_checkExistance
    {inode : FsInode} {name : Name} (result : TargetInode)
    (output : Option Entries) {next : TargetInode × Option Entries → FsProg α}
    (hnext : machine.Ends i (next (scan s.disk inode result name output)) s
      Post) :
    machine.Ends i (checkExistance result inode name output >>= next) s Post :=
  ends_checkBlocks _ 0 _ _ hnext

/-! ## Locks -/

/-- No lock is held. -/
def noLocks : BlockNo → SharedMutex := fun _ => {}

/-- Thread `i` holds the shared lock of `b`, and nothing else is locked. -/
def sharedLock (i : ℕ) (b : BlockNo) : BlockNo → SharedMutex :=
  Function.update noLocks b { readers := [i] }

/-- Thread `i` holds the lock of `b`, and nothing else is locked. -/
def exclLock (i : ℕ) (b : BlockNo) : BlockNo → SharedMutex :=
  Function.update noLocks b { writer := some i }

theorem exclLock_of_ne {b c : BlockNo} (hne : c ≠ b) : exclLock i b c = {} :=
  Function.update_of_ne hne _ _

theorem exec_lockShared
    {locks : BlockNo → SharedMutex} {b : BlockNo}
    (hlocks : locks b = {}) :
    Server.exec i (.lockShared b) { s with diskLocks := locks } =
      some ((), { s with
        diskLocks := Function.update locks b { readers := [i] } }) := by
  simp [Server.exec, Server.setLock, hlocks]

theorem exec_lock
    {locks : BlockNo → SharedMutex} {b : BlockNo}
    (hlocks : locks b = {}) :
    Server.exec i (.lock b) { s with diskLocks := locks } =
      some ((), { s with
        diskLocks := Function.update locks b { writer := some i } }) := by
  simp [Server.exec, Server.setLock, hlocks]

theorem exec_unlockShared
    {locks : BlockNo → SharedMutex} {b : BlockNo}
    (hlocks : locks b = { readers := [i] }) :
    Server.exec i (.unlockShared b) { s with diskLocks := locks } =
      some ((), { s with diskLocks := Function.update locks b {} }) := by
  simp [Server.exec, Server.setLock, hlocks]

/-- Taking a second lock and giving the first one back. -/
theorem update_release
    {b c : BlockNo} (hne : b ≠ c) (mutex mutex' : SharedMutex) :
    Function.update
        (Function.update (Function.update noLocks b mutex) c mutex') b {} =
      Function.update noLocks c mutex' := by
  rw [Function.update_comm hne, Function.update_idem,
    Function.update_comm hne.symm]
  congr 1
  exact Function.update_eq_self b noLocks

/-! ## The walk -/

/-- No inode is its own child. -/
theorem WellFormed.child_ne
    {disk : Disk} (hwf : WellFormed disk) {b c : BlockNo} {name : Name}
    (hb : Reach disk b) (hchild : childOf disk b name = some c) : c ≠ b := by
  rintro rfl
  obtain ⟨path, hpath⟩ := hb
  have hself : resolve disk (path ++ [name]) = some c := by
    rw [resolve, LabelledWalk.walk_snoc_of_walk hpath, hchild]
  simpa using congrArg List.length (hwf.isTree.walk_injective hself hpath)

/-- What a walk to `target` leaves locked. -/
def Holding (i : ℕ) (target : TargetInode) (locks : BlockNo → SharedMutex) :
    Prop :=
  (target.inodeBlock = 0 ∧ locks = noLocks) ∨
    (target.inodeBlock ≠ 0 ∧ target.parentInodeBlock ≠ target.inodeBlock ∧
      locks = sharedLock i target.parentInodeBlock)

theorem ends_traverseDirLoop
    (hwf : WellFormed s.disk) {user : Name} {names : Path} (hnames : names ≠ [])
    {b p : BlockNo} (hb : Reach s.disk b)
    (hdir : (inodeAt s.disk b).type = dirType)
    (htarget : LabelledWalk.walk (childOf s.disk) b names = some p)
    (habove : ∀ front c, front <+: names → front ≠ [] → front ≠ names →
      LabelledWalk.walk (childOf s.disk) b front = some c →
      (inodeAt s.disk c).type = dirType ∧ ownerAt s.disk c = user)
    {result : TargetInode} (hparent : result.parentInodeBlock = b)
    {next : TargetInode → FsProg α}
    (hnext : ∀ target locks, target.valid = true → target.inodeBlock = p →
      Holding i target locks →
      machine.Ends i (next target) { s with diskLocks := locks } Post) :
    machine.Ends i
      (traverseDirLoop user names result (inodeAt s.disk b) b >>= next)
      { s with diskLocks := sharedLock i b } Post := by
  induction names generalizing b result with
  | nil => exact absurd rfl hnames
  | cons name rest ih =>
      rw [LabelledWalk.walk_cons] at htarget
      obtain ⟨c, hchild, hrest⟩ := Option.bind_eq_some_iff.mp htarget
      simp only [traverseDirLoop, Prog.bind_assoc]
      refine ends_checkExistance _ _ ?_
      obtain ⟨k, j, _, _, hentry, hscan⟩ := scan_of_childOf_some hwf hb hdir
        hchild result none
      subst hentry
      have hne := hwf.child_ne hb hchild
      have hzero := (hwf.refs_range b hb _ (childOf_mem_refs hchild)).1
      rw [hscan]
      simp only [foundAt, Bool.true_eq_false, false_or]
      by_cases hlast : rest = []
      · subst hlast
        rw [if_pos rfl]
        refine hnext _ _ rfl (Option.some.inj hrest)
          (Or.inr ⟨hzero, ?_, by rw [hparent]⟩)
        rw [hparent]
        exact hne.symm
      · rw [if_neg hlast]
        simp only [Prog.bind_assoc]
        obtain ⟨htype, howner⟩ := habove [name] _ ⟨rest, rfl⟩ (by simp)
          (by simpa using Ne.symm hlast) (by
            rw [LabelledWalk.walk_cons, hchild]
            rfl)
        refine ends_call (exec_lockShared (Function.update_of_ne hne _ _)) ?_
        refine ends_call (exec_unlockShared ?_) ?_
        · rw [Function.update_of_ne hne.symm, sharedLock, Function.update_self]
        · refine ends_read ?_
          rw [sharedLock, update_release hne.symm]
          rw [if_neg (by
            rw [not_or, not_not, not_not]
            exact ⟨howner, htype⟩)]
          refine ih hlast (LabelledWalk.Visits.child hb hchild) htype hrest
            (fun front d hfront hne hself hd => ?_) rfl
          refine habove (name :: front) d ?_ (by simp) (by simpa using hself) ?_
          · exact List.cons_prefix_cons.mpr ⟨rfl, hfront⟩
          · rw [LabelledWalk.walk_cons, hchild]
            exact hd

/-- The walk to an inode below directories of the user. -/
theorem ends_traverseDir
    (hlocks : s.diskLocks = noLocks) (hwf : WellFormed s.disk) {user : Name}
    {path : Path} {p : BlockNo} (htarget : resolve s.disk path = some p)
    (habove : (treeOf s.disk).OwnedAbove user path)
    {next : TargetInode → FsProg α}
    (hnext : ∀ target locks, target.valid = true → target.inodeBlock = p →
      Holding i target locks →
      machine.Ends i (next target) { s with diskLocks := locks } Post) :
    machine.Ends i (traverseDir user path >>= next) s Post := by
  rw [show s = { s with diskLocks := noLocks } by rw [← hlocks]]
  unfold traverseDir
  by_cases hpath : path = []
  · subst hpath
    simp only [if_true]
    have hroot : (0 : BlockNo) = p := by simpa [resolve] using htarget
    exact hnext _ _ rfl hroot (Or.inl ⟨rfl, rfl⟩)
  · simp only [hpath, if_false, Prog.bind_assoc]
    refine ends_call (exec_lockShared rfl) (ends_read ?_)
    refine ends_traverseDirLoop hwf hpath (Reach.root s.disk) hwf.root_dir
      htarget (fun front c hfront hne hself hc => ?_) rfl hnext
    have hnode := habove front hfront hne hself
    rw [treeOf_eq_dir_iff] at hnode
    obtain ⟨d, hd⟩ := hnode
    obtain ⟨hresolve, htype, howner⟩ := trail_eq_some hd
    obtain rfl : d = c := Option.some.inj (hresolve.symm.trans hc)
    exact ⟨htype, howner⟩

section Enter

variable {target : TargetInode} {next : Unit → FsProg α}
variable (hholding : Holding i target s.diskLocks)
include hholding

/-- The lock of the target replaces that of its parent. -/
theorem ends_enter
    (hnext : machine.Ends i (next ())
      { s with diskLocks := exclLock i target.inodeBlock } Post) :
    machine.Ends i (call (.lock target.inodeBlock) >>= fun _ =>
        unlockParent target >>= next) s Post := by
  rcases hholding with ⟨hroot, hlocks⟩ | ⟨hroot, hparent, hlocks⟩
  · rw [show s = { s with diskLocks := noLocks } by rw [← hlocks]]
    refine ends_call (exec_lock rfl) ?_
    rw [unlockParent, if_neg (not_not.mpr hroot)]
    exact hnext
  · rw [show s = { s with
      diskLocks := sharedLock i target.parentInodeBlock } by rw [← hlocks]]
    refine ends_call (exec_lock (Function.update_of_ne hparent.symm _ _)) ?_
    rw [unlockParent, if_pos hroot]
    refine ends_call (exec_unlockShared ?_) ?_
    · rw [Function.update_of_ne hparent, sharedLock, Function.update_self]
    · rw [sharedLock, update_release hparent]
      exact hnext

theorem ends_enterShared
    (hnext : machine.Ends i (next ())
      { s with diskLocks := sharedLock i target.inodeBlock } Post) :
    machine.Ends i (call (.lockShared target.inodeBlock) >>= fun _ =>
        unlockParent target >>= next) s Post := by
  rcases hholding with ⟨hroot, hlocks⟩ | ⟨hroot, hparent, hlocks⟩
  · rw [show s = { s with diskLocks := noLocks } by rw [← hlocks]]
    refine ends_call (exec_lockShared rfl) ?_
    rw [unlockParent, if_neg (not_not.mpr hroot)]
    exact hnext
  · rw [show s = { s with
      diskLocks := sharedLock i target.parentInodeBlock } by rw [← hlocks]]
    refine ends_call (exec_lockShared (Function.update_of_ne hparent.symm _ _)) ?_
    rw [unlockParent, if_pos hroot]
    refine ends_call (exec_unlockShared ?_) ?_
    · rw [Function.update_of_ne hparent, sharedLock, Function.update_self]
    · rw [sharedLock, update_release hparent]
      exact hnext

end Enter

end FileServer
end Eecs482
