import Eecs482.FileServerHandlers

/-!
# What the handlers call

Looking names up takes shared locks and reads the disk, nothing else.  Only the
last step of a handler responds, with a header that repeats the words the
handler was given.
-/

namespace Eecs482
namespace FileServer

/-- The calls of a lookup. -/
def FsCall.Reads : FsCall → Prop
  | .lockShared _ | .unlockShared _ | .diskReadblock _ _ => True
  | _ => False

/-- The call is about the queue of free blocks. -/
def FsCall.Queues : FsCall → Prop
  | .lockFree | .unlockFree | .freeEmpty | .freeFront | .freePop | .freePush _ => True
  | _ => False

/-- The call writes the disk. -/
def FsCall.Writes : FsCall → Prop
  | .diskWriteblock _ _ _ => True
  | _ => False

/-- The call sends a response. -/
def FsCall.Answers : FsCall → Prop
  | .sendResponse _ => True
  | _ => False

/-- A response sent by the call satisfies `P`. -/
def FsCall.Responds (P : List Byte → Prop) : FsCall → Prop
  | .sendResponse message => P message
  | _ => True

/-- The call is not a response. -/
abbrev FsCall.Silent : FsCall → Prop :=
  FsCall.Responds fun _ => False

variable {P : List Byte → Prop}

theorem FsCall.responds_of_reads {op : FsCall} (hreads : op.Reads) :
    op.Responds P := by
  cases op <;> trivial

theorem FsCall.responds_of_silent {op : FsCall} (hsilent : op.Silent) :
    op.Responds P := by
  cases op <;> trivial

theorem FsCall.responds_of_queues {op : FsCall} (hqueues : op.Queues) :
    op.Responds P := by
  cases op <;> trivial

theorem FsCall.not_writes_of_reads {op : FsCall} (hreads : op.Reads) :
    ¬op.Writes := by
  cases op <;> first | exact id | exact hreads.elim

theorem FsCall.not_writes_of_queues {op : FsCall} (hqueues : op.Queues) :
    ¬op.Writes := by
  cases op <;> first | exact id | exact hqueues.elim

theorem FsCall.not_answers_of_silent {op : FsCall} (hsilent : op.Silent) :
    ¬op.Answers := by
  cases op <;> first | exact id | exact fun _ => hsilent

theorem calls_call {Q : FsCall → Prop} {op : FsCall} (hop : Q op) :
    Prog.Calls Q (call op) :=
  Prog.calls_perform hop

/-! ## Lookups -/

theorem calls_checkBlocks
    (inode : FsInode) (name : Name) (remaining k : ℕ) (result : TargetInode)
    (output : Option Entries) :
    (checkBlocks inode name remaining k result output).Calls FsCall.Reads := by
  induction remaining generalizing k result output with
  | zero => trivial
  | succ remaining ih =>
      refine Prog.Calls.bind (calls_call trivial) fun entries => ?_
      split
      · trivial
      · exact ih _ _ _

theorem calls_traverseDirLoop
    (user : Name) (names : Path) (result : TargetInode) (inode : FsInode)
    (b : BlockNo) :
    (traverseDirLoop user names result inode b).Calls FsCall.Reads := by
  induction names generalizing result inode b with
  | nil => trivial
  | cons name rest ih =>
      refine Prog.Calls.bind (calls_checkBlocks _ _ _ _ _ _) fun found => ?_
      dsimp only
      split
      · trivial
      · refine Prog.Calls.bind (calls_call trivial) fun _ => ?_
        refine Prog.Calls.bind (calls_call trivial) fun _ => ?_
        refine Prog.Calls.bind (calls_call trivial) fun block => ?_
        split
        · trivial
        · exact ih _ _ _

theorem calls_traverseDir (user : Name) (path : Path) :
    (traverseDir user path).Calls FsCall.Reads := by
  unfold traverseDir
  dsimp only
  split
  · trivial
  · refine Prog.Calls.bind (calls_call trivial) fun _ => ?_
    exact Prog.Calls.bind (calls_call trivial) fun block =>
      calls_traverseDirLoop _ _ _ _ _

theorem calls_unlockParent (target : TargetInode) :
    (unlockParent target).Calls FsCall.Reads := by
  unfold unlockParent
  split
  · exact calls_call trivial
  · trivial

theorem calls_readLocked (user : Name) (blockId : ℕ) (target : TargetInode) :
    (readLocked user blockId target).Calls FsCall.Reads := by
  refine Prog.Calls.bind (calls_unlockParent target) fun _ => ?_
  refine Prog.Calls.bind (calls_call trivial) fun block => ?_
  dsimp only
  split
  · trivial
  · exact Prog.Calls.bind (calls_call trivial) fun _ => trivial

/-! ## Edits -/

theorem silent_of_reads {α : Type} {program : FsProg α}
    (hcalls : program.Calls FsCall.Reads) : program.Calls FsCall.Silent :=
  hcalls.mono fun _ => FsCall.responds_of_reads

theorem silent_of_queues {α : Type} {program : FsProg α}
    (hcalls : program.Calls FsCall.Queues) : program.Calls FsCall.Silent :=
  hcalls.mono fun _ => FsCall.responds_of_queues

theorem calls_writeLocked
    (user : Name) (blockId : ℕ) (data : Block) (target : TargetInode) :
    (writeLocked user blockId data target).Calls FsCall.Silent := by
  refine Prog.Calls.bind (silent_of_reads (calls_unlockParent target)) fun _ => ?_
  refine Prog.Calls.bind (calls_call trivial) fun block => ?_
  dsimp only
  split
  · trivial
  split
  · refine Prog.Calls.bind (calls_call trivial) fun _ => ?_
    refine Prog.Calls.bind (calls_call trivial) fun empty => ?_
    split
    · exact Prog.Calls.bind (calls_call trivial) fun _ => trivial
    · refine Prog.Calls.bind (calls_call trivial) fun newDataBlock => ?_
      refine Prog.Calls.bind (calls_call trivial) fun _ => ?_
      refine Prog.Calls.bind (calls_call trivial) fun _ => ?_
      refine Prog.Calls.bind (calls_call trivial) fun _ => ?_
      exact Prog.Calls.bind (calls_call trivial) fun _ => trivial
  · exact Prog.Calls.bind (calls_call trivial) fun _ => trivial

theorem calls_returnEmptyBlock (block : BlockNo) :
    (returnEmptyBlock block).Calls FsCall.Queues := by
  refine Prog.Calls.bind (calls_call trivial) fun _ => ?_
  exact Prog.Calls.bind (calls_call trivial) fun _ => calls_call trivial

theorem calls_growDirectory
    (parentInode : FsInode) (dirBlock newInodeBlock : BlockNo) :
    (growDirectory parentInode dirBlock newInodeBlock).Calls FsCall.Queues := by
  refine Prog.Calls.bind (calls_call trivial) fun _ => ?_
  split
  · refine Prog.Calls.bind (calls_call trivial) fun empty => ?_
    split
    · refine Prog.Calls.bind (calls_call trivial) fun _ => ?_
      exact Prog.Calls.bind (calls_call trivial) fun _ => trivial
    · refine Prog.Calls.bind (calls_call trivial) fun dirBlock => ?_
      refine Prog.Calls.bind (calls_call trivial) fun _ => ?_
      exact Prog.Calls.bind (calls_call trivial) fun _ => trivial
  · exact Prog.Calls.bind (calls_call trivial) fun _ => trivial

theorem calls_createLocked
    (stack : Stack) (type : Byte) (user newFileName : Name)
    (newInodeBlock : BlockNo) (target : TargetInode) :
    (createLocked stack type user newFileName newInodeBlock target).Calls
      FsCall.Silent := by
  refine Prog.Calls.bind (silent_of_reads (calls_unlockParent target)) fun _ => ?_
  refine Prog.Calls.bind (calls_call trivial) fun block => ?_
  dsimp only
  split
  · exact Prog.Calls.bind (silent_of_queues (calls_returnEmptyBlock _)) fun _ => trivial
  refine Prog.Calls.bind (silent_of_reads (calls_checkBlocks _ _ _ _ _ _))
    fun found => ?_
  split
  · exact Prog.Calls.bind (silent_of_queues (calls_returnEmptyBlock _)) fun _ => trivial
  refine Prog.Calls.bind (silent_of_queues (calls_growDirectory _ _ _)) fun grown => ?_
  split
  · trivial
  · refine Prog.Calls.bind (calls_call trivial) fun _ => ?_
    split
    · exact Prog.Calls.bind (calls_call trivial) fun _ => trivial
    · refine Prog.Calls.bind (calls_call trivial) fun _ => ?_
      exact Prog.Calls.bind (calls_call trivial) fun _ => trivial

theorem calls_deleteChild
    (user : Name) (target info : TargetInode) (parentInode : FsInode)
    (parentEntries : Entries) :
    (deleteChild user target info parentInode parentEntries).Calls
      FsCall.Silent := by
  refine Prog.Calls.bind (calls_call trivial) fun block => ?_
  dsimp only
  split
  · trivial
  split
  · refine Prog.Calls.bind (calls_call trivial) fun _ => ?_
    refine Prog.Calls.bind (calls_call trivial) fun _ => ?_
    refine Prog.Calls.bind (calls_call trivial) fun _ => ?_
    exact Prog.Calls.bind (calls_call trivial) fun _ => trivial
  · exact Prog.Calls.bind (calls_call trivial) fun _ => trivial

theorem calls_deleteLocked
    (stack : Stack) (user targetName : Name) (target : TargetInode) :
    (deleteLocked stack user targetName target).Calls FsCall.Silent := by
  refine Prog.Calls.bind (silent_of_reads (calls_unlockParent target)) fun _ => ?_
  refine Prog.Calls.bind (calls_call trivial) fun block => ?_
  dsimp only
  split
  · trivial
  refine Prog.Calls.bind (silent_of_reads (calls_checkBlocks _ _ _ _ _ _))
    fun found => ?_
  split
  · trivial
  refine Prog.Calls.bind (calls_call trivial) fun _ => ?_
  refine Prog.Calls.bind (calls_deleteChild _ _ _ _ _) fun deleted => ?_
  exact Prog.Calls.bind (calls_call trivial) fun _ => trivial

theorem calls_pushBlocks (blocks : List BlockNo) :
    (pushBlocks blocks).Calls FsCall.Silent := by
  induction blocks with
  | nil => trivial
  | cons b rest ih => exact Prog.Calls.bind (calls_call trivial) fun _ => ih

/-! ## Writes are answered -/

section Writes

variable {α β : Type} {Q : β → Prop} {program : FsProg α} {f : α → FsProg β}

theorem earns_after_reads
    (hcalls : program.Calls FsCall.Reads)
    (hf : ∀ value, (f value).Earns FsCall.Writes Q) :
    (program >>= f).Earns FsCall.Writes Q :=
  .after (hcalls.mono fun _ => FsCall.not_writes_of_reads) hf

theorem earns_after_queues
    (hcalls : program.Calls FsCall.Queues)
    (hf : ∀ value, (f value).Earns FsCall.Writes Q) :
    (program >>= f).Earns FsCall.Writes Q :=
  .after (hcalls.mono fun _ => FsCall.not_writes_of_queues) hf

/-- The directory block is written only when the request is carried out. -/
theorem earns_createLocked
    (stack : Stack) (type : Byte) (user newFileName : Name)
    (newInodeBlock : BlockNo) (target : TargetInode) :
    (createLocked stack type user newFileName newInodeBlock target).Earns
      FsCall.Writes (· = true) := by
  unfold createLocked
  apply earns_after_reads (calls_unlockParent target)
  intro _
  apply earns_after_reads (by exact calls_call trivial)
  intro block
  dsimp only
  split
  · exact earns_after_queues (calls_returnEmptyBlock _) fun _ => trivial
  apply earns_after_reads (calls_checkBlocks _ _ _ _ _ _)
  intro found
  split
  · exact earns_after_queues (calls_returnEmptyBlock _) fun _ => trivial
  apply earns_after_queues (calls_growDirectory _ _ _)
  intro grown
  split
  · trivial
  · apply Prog.Earns.of_returns
    apply Prog.Returns.bind
    intro _
    split
    · apply Prog.Returns.bind
      intro _
      rfl
    · apply Prog.Returns.bind
      intro _
      apply Prog.Returns.bind
      intro _
      rfl

/-- After its test `deleteChild` carries the request out. -/
theorem deleteChild_split
    (user : Name) (target info : TargetInode) (parentInode : FsInode)
    (parentEntries : Entries) :
    ∃ rest : Block → FsProg (Option (FsInode × BlockNo)),
      (∀ block, (rest block).Returns (·.isSome)) ∧
      deleteChild user target info parentInode parentEntries =
        call (.diskReadblock info.inodeBlock false) >>= fun block =>
          if cString (asInode block).owner ≠ user ∨
              ((asInode block).type = dirType ∧ (asInode block).size > 0) then
            return none
          else rest block := by
  unfold deleteChild
  dsimp only
  refine ⟨_, ?_, rfl⟩
  intro block
  split
  · apply Prog.Returns.bind
    intro _
    apply Prog.Returns.bind
    intro _
    apply Prog.Returns.bind
    intro _
    apply Prog.Returns.bind
    intro _
    rfl
  · apply Prog.Returns.bind
    intro _
    rfl

theorem earns_deleteChild
    (user : Name) (target info : TargetInode) (parentInode : FsInode)
    (parentEntries : Entries) :
    (deleteChild user target info parentInode parentEntries).Earns
      FsCall.Writes (·.isSome) := by
  obtain ⟨rest, hrest, heq⟩ :=
    deleteChild_split user target info parentInode parentEntries
  rw [heq]
  apply earns_after_reads (by exact calls_call trivial)
  intro block
  split
  · trivial
  · exact .of_returns (hrest block)

theorem earns_deleteLocked
    (stack : Stack) (user targetName : Name) (target : TargetInode) :
    (deleteLocked stack user targetName target).Earns
      FsCall.Writes (·.isSome) := by
  unfold deleteLocked
  apply earns_after_reads (calls_unlockParent target)
  intro _
  apply earns_after_reads (by exact calls_call trivial)
  intro block
  dsimp only
  split
  · trivial
  apply earns_after_reads (calls_checkBlocks _ _ _ _ _ _)
  intro found
  split
  · trivial
  apply Prog.Earns.after (by exact calls_call id)
  intro _
  apply Prog.Earns.bind (earns_deleteChild _ _ _ _ _)
  · intro deleted hdeleted
    apply Prog.Returns.bind
    intro _
    exact hdeleted
  · intro deleted
    exact .after (by exact calls_call id) fun _ => trivial

theorem earns_writeLocked
    (user : Name) (blockId : ℕ) (data : Block) (target : TargetInode) :
    (writeLocked user blockId data target).Earns FsCall.Writes (· = true) := by
  unfold writeLocked
  apply earns_after_reads (calls_unlockParent target)
  intro _
  apply earns_after_reads (by exact calls_call trivial)
  intro block
  dsimp only
  split
  · trivial
  split
  · apply earns_after_queues (by exact calls_call trivial)
    intro _
    apply earns_after_queues (by exact calls_call trivial)
    intro empty
    split
    · exact earns_after_queues (by exact calls_call trivial) fun _ => trivial
    · apply Prog.Earns.of_returns
      apply Prog.Returns.bind
      intro newDataBlock
      apply Prog.Returns.bind
      intro _
      apply Prog.Returns.bind
      intro _
      apply Prog.Returns.bind
      intro _
      apply Prog.Returns.bind
      intro _
      rfl
  · apply Prog.Earns.of_returns
    apply Prog.Returns.bind
    intro _
    rfl

end Writes

end FileServer
end Eecs482
