import Eecs482.FileServerAlone

/-!
# When a handler running alone answers

Where the conditions of a request hold, its handler gets through to the
response unless it runs out of space: of free blocks, or of data blocks of the
directory.
-/

namespace Eecs482
namespace FileServer

open Machine

variable {i : ℕ} {s : Server} {α : Type} {user name : Name} {path : Path}
variable {p : BlockNo}

/-- Thread `i` has sent a response. -/
def Responded (i : ℕ) (s : Server) : Prop :=
  ∃ message, Event.respond i message ∈ s.events

/-- No lock is held and nothing has been sent by thread `i`. -/
structure AtRest (i : ℕ) (s : Server) : Prop where
  locks : s.diskLocks = noLocks
  freeLock : s.freeBlockLock = none
  silent : ¬Responded i s

/-! ## The end of a handler -/

/-- Thread `i` has answered its request in state `s`. -/
structure RespondedFrom (i : ℕ) (s t : Server) : Prop where
  responded : Responded i t
  disk : t.disk = s.disk
  freeBlocks : t.freeBlocks = s.freeBlocks

theorem ends_respondFrom (message : List Byte) :
    machine.Ends i (call (.sendResponse message) >>= fun _ => call .close) s
      (fun _ t => RespondedFrom i s t) :=
  ends_call rfl (Ends.call rfl (Ends.ret
    ⟨⟨message, by simp [Server.log]⟩, rfl, rfl⟩))

theorem ends_respond (message : List Byte) :
    machine.Ends i (call (.sendResponse message) >>= fun _ => call .close) s
      (fun _ t => Responded i t) :=
  (ends_respondFrom message).imp fun _ _ h => h.responded

theorem ends_close
    {t : Server} (hrest : AtRest i s) (hevents : t.events = s.events) :
    machine.Ends i (call .close) t (fun _ t => ¬Responded i t) := by
  refine Ends.call rfl (Ends.ret ?_)
  rintro ⟨message, hmem⟩
  exact hrest.silent ⟨message, by simpa [Server.log, hevents] using hmem⟩

theorem ends_lock
    {b : BlockNo} {next : Unit → FsProg α} {Post : α → Server → Prop}
    (hlock : s.diskLocks b = {})
    (hnext : machine.Ends i (next ()) { s with
      diskLocks := Function.update s.diskLocks b { writer := some i } } Post) :
    machine.Ends i (call (.lock b) >>= next) s Post :=
  ends_call (exec_lock hlock) hnext

theorem ends_unlock
    {b : BlockNo} {next : Unit → FsProg α} {Post : α → Server → Prop}
    (hlock : (s.diskLocks b).writer = some i)
    (hnext : machine.Ends i (next ())
      (s.setLock b { s.diskLocks b with writer := none }) Post) :
    machine.Ends i (call (.unlock b) >>= next) s Post :=
  ends_call (by simp [Server.exec, hlock]) hnext

theorem ends_unlockShared
    {b : BlockNo} {next : Unit → FsProg α} {Post : α → Server → Prop}
    (hlock : i ∈ (s.diskLocks b).readers)
    (hnext : machine.Ends i (next ()) (s.setLock b
      { s.diskLocks b with readers := (s.diskLocks b).readers.erase i }) Post) :
    machine.Ends i (call (.unlockShared b) >>= next) s Post :=
  ends_call (by simp [Server.exec, hlock]) hnext

theorem ends_lockFree
    {next : Unit → FsProg α} {Post : α → Server → Prop}
    (hfree : s.freeBlockLock = none)
    (hnext : machine.Ends i (next ()) { s with freeBlockLock := some i } Post) :
    machine.Ends i (call .lockFree >>= next) s Post :=
  ends_call (by simp [Server.exec, hfree]) hnext

theorem ends_unlockFree
    {next : Unit → FsProg α} {Post : α → Server → Prop}
    (hfree : s.freeBlockLock = some i)
    (hnext : machine.Ends i (next ()) { s with freeBlockLock := none } Post) :
    machine.Ends i (call .unlockFree >>= next) s Post :=
  ends_call (by simp [Server.exec, hfree]) hnext

theorem ends_takeFree
    {b : BlockNo} {free : List BlockNo} (hfree : s.freeBlocks = b :: free)
    {next : BlockNo → FsProg α} {Post : α → Server → Prop}
    (hnext : machine.Ends i (next b)
      { s with
        freeBlocks := free
        hands := Function.update s.hands i (b :: s.hands i) } Post) :
    machine.Ends i
      (call .freeFront >>= fun b => call .freePop >>= fun _ => next b) s
      Post := by
  have hfront : Server.exec i .freeFront s = some (b, s) := by
    simp [Server.exec, hfree]
  have hpop : Server.exec i .freePop s = some ((), { s with
      freeBlocks := free
      hands := Function.update s.hands i (b :: s.hands i) }) := by
    simp [Server.exec, hfree, Server.setFree, Server.setHand]
  exact ends_call hfront (ends_call hpop hnext)

/-! ## Read and write -/

theorem blockIndex_eq_some
    {req : List Byte} {index : ℕ} (h : blockIndex req = some index) :
    ∃ blockStr rest, extractWord req = some (blockStr, rest) ∧
      isBlock blockStr = true ∧ stoi blockStr = index ∧
      index < fsMaxFileBlocks := by
  unfold blockIndex at h
  split at h
  · rename_i blockStr rest hword
    split at h
    · rename_i hvalid
      cases h
      exact ⟨blockStr, rest, hword, hvalid.1, rfl, hvalid.2⟩
    · cases h
  · cases h

/-- A read of a block of the file is answered. -/
theorem ends_handleReadblock
    {req : List Byte} {fields : RequestFields} {index : ℕ}
    (hrest : AtRest i s) (hwf : WellFormed s.disk)
    (hindex : blockIndex req = some index)
    (hpath : pathParser fields.pathname = some path)
    (hfile : OwnedFile s.disk fields.username path p)
    (hlt : index < (inodeAt s.disk p).size.toNat) :
    machine.Ends i (handleReadblock req fields >>= fun _ => call .close) s
      (fun _ t => Responded i t) := by
  obtain ⟨blockStr, rest, hword, hblock, rfl, hbound⟩ := blockIndex_eq_some hindex
  simp only [handleReadblock, hword, hblock, Bool.true_eq_false, if_false,
    if_neg (Nat.not_le.mpr hbound), hpath, Prog.bind_assoc, ge_iff_le]
  refine ends_traverseDir hrest.locks hwf hfile.resolved hfile.above
    fun target locks hvalid htarget hholding => ?_
  simp only [hvalid, Bool.true_eq_false, if_false, readLocked, Prog.bind_assoc]
  refine ends_enterShared (by exact hholding) ?_
  refine ends_read ?_
  have hinode : asInode (s.disk target.inodeBlock) = inodeAt s.disk p := by
    rw [htarget]
    rfl
  rw [hinode, if_neg (by
    rw [not_or, not_or, not_not, not_not]
    exact ⟨hfile.owner, hfile.file, Nat.not_le.mpr hlt⟩)]
  simp only [Prog.bind_assoc]
  refine ends_call rfl (ends_unlockShared ?_ (ends_respond _))
  rw [if_pos rfl, Server.commit_diskLocks]
  simp [sharedLock]

/-- A write below the end is answered, an append if a block is free. -/
theorem ends_handleWriteblock
    {req : List Byte} {fields : RequestFields} {data : Block} {index : ℕ}
    (hrest : AtRest i s) (hwf : WellFormed s.disk)
    (hindex : blockIndex req = some index)
    (hpath : pathParser fields.pathname = some path)
    (hfile : OwnedFile s.disk fields.username path p)
    (hle : index ≤ (inodeAt s.disk p).size.toNat) :
    machine.Ends i (handleWriteblock req fields data >>= fun _ => call .close) s
      (fun _ t => Responded i t ↔
        (index = (inodeAt s.disk p).size.toNat → s.freeBlocks ≠ [])) := by
  obtain ⟨blockStr, rest, hword, hblock, rfl, hbound⟩ := blockIndex_eq_some hindex
  simp only [handleWriteblock, hword, hblock, Bool.true_eq_false, if_false,
    if_neg (Nat.not_le.mpr hbound), hpath, Prog.bind_assoc, ge_iff_le]
  refine ends_traverseDir hrest.locks hwf hfile.resolved hfile.above
    fun target locks hvalid htarget hholding => ?_
  simp only [hvalid, Bool.true_eq_false, if_false, writeLocked, Prog.bind_assoc]
  refine ends_enter (by exact hholding) ?_
  refine ends_read ?_
  have hinode : asInode (s.disk target.inodeBlock) = inodeAt s.disk p := by
    rw [htarget]
    rfl
  have hwriter : (exclLock i target.inodeBlock target.inodeBlock).writer =
      some i := by
    simp [exclLock]
  rw [hinode, if_neg (by
    rw [not_or, not_or, not_not, not_not]
    exact ⟨hfile.owner, hfile.file, Nat.not_lt.mpr hle⟩)]
  by_cases hend : stoi blockStr = (inodeAt s.disk p).size.toNat
  · rw [if_pos hend]
    simp only [Prog.bind_assoc]
    refine ends_lockFree hrest.freeLock (ends_call rfl ?_)
    cases hfree : s.freeBlocks with
    | nil =>
        rw [if_pos (Or.inl (by simp))]
        simp only [Prog.bind_assoc]
        refine ends_unlockFree rfl (ends_unlock hwriter ?_)
        simp only [Bool.false_eq_true, if_false, Prog.pure_def, Prog.ret_bind]
        refine Ends.imp (ends_close hrest (by rfl)) fun _ t ht => ?_
        simpa [hend] using ht
    | cons b free =>
        rw [if_neg (by
          rw [not_or]
          exact ⟨by simp, by rw [← hend]; exact Nat.ne_of_lt hbound⟩)]
        simp only [Prog.bind_assoc]
        refine ends_takeFree rfl ?_
        refine ends_unlockFree rfl (ends_call rfl (ends_call rfl ?_))
        refine ends_unlock (by simpa [Server.setHand] using hwriter) ?_
        refine (ends_respond _).imp fun _ t ht => ?_
        simpa using ht
  · rw [if_neg hend]
    simp only [Prog.bind_assoc]
    refine ends_call rfl (ends_unlock (by simpa [Server.setHand] using hwriter) ?_)
    refine (ends_respond _).imp fun _ t ht => ?_
    simpa [hend] using ht

/-! ## Create -/

theorem createType_eq_some
    {req : List Byte} {type : Byte} (h : createType req = some type) :
    ∃ rest, extractWord req = some ([type], rest) ∧
      (type = fileType ∨ type = dirType) := by
  unfold createType at h
  split at h
  · rename_i type' rest hword
    split at h
    · rename_i hvalid
      cases h
      exact ⟨rest, hword, hvalid⟩
    · cases h
  · cases h

/-- There is room for one more entry: an unused one that the search sees, or a
second free block for a directory that may still grow. -/
def RoomForEntry (disk : Disk) (inode : FsInode) (free : List BlockNo) : Prop :=
  SpareSlot disk inode ∨
    (2 ≤ free.length ∧ inode.size.toNat < fsMaxFileBlocks)

/-- The second reservation of `handle_create`, for an entry that is to go into
`dirBlock`, or into a new block where that is the mark for none. -/
theorem ends_growDirectory
    {parentInode : FsInode} {dirBlock n : BlockNo}
    (hfreeLock : s.freeBlockLock = none)
    {next : Option (BlockNo × Option FsInode) → FsProg α}
    {Post : α → Server → Prop}
    (hslot : dirBlock ≠ noEmptyBlock →
      machine.Ends i (next (some (dirBlock, none))) s Post)
    (hfull : dirBlock = noEmptyBlock →
      s.freeBlocks = [] ∨ (parentInode.size + 1).toNat > fsMaxFileBlocks →
      machine.Ends i (next none)
        ((s.setFree (s.freeBlocks ++ [n])).setHand i ((s.hands i).erase n)) Post)
    (hgrown : dirBlock = noEmptyBlock →
      (parentInode.size + 1).toNat ≤ fsMaxFileBlocks →
      ∀ x free, s.freeBlocks = x :: free →
      machine.Ends i (next (some (x, some (parentInode.append x))))
        ((s.setFree free).setHand i (x :: s.hands i)) Post) :
    machine.Ends i (growDirectory parentInode dirBlock n >>= next) s Post := by
  simp only [growDirectory, Prog.bind_assoc]
  apply ends_lockFree hfreeLock
  by_cases hnone : dirBlock = noEmptyBlock
  · rw [if_pos hnone]
    simp only [Prog.bind_assoc]
    apply ends_call rfl
    by_cases hspace : s.freeBlocks.isEmpty = true ∨
        (parentInode.size + 1).toNat > fsMaxFileBlocks
    · rw [if_pos hspace]
      simp only [Prog.bind_assoc]
      apply ends_call rfl
      apply ends_unlockFree rfl
      have hend := hfull hnone (hspace.imp_left List.isEmpty_iff.mp)
      simpa only [Server.setFree, Server.setHand, ← hfreeLock, Prog.pure_def,
        Prog.ret_bind] using hend
    · rw [if_neg hspace]
      simp only [Prog.bind_assoc]
      rw [not_or, List.isEmpty_iff, Nat.not_lt] at hspace
      obtain ⟨x, free, hfree⟩ := List.exists_cons_of_ne_nil hspace.1
      apply ends_takeFree (by exact hfree)
      apply ends_unlockFree rfl
      have hend := hgrown hnone hspace.2 x free hfree
      simpa only [Server.setFree, Server.setHand, ← hfreeLock, Prog.pure_def,
        Prog.ret_bind] using hend
  · rw [if_neg hnone]
    simp only [Prog.bind_assoc]
    apply ends_unlockFree rfl
    simpa only [← hfreeLock, Prog.pure_def, Prog.ret_bind] using hslot hnone

/-- How a create has ended whose checks passed: `found` is what the search for
the name reported. -/
inductive CreateEnd
    (stack : Stack) (type : Byte) (user name : Name) (p : BlockNo)
    (found : TargetInode × Option Entries) (i : ℕ) (s t : Server) : Prop
  | noInode
      (hfree : s.freeBlocks = [])
      (hsilent : ¬Responded i t)
  | slot
      {n : BlockNo} {free : List BlockNo} (hfree : s.freeBlocks = n :: free)
      (hslot : found.1.firstEmptyBlock ≠ noEmptyBlock)
      (hdisk : t.disk = Function.update
        (Function.update s.disk n (ofInode (newInode stack type user)))
        found.1.firstEmptyBlock
        (ofEntries (newEntries (found.2.getD stack.parentEntries) false
          found.1.firstEmptyEntryIndex name n)))
      (hqueue : t.freeBlocks = free)
      (hresponded : Responded i t)
  | full
      {n : BlockNo} {free : List BlockNo} (hfree : s.freeBlocks = n :: free)
      (hnone : found.1.firstEmptyBlock = noEmptyBlock)
      (hspace : free = [] ∨ fsMaxFileBlocks ≤ (inodeAt s.disk p).size.toNat)
      (hsilent : ¬Responded i t)
  | grown
      {n x : BlockNo} {free : List BlockNo}
      (hfree : s.freeBlocks = n :: x :: free)
      (hnone : found.1.firstEmptyBlock = noEmptyBlock)
      (hroom : (inodeAt s.disk p).size.toNat < fsMaxFileBlocks)
      (hqueue : t.freeBlocks = free)
      (hresponded : Responded i t)

/-- A create in a directory of the user under a new name. -/
theorem ends_handleCreate_end
    (stack : Stack) {req : List Byte} {fields : RequestFields} {type : Byte}
    (hrest : AtRest i s) (hwf : WellFormed s.disk)
    (htype : createType req = some type)
    (hpath : pathParser fields.pathname = some (path ++ [name]))
    (hdir : EditableDir s.disk fields.username path p)
    (habsent : childOf s.disk p name = none) :
    machine.Ends i (handleCreate stack req fields >>= fun _ => call .close) s
      (fun _ t => CreateEnd stack type fields.username name p
        (scan s.disk (inodeAt s.disk p) {} name (some stack.parentEntries))
        i s t) := by
  obtain ⟨rest, hword, hvalidType⟩ := createType_eq_some htype
  have htypes : ¬([type] ≠ [fileType] ∧ [type] ≠ [dirType]) := by
    rcases hvalidType with rfl | rfl <;> simp
  simp only [handleCreate, hword, if_neg htypes, hpath, Prog.bind_assoc,
    List.dropLast_concat]
  apply ends_lockFree hrest.freeLock
  apply ends_call rfl
  by_cases hempty : s.freeBlocks = []
  · rw [if_pos (by rw [hempty]; rfl)]
    apply ends_unlockFree rfl
    apply Ends.imp (ends_close hrest (by rfl))
    intro _ t hsilent
    exact .noInode hempty hsilent
  · rw [if_neg (by rwa [List.isEmpty_iff])]
    simp only [Prog.bind_assoc]
    obtain ⟨n, free, hfree⟩ := List.exists_cons_of_ne_nil hempty
    apply ends_takeFree (by exact hfree)
    apply ends_unlockFree rfl
    refine ends_traverseDir (by exact hrest.locks) (by exact hwf)
      (by exact hdir.resolved) (by exact hdir.above)
      fun target locks hvalid htarget hholding => ?_
    simp only [hvalid, Bool.true_eq_false, if_false, createLocked,
      Prog.bind_assoc]
    apply ends_enter (by exact hholding)
    apply ends_read
    have hinode : asInode (s.disk target.inodeBlock) = inodeAt s.disk p := by
      rw [htarget]
      rfl
    have hmay : mayEdit (inodeAt s.disk p) fields.username = true := by
      rw [mayEdit, decide_eq_true_eq]
      exact ⟨hdir.owner, hdir.dir⟩
    have hwriter : (exclLock i target.inodeBlock target.inodeBlock).writer =
        some i := by
      simp [exclLock]
    rw [hinode, if_neg (by rw [hmay]; decide)]
    simp only [Prog.bind_assoc]
    apply ends_checkExistance
    have hpassed := scan_of_childOf_none hwf hdir.reach hdir.dir habsent {}
      (some stack.parentEntries)
    simp only [List.getLastD_concat]
    generalize hfound : scan s.disk (inodeAt s.disk p) {} name
      (some stack.parentEntries) = found at hpassed
    have hmiss : found.1.valid = false := hpassed.valid
    have hsize : ((inodeAt s.disk p).size + 1).toNat =
        (inodeAt s.disk p).size.toNat + 1 := by
      have hle := hwf.size_le p hdir.reach
      change _ ≤ 124 at hle
      simp only [UInt32.toNat_add, UInt32.reduceToNat]
      omega
    simp only [hmiss, Bool.false_eq_true, if_false, Prog.bind_assoc]
    apply ends_growDirectory rfl
    · intro hslot
      apply ends_call rfl
      apply ends_call rfl
      apply ends_unlock (by simpa [Server.setHand] using hwriter)
      apply Ends.imp (ends_respondFrom _)
      intro _ t ht
      apply CreateEnd.slot hfree hslot ?_ ?_ ht.responded
      · rw [ht.disk]
        simp [Server.setLock, Server.setHand, hfound]
      · rw [ht.freeBlocks]
        simp [Server.setLock, Server.setHand]
    · intro hnone hspace
      apply ends_unlock (by exact hwriter)
      simp only [Bool.false_eq_true, if_false, Prog.pure_def, Prog.ret_bind]
      apply Ends.imp (ends_close hrest (by rfl))
      intro _ t hsilent
      refine .full hfree hnone (hspace.imp_right fun hspace => ?_) hsilent
      rw [hsize] at hspace
      omega
    · intro hnone hroom x free' hspace
      apply ends_call rfl
      apply ends_call rfl
      apply ends_call rfl
      apply ends_unlock (by simpa [Server.setHand, Server.setFree] using hwriter)
      apply Ends.imp (ends_respondFrom _)
      intro _ t ht
      have hspace : free = x :: free' := hspace
      apply CreateEnd.grown (hspace ▸ hfree) hnone (by omega) ?_ ht.responded
      rw [ht.freeBlocks]
      simp [Server.setLock, Server.setHand, Server.setFree]

/-- A create in a directory of the user under a new name is answered if there
is room for the inode and for the entry. -/
theorem ends_handleCreate
    {stack : Stack} {req : List Byte} {fields : RequestFields} {type : Byte}
    (hrest : AtRest i s) (hwf : WellFormed s.disk)
    (htype : createType req = some type)
    (hpath : pathParser fields.pathname = some (path ++ [name]))
    (hdir : EditableDir s.disk fields.username path p)
    (habsent : childOf s.disk p name = none) :
    machine.Ends i (handleCreate stack req fields >>= fun _ => call .close) s
      (fun _ t => Responded i t ↔ s.freeBlocks ≠ [] ∧
        RoomForEntry s.disk (inodeAt s.disk p) s.freeBlocks) := by
  have hfull := scan_full_iff hwf hdir.reach hdir.dir habsent
    stack.parentEntries
  apply (ends_handleCreate_end stack hrest hwf htype hpath hdir habsent).imp
  intro _ t hend
  unfold RoomForEntry
  cases hend with
  | noInode hfree hsilent =>
      exact iff_of_false hsilent fun h => h.1 hfree
  | slot hfree hslot _ _ hresponded =>
      apply iff_of_true hresponded
      rw [hfree]
      exact ⟨List.cons_ne_nil _ _, Or.inl (not_not.mp (mt hfull.mpr hslot))⟩
  | full hfree hnone hspace hsilent =>
      apply iff_of_false hsilent
      rintro ⟨_, hspare | ⟨htwo, hroom⟩⟩
      · exact hfull.mp hnone hspare
      · rcases hspace with rfl | hlimit
        · simp [hfree] at htwo
        · omega
  | grown hfree hnone hroom _ hresponded =>
      apply iff_of_true hresponded
      rw [hfree]
      exact ⟨List.cons_ne_nil _ _, Or.inr ⟨by simp, hroom⟩⟩

/-! ## Delete -/

theorem ends_pushBlocks
    (blocks : List BlockNo) {next : Unit → FsProg α} {Post : α → Server → Prop}
    (hnext : ∀ t, t.diskLocks = s.diskLocks →
      t.freeBlockLock = s.freeBlockLock → machine.Ends i (next ()) t Post) :
    machine.Ends i (pushBlocks blocks >>= next) s Post := by
  induction blocks generalizing s with
  | nil => exact hnext s rfl rfl
  | cons b rest ih =>
      simp only [pushBlocks, Prog.bind_assoc]
      exact ends_call rfl (ih hnext)

theorem ends_deleteChild
    {target info : TargetInode} {parentInode : FsInode} {entries : Entries}
    (hfreeLock : s.freeBlockLock = none)
    (howner : ownerAt s.disk info.inodeBlock = user)
    (hempty : ¬((inodeAt s.disk info.inodeBlock).type = dirType ∧
      (inodeAt s.disk info.inodeBlock).size > 0))
    {next : Option (FsInode × BlockNo) → FsProg α} {Post : α → Server → Prop}
    (hnext : ∀ deleted t, t.diskLocks = s.diskLocks → t.freeBlockLock = none →
      machine.Ends i (next (some deleted)) t Post) :
    machine.Ends i
      (deleteChild user target info parentInode entries >>= next) s Post := by
  simp only [deleteChild, Prog.bind_assoc]
  refine ends_read ?_
  rw [if_neg (by
    rw [not_or, not_not]
    exact ⟨howner, hempty⟩)]
  split
  · simp only [Prog.bind_assoc]
    refine ends_call rfl (ends_lockFree ?_ (ends_call rfl (ends_unlockFree rfl ?_)))
    · simpa [Server.setHand] using hfreeLock
    · exact hnext _ _ (by simp [Server.setFree, Server.setHand]) rfl
  · simp only [Prog.bind_assoc]
    refine ends_call rfl (hnext _ _ ?_ ?_)
    · simp [Server.setHand]
    · simpa [Server.setHand] using hfreeLock

theorem ends_handleDelete
    {stack : Stack} {fields : RequestFields} {c : BlockNo}
    (hrest : AtRest i s) (hwf : WellFormed s.disk)
    (hpath : pathParser fields.pathname = some (path ++ [name]))
    (hdir : EditableDir s.disk fields.username path p)
    (hchild : childOf s.disk p name = some c)
    (howner : ownerAt s.disk c = fields.username)
    (hempty : ¬((inodeAt s.disk c).type = dirType ∧
      (inodeAt s.disk c).size > 0)) :
    machine.Ends i (handleDelete stack fields >>= fun _ => call .close) s
      (fun _ t => Responded i t) := by
  simp only [handleDelete, hpath, Prog.bind_assoc, List.dropLast_concat,
    List.getLastD_concat]
  refine ends_traverseDir hrest.locks hwf hdir.resolved hdir.above
    fun target locks hvalid htarget hholding => ?_
  simp only [hvalid, Bool.true_eq_false, if_false, deleteLocked,
    Prog.bind_assoc]
  refine ends_enter (by exact hholding) ?_
  refine ends_read ?_
  have hinode : asInode (s.disk target.inodeBlock) = inodeAt s.disk p := by
    rw [htarget]
    rfl
  have hmay : mayEdit (inodeAt s.disk p) fields.username = true := by
    rw [mayEdit, decide_eq_true_eq]
    exact ⟨hdir.owner, hdir.dir⟩
  rw [hinode, if_neg (by rw [hmay]; decide)]
  simp only [Prog.bind_assoc]
  refine ends_checkExistance _ _ ?_
  obtain ⟨k, j, _, _, hentry, hscan⟩ := scan_of_childOf_some hwf hdir.reach
    hdir.dir hchild {} (some stack.parentEntries)
  subst hentry
  have hne : (entryAt s.disk (inodeAt s.disk p) k j).inodeBlock ≠
      target.inodeBlock := by
    rw [htarget]
    exact hwf.child_ne hdir.reach hchild
  rw [hscan]
  simp only [foundAt, Bool.true_eq_false, if_false, Prog.bind_assoc]
  refine ends_lock (by exact exclLock_of_ne hne) ?_
  refine ends_deleteChild (by exact hrest.freeLock) (by exact howner)
    (by exact hempty) fun deleted t hlocks hfreeLock => ?_
  refine ends_unlock (by rw [hlocks]; simp) (ends_unlock ?_ ?_)
  · simp [Server.setLock, hlocks, Function.update_of_ne hne.symm, exclLock]
  · simp only [Prog.bind_assoc]
    refine ends_lockFree hfreeLock (ends_pushBlocks _ fun u _ hfreeLock => ?_)
    exact ends_call rfl (ends_unlockFree hfreeLock (ends_respond _))

end FileServer
end Eecs482
