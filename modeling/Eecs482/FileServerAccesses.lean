import Eecs482.NotedProg
import Eecs482.FileServerMachine

/-!
# The accesses of the handlers

The handlers with a note for each access to an array, each size they read or
compute, each string they copy and each number they parse.  Without the notes
they are the handlers of the server.
-/

namespace Eecs482
namespace FileServer

/-- What a handler does between two calls that C++ does not check. -/
inductive Access
  /-- An index into `blocks` of an inode. -/
  | block (i : ℕ)
  /-- An index into an array of direntries. -/
  | entry (j : ℕ)
  /-- The size of an inode that was read or changed. -/
  | size (n : UInt32)
  /-- One is subtracted from a size. -/
  | decrement (n : UInt32)
  /-- `strcpy` to the name of a direntry. -/
  | copyName (name : Name)
  /-- `strcpy` to the owner of an inode. -/
  | copyOwner (username : Name)
  | stoi (str : Name)

/-- `stoi` finds a number in the string, and the number is an `int`. -/
def StoiReturns (str : Name) : Prop :=
  str ≠ [] ∧ str.all isDigit = true ∧ FileServer.stoi str < 2 ^ 31

/-- The access stays inside the array or the type. -/
def Access.InBounds : Access → Prop
  | .block i => i < fsMaxFileBlocks
  | .entry j => j < fsDirentries
  | .size n => n.toNat ≤ fsMaxFileBlocks
  | .decrement n => 0 < n.toNat
  | .copyName name => name.length ≤ fsMaxFileName
  | .copyOwner username => username.length ≤ fsMaxUserName
  | .stoi str => StoiReturns str

/-! ## The handlers with notes -/

namespace Noted

abbrev FsProg := Prog (fsInterface.noted Access)

variable {α : Type}

def call (op : FsCall) : FsProg (fsInterface.Answer op) :=
  (FileServer.call op).plain

def note (a : Access) : FsProg Unit :=
  Prog.note a

/-- A loop over the `FS_DIRENTRIES` entries of an array. -/
def noteEntries : FsProg Unit :=
  Prog.noteAll ((List.finRange fsDirentries).map fun j => .entry j.val)

/-- An inode is read from the disk. -/
def readInode (b : BlockNo) : FsProg FsInode := do
  let block ← call (.diskReadblock b false)
  note (.size (asInode block).size)
  return asInode block

def checkBlocks (inode : FsInode) (targetName : Name) :
    (remaining i : ℕ) → TargetInode → Option Entries →
      FsProg (TargetInode × Option Entries)
  | 0, _, result, output => return (result, output)
  | remaining + 1, i, result, output => do
      note (.block i)
      let block := inode.block i
      let entries ← call (.diskReadblock block false)
      noteEntries
      match checkEntries targetName i block (asEntries entries)
          (List.finRange fsDirentries) result output with
      | (true, result, output) => return (result, output)
      | (false, result, output) =>
          checkBlocks inode targetName remaining (i + 1) result output

def checkExistance
    (result : TargetInode) (inode : FsInode) (targetName : Name)
    (output : Option Entries) : FsProg (TargetInode × Option Entries) :=
  checkBlocks inode targetName inode.size.toNat 0 { result with valid := false }
    output

def traverseDirLoop (username : Name) :
    Path → TargetInode → FsInode → BlockNo → FsProg TargetInode
  | [], result, _, _ => return result
  | name :: rest, result, inode, dirBlock => do
      let (result, _) ← checkExistance result inode name none
      if result.valid = false ∨ rest = [] then
        return result
      else do
        call (.lockShared result.inodeBlock)
        call (.unlockShared dirBlock)
        let inode ← readInode result.inodeBlock
        let result := { result with parentInodeBlock := result.inodeBlock }
        if cString inode.owner ≠ username ∨ inode.type ≠ dirType then
          return { result with valid := false }
        else
          traverseDirLoop username rest result inode result.inodeBlock

def traverseDir (username : Name) (pathNames : Path) : FsProg TargetInode :=
  let result : TargetInode := { valid := true }
  if pathNames = [] then
    return result
  else do
    call (.lockShared 0)
    let inode ← readInode 0
    traverseDirLoop username pathNames result inode 0

def unlockParent (target : TargetInode) : FsProg Unit :=
  (FileServer.unlockParent target).plain

def returnEmptyBlock (block : BlockNo) : FsProg Unit :=
  (FileServer.returnEmptyBlock block).plain

/-- `inode.blocks[inode.size] = block; inode.size++;` -/
def append (inode : FsInode) (block : BlockNo) : FsProg FsInode := do
  note (.block inode.size.toNat)
  note (.size (inode.size + 1))
  return inode.append block

/-! ### FS_CREATE -/

def growDirectory (parentInode : FsInode) (dirBlock newInodeBlock : BlockNo) :
    FsProg (Option (BlockNo × Option FsInode)) := do
  call .lockFree
  if dirBlock = noEmptyBlock then do
    let empty : Bool ← call .freeEmpty
    if empty ∨ (parentInode.size + 1).toNat > fsMaxFileBlocks then do
      call (.freePush newInodeBlock)
      call .unlockFree
      return none
    else do
      let dirBlock ← call .freeFront
      call .freePop
      let parentInode ← append parentInode dirBlock
      call .unlockFree
      return some (dirBlock, some parentInode)
  else do
    call .unlockFree
    return some (dirBlock, none)

def newEntries
    (entries : Entries) (changeParent : Bool) (newEntry : Fin fsDirentries)
    (newFileName : Name) (newInodeBlock : BlockNo) : FsProg Entries := do
  noteEntries
  note (.entry newEntry.val)
  note (.copyName newFileName)
  return FileServer.newEntries entries changeParent newEntry newFileName newInodeBlock

def createLocked
    (stack : Stack) (type : Byte) (username newFileName : Name)
    (newInodeBlock : BlockNo) (target : TargetInode) : FsProg Bool := do
  unlockParent target
  let parentInode ← readInode target.inodeBlock
  if mayEdit parentInode username = false then do
    returnEmptyBlock newInodeBlock
    return false
  else do
    let (info, output) ← checkExistance {} parentInode newFileName
      (some stack.parentEntries)
    if info.valid then do
      returnEmptyBlock newInodeBlock
      return false
    else do
      let grown ← growDirectory parentInode info.firstEmptyBlock newInodeBlock
      match grown with
      | none => return false
      | some (dirBlock, changed) => do
          let entries ← newEntries (output.getD stack.parentEntries)
            changed.isSome info.firstEmptyEntryIndex newFileName newInodeBlock
          note (.copyOwner username)
          call (.diskWriteblock newInodeBlock
            (ofInode (newInode stack type username)) none)
          match changed with
          | none => do
              call (.diskWriteblock dirBlock (ofEntries entries)
                (some { attached := [newInodeBlock], detached := [] }))
              return true
          | some parentInode => do
              call (.diskWriteblock dirBlock (ofEntries entries) none)
              call (.diskWriteblock target.inodeBlock (ofInode parentInode)
                (some {
                  attached := [newInodeBlock, dirBlock], detached := [] }))
              return true

def handleCreate (stack : Stack) (req : List Byte) (fields : RequestFields) :
    FsProg Unit :=
  match extractWord req with
  | none => return
  | some (type, _) =>
      if type ≠ [fileType] ∧ type ≠ [dirType] then return
      else match pathParser fields.pathname with
      | none => return
      | some pathNames => do
          call .lockFree
          let empty : Bool ← call .freeEmpty
          if empty then
            call .unlockFree
          else do
            let newInodeBlock ← call .freeFront
            call .freePop
            call .unlockFree
            let newFileName := pathNames.getLastD []
            let target ← traverseDir fields.username pathNames.dropLast
            if target.valid = false then do
              call (.unlockShared target.parentInodeBlock)
              returnEmptyBlock newInodeBlock
            else do
              call (.lock target.inodeBlock)
              let created ← createLocked stack (type.headD 0) fields.username
                newFileName newInodeBlock target
              call (.unlock target.inodeBlock)
              if created then
                call (.sendResponse (responseHeader
                  [createWord, fields.username, fields.pathname, type]))
              else return

/-! ### FS_DELETE -/

/-- `size - 1` in the test of the loop, the blocks the loop moves, and
`size--`. -/
def removeBlock (inode : FsInode) (k : ℕ) : FsProg FsInode := do
  note (.decrement inode.size)
  Prog.noteAll ((List.range' k ((inode.size - 1).toNat - k)).flatMap fun i =>
    [.block i, .block (i + 1)])
  note (.decrement inode.size)
  note (.size (inode.size - 1))
  return inode.removeBlock k

def deleteChild
    (username : Name) (target info : TargetInode) (parentInode : FsInode)
    (parentEntries : Entries) : FsProg (Option (FsInode × BlockNo)) := do
  let fileInode ← readInode info.inodeBlock
  if cString fileInode.owner ≠ username ∨
      (fileInode.type = dirType ∧ fileInode.size > 0) then
    return none
  else do
    let index := info.firstEmptyEntryIndex
    note (.entry index.val)
    let parentEntryInodeBlock := (parentEntries index).inodeBlock
    let parentEntries : Entries := Function.update parentEntries index
      { parentEntries index with inodeBlock := 0 }
    noteEntries
    note (.block info.firstEmptyBlock.toNat)
    let currBlock := parentInode.block info.firstEmptyBlock.toNat
    let detached := fileInode.dataBlocks ++ [parentEntryInodeBlock]
    if ∀ i, (parentEntries i).inodeBlock = 0 then do
      let parentInode ← removeBlock parentInode info.firstEmptyBlock.toNat
      call (.diskWriteblock target.inodeBlock (ofInode parentInode)
        (some { attached := [], detached := currBlock :: detached }))
      call .lockFree
      call (.freePush currBlock)
      call .unlockFree
      return some (fileInode, parentEntryInodeBlock)
    else do
      call (.diskWriteblock currBlock (ofEntries parentEntries)
        (some { attached := [], detached := detached }))
      return some (fileInode, parentEntryInodeBlock)

def deleteLocked
    (stack : Stack) (username targetName : Name) (target : TargetInode) :
    FsProg (Option (FsInode × BlockNo)) := do
  unlockParent target
  let parentInode ← readInode target.inodeBlock
  if mayEdit parentInode username = false then
    return none
  else do
    let (info, output) ← checkExistance {} parentInode targetName
      (some stack.parentEntries)
    if info.valid = false then
      return none
    else do
      call (.lock info.inodeBlock)
      let deleted ← deleteChild username target info parentInode
        (output.getD stack.parentEntries)
      call (.unlock info.inodeBlock)
      return deleted

/-- The loop that pushes the blocks of a deleted file. -/
def pushBlocks (inode : FsInode) : FsProg Unit := do
  Prog.noteAll ((List.range inode.size.toNat).map .block)
  (FileServer.pushBlocks inode.dataBlocks).plain

def handleDelete (stack : Stack) (fields : RequestFields) : FsProg Unit :=
  match pathParser fields.pathname with
  | none => return
  | some pathNames => do
      let targetName := pathNames.getLastD []
      let target ← traverseDir fields.username pathNames.dropLast
      if target.valid = false then
        call (.unlockShared target.parentInodeBlock)
      else do
        call (.lock target.inodeBlock)
        let deleted ← deleteLocked stack fields.username targetName target
        call (.unlock target.inodeBlock)
        match deleted with
        | none => return
        | some (fileInode, parentEntryInodeBlock) => do
            call .lockFree
            pushBlocks fileInode
            call (.freePush parentEntryInodeBlock)
            call .unlockFree
            call (.sendResponse (responseHeader
              [deleteWord, fields.username, fields.pathname]))

/-! ### FS_READBLOCK -/

def readLocked (username : Name) (blockId : ℕ) (target : TargetInode) :
    FsProg (Option Block) := do
  unlockParent target
  let fileInode ← readInode target.inodeBlock
  if cString fileInode.owner ≠ username ∨ fileInode.type ≠ fileType ∨
      blockId ≥ fileInode.size.toNat then
    return none
  else do
    note (.block blockId)
    let data ← call (.diskReadblock (fileInode.block blockId) true)
    return some data

def handleReadblock (req : List Byte) (fields : RequestFields) : FsProg Unit :=
  match extractWord req with
  | none => return
  | some (blockStr, _) =>
      if isBlock blockStr = false then return
      else do
        note (.stoi blockStr)
        if stoi blockStr ≥ fsMaxFileBlocks then return
        else match pathParser fields.pathname with
        | none => return
        | some pathNames => do
            let target ← traverseDir fields.username pathNames
            if target.valid = false then
              call (.unlockShared target.parentInodeBlock)
            else do
              call (.lockShared target.inodeBlock)
              let data ← readLocked fields.username (stoi blockStr) target
              call (.unlockShared target.inodeBlock)
              match data with
              | none => return
              | some data =>
                  call (.sendResponse (responseHeader [readblockWord,
                    fields.username, fields.pathname, blockStr] ++
                      List.ofFn data))

/-! ### FS_WRITEBLOCK -/

def writeLocked
    (username : Name) (blockId : ℕ) (data : Block) (target : TargetInode) :
    FsProg Bool := do
  unlockParent target
  let fileInode ← readInode target.inodeBlock
  if cString fileInode.owner ≠ username ∨ fileInode.type ≠ fileType ∨
      blockId > fileInode.size.toNat then
    return false
  else if blockId = fileInode.size.toNat then do
    call .lockFree
    let empty : Bool ← call .freeEmpty
    if empty ∨ fileInode.size.toNat = fsMaxFileBlocks then do
      call .unlockFree
      return false
    else do
      let newDataBlock ← call .freeFront
      call .freePop
      call .unlockFree
      let fileInode ← append fileInode newDataBlock
      note (.block blockId)
      call (.diskWriteblock (fileInode.block blockId) data none)
      call (.diskWriteblock target.inodeBlock (ofInode fileInode)
        (some { attached := [newDataBlock], detached := [] }))
      return true
  else do
    note (.block blockId)
    call (.diskWriteblock (fileInode.block blockId) data
      (some { attached := [], detached := [] }))
    return true

def handleWriteblock
    (req : List Byte) (fields : RequestFields) (data : Block) : FsProg Unit :=
  match extractWord req with
  | none => return
  | some (blockStr, _) =>
      if isBlock blockStr = false then return
      else do
        note (.stoi blockStr)
        if stoi blockStr ≥ fsMaxFileBlocks then return
        else match pathParser fields.pathname with
        | none => return
        | some pathNames => do
            let target ← traverseDir fields.username pathNames
            if target.valid = false then
              call (.unlockShared target.parentInodeBlock)
            else do
              call (.lock target.inodeBlock)
              let written ← writeLocked fields.username (stoi blockStr) data target
              call (.unlock target.inodeBlock)
              if written then
                call (.sendResponse (responseHeader [writeblockWord,
                  fields.username, fields.pathname, blockStr]))
              else return

def serve (stack : Stack) (request : Request) : FsProg Unit := do
  match request with
  | .readblock req fields => handleReadblock req fields
  | .writeblock req fields data => handleWriteblock req fields data
  | .create req fields => handleCreate stack req fields
  | .delete fields => handleDelete stack fields
  call .close

/-! ## The handlers without the notes -/

open Prog

theorem erase_readInode {b : BlockNo} {f : FsInode → FsProg α}
    {f' : Block → FileServer.FsProg α} (hf : ∀ block, (f (asInode block)).erase = f' block) :
    (readInode b >>= f).erase =
      FileServer.call (.diskReadblock b false) >>= f' := by
  unfold readInode
  rw [LawfulMonad.bind_assoc]
  exact erase_seq rfl hf

theorem erase_noteEntries : noteEntries.erase = .ret () :=
  erase_noteAll _

theorem erase_append (inode : FsInode) (block : BlockNo) :
    (append inode block).erase = .ret (inode.append block) := rfl

theorem erase_checkBlocks (inode : FsInode) (targetName : Name) (remaining i : ℕ)
    (result : TargetInode) (output : Option Entries) :
    (checkBlocks inode targetName remaining i result output).erase =
      FileServer.checkBlocks inode targetName remaining i result output := by
  induction remaining generalizing i result output with
  | zero => rfl
  | succ remaining ih =>
      refine erase_value rfl (erase_seq rfl fun entries => ?_)
      refine erase_value erase_noteEntries ?_
      rcases checkEntries targetName i (inode.block i) (asEntries entries)
        (List.finRange fsDirentries) result output with ⟨done, result', output'⟩
      cases done with
      | true => rfl
      | false => exact ih _ _ _

theorem erase_checkExistance (result : TargetInode) (inode : FsInode)
    (targetName : Name) (output : Option Entries) :
    (checkExistance result inode targetName output).erase =
      FileServer.checkExistance result inode targetName output :=
  erase_checkBlocks _ _ _ _ _ _

theorem erase_traverseDirLoop (username : Name) (names : Path) (result : TargetInode)
    (inode : FsInode) (dirBlock : BlockNo) :
    (traverseDirLoop username names result inode dirBlock).erase =
      FileServer.traverseDirLoop username names result inode dirBlock := by
  induction names generalizing result inode dirBlock with
  | nil => rfl
  | cons name rest ih =>
      refine erase_seq (erase_checkExistance _ _ _ _) fun found => erase_ite rfl ?_
      refine erase_seq rfl fun _ => erase_seq rfl fun _ => erase_readInode fun block => ?_
      exact erase_ite rfl (ih _ _ _)

theorem erase_traverseDir (username : Name) (pathNames : Path) :
    (traverseDir username pathNames).erase = FileServer.traverseDir username pathNames := by
  refine erase_ite rfl (erase_seq rfl fun _ => erase_readInode fun block => ?_)
  exact erase_traverseDirLoop _ _ _ _ _

theorem erase_unlockParent (target : TargetInode) :
    (unlockParent target).erase = FileServer.unlockParent target :=
  erase_plain _

theorem erase_returnEmptyBlock (block : BlockNo) :
    (returnEmptyBlock block).erase = FileServer.returnEmptyBlock block :=
  erase_plain _

theorem erase_growDirectory
    (parentInode : FsInode) (dirBlock newInodeBlock : BlockNo) :
    (growDirectory parentInode dirBlock newInodeBlock).erase =
      FileServer.growDirectory parentInode dirBlock newInodeBlock := by
  refine erase_seq rfl fun _ => erase_ite ?_ (erase_seq rfl fun _ => rfl)
  refine erase_seq rfl fun empty => ?_
  refine erase_ite (erase_seq rfl fun _ => erase_seq rfl fun _ => rfl) ?_
  exact erase_seq rfl fun dirBlock => erase_seq rfl fun _ => rfl

theorem erase_newEntries
    (entries : Entries) (changeParent : Bool) (newEntry : Fin fsDirentries)
    (newFileName : Name) (newInodeBlock : BlockNo) :
    (newEntries entries changeParent newEntry newFileName newInodeBlock).erase =
      .ret (FileServer.newEntries entries changeParent newEntry newFileName
        newInodeBlock) :=
  erase_value erase_noteEntries rfl

theorem erase_createLocked
    (stack : Stack) (type : Byte) (username newFileName : Name)
    (newInodeBlock : BlockNo) (target : TargetInode) :
    (createLocked stack type username newFileName newInodeBlock target).erase =
      FileServer.createLocked stack type username newFileName newInodeBlock target := by
  refine erase_seq (erase_unlockParent _) fun _ => erase_readInode fun block => ?_
  refine erase_ite (erase_seq (erase_returnEmptyBlock _) fun _ => rfl) ?_
  refine erase_seq (erase_checkExistance _ _ _ _) fun found => ?_
  refine erase_ite (erase_seq (erase_returnEmptyBlock _) fun _ => rfl) ?_
  refine erase_seq (erase_growDirectory _ _ _) fun grown => ?_
  cases grown with
  | none => rfl
  | some grown =>
      obtain ⟨dirBlock, changed⟩ := grown
      refine erase_value (erase_newEntries _ _ _ _ _) (erase_value rfl ?_)
      refine erase_seq rfl fun _ => ?_
      cases changed with
      | none => rfl
      | some parentInode => rfl

theorem erase_handleCreate (stack : Stack) (req : List Byte) (fields : RequestFields) :
    (handleCreate stack req fields).erase = FileServer.handleCreate stack req fields := by
  unfold handleCreate FileServer.handleCreate
  cases extractWord req with
  | none => rfl
  | some word =>
      refine erase_ite rfl ?_
      cases pathParser fields.pathname with
      | none => rfl
      | some pathNames =>
          refine erase_seq rfl fun _ => erase_seq rfl fun empty => erase_ite rfl ?_
          refine erase_seq rfl fun newInodeBlock => erase_seq rfl fun _ => ?_
          refine erase_seq rfl fun _ => erase_seq (erase_traverseDir _ _) fun target => ?_
          refine erase_ite (erase_seq rfl fun _ => erase_returnEmptyBlock _) ?_
          refine erase_seq rfl fun _ => ?_
          refine erase_seq (erase_createLocked _ _ _ _ _ _) fun created => ?_
          exact erase_seq rfl fun _ => erase_ite rfl rfl

theorem erase_removeBlock (inode : FsInode) (k : ℕ) :
    (removeBlock inode k).erase = .ret (inode.removeBlock k) :=
  erase_value rfl (erase_value (erase_noteAll _) rfl)

theorem erase_deleteChild
    (username : Name) (target info : TargetInode) (parentInode : FsInode)
    (parentEntries : Entries) :
    (deleteChild username target info parentInode parentEntries).erase =
      FileServer.deleteChild username target info parentInode parentEntries := by
  refine erase_readInode fun block => erase_ite rfl ?_
  refine erase_value rfl (erase_value erase_noteEntries (erase_value rfl ?_))
  refine erase_ite (erase_value (erase_removeBlock _ _) ?_) rfl
  rfl

theorem erase_deleteLocked
    (stack : Stack) (username targetName : Name) (target : TargetInode) :
    (deleteLocked stack username targetName target).erase =
      FileServer.deleteLocked stack username targetName target := by
  refine erase_seq (erase_unlockParent _) fun _ => erase_readInode fun block => ?_
  refine erase_ite rfl (erase_seq (erase_checkExistance _ _ _ _) fun found => ?_)
  refine erase_ite rfl (erase_seq rfl fun _ => ?_)
  exact erase_seq (erase_deleteChild _ _ _ _ _) fun deleted => erase_seq rfl fun _ => rfl

theorem erase_pushBlocks (inode : FsInode) :
    (pushBlocks inode).erase = FileServer.pushBlocks inode.dataBlocks :=
  erase_value (erase_noteAll _) (erase_plain _)

theorem erase_handleDelete (stack : Stack) (fields : RequestFields) :
    (handleDelete stack fields).erase = FileServer.handleDelete stack fields := by
  unfold handleDelete FileServer.handleDelete
  cases pathParser fields.pathname with
  | none => rfl
  | some pathNames =>
      refine erase_seq (erase_traverseDir _ _) fun target => erase_ite rfl ?_
      refine erase_seq rfl fun _ => erase_seq (erase_deleteLocked _ _ _ _) fun deleted => ?_
      refine erase_seq rfl fun _ => ?_
      cases deleted with
      | none => rfl
      | some deleted =>
          exact erase_seq rfl fun _ => erase_seq (erase_pushBlocks _) fun _ => rfl

theorem erase_readLocked (username : Name) (blockId : ℕ) (target : TargetInode) :
    (readLocked username blockId target).erase =
      FileServer.readLocked username blockId target := by
  refine erase_seq (erase_unlockParent _) fun _ => erase_readInode fun block => ?_
  exact erase_ite rfl (erase_value rfl (erase_seq rfl fun data => rfl))

theorem erase_handleReadblock (req : List Byte) (fields : RequestFields) :
    (handleReadblock req fields).erase = FileServer.handleReadblock req fields := by
  unfold handleReadblock FileServer.handleReadblock
  cases extractWord req with
  | none => rfl
  | some word =>
      refine erase_ite rfl (erase_value rfl (erase_ite rfl ?_))
      cases pathParser fields.pathname with
      | none => rfl
      | some pathNames =>
          refine erase_seq (erase_traverseDir _ _) fun target => erase_ite rfl ?_
          refine erase_seq rfl fun _ => erase_seq (erase_readLocked _ _ _) fun data => ?_
          refine erase_seq rfl fun _ => ?_
          cases data with
          | none => rfl
          | some data => rfl

theorem erase_writeLocked
    (username : Name) (blockId : ℕ) (data : Block) (target : TargetInode) :
    (writeLocked username blockId data target).erase =
      FileServer.writeLocked username blockId data target := by
  refine erase_seq (erase_unlockParent _) fun _ => erase_readInode fun block => ?_
  refine erase_ite rfl (erase_ite ?_ (erase_value rfl rfl))
  refine erase_seq rfl fun _ => erase_seq rfl fun empty => erase_ite rfl ?_
  refine erase_seq rfl fun newDataBlock => erase_seq rfl fun _ => erase_seq rfl fun _ => ?_
  exact erase_value (erase_append _ _) (erase_value rfl rfl)

theorem erase_handleWriteblock
    (req : List Byte) (fields : RequestFields) (data : Block) :
    (handleWriteblock req fields data).erase =
      FileServer.handleWriteblock req fields data := by
  unfold handleWriteblock FileServer.handleWriteblock
  cases extractWord req with
  | none => rfl
  | some word =>
      refine erase_ite rfl (erase_value rfl (erase_ite rfl ?_))
      cases pathParser fields.pathname with
      | none => rfl
      | some pathNames =>
          refine erase_seq (erase_traverseDir _ _) fun target => erase_ite rfl ?_
          refine erase_seq rfl fun _ => erase_seq (erase_writeLocked _ _ _ _) fun written => ?_
          exact erase_seq rfl fun _ => erase_ite rfl rfl

/-- Without the notes it is the server. -/
theorem erase_serve (stack : Stack) (request : Request) :
    (serve stack request).erase = FileServer.serve stack request := by
  cases request with
  | readblock req fields =>
      exact erase_seq (erase_handleReadblock req fields) fun _ => rfl
  | writeblock req fields data =>
      exact erase_seq (erase_handleWriteblock req fields data) fun _ => rfl
  | create req fields =>
      exact erase_seq (erase_handleCreate stack req fields) fun _ => rfl
  | delete fields =>
      exact erase_seq (erase_handleDelete stack fields) fun _ => rfl

end Noted

end FileServer
end Eecs482
