import Eecs482.Prog
import Eecs482.FileServerRequest
import Eecs482.FileServerDisk

/-!
# The request handlers

The four handlers of the file server and the functions they share, as programs
over the calls they make: the locks, the disk, the queue of free blocks and the
socket.  A `unique_lock`, `shared_lock` or `lock_guard` of the source is an
acquire here, with its release where the scope ends.
-/

namespace Eecs482
namespace FileServer

/-- The blocks a commit write brings into the tree and takes out of it.  It is
a note for the proofs; the server does not act on it. -/
structure Commit where
  attached : List BlockNo
  detached : List BlockNo

inductive FsCall
  | lockShared (b : BlockNo)
  | unlockShared (b : BlockNo)
  | lock (b : BlockNo)
  | unlock (b : BlockNo)
  | lockFree
  | unlockFree
  | freeEmpty
  | freeFront
  | freePop
  | freePush (b : BlockNo)
  /-- `commit` marks the read whose result answers the request. -/
  | diskReadblock (b : BlockNo) (commit : Bool)
  /-- `commit` marks the write that makes the request take effect. -/
  | diskWriteblock (b : BlockNo) (block : Block) (commit : Option Commit)
  | sendResponse (message : List Byte)
  | close

/-- The interface of the handlers. -/
abbrev fsInterface : Interface where
  Op := FsCall
  Answer
    | .freeEmpty => Bool
    | .freeFront => BlockNo
    | .diskReadblock _ _ => Block
    | _ => Unit

abbrev FsProg := Prog fsInterface

def call (op : FsCall) : FsProg (fsInterface.Answer op) :=
  Prog.perform (I := fsInterface) op

/-- Stack memory of a handler which the source leaves uninitialized. -/
structure Stack where
  parentEntries : Entries
  newInode : FsInode

/-! ## Shared functions -/

/-- `FS_MAXFILEBLOCKS + 1`, the mark for "no empty entry seen". -/
abbrev noEmptyBlock : BlockNo := 125

structure TargetInode where
  inodeBlock : BlockNo := 0
  valid : Bool := false
  firstEmptyBlock : BlockNo := noEmptyBlock
  firstEmptyEntryIndex : Fin fsDirentries := 0
  parentInodeBlock : BlockNo := 0

/-- The loop of `check_existance` over the direntries of one block; the first
component says that the function returns there.  `output` is what
`output_entries` points to, `none` for the null pointer. -/
def checkEntries
    (targetName : Name) (i : ℕ) (block : BlockNo) (entries : Entries) :
    List (Fin fsDirentries) → TargetInode → Option Entries →
      Bool × TargetInode × Option Entries
  | [], result, output => (false, result, output)
  | j :: rest, result, output =>
      let entry := entries j
      if entry.inodeBlock ≠ 0 ∧ cString entry.name = targetName then
        (true,
          { result with
            inodeBlock := entry.inodeBlock
            valid := true
            firstEmptyBlock := UInt32.ofNat i
            firstEmptyEntryIndex := j },
          output.map fun _ => entries)
      else if output.isSome ∧ entry.inodeBlock = 0 ∧
          result.firstEmptyBlock = noEmptyBlock then
        checkEntries targetName i block entries rest
          { result with firstEmptyBlock := block, firstEmptyEntryIndex := j }
          (some entries)
      else checkEntries targetName i block entries rest result output

/-- The loop of `check_existance` over the blocks from `i` on. -/
def checkBlocks (inode : FsInode) (targetName : Name) :
    (remaining i : ℕ) → TargetInode → Option Entries →
      FsProg (TargetInode × Option Entries)
  | 0, _, result, output => return (result, output)
  | remaining + 1, i, result, output => do
      let block := inode.block i
      let entries ← call (.diskReadblock block false)
      match checkEntries targetName i block (asEntries entries)
          (List.finRange fsDirentries) result output with
      | (true, result, output) => return (result, output)
      | (false, result, output) =>
          checkBlocks inode targetName remaining (i + 1) result output

def checkExistance
    (result : TargetInode) (inode : FsInode) (targetName : Name)
    (output : Option Entries) : FsProg (TargetInode × Option Entries) :=
  checkBlocks inode targetName inode.size.toNat 0 { result with valid := false }
    output

/-- The loop of `traverse_dir`; `dirBlock` is the directory whose inode has
been read, and its shared lock is held. -/
def traverseDirLoop (username : Name) :
    Path → TargetInode → FsInode → BlockNo → FsProg TargetInode
  | [], result, _, _ => return result
  | name :: rest, result, inode, dirBlock => do
      let (result, _) ← checkExistance result inode name none
      if result.valid = false ∨ rest = [] then
        return result
      else do
        call (.lockShared result.inodeBlock)
        call (.unlockShared dirBlock)
        let block ← call (.diskReadblock result.inodeBlock false)
        let inode := asInode block
        let result := { result with parentInodeBlock := result.inodeBlock }
        if cString inode.owner ≠ username ∨ inode.type ≠ dirType then
          return { result with valid := false }
        else
          traverseDirLoop username rest result inode result.inodeBlock

def traverseDir (username : Name) (pathNames : Path) : FsProg TargetInode :=
  let result : TargetInode := { valid := true }
  if pathNames = [] then
    return result
  else do
    call (.lockShared 0)
    let block ← call (.diskReadblock 0 false)
    traverseDirLoop username pathNames result (asInode block) 0

def returnEmptyBlock (block : BlockNo) : FsProg Unit := do
  call .lockFree
  call (.freePush block)
  call .unlockFree

/-- Release the shared lock of the parent, unless the target is the root. -/
def unlockParent (target : TargetInode) : FsProg Unit :=
  if target.inodeBlock ≠ 0 then call (.unlockShared target.parentInodeBlock)
  else return

/-- The owner and type test of `handle_create` and `handle_delete` on the
directory they edit. -/
def mayEdit (inode : FsInode) (username : Name) : Bool :=
  (cString inode.owner = username ∨ cString inode.owner = []) ∧
    inode.type = dirType

/-! ## Responses -/

/-- The character `' '`. -/
abbrev space : Byte := 32

/-- `"FS_CREATE"`. -/
def createWord : Name := [70, 83, 95, 67, 82, 69, 65, 84, 69]

/-- `"FS_DELETE"`. -/
def deleteWord : Name := [70, 83, 95, 68, 69, 76, 69, 84, 69]

/-- `"FS_READBLOCK"`. -/
def readblockWord : Name :=
  [70, 83, 95, 82, 69, 65, 68, 66, 76, 79, 67, 75]

/-- `"FS_WRITEBLOCK"`. -/
def writeblockWord : Name :=
  [70, 83, 95, 87, 82, 73, 84, 69, 66, 76, 79, 67, 75]

/-- The words of a response header, separated by single spaces and ended by a
NUL. -/
def responseHeader (words : List Name) : List Byte :=
  [space].intercalate words ++ [0]

/-- `inode.blocks[inode.size] = block; inode.size++;` -/
def FsInode.append (inode : FsInode) (block : BlockNo) : FsInode := {
  inode with
  blocks := fun k =>
    if k.val = inode.size.toNat then block else inode.blocks k
  size := inode.size + 1 }

/-! ## FS_CREATE -/

/-- The second reservation of `handle_create`: `none` when there is no room for
another directory block, else the block to write the direntry to and the
parent inode if it has grown. -/
def growDirectory (parentInode : FsInode) (dirBlock newInodeBlock : BlockNo) :
    FsProg (Option (BlockNo × Option FsInode)) := do
  call .lockFree
  if dirBlock = noEmptyBlock then do
    let empty : Bool ← call .freeEmpty
    if empty ∨ (parentInode.size + 1).toNat > fsMaxFileBlocks then do
      call (.freePush newInodeBlock)
      call .unlockFree
      return none
    else do
      let dirBlock ← call .freeFront
      call .freePop
      call .unlockFree
      return some (dirBlock, some (parentInode.append dirBlock))
  else do
    call .unlockFree
    return some (dirBlock, none)

/-- The direntry block after the new entry has been set. -/
def newEntries
    (entries : Entries) (changeParent : Bool) (newEntry : Fin fsDirentries)
    (newFileName : Name) (newInodeBlock : BlockNo) : Entries :=
  let entries : Entries :=
    if changeParent then fun k => { entries k with inodeBlock := 0 }
    else entries
  Function.update entries newEntry {
    name := strcpy (entries newEntry).name newFileName
    inodeBlock := newInodeBlock }

def newInode (stack : Stack) (type : Byte) (username : Name) : FsInode := {
  stack.newInode with
  type := type
  owner := strcpy stack.newInode.owner username
  size := 0 }

/-- The scope of `write_lock` in `handle_create`; returns whether the request
has been carried out. -/
def createLocked
    (stack : Stack) (type : Byte) (username newFileName : Name)
    (newInodeBlock : BlockNo) (target : TargetInode) : FsProg Bool := do
  unlockParent target
  let block ← call (.diskReadblock target.inodeBlock false)
  let parentInode := asInode block
  if mayEdit parentInode username = false then do
    returnEmptyBlock newInodeBlock
    return false
  else do
    let (info, output) ← checkExistance {} parentInode newFileName
      (some stack.parentEntries)
    if info.valid then do
      returnEmptyBlock newInodeBlock
      return false
    else do
      let grown ← growDirectory parentInode info.firstEmptyBlock newInodeBlock
      match grown with
      | none => return false
      | some (dirBlock, changed) => do
          let entries := newEntries (output.getD stack.parentEntries)
            changed.isSome info.firstEmptyEntryIndex newFileName newInodeBlock
          call (.diskWriteblock newInodeBlock
            (ofInode (newInode stack type username)) none)
          match changed with
          | none => do
              call (.diskWriteblock dirBlock (ofEntries entries)
                (some { attached := [newInodeBlock], detached := [] }))
              return true
          | some parentInode => do
              call (.diskWriteblock dirBlock (ofEntries entries) none)
              call (.diskWriteblock target.inodeBlock (ofInode parentInode)
                (some {
                  attached := [newInodeBlock, dirBlock], detached := [] }))
              return true

def handleCreate (stack : Stack) (req : List Byte) (fields : RequestFields) :
    FsProg Unit :=
  match extractWord req with
  | none => return
  | some (type, _) =>
      if type ≠ [fileType] ∧ type ≠ [dirType] then return
      else match pathParser fields.pathname with
      | none => return
      | some pathNames => do
          call .lockFree
          let empty : Bool ← call .freeEmpty
          if empty then
            call .unlockFree
          else do
            let newInodeBlock ← call .freeFront
            call .freePop
            call .unlockFree
            let newFileName := pathNames.getLastD []
            let target ← traverseDir fields.username pathNames.dropLast
            if target.valid = false then do
              call (.unlockShared target.parentInodeBlock)
              returnEmptyBlock newInodeBlock
            else do
              call (.lock target.inodeBlock)
              let created ← createLocked stack (type.headD 0) fields.username
                newFileName newInodeBlock target
              call (.unlock target.inodeBlock)
              if created then
                call (.sendResponse (responseHeader
                  [createWord, fields.username, fields.pathname, type]))
              else return

/-! ## FS_DELETE -/

/-- `for (i; i < i + count; i++) blocks[i] = blocks[i+1];` -/
def shiftBlocks (count i : ℕ) (inode : FsInode) : FsInode :=
  match count with
  | 0 => inode
  | count + 1 => shiftBlocks count (i + 1) {
      inode with
      blocks := fun k =>
        if k.val = i then inode.block (i + 1) else inode.blocks k }

/-- `blocks` without entry `k`, the later ones moved up, and `size--;`. -/
def FsInode.removeBlock (inode : FsInode) (k : ℕ) : FsInode := {
  shiftBlocks ((inode.size - 1).toNat - k) k inode with
  size := inode.size - 1 }

/-- The scope of `write_child_lock` in `handle_delete`; returns the inode of
the deleted file or directory and its block. -/
def deleteChild
    (username : Name) (target info : TargetInode) (parentInode : FsInode)
    (parentEntries : Entries) : FsProg (Option (FsInode × BlockNo)) := do
  let block ← call (.diskReadblock info.inodeBlock false)
  let fileInode := asInode block
  if cString fileInode.owner ≠ username ∨
      (fileInode.type = dirType ∧ fileInode.size > 0) then
    return none
  else do
    let index := info.firstEmptyEntryIndex
    let parentEntryInodeBlock := (parentEntries index).inodeBlock
    let parentEntries : Entries := Function.update parentEntries index
      { parentEntries index with inodeBlock := 0 }
    let currBlock := parentInode.block info.firstEmptyBlock.toNat
    let detached := fileInode.dataBlocks ++ [parentEntryInodeBlock]
    if ∀ i, (parentEntries i).inodeBlock = 0 then do
      call (.diskWriteblock target.inodeBlock
        (ofInode (parentInode.removeBlock info.firstEmptyBlock.toNat))
        (some { attached := [], detached := currBlock :: detached }))
      call .lockFree
      call (.freePush currBlock)
      call .unlockFree
      return some (fileInode, parentEntryInodeBlock)
    else do
      call (.diskWriteblock currBlock (ofEntries parentEntries)
        (some { attached := [], detached := detached }))
      return some (fileInode, parentEntryInodeBlock)

/-- The scope of `write_lock` in `handle_delete`. -/
def deleteLocked
    (stack : Stack) (username targetName : Name) (target : TargetInode) :
    FsProg (Option (FsInode × BlockNo)) := do
  unlockParent target
  let block ← call (.diskReadblock target.inodeBlock false)
  let parentInode := asInode block
  if mayEdit parentInode username = false then
    return none
  else do
    let (info, output) ← checkExistance {} parentInode targetName
      (some stack.parentEntries)
    if info.valid = false then
      return none
    else do
      call (.lock info.inodeBlock)
      let deleted ← deleteChild username target info parentInode
        (output.getD stack.parentEntries)
      call (.unlock info.inodeBlock)
      return deleted

/-- Push the blocks of a list onto the queue of free blocks. -/
def pushBlocks : List BlockNo → FsProg Unit
  | [] => return
  | b :: rest => do
      call (.freePush b)
      pushBlocks rest

def handleDelete (stack : Stack) (fields : RequestFields) : FsProg Unit :=
  match pathParser fields.pathname with
  | none => return
  | some pathNames => do
      let targetName := pathNames.getLastD []
      let target ← traverseDir fields.username pathNames.dropLast
      if target.valid = false then
        call (.unlockShared target.parentInodeBlock)
      else do
        call (.lock target.inodeBlock)
        let deleted ← deleteLocked stack fields.username targetName target
        call (.unlock target.inodeBlock)
        match deleted with
        | none => return
        | some (fileInode, parentEntryInodeBlock) => do
            call .lockFree
            pushBlocks fileInode.dataBlocks
            call (.freePush parentEntryInodeBlock)
            call .unlockFree
            call (.sendResponse (responseHeader
              [deleteWord, fields.username, fields.pathname]))

/-! ## FS_READBLOCK -/

/-- The scope of `read_lock` in `handle_readblock`. -/
def readLocked (username : Name) (blockId : ℕ) (target : TargetInode) :
    FsProg (Option Block) := do
  unlockParent target
  let block ← call (.diskReadblock target.inodeBlock false)
  let fileInode := asInode block
  if cString fileInode.owner ≠ username ∨ fileInode.type ≠ fileType ∨
      blockId ≥ fileInode.size.toNat then
    return none
  else do
    let data ← call (.diskReadblock (fileInode.block blockId) true)
    return some data

def handleReadblock (req : List Byte) (fields : RequestFields) : FsProg Unit :=
  match extractWord req with
  | none => return
  | some (blockStr, _) =>
      if isBlock blockStr = false then return
      else if stoi blockStr ≥ fsMaxFileBlocks then return
      else match pathParser fields.pathname with
      | none => return
      | some pathNames => do
          let target ← traverseDir fields.username pathNames
          if target.valid = false then
            call (.unlockShared target.parentInodeBlock)
          else do
            call (.lockShared target.inodeBlock)
            let data ← readLocked fields.username (stoi blockStr) target
            call (.unlockShared target.inodeBlock)
            match data with
            | none => return
            | some data =>
                call (.sendResponse (responseHeader [readblockWord,
                  fields.username, fields.pathname, blockStr] ++
                    List.ofFn data))

/-! ## FS_WRITEBLOCK -/

/-- The scope of `write_lock` in `handle_writeblock`; returns whether the
request has been carried out. -/
def writeLocked
    (username : Name) (blockId : ℕ) (data : Block) (target : TargetInode) :
    FsProg Bool := do
  unlockParent target
  let block ← call (.diskReadblock target.inodeBlock false)
  let fileInode := asInode block
  if cString fileInode.owner ≠ username ∨ fileInode.type ≠ fileType ∨
      blockId > fileInode.size.toNat then
    return false
  else if blockId = fileInode.size.toNat then do
    call .lockFree
    let empty : Bool ← call .freeEmpty
    if empty ∨ fileInode.size.toNat = fsMaxFileBlocks then do
      call .unlockFree
      return false
    else do
      let newDataBlock ← call .freeFront
      call .freePop
      call .unlockFree
      let fileInode := fileInode.append newDataBlock
      call (.diskWriteblock (fileInode.block blockId) data none)
      call (.diskWriteblock target.inodeBlock (ofInode fileInode)
        (some { attached := [newDataBlock], detached := [] }))
      return true
  else do
    call (.diskWriteblock (fileInode.block blockId) data
      (some { attached := [], detached := [] }))
    return true

/-- `data` are the 512 bytes at `data.c_str()` once the block has been
received. -/
def handleWriteblock
    (req : List Byte) (fields : RequestFields) (data : Block) : FsProg Unit :=
  match extractWord req with
  | none => return
  | some (blockStr, _) =>
      if isBlock blockStr = false then return
      else if stoi blockStr ≥ fsMaxFileBlocks then return
      else match pathParser fields.pathname with
      | none => return
      | some pathNames => do
          let target ← traverseDir fields.username pathNames
          if target.valid = false then
            call (.unlockShared target.parentInodeBlock)
          else do
            call (.lock target.inodeBlock)
            let written ← writeLocked fields.username (stoi blockStr) data target
            call (.unlock target.inodeBlock)
            if written then
              call (.sendResponse (responseHeader [writeblockWord,
                fields.username, fields.pathname, blockStr]))
            else return

/-- What the thread of a connection does with a parsed request. -/
def serve (stack : Stack) (request : Request) : FsProg Unit := do
  match request with
  | .readblock req fields => handleReadblock req fields
  | .writeblock req fields data => handleWriteblock req fields data
  | .create req fields => handleCreate stack req fields
  | .delete fields => handleDelete stack fields
  call .close

end FileServer
end Eecs482
