import Eecs482.FileServerHandlers
import Eecs482.RelyGuarantee

/-!
# The server under concurrent requests

The state the handlers share and the effect of each of their calls on it.  A
request for a lock that is taken has no result, and neither has a call that the
library leaves undefined, such as `front` of an empty queue or the release of a
lock that is not held.
-/

namespace Eecs482
namespace FileServer

/-- A `boost::shared_mutex` with the threads that hold it. -/
structure SharedMutex where
  readers : List ℕ := []
  writer : Option ℕ := none

/-- What the outside sees of a handler, and the moment it takes effect. -/
inductive Event
  | start (i : ℕ)
  | commit (i : ℕ) (op : FsOp) (answer : Option Block)
  | respond (i : ℕ) (message : List Byte)
  | close (i : ℕ)

def Event.thread : Event → ℕ
  | .start i | .commit i _ _ | .respond i _ | .close i => i

/-- The shared state.  `hands`, `request` and `events` record, for the
statements about a run, which blocks each handler has in hand, what it was
asked for and what has happened so far. -/
structure Server where
  disk : Disk
  freeBlocks : List BlockNo
  freeBlockLock : Option ℕ := none
  diskLocks : BlockNo → SharedMutex := fun _ => {}
  hands : ℕ → List BlockNo := fun _ => []
  request : ℕ → Option Request := fun _ => none
  events : List Event := []

/-- A request with the stack memory its handler finds. -/
structure Connection where
  request : Request
  stack : Stack

namespace Server

def setLock (s : Server) (b : BlockNo) (mutex : SharedMutex) : Server :=
  { s with diskLocks := Function.update s.diskLocks b mutex }

def setHand (s : Server) (i : ℕ) (blocks : List BlockNo) : Server :=
  { s with hands := Function.update s.hands i blocks }

def setFree (s : Server) (blocks : List BlockNo) : Server :=
  { s with freeBlocks := blocks }

def log (s : Server) (event : Event) : Server :=
  { s with events := s.events ++ [event] }

/-- Record that the request of thread `i` takes effect. -/
def commit (s : Server) (i : ℕ) (answer : Option Block) : Server :=
  match (s.request i).bind Request.op with
  | some op => s.log (.commit i op answer)
  | none => s

section Commit

variable (s : Server) (i : ℕ) (answer : Option Block)

@[simp] theorem commit_disk : (s.commit i answer).disk = s.disk := by
  unfold commit
  split <;> rfl

@[simp] theorem commit_freeBlocks :
    (s.commit i answer).freeBlocks = s.freeBlocks := by
  unfold commit
  split <;> rfl

@[simp] theorem commit_freeBlockLock :
    (s.commit i answer).freeBlockLock = s.freeBlockLock := by
  unfold commit
  split <;> rfl

@[simp] theorem commit_diskLocks :
    (s.commit i answer).diskLocks = s.diskLocks := by
  unfold commit
  split <;> rfl

@[simp] theorem commit_hands :
    (s.commit i answer).hands = s.hands := by
  unfold commit
  split <;> rfl

end Commit

/-- The blocks thread `i` has in hand after a commit write. -/
def handsAfter (s : Server) (i : ℕ) (note : Commit) : List BlockNo :=
  note.detached ++ (s.hands i).filter (· ∉ note.attached)

/-- Execute one call of thread `i`. -/
def exec (i : ℕ) :
    (op : FsCall) → Server → Option (fsInterface.Answer op × Server)
  | .lockShared b, s =>
      if (s.diskLocks b).writer = none then
        some ((), s.setLock b
          { s.diskLocks b with readers := i :: (s.diskLocks b).readers })
      else none
  | .unlockShared b, s =>
      if i ∈ (s.diskLocks b).readers then
        some ((), s.setLock b
          { s.diskLocks b with readers := (s.diskLocks b).readers.erase i })
      else none
  | .lock b, s =>
      if (s.diskLocks b).writer = none ∧ (s.diskLocks b).readers = [] then
        some ((), s.setLock b { s.diskLocks b with writer := some i })
      else none
  | .unlock b, s =>
      if (s.diskLocks b).writer = some i then
        some ((), s.setLock b { s.diskLocks b with writer := none })
      else none
  | .lockFree, s =>
      if s.freeBlockLock = none then
        some ((), { s with freeBlockLock := some i })
      else none
  | .unlockFree, s =>
      if s.freeBlockLock = some i then
        some ((), { s with freeBlockLock := none })
      else none
  | .freeEmpty, s => some (s.freeBlocks.isEmpty, s)
  | .freeFront, s =>
      match s.freeBlocks with
      | [] => none
      | b :: _ => some (b, s)
  | .freePop, s =>
      match s.freeBlocks with
      | [] => none
      | b :: rest => some ((), (s.setFree rest).setHand i (b :: s.hands i))
  | .freePush b, s =>
      some ((), (s.setFree (s.freeBlocks ++ [b])).setHand i
        ((s.hands i).erase b))
  | .diskReadblock b mark, s =>
      some (s.disk b, if mark then s.commit i (some (s.disk b)) else s)
  | .diskWriteblock b block mark, s =>
      let written : Server :=
        { s with disk := Function.update s.disk b block }
      some ((), match mark with
        | none => written
        | some note =>
            (written.setHand i (s.handsAfter i note)).commit i none)
  | .sendResponse message, s => some ((), s.log (.respond i message))
  | .close, s => some ((), s.log (.close i))

/-- Only a write changes the disk. -/
theorem exec_disk
    {i : ℕ} {op : FsCall} {s t : Server} {answer : fsInterface.Answer op}
    (hexec : exec i op s = some (answer, t)) :
    t.disk = match op with
      | .diskWriteblock b block _ => Function.update s.disk b block
      | _ => s.disk := by
  cases op with
  | lockShared b | unlockShared b | lock b | unlock b | lockFree | unlockFree
  | freeFront | freePop =>
      simp only [exec] at hexec
      split at hexec
      all_goals cases hexec
      rfl
  | freeEmpty | freePush b | sendResponse message | close =>
      cases hexec
      rfl
  | diskReadblock b mark =>
      cases hexec
      cases mark with
      | false => rfl
      | true => exact commit_disk _ _ _
  | diskWriteblock b block mark =>
      cases hexec
      cases mark with
      | none => rfl
      | some note => exact commit_disk _ _ _

/-- A connection is accepted and its thread started. -/
def arrive (i : ℕ) (connection : Connection) (s : Server) : Server :=
  { s with
    request := Function.update s.request i (some connection.request)
    events := s.events ++ [.start i] }

end Server

/-- The file server. -/
def machine : Machine fsInterface Server where
  Request := Connection
  program connection := serve connection.stack connection.request
  arrive := Server.arrive
  exec := Server.exec

/-- The events of one thread. -/
def eventsOf (i : ℕ) (events : List Event) : List Event :=
  events.filter (·.thread = i)

/-- The operations that have taken effect, in the order in which they did. -/
def history (events : List Event) : List (FsOp × Option Block) :=
  events.filterMap fun
    | .commit _ op answer => some (op, answer)
    | _ => none

/-- The threads whose requests have taken effect, in that order. -/
def commitOrder (events : List Event) : List ℕ :=
  events.filterMap fun
    | .commit i _ _ => some i
    | _ => none

end FileServer
end Eecs482
