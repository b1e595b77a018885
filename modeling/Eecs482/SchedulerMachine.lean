import Eecs482.MesaMonitor
import Mathlib.Algebra.Group.Nat.Defs
import Mathlib.Data.Fintype.Fin
import Mathlib.Data.Fintype.Sum
import Mathlib.Data.Int.Notation
import Mathlib.Tactic.DeriveFintype

/-!
# The disk scheduler

`server_func` and one `requester_func` for each file, around `mutex1`,
`requester_cv` and `server_cv`.  What a thread does to the shared variables
between two calls on the monitor is one step, because it holds the mutex then.
`main` and `schedule` set up the variables and start the threads.
-/

namespace Eecs482
namespace Scheduler

/-- `print_request` and `print_service`. -/
inductive PrintEvent (n : ℕ)
  | request (requester : Fin n) (track : UInt32)
  | service (requester : Fin n) (track : UInt32)
deriving DecidableEq

/-- The shared variables, and what has been printed, latest first. -/
structure Shared (n : ℕ) where
  curTrack : Int32 := 0
  maxDiskQueue : ℕ
  requesterNum : ℕ
  diskQueue : List (Fin n × UInt32) := []
  diskQueueFull : Bool := false
  requesterDone : Fin n → ℤ := fun _ => 1
  printed : List (PrintEvent n) := []

namespace Shared

variable {n : ℕ}

/-- `requester_num--` on an `unsigned int`. -/
def decrement : ℕ → ℕ
  | 0 => 2 ^ 32 - 1
  | requesterNum + 1 => requesterNum

/-- `disk_queue.size() == min(requester_num, max_disk_queue)`. -/
def full (s : Shared n) : Bool :=
  s.diskQueue.length == min s.requesterNum s.maxDiskQueue

/-- `std::abs(cur_track-tmp)` on an `int`, which wraps around. -/
def distance (s : Shared n) (track : UInt32) : Int32 :=
  (s.curTrack - track.toInt32).abs

/-- The loop that looks for the request closest to `cur_track`. -/
def targetIndex (s : Shared n) : ℕ :=
  (s.diskQueue.zipIdx.foldl
    (fun (target, diff) (request, i) =>
      if s.distance request.2 < diff then (i, s.distance request.2) else (target, diff))
    (0, 1000)).1

/-- `server_func` from the end of its inner loop to the broadcast.  The queue
must not be empty. -/
def serve (s : Shared n) : Shared n :=
  match s.diskQueue[s.targetIndex]? with
  | none => s
  | some (reqI, track) =>
      let served : Shared n := { s with
        curTrack := track.toInt32
        diskQueue := s.diskQueue.eraseIdx s.targetIndex
        printed := .service reqI track.toInt32.toUInt32 :: s.printed
        requesterNum :=
          if s.requesterDone reqI = -1 then decrement s.requesterNum
          else s.requesterNum }
      { served with
        diskQueueFull := served.full
        requesterDone := Function.update s.requesterDone reqI 1 }

/-- `requester_func` from the end of its inner loop to the signal; `last` says
whether it has no more tracks. -/
def request (reqI : Fin n) (track : UInt32) (last : Bool) (s : Shared n) :
    Shared n :=
  let requested : Shared n := { s with
    diskQueue := s.diskQueue ++ [(reqI, track)]
    printed := .request reqI track :: s.printed }
  { requested with
    diskQueueFull := requested.full || s.diskQueueFull
    requesterDone := Function.update s.requesterDone reqI (if last then -1 else 0) }

end Shared

/-- The condition variables. -/
inductive Cv
  | requesterCv
  | serverCv
deriving DecidableEq

/-- The threads. -/
inductive Thread (n : ℕ)
  | server
  | requester (i : Fin n)
deriving DecidableEq, Fintype

/-- The locations of `server_func`. -/
inductive ServerLoc
  | lock
  /-- `while (!disk_queue_full)`. -/
  | test
  | wait
  | serve
  | broadcast
  | unlock
  /-- `if (!requester_num) break`. -/
  | check
  | returned
deriving DecidableEq

/-- The locations of `requester_func`, with the tracks that are left. -/
inductive RequesterLoc
  /-- `while (!tracks.empty())`. -/
  | loop (tracks : List UInt32)
  /-- `while (disk_queue_full || !requester_done[req_i])`. -/
  | test (track : UInt32) (tracks : List UInt32)
  | wait (track : UInt32) (tracks : List UInt32)
  | request (track : UInt32) (tracks : List UInt32)
  | signal (tracks : List UInt32)
  | unlock (tracks : List UInt32)
deriving DecidableEq

abbrev Loc {n : ℕ} : Thread n → Type
  | .server => ServerLoc
  | .requester _ => RequesterLoc

variable {n : ℕ}

/-- `server_func`. -/
def serverFunc : ServerLoc → MonitorAction Cv (Shared n) ServerLoc
  | .lock => .lock .test
  | .test => .run fun s => (s, if s.diskQueueFull then .serve else .wait)
  | .wait => .wait .serverCv .test
  | .serve => .run fun s => (s.serve, .broadcast)
  | .broadcast => .broadcast .requesterCv .unlock
  | .unlock => .unlock .check
  | .check => .run fun s => (s, if s.requesterNum = 0 then .returned else .lock)
  | .returned => .stop

/-- `requester_func` from its outer loop on. -/
def requesterFunc (reqI : Fin n) :
    RequesterLoc → MonitorAction Cv (Shared n) RequesterLoc
  | .loop [] => .stop
  | .loop (track :: tracks) => .lock (.test track tracks)
  | .test track tracks => .run fun s =>
      (s, if s.diskQueueFull || s.requesterDone reqI == 0 then .wait track tracks
        else .request track tracks)
  | .wait track tracks => .wait .requesterCv (.test track tracks)
  | .request track tracks => .run fun s =>
      (s.request reqI track tracks.isEmpty, .signal tracks)
  | .signal tracks => .signal .serverCv (.unlock tracks)
  | .unlock tracks => .unlock (.loop tracks)

/-- The threads of the scheduler. -/
def scheduler (n : ℕ) : Monitor (Thread n) Cv (Shared n) Loc where
  action
    | .server => serverFunc
    | .requester i => requesterFunc i

abbrev State (n : ℕ) := MonitorState (Thread n) Cv (Shared n) Loc

/-- The threads have been started on the files. -/
def initial (maxDiskQueue : ℕ) (files : Fin n → List UInt32) : State n :=
  Monitor.start { maxDiskQueue := maxDiskQueue, requesterNum := n } fun
    | .server => .lock
    | .requester i => .loop (files i)

/-- All functions have returned. -/
def AllReturned (s : State n) : Prop :=
  ∀ i, (scheduler n).Returned i s

/-- The tracks a requester has not put into the queue. -/
def RequesterLoc.left : RequesterLoc → List UInt32
  | .loop tracks => tracks
  | .test track tracks => track :: tracks
  | .wait track tracks => track :: tracks
  | .request track tracks => track :: tracks
  | .signal tracks => tracks
  | .unlock tracks => tracks

def State.left (s : State n) (i : Fin n) : List UInt32 :=
  RequesterLoc.left (s.thread (.requester i)).loc

/-- The services of a requester that have been printed. -/
def services (i : Fin n) : List (PrintEvent n) → ℕ
  | [] => 0
  | .request _ _ :: printed => services i printed
  | .service j _ :: printed => services i printed + if j = i then 1 else 0

/-- The last request of the requester has not been serviced. -/
def Outstanding (files : Fin n → List UInt32) (printed : List (PrintEvent n))
    (i : Fin n) : Prop :=
  files i = [] ∨ services i printed < (files i).length

instance (files : Fin n → List UInt32) (printed : List (PrintEvent n)) :
    DecidablePred (Outstanding files printed) := fun i =>
  inferInstanceAs (Decidable (files i = [] ∨ services i printed < (files i).length))

/-! ## Brackets -/

/-- Whether the thread holds the mutex. -/
def inside : ∀ i : Thread n, Loc i → Bool
  | .server => fun
      | .lock | .check | .returned => false
      | _ => true
  | .requester _ => fun
      | .loop _ => false
      | _ => true

theorem bracketed : (scheduler n).Bracketed inside := by
  intro i loc
  cases i with
  | server =>
      cases loc with
      | lock => exact ⟨rfl, rfl⟩
      | test =>
          intro s
          change inside .server (if s.diskQueueFull then .serve else .wait) = true
          split <;> rfl
      | wait => exact ⟨rfl, rfl⟩
      | serve => exact fun _ => rfl
      | broadcast => exact rfl
      | unlock => exact ⟨rfl, rfl⟩
      | check =>
          intro s
          change inside .server (if s.requesterNum = 0 then .returned else .lock) = false
          split <;> rfl
      | returned => exact rfl
  | requester i =>
      cases loc with
      | loop tracks =>
          cases tracks with
          | nil => exact rfl
          | cons track tracks => exact ⟨rfl, rfl⟩
      | test track tracks =>
          intro s
          change inside (.requester i) (if _ then .wait track tracks
            else .request track tracks) = true
          split <;> rfl
      | wait track tracks => exact ⟨rfl, rfl⟩
      | request track tracks => exact fun _ => rfl
      | signal tracks => exact rfl
      | unlock tracks => exact ⟨rfl, rfl⟩

theorem exclusive_of_reachable
    {maxDiskQueue : ℕ} {files : Fin n → List UInt32} {s : State n}
    (hreach : (scheduler n).system.Reachable (initial maxDiskQueue files) s) :
    Monitor.Exclusive inside s := by
  refine Monitor.exclusive_of_reachable bracketed (fun i => ?_) hreach
  cases i <;> rfl

end Scheduler
end Eecs482
