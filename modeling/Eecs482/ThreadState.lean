import Eecs482.Uniprocessor
import Mathlib.Data.List.Basic

/-!
# The data of the thread library

The globals of the library, the mutexes and condition variables, and what is
left of the TCBs: a TCB is known by its number in the order of allocation, and
is gone when no `std::shared_ptr` refers to it.  Mutexes and condition variables
are known by a number, too, and outlive the run.
-/

namespace Eecs482
namespace Threads

/-- The queues of threads. -/
inductive Queue
  | ready
  | mutexQueue (m : ℕ)
  | cvQueue (cv : ℕ)
  | joinQueue (t : ℕ)
deriving DecidableEq

/-- `mutex`, less its queue.  The owner is a weak pointer. -/
structure Mutex where
  status : Bool := false
  occupyThread : Option ℕ := none

/-- What has happened, for the statements about a run. -/
inductive Event
  /-- The running thread joins a queue. -/
  | push (t : ℕ) (q : Queue)
  /-- A thread is taken from a queue. -/
  | pop (t : ℕ) (q : Queue)
  /-- The mutex is handed to a thread which waits for it. -/
  | handed (t m : ℕ)
  /-- `lock` or `wait` is about to return. -/
  | returned (t m : ℕ)
  /-- `unlock` goes ahead. -/
  | unlocked (t m : ℕ)
  /-- `wait` goes ahead. -/
  | waitCalled (t m : ℕ)
  /-- The start function has returned, and the joiners have been woken. -/
  | finished (t : ℕ)
deriving DecidableEq

/-- The globals of the library and the objects on its heap.  `refs` counts the
shared pointers to a TCB, and `log` is kept for the statements about a run,
latest event first. -/
structure State where
  runningThread : Option ℕ := none
  previousThread : Option ℕ := none
  queues : Queue → List ℕ := fun _ => []
  mutexes : ℕ → Mutex := fun _ => {}
  /-- The TCBs allocated so far are those below `created`. -/
  created : ℕ := 0
  refs : ℕ → ℕ := fun _ => 0
  /-- `host_context_ptr` has been allocated and not deleted. -/
  hostContext : Bool := false
  log : List Event := []

namespace State

/-! ## Shared pointers -/

/-- A shared pointer to `t` is copied. -/
def retain (t : ℕ) (s : State) : State :=
  { s with refs := Function.update s.refs t (s.refs t + 1) }

/-- A shared pointer to `t` is destroyed.  The last one takes the TCB with it,
and the pointers in its `join_queue`; `fuel` bounds how far that goes. -/
def release : (fuel : ℕ) → ℕ → State → State
  | 0, _, s => s
  | fuel + 1, t, s =>
      if s.refs t = 1 then
        (s.queues (.joinQueue t)).foldl (fun s u => release fuel u s)
          { s with
            refs := Function.update s.refs t 0
            queues := Function.update s.queues (.joinQueue t) [] }
      else { s with refs := Function.update s.refs t (s.refs t - 1) }

/-- A chain of TCBs that destroy each other has no TCB twice. -/
def drop (t : ℕ) (s : State) : State :=
  release (s.created + 1) t s

def dropOld (old : Option ℕ) (s : State) : State :=
  match old with
  | none => s
  | some t => s.drop t

def note (event : Event) (s : State) : State :=
  { s with log := event :: s.log }

def setQueue (q : Queue) (threads : List ℕ) (s : State) : State :=
  { s with queues := Function.update s.queues q threads }

def setMutex (m : ℕ) (mutex : Mutex) (s : State) : State :=
  { s with mutexes := Function.update s.mutexes m mutex }

/-- The thread that owns the mutex, if it is taken. -/
def owner (m : ℕ) (s : State) : Option ℕ :=
  if (s.mutexes m).status then (s.mutexes m).occupyThread else none

/-! ## Statements of the library -/

/-- `previous_thread.reset()`. -/
def previousReset (s : State) : State :=
  { s with previousThread := none }.dropOld s.previousThread

/-- `running_thread.reset()`. -/
def runningReset (s : State) : State :=
  { s with runningThread := none }.dropOld s.runningThread

/-- `previous_thread = running_thread`. -/
def previousRunning (s : State) : State :=
  match s.runningThread with
  | none => s.previousReset
  | some t => { s.retain t with previousThread := some t }.dropOld s.previousThread

/-- `running_thread = ready_queue.front()`. -/
def runningFront (t : ℕ) (s : State) : State :=
  { s.retain t with runningThread := some t }.dropOld s.runningThread

/-- The queue is a member of an object that exists. -/
def hasQueue (s : State) : Queue → Bool
  | .joinQueue t => s.refs t != 0
  | _ => true

/-- `q.push(t)` for a shared pointer to `t`. -/
def push (t : ℕ) (q : Queue) (s : State) : State :=
  (s.retain t).setQueue q (s.queues q ++ [t])

/-- `q.pop()`; `t` is the front. -/
def pop (t : ℕ) (q : Queue) (rest : List ℕ) (s : State) : State :=
  ((s.setQueue q rest).note (.pop t q)).drop t

/-- `while (!q.empty()) { ready_queue.push(q.front()); q.pop(); }`. -/
def wakeAll (q : Queue) (s : State) : State :=
  (s.queues q).foldl
    (fun s t => (s.push t .ready).pop t q (s.queues q).tail) s

/-- `check_ownership`. -/
def checkOwnership (m : ℕ) (s : State) : Bool :=
  match (s.mutexes m).occupyThread with
  | none => false
  | some t =>
      s.refs t != 0 && (s.mutexes m).status && s.runningThread == some t

end State

/-- The statements of the library that use its data. -/
inductive ThreadOp
  | previousReset
  | previousRunning
  | runningReset
  | runningFront
  /-- `running_thread->ucontext_ptr`, `running_thread->join_queue`. -/
  | running
  | empty (q : Queue)
  /-- `q.push(running_thread)`. -/
  | push (q : Queue)
  /-- `ready_queue.push(q.front())`. -/
  | readyPushFront (q : Queue)
  | pop (q : Queue)
  | wakeAll (q : Queue)
  /-- `make_shared<TCB>` and `makecontext`; none when `bad_alloc` is thrown. -/
  | makeTcb
  /-- `ready_queue.push(tcb_ptr)`. -/
  | readyPushTcb (t : ℕ)
  /-- `tcb_ptr.reset()`. -/
  | tcbReset (t : ℕ)
  /-- `tcb.expired()`. -/
  | expired (t : ℕ)
  | status (m : ℕ)
  | setStatus (m : ℕ) (status : Bool)
  /-- `occupy_thread = running_thread`. -/
  | occupyRunning (m : ℕ)
  /-- `occupy_thread = mutex_queue.front()`. -/
  | occupyFront (m : ℕ)
  | checkOwnership (m : ℕ)
  /-- `host_context_ptr = new ucontext_t()` and `getcontext`. -/
  | newHostContext
  | deleteHostContext
  /-- Nothing the library does: an event is noted about the running thread. -/
  | note (event : ℕ → Event)

abbrev threadInterface : Interface where
  Op := ThreadOp
  Answer
    | .running => ℕ
    | .empty _ => Bool
    | .makeTcb => Option ℕ
    | .expired _ => Bool
    | .status _ => Bool
    | .checkOwnership _ => Bool
    | _ => Unit

namespace State

/-- Execute one statement.  `front` and `pop` of an empty queue and the use of a
null pointer are undefined. -/
def exec : (op : ThreadOp) → State → List (threadInterface.Answer op × State)
  | .previousReset, s => [((), s.previousReset)]
  | .previousRunning, s => [((), s.previousRunning)]
  | .runningReset, s => [((), s.runningReset)]
  | .runningFront, s =>
      match s.queues .ready with
      | [] => []
      | t :: _ => [((), s.runningFront t)]
  | .running, s =>
      match s.runningThread with
      | none => []
      | some t => [(t, s)]
  | .empty q, s => if s.hasQueue q then [((s.queues q).isEmpty, s)] else []
  | .push q, s =>
      match s.runningThread with
      | none => []
      | some t => if s.hasQueue q then [((), (s.push t q).note (.push t q))] else []
  | .readyPushFront q, s =>
      match s.queues q with
      | [] => []
      | t :: _ => [((), s.push t .ready)]
  | .pop q, s =>
      match s.queues q with
      | [] => []
      | t :: rest => [((), s.pop t q rest)]
  | .wakeAll q, s => if s.hasQueue q then [((), s.wakeAll q)] else []
  | .makeTcb, s =>
      [(none, s), (some s.created,
        { s with
          created := s.created + 1
          refs := Function.update s.refs s.created 1 })]
  | .readyPushTcb t, s => [((), s.push t .ready)]
  | .tcbReset t, s => [((), s.drop t)]
  | .expired t, s => [(s.refs t == 0, s)]
  | .status m, s => [((s.mutexes m).status, s)]
  | .setStatus m status, s =>
      [((), s.setMutex m { s.mutexes m with status := status })]
  | .occupyRunning m, s =>
      [((), s.setMutex m { s.mutexes m with occupyThread := s.runningThread })]
  | .occupyFront m, s =>
      match s.queues (.mutexQueue m) with
      | [] => []
      | t :: _ =>
          [((), (s.setMutex m { s.mutexes m with occupyThread := some t }).note
            (.handed t m))]
  | .checkOwnership m, s => [(s.checkOwnership m, s)]
  | .newHostContext, s => [((), { s with hostContext := true })]
  | .deleteHostContext, s => [((), { s with hostContext := false })]
  | .note event, s =>
      match s.runningThread with
      | none => []
      | some t => [((), s.note (event t))]

end State

/-! ## What the events say -/

/-- `t` holds `m`: it was handed the mutex, or `lock` or `wait` returned, and it
has not called `unlock` or `wait` on `m` since. -/
def Holds (t m : ℕ) : List Event → Prop
  | [] => False
  | .handed u k :: log => (u = t ∧ k = m) ∨ Holds t m log
  | .returned u k :: log => (u = t ∧ k = m) ∨ Holds t m log
  | .unlocked u k :: log => ¬(u = t ∧ k = m) ∧ Holds t m log
  | .waitCalled u k :: log => ¬(u = t ∧ k = m) ∧ Holds t m log
  | _ :: log => Holds t m log

instance decidableHolds (t m : ℕ) : (log : List Event) → Decidable (Holds t m log)
  | [] => inferInstanceAs (Decidable False)
  | .handed u k :: log =>
      have := decidableHolds t m log
      inferInstanceAs (Decidable ((u = t ∧ k = m) ∨ Holds t m log))
  | .returned u k :: log =>
      have := decidableHolds t m log
      inferInstanceAs (Decidable ((u = t ∧ k = m) ∨ Holds t m log))
  | .unlocked u k :: log =>
      have := decidableHolds t m log
      inferInstanceAs (Decidable (¬(u = t ∧ k = m) ∧ Holds t m log))
  | .waitCalled u k :: log =>
      have := decidableHolds t m log
      inferInstanceAs (Decidable (¬(u = t ∧ k = m) ∧ Holds t m log))
  | .push _ _ :: log => decidableHolds t m log
  | .pop _ _ :: log => decidableHolds t m log
  | .finished _ :: log => decidableHolds t m log

/-- The mutex `t` has queued for, until `lock` or `wait` returns. -/
def waitingFor (t : ℕ) : List Event → Option ℕ
  | [] => none
  | .push u (.mutexQueue m) :: log => if u = t then some m else waitingFor t log
  | .returned u _ :: log => if u = t then none else waitingFor t log
  | _ :: log => waitingFor t log

end Threads
end Eecs482
