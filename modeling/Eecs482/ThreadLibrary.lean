import Eecs482.ThreadState

/-!
# The functions of the thread library

`thread`, `mutex` and `cv`, and the loop of the `cpu` constructor.  A function
runs on the stack of its caller.  `starter` is cut in two where it calls the
start function, and the constructor of `cpu` where its loop begins, because user
code and the loop go on for any number of steps.
-/

namespace Eecs482
namespace Threads

/-- Where code goes on after it has returned. -/
inductive Outcome
  /-- In user code, possibly with an exception thrown. -/
  | user (threw : Bool)
  /-- At the loop of `cpu::cpu`. -/
  | loop
  /-- `cpu::cpu` has thrown `bad_alloc`. -/
  | bootFailed
  /-- Nowhere. -/
  | suspended
deriving DecidableEq

abbrev ThreadCode := Code threadInterface

def access (op : ThreadOp) : ThreadCode (threadInterface.Answer op) :=
  Prog.perform (I := cpuInterface threadInterface) (.access op)

def interruptDisable : ThreadCode Unit :=
  Prog.perform (I := cpuInterface threadInterface) .interruptDisable

def interruptEnable : ThreadCode Unit :=
  Prog.perform (I := cpuInterface threadInterface) .interruptEnable

def interruptEnableSuspend : ThreadCode Unit :=
  Prog.perform (I := cpuInterface threadInterface) .interruptEnableSuspend

def swapcontext (oucp ucp : ContextRef) : ThreadCode Unit :=
  Prog.perform (I := cpuInterface threadInterface) (.swapcontext oucp ucp)

def setcontext (ucp : ContextRef) : ThreadCode Unit :=
  Prog.perform (I := cpuInterface threadInterface) (.setcontext ucp)

/-! ## Threads -/

/-- `starter` up to the call of the start function. -/
def starter : ThreadCode Outcome := do
  access .previousReset
  interruptEnable
  return .user false

/-- `starter` from the return of the start function on; the switch at its end
does not return. -/
def starterExit : ThreadCode Outcome := do
  interruptDisable
  let self ← access .running
  access (.wakeAll (.joinQueue self))
  access (.note .finished)
  if !(← access (.empty .ready)) then
    access .previousRunning
    access .runningReset
    access .runningFront
    access (.pop .ready)
    let next ← access .running
    setcontext (.thread next)
  else
    setcontext .host
  return .user false

/-- `cpu::cpu` up to its loop. -/
def cpuBoot : ThreadCode Outcome := do
  match ← access .makeTcb with
  | none =>
      interruptEnable
      return .bootFailed
  | some tcb =>
      access (.readyPushTcb tcb)
      access (.tcbReset tcb)
      access .newHostContext
      return .loop

/-- One round of the loop of `cpu::cpu`, or what comes after it. -/
def cpuLoop : ThreadCode Outcome := do
  if !(← access (.empty .ready)) then
    access .runningFront
    access (.pop .ready)
    let next ← access .running
    swapcontext .host (.thread next)
    access .previousReset
    return .loop
  else
    access .deleteHostContext
    access .runningReset
    access .previousReset
    interruptEnableSuspend
    return .suspended

/-- The constructor of `thread`. -/
def threadCreate : ThreadCode Outcome := do
  interruptDisable
  match ← access .makeTcb with
  | none =>
      interruptEnable
      return .user true
  | some tcb =>
      access (.readyPushTcb tcb)
      access (.tcbReset tcb)
      interruptEnable
      return .user false

/-- `swap_helper`. -/
def swapHelper : ThreadCode Unit := do
  if !(← access (.empty .ready)) then
    let self ← access .running
    access .runningFront
    access (.pop .ready)
    let next ← access .running
    swapcontext (.thread self) (.thread next)
  else
    let self ← access .running
    swapcontext (.thread self) .host
  access .previousReset

/-- `thread::yield`. -/
def yield : ThreadCode Unit := do
  interruptDisable
  if !(← access (.empty .ready)) then
    access (.push .ready)
    swapHelper
  interruptEnable

/-- `thread::join`. -/
def join (t : ℕ) : ThreadCode Outcome := do
  interruptDisable
  if !(← access (.expired t)) then
    access (.push (.joinQueue t))
    swapHelper
  interruptEnable
  return .user false

/-! ## Mutexes -/

/-- `mutex::lock`. -/
def lock (m : ℕ) : ThreadCode Outcome := do
  interruptDisable
  if ← access (.status m) then
    access (.push (.mutexQueue m))
    swapHelper
  else
    access (.setStatus m true)
    access (.occupyRunning m)
  access (.note (.returned · m))
  interruptEnable
  return .user false

/-- `mutex::unlock`. -/
def unlock (m : ℕ) : ThreadCode Outcome := do
  interruptDisable
  if ← access (.checkOwnership m) then
    access (.note (.unlocked · m))
    access (.setStatus m false)
    if !(← access (.empty (.mutexQueue m))) then
      access (.occupyFront m)
      access (.readyPushFront (.mutexQueue m))
      access (.pop (.mutexQueue m))
      access (.setStatus m true)
    interruptEnable
    return .user false
  else
    interruptEnable
    return .user true

/-! ## Condition variables -/

/-- `cv::wait` once the caller is known to hold the mutex. -/
def waitHeld (cv m : ℕ) : ThreadCode Outcome := do
  access (.push (.cvQueue cv))
  access (.note (.waitCalled · m))
  access (.setStatus m false)
  if !(← access (.empty (.mutexQueue m))) then
    access (.readyPushFront (.mutexQueue m))
    access (.setStatus m true)
    access (.occupyFront m)
    access (.pop (.mutexQueue m))
  swapHelper
  if !(← access (.status m)) then
    access (.occupyRunning m)
    access (.setStatus m true)
  else
    access (.push (.mutexQueue m))
    swapHelper
  access (.note (.returned · m))
  interruptEnable
  return .user false

/-- `cv::wait`. -/
def wait (cv m : ℕ) : ThreadCode Outcome := do
  interruptDisable
  if !(← access (.checkOwnership m)) then
    interruptEnable
    return .user true
  else
    waitHeld cv m

/-- `cv::signal`. -/
def signal (cv : ℕ) : ThreadCode Outcome := do
  interruptDisable
  if !(← access (.empty (.cvQueue cv))) then
    access (.readyPushFront (.cvQueue cv))
    access (.pop (.cvQueue cv))
  interruptEnable
  return .user false

/-- `cv::broadcast`. -/
def broadcast (cv : ℕ) : ThreadCode Outcome := do
  interruptDisable
  access (.wakeAll (.cvQueue cv))
  interruptEnable
  return .user false

/-! ## The machine -/

/-- What user code may do next. -/
inductive UserCall
  | create
  | join (t : ℕ)
  | yield
  | lock (m : ℕ)
  | unlock (m : ℕ)
  | wait (cv m : ℕ)
  | signal (cv : ℕ)
  | broadcast (cv : ℕ)
  /-- The start function returns. -/
  | exit

def UserCall.code : UserCall → ThreadCode Outcome
  | .create => threadCreate
  | .join t => Threads.join t
  | .yield => do Threads.yield; return .user false
  | .lock m => Threads.lock m
  | .unlock m => Threads.unlock m
  | .wait cv m => Threads.wait cv m
  | .signal cv => Threads.signal cv
  | .broadcast cv => Threads.broadcast cv
  | .exit => starterExit

/-- A thread object exists for threads that have been created only. -/
def UserCall.Legal (s : State) : UserCall → Prop
  | .join t => t < s.created
  | _ => True

/-- The code that runs next: any legal call in user code, the next round of the
loop in `cpu::cpu`. -/
inductive Follow : ContextRef → Outcome → State → ThreadCode Outcome → Prop
  | user {t : ℕ} {threw : Bool} {s : State} (call : UserCall) (hlegal : call.Legal s) :
      Follow (.thread t) (.user threw) s call.code
  | loop {s : State} : Follow .host .loop s cpuLoop

/-- The processor under the thread library. -/
def machine : Uniprocessor threadInterface State Outcome where
  exec := State.exec
  makes
    | .makeTcb, answer => answer.map .thread
    | _, _ => none
  alive
    | .host, s => s.hostContext
    | .thread t, s => s.refs t != 0
  entry := starter
  timer := yield
  Follow := Follow

abbrev ThreadCpu := Cpu threadInterface State Outcome

/-- `cpu::boot` calls the constructor of `cpu`. -/
def boot : ThreadCpu :=
  Uniprocessor.boot {} cpuBoot

/-- User code runs in thread `t`. -/
def InUser (t : ℕ) (c : ThreadCpu) : Prop :=
  c.executing = .thread t ∧ ∃ threw, c.current = .ret (.user threw)

/-! ## Runs of the library -/

instance (s : State) : DecidablePred (UserCall.Legal s)
  | .join t => inferInstanceAs (Decidable (t < s.created))
  | .create | .yield | .lock _ | .unlock _ | .wait _ _ | .signal _ | .broadcast _ | .exit =>
      inferInstanceAs (Decidable True)

/-- The code of a call, or of the loop in `cpu::cpu` where none is given. -/
def nextCode :
    Option UserCall → ContextRef → Outcome → State → Option (ThreadCode Outcome)
  | some call, .thread _, .user _, s => if call.Legal s then some call.code else none
  | none, .host, .loop, _ => some cpuLoop
  | _, _, _, _ => none

/-- The call is made once the code before it has returned. -/
def follow (call : Option UserCall) (c : ThreadCpu) : Option ThreadCpu :=
  if c.suspended then none else
  match c.current with
  | .call _ _ => none
  | .ret value =>
      (nextCode call c.executing value c.state).map fun code => { c with current := code }

/-- The calls are made one after the other, each by the thread that runs then. -/
def play (calls : List (Option UserCall)) (c : ThreadCpu) : Option ThreadCpu :=
  calls.foldlM (fun c call => (follow call c).map (machine.goOn 40)) c

/-- The constructor of `cpu` has made the first thread ready. -/
def firstReady : ThreadCpu :=
  machine.goOn 4 boot

/-- The first thread gets to run its start function. -/
def firstUser : ThreadCpu :=
  machine.goOn 7 { firstReady with current := cpuLoop }

theorem follow_of_nextCode
    {call : Option UserCall} {ref : ContextRef} {value : Outcome} {s : State}
    {code : ThreadCode Outcome} (hnext : nextCode call ref value s = some code) :
    Follow ref value s code := by
  cases call with
  | none =>
      cases ref <;> cases value <;> cases hnext
      exact .loop
  | some call =>
      cases ref with
      | host => cases value <;> cases hnext
      | thread t =>
          cases value with
          | user threw =>
              rw [nextCode, Option.ite_none_right_eq_some] at hnext
              obtain ⟨hlegal, hcode⟩ := hnext
              rw [← Option.some.inj hcode]
              exact .user call hlegal
          | loop => cases hnext
          | bootFailed => cases hnext
          | suspended => cases hnext

theorem step_of_follow
    {call : Option UserCall} {c d : ThreadCpu} (hfollow : follow call c = some d) :
    machine.Step c .follow d := by
  rw [follow, Option.ite_none_left_eq_some, Bool.not_eq_true] at hfollow
  obtain ⟨hrunning, hfollow⟩ := hfollow
  cases hcurrent : c.current with
  | call op next => simp [hcurrent] at hfollow
  | ret value =>
      simp only [hcurrent] at hfollow
      obtain ⟨code, hnext, rfl⟩ := Option.map_eq_some_iff.mp hfollow
      exact .follow hrunning hcurrent (follow_of_nextCode hnext)

theorem reachable_of_play
    {start c d : ThreadCpu} {calls : List (Option UserCall)}
    (hplay : play calls c = some d) (hreach : machine.system.Reachable start c) :
    machine.system.Reachable start d := by
  refine keeps_of_foldlM (fun c call d hcall h => ?_) hplay hreach
  obtain ⟨e, hfollow, rfl⟩ := Option.map_eq_some_iff.mp hcall
  have hruns := Uniprocessor.runs_goOn (M := machine) 40 e
  exact (h.step (step_of_follow hfollow)).trans hruns.reachable

theorem reachable_firstReady : machine.system.Reachable boot firstReady :=
  (Uniprocessor.runs_goOn 4 boot).reachable

theorem reachable_firstUser : machine.system.Reachable boot firstUser := by
  have hstep : machine.Step firstReady .follow { firstReady with current := cpuLoop } :=
    .follow rfl rfl .loop
  have hruns := Uniprocessor.runs_goOn (M := machine) 7
    { firstReady with current := cpuLoop }
  exact (reachable_firstReady.step hstep).trans hruns.reachable

theorem inUser_firstUser : InUser 0 firstUser :=
  ⟨rfl, false, rfl⟩

/-- The first thread creates another one, takes a mutex and yields, and the other one
waits for the mutex. -/
def contending : List (Option UserCall) :=
  [some .create, some (.lock 0), some .yield, some (.lock 0)]

end Threads
end Eecs482
