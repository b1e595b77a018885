import Eecs482.MesaMonitor
import Eecs482.ThreadGuarantees
import Mathlib.Logic.Equiv.Defs

/-!
# Programs on the thread library

The threads of a monitor run on the thread library: each action of the monitor is
a call on one mutex and its condition variables, and the start function of a thread
returns where the monitor stops.  A main thread, the first one, creates them all in
order, joins them, and returns.
-/

namespace Eecs482
namespace Threads

/-- How the threads and the condition variables of a monitor are numbered. -/
structure Numbering (ι κ : Type) (total : ℕ) where
  index : ι ≃ Fin total
  cv : κ → ℕ
  cv_injective : Function.Injective cv
  mutex : ℕ := 0

variable {ι κ σ : Type} {Loc : ι → Type} {total : ℕ}

namespace Numbering

variable (N : Numbering ι κ total)

/-- Threads are numbered in the order of their creation, after the main thread. -/
def thread (i : ι) : ℕ :=
  N.index i + 1

theorem thread_injective : Function.Injective N.thread := by
  intro i j hij
  exact N.index.injective (Fin.ext (Nat.succ.inj hij))

theorem thread_ne_zero (i : ι) : N.thread i ≠ 0 :=
  Nat.succ_ne_zero _

theorem thread_le (i : ι) : N.thread i ≤ total :=
  (N.index i).isLt

theorem exists_thread {t : ℕ} (hpos : 0 < t) (hle : t ≤ total) : ∃ i, N.thread i = t := by
  have hlt : t - 1 < total := by omega
  refine ⟨N.index.symm ⟨t - 1, hlt⟩, ?_⟩
  rw [thread, Equiv.apply_symm_apply]
  change t - 1 + 1 = t
  omega

/-- The call that an action stands for, and where the thread goes on after it. -/
def call {L : Type} : MonitorAction κ σ L → Option (UserCall × L)
  | .lock next => some (.lock N.mutex, next)
  | .unlock next => some (.unlock N.mutex, next)
  | .wait cv next => some (.wait (N.cv cv) N.mutex, next)
  | .signal cv next => some (.signal (N.cv cv), next)
  | .broadcast cv next => some (.broadcast (N.cv cv), next)
  | .run _ => none
  | .stop => none

end Numbering

/-- The next call of the main thread, which has made so many. -/
def mainCall (total made : ℕ) : UserCall :=
  if made < total then .create
  else if made < 2 * total then .join (made - total + 1)
  else .exit

/-- The processor, the shared variables, and where the threads of the monitor are.
A thread in a call is where it goes on after the call. -/
structure ProgramState (ι σ : Type) (Loc : ι → Type) where
  cpu : ThreadCpu
  shared : σ
  loc : ∀ i, Loc i
  /-- The calls that the main thread has made. -/
  made : ℕ := 0

/-- User code runs in thread `t`, and the last call has not thrown. -/
structure AtCall (t : ℕ) (c : ThreadCpu) : Prop where
  running : c.suspended = false
  executing : c.executing = .thread t
  current : c.current = .ret (.user false)

/-- The thread that runs makes the call. -/
def enter (call : UserCall) (c : ThreadCpu) : ThreadCpu :=
  { c with current := call.code }

/-- What happens in one step. -/
inductive ProgramEvent
  /-- The library runs, or the timer interrupts user code. -/
  | library (event : CpuEvent threadInterface)
  /-- User code runs. -/
  | user

section Program

variable [DecidableEq ι] (N : Numbering ι κ total) (M : Monitor ι κ σ Loc)

/-- A step of the program.  A thread that has got an exception goes no further. -/
inductive ProgramStep :
    ProgramState ι σ Loc → ProgramEvent → ProgramState ι σ Loc → Prop
  /-- A step inside the library. -/
  | library {p : ProgramState ι σ Loc} {event : CpuEvent threadInterface} {cpu : ThreadCpu}
      (hevent : event ≠ .follow) (hstep : machine.Step p.cpu event cpu) :
      ProgramStep p (.library event) { p with cpu := cpu }
  /-- The next round of the loop of `cpu::cpu`. -/
  | loop {p : ProgramState ι σ Loc} {cpu : ThreadCpu}
      (hhost : p.cpu.executing = .host) (hstep : machine.Step p.cpu .follow cpu) :
      ProgramStep p (.library .follow) { p with cpu := cpu }
  | call {p : ProgramState ι σ Loc} {i : ι} {call : UserCall} {next : Loc i}
      (hcall : AtCall (N.thread i) p.cpu)
      (haction : N.call (M.action i (p.loc i)) = some (call, next)) :
      ProgramStep p .user { p with
        cpu := enter call p.cpu
        loc := Function.update p.loc i next }
  | run {p : ProgramState ι σ Loc} {i : ι} {effect : σ → σ × Loc i}
      (hcall : AtCall (N.thread i) p.cpu) (haction : M.action i (p.loc i) = .run effect) :
      ProgramStep p .user { p with
        shared := (effect p.shared).1
        loc := Function.update p.loc i (effect p.shared).2 }
  /-- The start function returns. -/
  | stop {p : ProgramState ι σ Loc} {i : ι}
      (hcall : AtCall (N.thread i) p.cpu) (haction : M.action i (p.loc i) = .stop) :
      ProgramStep p .user { p with cpu := enter .exit p.cpu }
  | main {p : ProgramState ι σ Loc} (hcall : AtCall 0 p.cpu) :
      ProgramStep p .user { p with
        cpu := enter (mainCall total p.made) p.cpu
        made := p.made + 1 }

/-- The program as a system of steps. -/
def program : EventSystem (ProgramState ι σ Loc) ProgramEvent where
  Step := ProgramStep N M

end Program

/-- The program before `cpu::boot` starts the main thread. -/
def programStart (shared : σ) (entry : ∀ i, Loc i) : ProgramState ι σ Loc where
  cpu := boot
  shared := shared
  loc := entry

section Runs

variable {N : Numbering ι κ total} {M : Monitor ι κ σ Loc}
  {p q : ProgramState ι σ Loc} {shared : σ} {entry : ∀ i, Loc i} {t : ℕ}

theorem enter_reachable
    {call : UserCall} (hreach : machine.system.Reachable boot p.cpu)
    (hcall : AtCall t p.cpu) (hlegal : call.Legal p.cpu.state) :
    machine.system.Reachable boot (enter call p.cpu) := by
  have hfollow : Follow p.cpu.executing (.user false) p.cpu.state call.code := by
    rw [hcall.executing]
    exact .user call hlegal
  exact hreach.step (Uniprocessor.Step.follow hcall.running hcall.current hfollow)

/-- The calls of a monitor may be made anywhere. -/
theorem Numbering.call_legal
    {L : Type} {action : MonitorAction κ σ L} {call : UserCall} {next : L} {s : State}
    (haction : N.call action = some (call, next)) : call.Legal s := by
  cases action <;> cases haction <;> trivial

end Runs

end Threads
end Eecs482
