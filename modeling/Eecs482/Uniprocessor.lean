import Eecs482.Prog
import Eecs482.TraceRefinement

/-!
# One processor with interrupts and contexts

Threads and a host share one processor.  Code runs until it switches to another
context by itself.  While interrupts are enabled, the timer may run its handler
at any point, on top of the code that is running.

`Disciplined` is read off the code alone: the shared state is used with
interrupts disabled only.  `Safe` is the correctness predicate of the code of
one context.  At each point where others may run it gives up all it knows but
the assertions that hold there, and what it says about itself in its `view`.

`goOn` computes where the running code gets to without an interrupt.
-/

namespace Eecs482

/-- Whom a context belongs to. -/
inductive ContextRef
  | host
  | thread (t : ℕ)
deriving DecidableEq

/-- What code may do: call an operation of `I` on the shared state, or control
the processor. -/
inductive CpuOp (I : Interface)
  | access (op : I.Op)
  | interruptDisable
  | interruptEnable
  | interruptEnableSuspend
  | swapcontext (oucp ucp : ContextRef)
  | setcontext (ucp : ContextRef)

abbrev cpuInterface (I : Interface) : Interface where
  Op := CpuOp I
  Answer
    | .access op => I.Answer op
    | _ => Unit

abbrev Code (I : Interface) (α : Type) := Prog (cpuInterface I) α

/-- The operations on the shared state and the code around the calls.  An
operation may have several results, and none where it is undefined. -/
structure Uniprocessor (I : Interface) (σ ρ : Type) where
  exec : (op : I.Op) → σ → List (I.Answer op × σ)
  /-- The context the operation initialises with `entry`. -/
  makes : (op : I.Op) → I.Answer op → Option ContextRef
  /-- The memory of the context has not been released. -/
  alive : ContextRef → σ → Bool
  entry : Code I ρ
  timer : Code I Unit
  /-- Code that may be run next after a piece of code has returned. -/
  Follow : ContextRef → ρ → σ → Code I ρ → Prop

/-- The shared state, the registers of the processor and the saved contexts. -/
structure Cpu (I : Interface) (σ ρ : Type) where
  state : σ
  interrupts : Bool
  suspended : Bool
  executing : ContextRef
  current : Code I ρ
  contexts : ContextRef → Option (Code I ρ)

/-- What happens in one step. -/
inductive CpuEvent (I : Interface)
  | call (op : CpuOp I)
  | follow
  | timer

namespace Uniprocessor

variable {I : Interface} {σ ρ α β : Type} (M : Uniprocessor I σ ρ)

/-- The contexts after an operation. -/
def makeContexts
    (op : I.Op) (answer : I.Answer op) (contexts : ContextRef → Option (Code I ρ)) :
    ContextRef → Option (Code I ρ) :=
  match M.makes op answer with
  | none => contexts
  | some ref => Function.update contexts ref (some M.entry)

/-- One step of the processor, which does nothing while it is suspended. -/
inductive Step : Cpu I σ ρ → CpuEvent I → Cpu I σ ρ → Prop
  | access {c : Cpu I σ ρ} {op : I.Op} {next : I.Answer op → Code I ρ}
      {answer : I.Answer op} {state : σ} (hrunning : c.suspended = false)
      (hcurrent : c.current = .call (.access op) next)
      (hexec : (answer, state) ∈ M.exec op c.state) :
      Step c (.call (.access op))
        { c with
          state := state
          current := next answer
          contexts := M.makeContexts op answer c.contexts }
  | interruptDisable {c : Cpu I σ ρ} {next : Unit → Code I ρ}
      (hrunning : c.suspended = false)
      (hcurrent : c.current = .call .interruptDisable next) :
      Step c (.call .interruptDisable)
        { c with interrupts := false, current := next () }
  | interruptEnable {c : Cpu I σ ρ} {next : Unit → Code I ρ}
      (hrunning : c.suspended = false)
      (hcurrent : c.current = .call .interruptEnable next) :
      Step c (.call .interruptEnable)
        { c with interrupts := true, current := next () }
  | interruptEnableSuspend {c : Cpu I σ ρ} {next : Unit → Code I ρ}
      (hrunning : c.suspended = false)
      (hcurrent : c.current = .call .interruptEnableSuspend next) :
      Step c (.call .interruptEnableSuspend)
        { c with interrupts := true, suspended := true, current := next () }
  | swapcontext {c : Cpu I σ ρ} {oucp ucp : ContextRef} {next : Unit → Code I ρ}
      {code : Code I ρ} (hrunning : c.suspended = false)
      (hcurrent : c.current = .call (.swapcontext oucp ucp) next)
      (hsaved : M.alive oucp c.state = true) (halive : M.alive ucp c.state = true)
      (hcontext : c.contexts ucp = some code) :
      Step c (.call (.swapcontext oucp ucp))
        { c with
          executing := ucp
          current := code
          contexts := Function.update c.contexts oucp (some (next ())) }
  | setcontext {c : Cpu I σ ρ} {ucp : ContextRef} {next : Unit → Code I ρ}
      {code : Code I ρ} (hrunning : c.suspended = false)
      (hcurrent : c.current = .call (.setcontext ucp) next)
      (halive : M.alive ucp c.state = true) (hcontext : c.contexts ucp = some code) :
      Step c (.call (.setcontext ucp)) { c with executing := ucp, current := code }
  | follow {c : Cpu I σ ρ} {value : ρ} {code : Code I ρ}
      (hrunning : c.suspended = false) (hcurrent : c.current = .ret value)
      (hfollow : M.Follow c.executing value c.state code) :
      Step c .follow { c with current := code }
  | timer {c : Cpu I σ ρ} (hrunning : c.suspended = false)
      (henabled : c.interrupts = true) :
      Step c .timer { c with current := M.timer >>= fun _ => c.current }

/-- The processor as a system of steps. -/
def system : EventSystem (Cpu I σ ρ) (CpuEvent I) where
  Step := M.Step

/-- The host starts with interrupts disabled. -/
def boot (state : σ) (code : Code I ρ) : Cpu I σ ρ where
  state := state
  interrupts := false
  suspended := false
  executing := .host
  current := code
  contexts := fun _ => none

/-- From `c` the running code goes on to `c'` without an interrupt. -/
inductive Runs : Cpu I σ ρ → Cpu I σ ρ → Prop
  | refl {c : Cpu I σ ρ} : Runs c c
  | step {c d e : Cpu I σ ρ} {op : CpuOp I} :
      Step M c (.call op) d → Runs d e → Runs c e

/-- Interrupts have to be enabled for `interrupt_disable`, and disabled for
everything else. -/
def interruptsFor : CpuOp I → Bool
  | .interruptDisable => true
  | _ => false

/-! ## The discipline of interrupts -/

/-- `code`, started with interrupts enabled or not, uses the shared state and
switches with interrupts disabled only, disables and enables them in turn, and
returns a value with interrupts enabled as `flag` says. -/
def Disciplined (flag : α → Bool) : Code I α → Bool → Prop
  | .ret value, enabled => flag value = enabled
  | .call (.access _) next, enabled =>
      enabled = false ∧ ∀ answer, Disciplined flag (next answer) false
  | .call .interruptDisable next, enabled =>
      enabled = true ∧ Disciplined flag (next ()) false
  | .call .interruptEnable next, enabled =>
      enabled = false ∧ Disciplined flag (next ()) true
  | .call .interruptEnableSuspend next, enabled =>
      enabled = false ∧ Disciplined flag (next ()) true
  | .call (.swapcontext _ _) next, enabled =>
      enabled = false ∧ Disciplined flag (next ()) false
  | .call (.setcontext _) _, enabled => enabled = false

theorem Disciplined.bind
    {flag : α → Bool} {flag' : β → Bool} {code : Code I α} {f : α → Code I β}
    {enabled : Bool} (hcode : Disciplined flag code enabled)
    (hf : ∀ value, Disciplined flag' (f value) (flag value)) :
    Disciplined flag' (code >>= f) enabled := by
  induction code generalizing enabled with
  | ret value =>
      rw [← hcode]
      exact hf value
  | call op next ih =>
      cases op with
      | access op => exact ⟨hcode.1, fun answer => ih answer (hcode.2 answer)⟩
      | interruptDisable => exact ⟨hcode.1, ih () hcode.2⟩
      | interruptEnable => exact ⟨hcode.1, ih () hcode.2⟩
      | interruptEnableSuspend => exact ⟨hcode.1, ih () hcode.2⟩
      | swapcontext oucp ucp => exact ⟨hcode.1, ih () hcode.2⟩
      | setcontext ucp => exact hcode

/-- All code that can be run is disciplined. -/
structure AllDisciplined (flag : ρ → Bool) : Prop where
  entry : Disciplined flag M.entry false
  timer : Disciplined (fun _ => true) M.timer true
  follow : ∀ ref value s code, M.Follow ref value s code →
    Disciplined flag code (flag value)

/-- The running code and the saved ones are disciplined. -/
structure CpuDisciplined (flag : ρ → Bool) (c : Cpu I σ ρ) : Prop where
  current : Disciplined flag c.current c.interrupts
  contexts : ∀ ref code, c.contexts ref = some code → Disciplined flag code false

variable {M}

/-! ## Runs up to a return -/

section Runs

variable {c e : Cpu I σ ρ} {value : ρ}

/-- The running code fixes what is called. -/
theorem Step.call_eq
    {op op' : CpuOp I} {next : (cpuInterface I).Answer op → Code I ρ}
    (hstep : M.Step c (.call op') e) (hcurrent : c.current = .call op next) :
    op' = op := by
  cases hstep <;> simp_all

theorem Runs.access
    {op : I.Op} {next : I.Answer op → Code I ρ} (hrun : M.Runs c e)
    (hcurrent : c.current = .call (.access op) next) (hret : e.current = .ret value) :
    ∃ answer state, (answer, state) ∈ M.exec op c.state ∧
      M.Runs { c with
        state := state
        current := next answer
        contexts := M.makeContexts op answer c.contexts } e := by
  cases hrun with
  | refl =>
      rw [hcurrent] at hret
      cases hret
  | step hstep hrest =>
      obtain rfl := hstep.call_eq hcurrent
      cases hstep with
      | access _ hcall hexec =>
          rw [hcurrent] at hcall
          cases hcall
          exact ⟨_, _, hexec, hrest⟩

theorem Runs.interruptDisable
    {next : Unit → Code I ρ} (hrun : M.Runs c e)
    (hcurrent : c.current = .call .interruptDisable next)
    (hret : e.current = .ret value) :
    M.Runs { c with interrupts := false, current := next () } e := by
  cases hrun with
  | refl =>
      rw [hcurrent] at hret
      cases hret
  | step hstep hrest =>
      obtain rfl := hstep.call_eq hcurrent
      cases hstep with
      | interruptDisable _ hcall =>
          rw [hcurrent] at hcall
          cases hcall
          exact hrest

theorem Runs.interruptEnable
    {next : Unit → Code I ρ} (hrun : M.Runs c e)
    (hcurrent : c.current = .call .interruptEnable next)
    (hret : e.current = .ret value) :
    M.Runs { c with interrupts := true, current := next () } e := by
  cases hrun with
  | refl =>
      rw [hcurrent] at hret
      cases hret
  | step hstep hrest =>
      obtain rfl := hstep.call_eq hcurrent
      cases hstep with
      | interruptEnable _ hcall =>
          rw [hcurrent] at hcall
          cases hcall
          exact hrest

theorem Runs.ret (hrun : M.Runs c e) (hcurrent : c.current = .ret value) : e = c := by
  cases hrun with
  | refl => rfl
  | step hstep hrest => cases hstep <;> simp_all

end Runs

theorem Runs.reachable {c d : Cpu I σ ρ} (hrun : M.Runs c d) : M.system.Reachable c d := by
  induction hrun with
  | refl => exact .refl
  | step hstep _ ih => exact (EventSystem.Reachable.refl.step hstep).trans ih

variable (M) in
/-- Execute the next call of the running code, with the last of its results; `none` when
the code has returned or the call cannot be made. -/
def execCall (c : Cpu I σ ρ) : Option (Cpu I σ ρ) :=
  if c.suspended then none else
  match c.current with
  | .ret _ => none
  | .call (.access op) next =>
      (M.exec op c.state).getLast?.map fun result =>
        { c with
          state := result.2
          current := next result.1
          contexts := M.makeContexts op result.1 c.contexts }
  | .call .interruptDisable next => some { c with interrupts := false, current := next () }
  | .call .interruptEnable next => some { c with interrupts := true, current := next () }
  | .call .interruptEnableSuspend next =>
      some { c with interrupts := true, suspended := true, current := next () }
  | .call (.swapcontext oucp ucp) next =>
      if M.alive oucp c.state && M.alive ucp c.state then
        (c.contexts ucp).map fun code =>
          { c with
            executing := ucp
            current := code
            contexts := Function.update c.contexts oucp (some (next ())) }
      else none
  | .call (.setcontext ucp) _ =>
      if M.alive ucp c.state then
        (c.contexts ucp).map fun code => { c with executing := ucp, current := code }
      else none

variable (M) in
/-- Go on with the running code, for at most `fuel` calls. -/
def goOn : (fuel : ℕ) → Cpu I σ ρ → Cpu I σ ρ
  | 0, c => c
  | fuel + 1, c =>
      match M.execCall c with
      | none => c
      | some d => goOn fuel d

theorem step_of_execCall {c d : Cpu I σ ρ} (hexec : M.execCall c = some d) :
    ∃ op, M.Step c (.call op) d := by
  rw [execCall, Option.ite_none_left_eq_some, Bool.not_eq_true] at hexec
  obtain ⟨hrunning, hexec⟩ := hexec
  cases hcurrent : c.current with
  | ret value => simp [hcurrent] at hexec
  | call op next =>
      simp only [hcurrent] at hexec
      cases op with
      | access op =>
          obtain ⟨result, hresult, rfl⟩ := Option.map_eq_some_iff.mp hexec
          exact ⟨_, .access hrunning hcurrent (List.mem_of_getLast? hresult)⟩
      | interruptDisable =>
          cases hexec
          exact ⟨_, .interruptDisable hrunning hcurrent⟩
      | interruptEnable =>
          cases hexec
          exact ⟨_, .interruptEnable hrunning hcurrent⟩
      | interruptEnableSuspend =>
          cases hexec
          exact ⟨_, .interruptEnableSuspend hrunning hcurrent⟩
      | swapcontext oucp ucp =>
          simp only [Option.ite_none_right_eq_some, Bool.and_eq_true] at hexec
          obtain ⟨⟨hsaved, halive⟩, hexec⟩ := hexec
          obtain ⟨code, hcontext, rfl⟩ := Option.map_eq_some_iff.mp hexec
          exact ⟨_, .swapcontext hrunning hcurrent hsaved halive hcontext⟩
      | setcontext ucp =>
          simp only [Option.ite_none_right_eq_some] at hexec
          obtain ⟨halive, hexec⟩ := hexec
          obtain ⟨code, hcontext, rfl⟩ := Option.map_eq_some_iff.mp hexec
          exact ⟨_, .setcontext hrunning hcurrent halive hcontext⟩

theorem runs_goOn (fuel : ℕ) (c : Cpu I σ ρ) : M.Runs c (M.goOn fuel c) := by
  induction fuel generalizing c with
  | zero => exact .refl
  | succ fuel ih =>
      rw [goOn]
      cases hexec : M.execCall c with
      | none => exact .refl
      | some d =>
          obtain ⟨op, hstep⟩ := step_of_execCall hexec
          exact .step hstep (ih d)

/-! ## Every reachable state is disciplined -/

theorem CpuDisciplined.step
    {flag : ρ → Bool} {c c' : Cpu I σ ρ} {event : CpuEvent I}
    (hall : M.AllDisciplined flag) (h : CpuDisciplined flag c)
    (hstep : M.Step c event c') : CpuDisciplined flag c' := by
  have hcurrent := h.current
  cases hstep with
  | @access op next answer state _ hcall _ =>
      rw [hcall] at hcurrent
      refine ⟨?_, fun ref code href => ?_⟩
      · change Disciplined flag (next answer) c.interrupts
        rw [hcurrent.1]
        exact hcurrent.2 answer
      · change M.makeContexts op answer c.contexts ref = some code at href
        unfold makeContexts at href
        cases hmakes : M.makes op answer with
        | none =>
            simp only [hmakes] at href
            exact h.contexts ref code href
        | some made =>
            simp only [hmakes, Function.update_apply] at href
            split at href
            · cases href
              exact hall.entry
            · exact h.contexts ref code href
  | interruptDisable _ hcall =>
      rw [hcall] at hcurrent
      exact ⟨hcurrent.2, h.contexts⟩
  | interruptEnable _ hcall =>
      rw [hcall] at hcurrent
      exact ⟨hcurrent.2, h.contexts⟩
  | interruptEnableSuspend _ hcall =>
      rw [hcall] at hcurrent
      exact ⟨hcurrent.2, h.contexts⟩
  | @swapcontext oucp ucp next code _ hcall _ _ hcontext =>
      rw [hcall] at hcurrent
      refine ⟨?_, fun ref code' href => ?_⟩
      · change Disciplined flag code c.interrupts
        rw [hcurrent.1]
        exact h.contexts ucp code hcontext
      · change Function.update c.contexts oucp (some (next ())) ref = some code' at href
        rw [Function.update_apply] at href
        split at href
        · cases href
          exact hcurrent.2
        · exact h.contexts ref code' href
  | @setcontext ucp _ code _ hcall _ hcontext =>
      rw [hcall] at hcurrent
      refine ⟨?_, h.contexts⟩
      change Disciplined flag code c.interrupts
      rw [show c.interrupts = false from hcurrent]
      exact h.contexts ucp code hcontext
  | @follow value code _ hret hfollow =>
      rw [hret] at hcurrent
      refine ⟨?_, h.contexts⟩
      change Disciplined flag code c.interrupts
      rw [← show flag value = c.interrupts from hcurrent]
      exact hall.follow _ value _ code hfollow
  | timer _ henabled =>
      refine ⟨?_, h.contexts⟩
      change Disciplined flag (M.timer >>= fun _ => c.current) c.interrupts
      rw [henabled] at hcurrent ⊢
      exact hall.timer.bind fun _ => hcurrent

theorem CpuDisciplined.interrupts_eq
    {flag : ρ → Bool} {c : Cpu I σ ρ} {op : CpuOp I}
    {next : (cpuInterface I).Answer op → Code I ρ} (h : CpuDisciplined flag c)
    (hcurrent : c.current = .call op next) : c.interrupts = interruptsFor op := by
  have hcode := h.current
  rw [hcurrent] at hcode
  cases op with
  | access op => exact hcode.1
  | interruptDisable => exact hcode.1
  | interruptEnable => exact hcode.1
  | interruptEnableSuspend => exact hcode.1
  | swapcontext oucp ucp => exact hcode.1
  | setcontext ucp => exact hcode

theorem disciplined_of_reachable
    {flag : ρ → Bool} {state : σ} {code : Code I ρ} {c : Cpu I σ ρ}
    (hall : M.AllDisciplined flag) (hboot : Disciplined flag code false)
    (hreach : M.system.Reachable (boot state code) c) : CpuDisciplined flag c :=
  hreach.invariant (CpuDisciplined flag)
    ⟨hboot, fun _ _ hnone => absurd hnone (Option.some_ne_none _).symm⟩
    fun _ _ _ h hstep => h.step hall hstep

end Uniprocessor
end Eecs482
