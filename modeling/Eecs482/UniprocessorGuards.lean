import Eecs482.UniprocessorRules

/-!
# What holds where an operation is called

Code that has been proved safe can be read a second time, for what is true at
its calls.  The second reading may take for granted, wherever others may have
run, what the first one has established there, and proves nothing of that again.
-/

namespace Eecs482
namespace Uniprocessor

variable {I : Interface} {σ ρ : Type}

/-- What a second reading of the code is about. -/
structure Reading (M : Uniprocessor I σ ρ) where
  Local : Type
  /-- The part of the state that only the context itself changes. -/
  view : ContextRef → σ → Local
  /-- The view of a context that has just been made. -/
  fresh : Local
  /-- The context runs and interrupts are enabled. -/
  Settled : ContextRef → σ → Prop
  /-- Control passes to another piece of code, with interrupts disabled. -/
  Switching : σ → Prop
  /-- The code is about to call an operation. -/
  Guard : ContextRef → Code I ρ → σ → Prop

namespace Reading

variable {M : Uniprocessor I σ ρ} (A : Assertions M) (E : Reading M)

/-- The guards hold at all calls of `code`, run by `self` from `s`. -/
def Guarded (self : ContextRef) : Code I ρ → Bool → σ → Prop
  | .ret _, true, _ => True
  | .ret _, false, s => E.Switching s
  | .call .interruptDisable next, true, s =>
      ∀ t, A.Settled self t → E.Settled self t → A.view self t = A.view self s →
        E.view self t = E.view self s → Guarded self (next ()) false t
  | .call (.access op) next, false, s =>
      E.Guard self (.call (.access op) next) s ∧
        ∀ answer t, (answer, t) ∈ M.exec op s → Guarded self (next answer) false t
  | .call .interruptEnable next, false, s =>
      E.Settled self s ∧ Guarded self (next ()) true s
  | .call .interruptEnableSuspend _, false, _ => True
  | .call (.swapcontext _ _) next, false, s =>
      E.Switching s ∧
        ∀ t, A.Resumed self t → E.Switching t → A.view self t = A.view self s →
          E.view self t = E.view self s → Guarded self (next ()) false t
  | .call (.setcontext _) _, false, s => E.Switching s
  | _, _, _ => False

variable {A E}

theorem Guarded.of_view
    {self : ContextRef} {code : Code I ρ} {s t : σ} (h : Guarded A E self code true s)
    (hview : A.view self t = A.view self s) (hview' : E.view self t = E.view self s) :
    Guarded A E self code true t := by
  cases code with
  | ret value => trivial
  | call op next =>
      cases op with
      | interruptDisable =>
          intro u hu hu' huv huv'
          exact h u hu hu' (huv.trans hview) (huv'.trans hview')
      | access op => exact h
      | interruptEnable => exact h
      | interruptEnableSuspend => exact h
      | swapcontext oucp ucp => exact h
      | setcontext ucp => exact h

/-- The rule of an operation with one result. -/
theorem Guarded.access
    {self : ContextRef} {op : I.Op} {answer : I.Answer op}
    {next : I.Answer op → Code I ρ} {s t : σ}
    (hguard : E.Guard self (.call (.access op) next) s)
    (hexec : M.exec op s = [(answer, t)])
    (hnext : Guarded A E self (next answer) false t) :
    Guarded A E self (.call (.access op) next) false s := by
  refine ⟨hguard, fun answer' t' hmem => ?_⟩
  rw [hexec, List.mem_singleton] at hmem
  cases hmem
  exact hnext

/-- All code that can be run keeps to the guards, and the guards keep everybody
from the views of others. -/
structure Kept (A : Assertions M) (E : Reading M) : Prop where
  quiet : ∀ self op next s answer t, E.Guard self (.call (.access op) next) s →
    (answer, t) ∈ M.exec op s → ∀ ref, ref ≠ self → M.makes op answer ≠ some ref →
      E.view ref t = E.view ref s
  made : ∀ self op next s answer t ref, E.Guard self (.call (.access op) next) s →
    (answer, t) ∈ M.exec op s → M.makes op answer = some ref → E.view ref t = E.fresh
  entry : ∀ ref s, A.Resumed ref s → E.Switching s → A.view ref s = A.fresh →
    E.view ref s = E.fresh → Guarded A E ref M.entry false s
  timer : ∀ self s code, A.Settled self s → Guarded A E self code true s →
    Guarded A E self (M.timer >>= fun _ => code) true s
  settled : ∀ self value s code, A.Returned self true value s → A.Settled self s →
    E.Settled self s → M.Follow self value s code → Guarded A E self code true s
  switching : ∀ self value s code, A.Returned self false value s → E.Switching s →
    M.Follow self value s code → Guarded A E self code false s

/-- The invariant of the processor. -/
structure CpuGuarded (A : Assertions M) (E : Reading M) (c : Cpu I σ ρ) : Prop where
  settled : c.suspended = false → c.interrupts = true → E.Settled c.executing c.state
  guarded : c.suspended = false →
    Guarded A E c.executing c.current c.interrupts c.state
  saved : ∀ ref code, ref ≠ c.executing → c.contexts ref = some code →
    ∀ t, A.Resumed ref t → E.Switching t → A.view ref t = A.view ref c.state →
      E.view ref t = E.view ref c.state → Guarded A E ref code false t

theorem CpuGuarded.access
    {c : Cpu I σ ρ} {op : I.Op} {next : I.Answer op → Code I ρ}
    {answer : I.Answer op} {state : σ} (hkept : Kept A E) (hsafe : A.CpuInvariant c)
    (h : CpuGuarded A E c) (hrunning : c.suspended = false)
    (hcurrent : c.current = .call (.access op) next)
    (hexec : (answer, state) ∈ M.exec op c.state) :
    CpuGuarded A E { c with
      state := state
      current := next answer
      contexts := M.makeContexts op answer c.contexts } := by
  have hcode := hsafe.safe hrunning
  have hcalls := h.guarded hrunning
  rw [hcurrent] at hcode hcalls
  have hinterrupts := hcode.disabled nofun
  rw [hinterrupts] at hcode hcalls
  obtain ⟨hquiet, _⟩ := hcode.2.2 answer state hexec
  constructor
  case settled => exact fun _ henabled => absurd (hinterrupts.symm.trans henabled) nofun
  case guarded =>
      intro _
      change Guarded A E c.executing (next answer) c.interrupts state
      rw [hinterrupts]
      exact hcalls.2 answer state hexec
  case saved =>
      intro ref code hne href t hresumed hswitching hview hview'
      change M.makeContexts op answer c.contexts ref = some code at href
      change A.view ref t = A.view ref state at hview
      change E.view ref t = E.view ref state at hview'
      unfold makeContexts at href
      cases hmakes : M.makes op answer with
      | none =>
          simp only [hmakes] at href
          have hnot : M.makes op answer ≠ some ref := by
            rw [hmakes]
            exact nofun
          apply h.saved ref code hne href t hresumed hswitching
          · exact hview.trans (hquiet.others ref hne hnot)
          · exact hview'.trans (hkept.quiet _ _ _ _ _ _ hcalls.1 hexec ref hne hnot)
      | some made =>
          simp only [hmakes, Function.update_apply] at href
          split at href
          case isTrue heq =>
              cases href
              have hmade : M.makes op answer = some ref := by rw [hmakes, heq]
              apply hkept.entry ref t hresumed hswitching
              · exact hview.trans (hquiet.made ref hmade).2
              · exact hview'.trans (hkept.made _ _ _ _ _ _ ref hcalls.1 hexec hmade)
          case isFalse hother =>
              have hnot : M.makes op answer ≠ some ref := by
                rw [hmakes, ne_eq, Option.some.injEq]
                exact fun heq => hother heq.symm
              apply h.saved ref code hne href t hresumed hswitching
              · exact hview.trans (hquiet.others ref hne hnot)
              · exact hview'.trans (hkept.quiet _ _ _ _ _ _ hcalls.1 hexec ref hne hnot)

theorem CpuGuarded.swapcontext
    {c : Cpu I σ ρ} {oucp ucp : ContextRef} {next : Unit → Code I ρ} {code : Code I ρ}
    (hsafe : A.CpuInvariant c) (h : CpuGuarded A E c) (hrunning : c.suspended = false)
    (hcurrent : c.current = .call (.swapcontext oucp ucp) next)
    (hcontext : c.contexts ucp = some code) :
    CpuGuarded A E { c with
      executing := ucp
      current := code
      contexts := Function.update c.contexts oucp (some (next ())) } := by
  have hcode := hsafe.safe hrunning
  have hcalls := h.guarded hrunning
  rw [hcurrent] at hcode hcalls
  have hinterrupts := hcode.disabled nofun
  rw [hinterrupts] at hcode hcalls
  obtain ⟨rfl, hne, _, _, hresumed, _⟩ := hcode
  constructor
  case settled => exact fun _ henabled => absurd (hinterrupts.symm.trans henabled) nofun
  case guarded =>
      intro _
      change Guarded A E ucp code c.interrupts c.state
      rw [hinterrupts]
      exact h.saved ucp code hne hcontext c.state hresumed hcalls.1 rfl rfl
  case saved =>
      intro ref code' href hcode' t ht hswitching hview hview'
      change Function.update c.contexts c.executing (some (next ())) ref =
        some code' at hcode'
      rw [Function.update_apply] at hcode'
      split at hcode'
      case isTrue heq =>
          cases hcode'
          subst heq
          exact hcalls.2 t ht hswitching hview hview'
      case isFalse hother =>
          exact h.saved ref code' hother hcode' t ht hswitching hview hview'

theorem CpuGuarded.setcontext
    {c : Cpu I σ ρ} {ucp : ContextRef} {next : Unit → Code I ρ} {code : Code I ρ}
    (hsafe : A.CpuInvariant c) (h : CpuGuarded A E c) (hrunning : c.suspended = false)
    (hcurrent : c.current = .call (.setcontext ucp) next)
    (hcontext : c.contexts ucp = some code) :
    CpuGuarded A E { c with executing := ucp, current := code } := by
  have hcode := hsafe.safe hrunning
  have hcalls := h.guarded hrunning
  rw [hcurrent] at hcode hcalls
  have hinterrupts := hcode.disabled nofun
  rw [hinterrupts] at hcode hcalls
  obtain ⟨hne, _, hresumed, _, hgone⟩ := hcode
  constructor
  case settled => exact fun _ henabled => absurd (hinterrupts.symm.trans henabled) nofun
  case guarded =>
      intro _
      change Guarded A E ucp code c.interrupts c.state
      rw [hinterrupts]
      exact h.saved ucp code hne hcontext c.state hresumed hcalls rfl rfl
  case saved =>
      intro ref code' href hcode' t ht hswitching hview hview'
      by_cases hself : ref = c.executing
      · subst hself
        exact absurd ht (hgone t hview)
      · exact h.saved ref code' hself hcode' t ht hswitching hview hview'

theorem CpuGuarded.follow
    {c : Cpu I σ ρ} {value : ρ} {code : Code I ρ} (hkept : Kept A E)
    (hsafe : A.CpuInvariant c) (h : CpuGuarded A E c) (hrunning : c.suspended = false)
    (hcurrent : c.current = .ret value)
    (hfollow : M.Follow c.executing value c.state code) :
    CpuGuarded A E { c with current := code } := by
  have hcode := hsafe.safe hrunning
  have hcalls := h.guarded hrunning
  rw [hcurrent] at hcode hcalls
  refine ⟨h.settled, fun _ => ?_, h.saved⟩
  change Guarded A E c.executing code c.interrupts c.state
  cases hinterrupts : c.interrupts with
  | true =>
      rw [hinterrupts] at hcode
      have hsettled := hsafe.settled hrunning hinterrupts
      exact hkept.settled _ value _ code (hcode c.state hsettled rfl) hsettled
        (h.settled hrunning hinterrupts) hfollow
  | false =>
      rw [hinterrupts] at hcode hcalls
      exact hkept.switching _ value _ code hcode hcalls hfollow

theorem CpuGuarded.step
    {c c' : Cpu I σ ρ} {event : CpuEvent I} (hkept : Kept A E)
    (hsafe : A.CpuInvariant c) (h : CpuGuarded A E c) (hstep : M.Step c event c') :
    CpuGuarded A E c' := by
  cases hstep with
  | access hrunning hcurrent hexec =>
      exact h.access hkept hsafe hrunning hcurrent hexec
  | interruptDisable hrunning hcurrent =>
      have hcalls := h.guarded hrunning
      rw [hcurrent] at hcalls
      cases hinterrupts : c.interrupts with
      | false =>
          rw [hinterrupts] at hcalls
          exact hcalls.elim
      | true =>
          rw [hinterrupts] at hcalls
          have hsettled := hsafe.settled hrunning hinterrupts
          refine ⟨nofun, fun _ => ?_, h.saved⟩
          exact hcalls c.state hsettled (h.settled hrunning hinterrupts) rfl rfl
  | interruptEnable hrunning hcurrent =>
      have hcode := hsafe.safe hrunning
      have hcalls := h.guarded hrunning
      rw [hcurrent] at hcode hcalls
      rw [hcode.disabled nofun] at hcalls
      exact ⟨fun _ _ => hcalls.1, fun _ => hcalls.2, h.saved⟩
  | interruptEnableSuspend => exact ⟨nofun, nofun, h.saved⟩
  | swapcontext hrunning hcurrent _ _ hcontext =>
      exact h.swapcontext hsafe hrunning hcurrent hcontext
  | setcontext hrunning hcurrent _ hcontext =>
      exact h.setcontext hsafe hrunning hcurrent hcontext
  | follow hrunning hcurrent hfollow =>
      exact h.follow hkept hsafe hrunning hcurrent hfollow
  | timer hrunning henabled =>
      have hcalls := h.guarded hrunning
      rw [henabled] at hcalls
      refine ⟨h.settled, fun _ => ?_, h.saved⟩
      change Guarded A E c.executing (M.timer >>= fun _ => c.current) c.interrupts c.state
      rw [henabled]
      exact hkept.timer _ _ _ (hsafe.settled hrunning henabled) hcalls

/-- The invariant holds in every run. -/
theorem guarded_of_reachable
    {state : σ} {code : Code I ρ} {c : Cpu I σ ρ} (hverified : A.Verified)
    (hkept : Kept A E) (hboot : A.Safe .host code false state)
    (halways : A.Always .host state) (hcalls : Guarded A E .host code false state)
    (hreach : M.system.Reachable (boot state code) c) : CpuGuarded A E c := by
  have hsafe : ∀ {c}, M.system.Reachable (boot state code) c → A.CpuInvariant c :=
    fun hreach => Assertions.sound hverified hboot halways hreach
  have hboth := hreach.invariant
    (fun c => M.system.Reachable (boot state code) c ∧ CpuGuarded A E c)
    ⟨.refl, nofun, fun _ => hcalls, nofun⟩
    fun c _ _ h hstep => ⟨h.1.step hstep, h.2.step hkept (hsafe h.1) hstep⟩
  exact hboth.2

/-- In every run the guard holds at each call. -/
theorem guard_of_reachable
    {state : σ} {code : Code I ρ} {c : Cpu I σ ρ} {op : I.Op}
    {next : I.Answer op → Code I ρ} (hverified : A.Verified) (hkept : Kept A E)
    (hboot : A.Safe .host code false state) (halways : A.Always .host state)
    (hcalls : Guarded A E .host code false state)
    (hreach : M.system.Reachable (boot state code) c) (hrunning : c.suspended = false)
    (hcurrent : c.current = .call (.access op) next) :
    E.Guard c.executing c.current c.state := by
  have hcode := (Assertions.sound hverified hboot halways hreach).safe hrunning
  have hguarded := guarded_of_reachable hverified hkept hboot halways hcalls hreach
  have hhere := hguarded.guarded hrunning
  rw [hcurrent] at hcode hhere ⊢
  rw [hcode.disabled nofun] at hhere
  exact hhere.1

/-- In every run control passes to another context where that is allowed. -/
theorem switching_of_step
    {state : σ} {code : Code I ρ} {c c' : Cpu I σ ρ} {event : CpuEvent I}
    (hverified : A.Verified) (hkept : Kept A E) (hboot : A.Safe .host code false state)
    (halways : A.Always .host state) (hcalls : Guarded A E .host code false state)
    (hreach : M.system.Reachable (boot state code) c) (hstep : M.Step c event c')
    (hother : c'.executing ≠ c.executing) : E.Switching c'.state := by
  have hsafe := Assertions.sound hverified hboot halways hreach
  have hguarded := guarded_of_reachable hverified hkept hboot halways hcalls hreach
  cases hstep with
  | access => exact absurd rfl hother
  | interruptDisable => exact absurd rfl hother
  | interruptEnable => exact absurd rfl hother
  | interruptEnableSuspend => exact absurd rfl hother
  | follow => exact absurd rfl hother
  | timer => exact absurd rfl hother
  | swapcontext hrunning hcurrent =>
      have hcode := hsafe.safe hrunning
      have hhere := hguarded.guarded hrunning
      rw [hcurrent] at hcode hhere
      rw [hcode.disabled nofun] at hhere
      exact hhere.1
  | setcontext hrunning hcurrent =>
      have hcode := hsafe.safe hrunning
      have hhere := hguarded.guarded hrunning
      rw [hcurrent] at hcode hhere
      rw [hcode.disabled nofun] at hhere
      exact hhere

end Reading
end Uniprocessor
end Eecs482
