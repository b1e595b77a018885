import Eecs482.Uniprocessor

/-!
# Reasoning about code that shares one processor

While interrupts are disabled the code of a context runs alone.  `Safe` asks it
to establish `Settled` before it enables interrupts and `Resumed` for the other
side before it switches, and lets it assume no more than that when it goes on.
Of its own data it keeps the `view`, which nobody else changes.
-/

namespace Eecs482
namespace Uniprocessor

variable {I : Interface} {σ ρ α : Type}

/-- What the contexts of a processor agree on. -/
structure Assertions (M : Uniprocessor I σ ρ) where
  Local : Type
  /-- The part of the state that only the context itself changes. -/
  view : ContextRef → σ → Local
  /-- The view of a context that has just been made. -/
  fresh : Local
  /-- The context runs and interrupts are enabled. -/
  Settled : ContextRef → σ → Prop
  /-- The context has just been switched to. -/
  Resumed : ContextRef → σ → Prop
  /-- A piece of code has returned. -/
  Returned : ContextRef → Bool → ρ → σ → Prop
  /-- The context suspends the processor. -/
  Idle : ContextRef → σ → Prop
  /-- The context runs, and may be in the middle of something. -/
  Always : ContextRef → σ → Prop
  /-- The context calls an operation. -/
  Guard : ContextRef → I.Op → σ → Prop

namespace Assertions

variable {M : Uniprocessor I σ ρ} (A : Assertions M)

/-- What an operation called by `caller` does to the views. -/
structure Quiet
    (caller : ContextRef) (op : I.Op) (answer : I.Answer op) (s t : σ) : Prop where
  others : ∀ ref, ref ≠ caller → M.makes op answer ≠ some ref →
    A.view ref t = A.view ref s
  made : ∀ ref, M.makes op answer = some ref → ref ≠ caller ∧ A.view ref t = A.fresh
  always : A.Always caller t

/-- The context `self` may run `code` from `s`. -/
def Safe (self : ContextRef) : Code I ρ → Bool → σ → Prop
  | .ret value, true, s =>
      ∀ t, A.Settled self t → A.view self t = A.view self s →
        A.Returned self true value t
  | .ret value, false, s => A.Returned self false value s
  | .call .interruptDisable next, true, s =>
      ∀ t, A.Settled self t → A.view self t = A.view self s →
        Safe self (next ()) false t
  | .call (.access op) next, false, s =>
      A.Guard self op s ∧ M.exec op s ≠ [] ∧
        ∀ answer t, (answer, t) ∈ M.exec op s →
          A.Quiet self op answer s t ∧ Safe self (next answer) false t
  | .call .interruptEnable next, false, s =>
      A.Settled self s ∧ Safe self (next ()) true s
  | .call .interruptEnableSuspend _, false, s => A.Idle self s
  | .call (.swapcontext oucp ucp) next, false, s =>
      oucp = self ∧ ucp ≠ self ∧ M.alive oucp s = true ∧ M.alive ucp s = true ∧
        A.Resumed ucp s ∧ A.Always ucp s ∧
        ∀ t, A.Resumed self t → A.view self t = A.view self s →
          Safe self (next ()) false t
  | .call (.setcontext ucp) _, false, s =>
      ucp ≠ self ∧ M.alive ucp s = true ∧ A.Resumed ucp s ∧ A.Always ucp s ∧
        ∀ t, A.view self t = A.view self s → ¬A.Resumed self t
  | _, _, _ => False

variable {A}

/-- With interrupts enabled, others may have run in the meantime. -/
theorem Safe.of_view
    {self : ContextRef} {code : Code I ρ} {s t : σ} (h : A.Safe self code true s)
    (hview : A.view self t = A.view self s) : A.Safe self code true t := by
  cases code with
  | ret value => exact fun u hu huv => h u hu (huv.trans hview)
  | call op next =>
      cases op with
      | interruptDisable => exact fun u hu huv => h u hu (huv.trans hview)
      | access op => exact h
      | interruptEnable => exact h
      | interruptEnableSuspend => exact h
      | swapcontext oucp ucp => exact h
      | setcontext ucp => exact h

theorem Safe.disabled
    {self : ContextRef} {op : CpuOp I} {next : (cpuInterface I).Answer op → Code I ρ}
    {enabled : Bool} {s : σ} (h : A.Safe self (.call op next) enabled s)
    (hop : op ≠ .interruptDisable) : enabled = false := by
  cases enabled with
  | false => rfl
  | true =>
      cases op with
      | interruptDisable => exact absurd rfl hop
      | access op => exact h.elim
      | interruptEnable => exact h.elim
      | interruptEnableSuspend => exact h.elim
      | swapcontext oucp ucp => exact h.elim
      | setcontext ucp => exact h.elim

/-- The rule of an operation with one result. -/
theorem Safe.access
    {self : ContextRef} {op : I.Op} {answer : I.Answer op}
    {next : I.Answer op → Code I ρ} {s t : σ} (hguard : A.Guard self op s)
    (hexec : M.exec op s = [(answer, t)])
    (hquiet : A.Quiet self op answer s t) (hnext : A.Safe self (next answer) false t) :
    A.Safe self (.call (.access op) next) false s := by
  refine ⟨hguard, by rw [hexec]; exact List.cons_ne_nil _ _, fun answer' t' hmem => ?_⟩
  rw [hexec, List.mem_singleton] at hmem
  cases hmem
  exact ⟨hquiet, hnext⟩

/-! ## Soundness -/

/-- All code that can be run is safe where it is run. -/
structure Verified (A : Assertions M) : Prop where
  entry : ∀ ref s, A.Resumed ref s → A.view ref s = A.fresh →
    A.Safe ref M.entry false s
  timer : ∀ self s code, A.Settled self s → A.Safe self code true s →
    A.Safe self (M.timer >>= fun _ => code) true s
  follow : ∀ self enabled value s code, A.Returned self enabled value s →
    (enabled = true → A.Settled self s) → M.Follow self value s code →
      A.Safe self code enabled s

/-- The invariant of the processor. -/
structure CpuInvariant (A : Assertions M) (c : Cpu I σ ρ) : Prop where
  settled : c.suspended = false → c.interrupts = true →
    A.Settled c.executing c.state
  safe : c.suspended = false → A.Safe c.executing c.current c.interrupts c.state
  saved : ∀ ref code, ref ≠ c.executing → c.contexts ref = some code →
    ∀ t, A.Resumed ref t → A.view ref t = A.view ref c.state →
      A.Safe ref code false t
  always : A.Always c.executing c.state
  idle : c.suspended = true → A.Idle c.executing c.state

theorem CpuInvariant.access
    {c : Cpu I σ ρ} {op : I.Op} {next : I.Answer op → Code I ρ}
    {answer : I.Answer op} {state : σ} (hverified : Verified A)
    (h : CpuInvariant A c) (hrunning : c.suspended = false)
    (hcurrent : c.current = .call (.access op) next)
    (hexec : (answer, state) ∈ M.exec op c.state) :
    CpuInvariant A { c with
      state := state
      current := next answer
      contexts := M.makeContexts op answer c.contexts } := by
  have hsafe := h.safe hrunning
  rw [hcurrent] at hsafe
  have hinterrupts := hsafe.disabled nofun
  rw [hinterrupts] at hsafe
  obtain ⟨hquiet, hnext⟩ := hsafe.2.2 answer state hexec
  constructor
  case settled => exact fun _ henabled => absurd (hinterrupts.symm.trans henabled) nofun
  case safe =>
      intro _
      change A.Safe c.executing (next answer) c.interrupts state
      rw [hinterrupts]
      exact hnext
  case saved =>
      intro ref code hne href t hresumed hview
      change M.makeContexts op answer c.contexts ref = some code at href
      change A.view ref t = A.view ref state at hview
      unfold makeContexts at href
      cases hmakes : M.makes op answer with
      | none =>
          simp only [hmakes] at href
          refine h.saved ref code hne href t hresumed (hview.trans ?_)
          exact hquiet.others ref hne (by rw [hmakes]; exact nofun)
      | some made =>
          simp only [hmakes, Function.update_apply] at href
          split at href
          case isTrue heq =>
              cases href
              refine hverified.entry ref t hresumed (hview.trans ?_)
              exact (hquiet.made ref (by rw [hmakes, heq])).2
          case isFalse hmade =>
              refine h.saved ref code hne href t hresumed (hview.trans ?_)
              refine hquiet.others ref hne ?_
              rw [hmakes, ne_eq, Option.some.injEq]
              exact fun heq => hmade heq.symm
  case always => exact hquiet.always
  case idle => exact fun hsuspended => absurd (hrunning.symm.trans hsuspended) nofun

theorem CpuInvariant.swapcontext
    {c : Cpu I σ ρ} {oucp ucp : ContextRef} {next : Unit → Code I ρ} {code : Code I ρ}
    (h : CpuInvariant A c) (hrunning : c.suspended = false)
    (hcurrent : c.current = .call (.swapcontext oucp ucp) next)
    (hcontext : c.contexts ucp = some code) :
    CpuInvariant A { c with
      executing := ucp
      current := code
      contexts := Function.update c.contexts oucp (some (next ())) } := by
  have hsafe := h.safe hrunning
  rw [hcurrent] at hsafe
  have hinterrupts := hsafe.disabled nofun
  rw [hinterrupts] at hsafe
  obtain ⟨rfl, hne, _, _, hresumed, halways, hback⟩ := hsafe
  constructor
  case settled => exact fun _ henabled => absurd (hinterrupts.symm.trans henabled) nofun
  case safe =>
      intro _
      change A.Safe ucp code c.interrupts c.state
      rw [hinterrupts]
      exact h.saved ucp code hne hcontext c.state hresumed rfl
  case saved =>
      intro ref code' href hcode' t ht hview
      change Function.update c.contexts c.executing (some (next ())) ref =
        some code' at hcode'
      rw [Function.update_apply] at hcode'
      split at hcode'
      case isTrue heq =>
          cases hcode'
          subst heq
          exact hback t ht hview
      case isFalse hother => exact h.saved ref code' hother hcode' t ht hview
  case always => exact halways
  case idle => exact fun hsuspended => absurd (hrunning.symm.trans hsuspended) nofun

theorem CpuInvariant.setcontext
    {c : Cpu I σ ρ} {ucp : ContextRef} {next : Unit → Code I ρ} {code : Code I ρ}
    (h : CpuInvariant A c) (hrunning : c.suspended = false)
    (hcurrent : c.current = .call (.setcontext ucp) next)
    (hcontext : c.contexts ucp = some code) :
    CpuInvariant A { c with executing := ucp, current := code } := by
  have hsafe := h.safe hrunning
  rw [hcurrent] at hsafe
  have hinterrupts := hsafe.disabled nofun
  rw [hinterrupts] at hsafe
  obtain ⟨hne, _, hresumed, halways, hgone⟩ := hsafe
  constructor
  case settled => exact fun _ henabled => absurd (hinterrupts.symm.trans henabled) nofun
  case safe =>
      intro _
      change A.Safe ucp code c.interrupts c.state
      rw [hinterrupts]
      exact h.saved ucp code hne hcontext c.state hresumed rfl
  case saved =>
      intro ref code' href hcode' t ht hview
      by_cases hself : ref = c.executing
      · subst hself
        exact absurd ht (hgone t hview)
      · exact h.saved ref code' hself hcode' t ht hview
  case always => exact halways
  case idle => exact fun hsuspended => absurd (hrunning.symm.trans hsuspended) nofun

theorem CpuInvariant.follow
    {c : Cpu I σ ρ} {value : ρ} {code : Code I ρ} (hverified : Verified A)
    (h : CpuInvariant A c) (hrunning : c.suspended = false)
    (hcurrent : c.current = .ret value)
    (hfollow : M.Follow c.executing value c.state code) :
    CpuInvariant A { c with current := code } := by
  have hsafe := h.safe hrunning
  rw [hcurrent] at hsafe
  have hreturned : A.Returned c.executing c.interrupts value c.state := by
    cases hinterrupts : c.interrupts with
    | true =>
        rw [hinterrupts] at hsafe
        exact hsafe c.state (h.settled hrunning hinterrupts) rfl
    | false =>
        rw [hinterrupts] at hsafe
        exact hsafe
  refine ⟨h.settled, fun _ => ?_, h.saved, h.always, h.idle⟩
  exact hverified.follow _ _ value _ code hreturned (h.settled hrunning) hfollow

theorem CpuInvariant.step
    {c c' : Cpu I σ ρ} {event : CpuEvent I} (hverified : Verified A)
    (h : CpuInvariant A c) (hstep : M.Step c event c') : CpuInvariant A c' := by
  cases hstep with
  | access hrunning hcurrent hexec => exact h.access hverified hrunning hcurrent hexec
  | interruptDisable hrunning hcurrent =>
      have hsafe := h.safe hrunning
      rw [hcurrent] at hsafe
      cases hinterrupts : c.interrupts with
      | false =>
          rw [hinterrupts] at hsafe
          exact hsafe.elim
      | true =>
          rw [hinterrupts] at hsafe
          exact ⟨nofun, fun _ => hsafe c.state (h.settled hrunning hinterrupts) rfl,
            h.saved, h.always, h.idle⟩
  | interruptEnable hrunning hcurrent =>
      have hsafe := h.safe hrunning
      rw [hcurrent] at hsafe
      rw [hsafe.disabled nofun] at hsafe
      exact ⟨fun _ _ => hsafe.1, fun _ => hsafe.2, h.saved, h.always, h.idle⟩
  | interruptEnableSuspend hrunning hcurrent =>
      have hsafe := h.safe hrunning
      rw [hcurrent] at hsafe
      rw [hsafe.disabled nofun] at hsafe
      exact ⟨nofun, nofun, h.saved, h.always, fun _ => hsafe⟩
  | swapcontext hrunning hcurrent _ _ hcontext =>
      exact h.swapcontext hrunning hcurrent hcontext
  | setcontext hrunning hcurrent _ hcontext =>
      exact h.setcontext hrunning hcurrent hcontext
  | follow hrunning hcurrent hfollow =>
      exact h.follow hverified hrunning hcurrent hfollow
  | timer hrunning henabled =>
      have hsafe := h.safe hrunning
      rw [henabled] at hsafe
      refine ⟨h.settled, fun _ => ?_, h.saved, h.always, h.idle⟩
      change A.Safe c.executing (M.timer >>= fun _ => c.current) c.interrupts c.state
      rw [henabled]
      exact hverified.timer _ _ _ (h.settled hrunning henabled) hsafe

theorem CpuInvariant.guard
    {c : Cpu I σ ρ} {op : I.Op} {next : I.Answer op → Code I ρ}
    (h : CpuInvariant A c) (hrunning : c.suspended = false)
    (hcurrent : c.current = .call (.access op) next) :
    A.Guard c.executing op c.state := by
  have hsafe := h.safe hrunning
  rw [hcurrent] at hsafe
  rw [hsafe.disabled nofun] at hsafe
  exact hsafe.1

/-- Safe code keeps the invariant in every run. -/
theorem sound
    {state : σ} {code : Code I ρ} {c : Cpu I σ ρ} (hverified : Verified A)
    (hboot : A.Safe .host code false state) (halways : A.Always .host state)
    (hreach : M.system.Reachable (boot state code) c) : CpuInvariant A c := by
  refine hreach.invariant (CpuInvariant A) ⟨?_, fun _ => hboot, ?_, halways, ?_⟩
    fun _ _ _ h hstep => h.step hverified hstep
  · intro _ henabled
    cases henabled
  · intro _ _ _ hnone
    cases hnone
  · intro hsuspended
    cases hsuspended

end Assertions
end Uniprocessor
end Eecs482
