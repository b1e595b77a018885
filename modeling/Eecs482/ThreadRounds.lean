import Eecs482.ThreadBudgets

/-!
# The loop of the host

When control comes back to the host, no thread is ready.  So its loop has two rounds at
most, and at the end of the last one the processor is suspended.
-/

namespace Eecs482
namespace Threads

open Uniprocessor

variable {c c' : ThreadCpu} {s : State} {t rounds : ℕ} {code : ThreadCode Outcome}

/-- The host starts its loop at most so often, and comes to its end by suspending the
processor.  When control comes back to it, no thread is ready. -/
def Rounds : ThreadCode Outcome → ℕ → State → Prop
  | .ret value, rounds, s => value ≠ .suspended ∧
      (value = .loop → 0 < rounds ∧ (rounds = 1 → s.queues .ready = []))
  | .call (.access op) next, rounds, s =>
      ∀ answer s', (answer, s') ∈ State.exec op s → Rounds (next answer) rounds s'
  | .call .interruptDisable next, rounds, _ => ∀ s', Rounds (next ()) rounds s'
  | .call .interruptEnable next, rounds, _ => ∀ s', Rounds (next ()) rounds s'
  | .call .interruptEnableSuspend _, _, _ => True
  | .call (.swapcontext _ _) next, rounds, _ =>
      ∀ s', s'.queues .ready = [] → Rounds (next ()) rounds s'
  | .call (.setcontext _) _, _, _ => False

theorem rounds_cpuBoot : Rounds cpuBoot 2 s := by
  intro tcb s' _
  cases tcb with
  | none => exact fun _ => ⟨nofun, nofun⟩
  | some t => exact fun _ _ _ _ _ _ _ _ _ => ⟨nofun, fun _ => ⟨by decide, nofun⟩⟩

theorem rounds_cpuLoop (h : rounds = 0 → s.queues .ready = []) (hle : rounds ≤ 1) :
    Rounds cpuLoop rounds s := by
  intro empty s' hexec
  have hempty : empty = (s.queues .ready).isEmpty := by
    cases List.mem_singleton.mp hexec
    rfl
  cases empty with
  | true => exact fun _ _ _ _ _ _ _ _ _ => trivial
  | false =>
      have hround : rounds = 1 := by
        by_contra hne
        rw [h (by omega)] at hempty
        cases hempty
      subst hround
      intro _ _ _ _ _ _ _ _ _ back hready _ last hreset
      cases List.mem_singleton.mp hreset
      refine ⟨nofun, fun _ => ⟨Nat.one_pos, fun _ => ?_⟩⟩
      have hsame := (becomes_previousReset (s := back)).queues .ready (by simp [Queue.Lasting])
      exact hsame.trans hready

theorem rounds_swapHelper
    {next : Unit → ThreadCode Outcome} (h : ∀ s, Rounds (next ()) rounds s) :
    Rounds (swapHelper >>= next) rounds s := by
  intro empty _ _
  cases empty with
  | true => exact fun _ _ _ _ _ _ s' _ => h s'
  | false => exact fun _ _ _ _ _ _ _ _ _ _ _ _ _ _ _ s' _ => h s'

theorem rounds_yield (h : ∀ s, Rounds code rounds s) :
    Rounds (yield >>= fun _ => code) rounds s := by
  intro s' empty _ _
  cases empty with
  | true => exact h
  | false =>
      intro _ _ _
      change Rounds (swapHelper >>= (fun _ => interruptEnable) >>= fun _ => code) rounds _
      rw [Prog.bind_assoc]
      exact rounds_swapHelper fun _ => h

/-- The loop of the host has so many rounds to go, at most. -/
structure HostRounds (rounds : ℕ) (c : ThreadCpu) : Prop where
  current : c.executing = .host → c.suspended = false → Rounds c.current rounds c.state
  saved : c.executing ≠ .host → ∀ code, c.contexts .host = some code →
    ∀ s, s.queues .ready = [] → Rounds code rounds s

theorem HostRounds.switch
    {ucp : ContextRef} {contexts : ContextRef → Option (ThreadCode Outcome)}
    (h : HostRounds rounds c) (hne : ucp ≠ c.executing) (hcontext : c.contexts ucp = some code)
    (hresumed : assertions.Resumed ucp c.state)
    (hself : c.executing = .host → ∀ rest, contexts .host = some rest →
      ∀ s, s.queues .ready = [] → Rounds rest rounds s)
    (hothers : c.executing ≠ .host → contexts .host = c.contexts .host) :
    HostRounds rounds { c with executing := ucp, current := code, contexts := contexts } := by
  constructor
  · rintro rfl _
    exact h.saved hne.symm code hcontext c.state hresumed.1
  · intro _ rest hrest
    by_cases hhost : c.executing = .host
    · exact hself hhost rest hrest
    · exact h.saved hhost rest ((hothers hhost).symm.trans hrest)

/-- With interrupts enabled, the host does not depend on the state any more. -/
theorem HostRounds.enabled
    (hreach : machine.system.Reachable boot c) (h : HostRounds rounds c)
    (hrunning : c.suspended = false) (henabled : c.interrupts = true)
    (hhost : c.executing = .host) (s : State) : Rounds c.current rounds s := by
  have hinvariant := invariant_of_reachable hreach
  have hsettled := hinvariant.settled hrunning henabled
  have hsafe := hinvariant.safe hrunning
  have hcurrent := h.current hhost hrunning
  rw [henabled] at hsafe
  cases hcode : c.current with
  | ret value =>
      rw [hcode] at hsafe hcurrent
      refine ⟨hcurrent.1, ?_⟩
      rintro rfl
      have hreturned := hsafe c.state hsettled rfl
      cases hreturned.2.1
  | call op next =>
      rw [hcode] at hsafe hcurrent
      cases op with
      | interruptDisable => exact hcurrent
      | _ => exact hsafe.elim

theorem HostRounds.call
    {op : CpuOp threadInterface} (hreach : machine.system.Reachable boot c)
    (h : HostRounds rounds c) (hstep : machine.Step c (.call op) c') :
    HostRounds rounds c' := by
  have hinvariant := invariant_of_reachable hreach
  have hcurrent := h.current
  cases hstep with
  | @access op next answer state hrunning hcall hexec =>
      constructor
      · intro hhost _
        have hrounds := hcurrent hhost hrunning
        rw [hcall] at hrounds
        exact hrounds answer state hexec
      · intro hthread code hcode
        change machine.makeContexts op answer c.contexts .host = some code at hcode
        unfold makeContexts at hcode
        cases hmakes : machine.makes op answer with
        | none =>
            rw [hmakes] at hcode
            exact h.saved hthread code hcode
        | some made =>
            rw [hmakes, makes_created hexec hmakes] at hcode
            exact h.saved hthread code hcode
  | interruptDisable hrunning hcall =>
      refine ⟨fun hhost _ => ?_, h.saved⟩
      have hrounds := hcurrent hhost hrunning
      rw [hcall] at hrounds
      exact hrounds c.state
  | interruptEnable hrunning hcall =>
      refine ⟨fun hhost _ => ?_, h.saved⟩
      have hrounds := hcurrent hhost hrunning
      rw [hcall] at hrounds
      exact hrounds c.state
  | interruptEnableSuspend => exact ⟨nofun, h.saved⟩
  | @swapcontext oucp ucp next code hrunning hcall _ _ hcontext =>
      have hsafe := hinvariant.safe hrunning
      rw [hcall] at hsafe
      rw [hsafe.disabled nofun] at hsafe
      obtain ⟨rfl, hne, _, _, hresumed, _⟩ := hsafe
      apply h.switch hne hcontext hresumed
      · intro hhost rest hrest
        have hrounds := hcurrent hhost hrunning
        rw [hcall] at hrounds
        rw [hhost, Function.update_self] at hrest
        cases hrest
        exact hrounds
      · exact fun hthread => Function.update_of_ne hthread.symm _ _
  | @setcontext ucp next code hrunning hcall _ hcontext =>
      have hsafe := hinvariant.safe hrunning
      rw [hcall] at hsafe
      rw [hsafe.disabled nofun] at hsafe
      obtain ⟨hne, _, hresumed, _⟩ := hsafe
      apply h.switch hne hcontext hresumed
      · intro hhost
        have hrounds := hcurrent hhost hrunning
        rw [hcall] at hrounds
        exact hrounds.elim
      · exact fun _ => rfl

theorem HostRounds.timer
    (hreach : machine.system.Reachable boot c) (h : HostRounds rounds c)
    (hrunning : c.suspended = false) (henabled : c.interrupts = true) :
    HostRounds rounds { c with current := yield >>= fun _ => c.current } :=
  ⟨fun hhost _ => rounds_yield (h.enabled hreach hrunning henabled hhost), h.saved⟩

/-- The next round of the loop. -/
theorem HostRounds.loop
    (h : HostRounds rounds c) (hle : rounds ≤ 2) (hrunning : c.suspended = false)
    (hhost : c.executing = .host) (hret : c.current = .ret .loop) :
    0 < rounds ∧ HostRounds (rounds - 1) { c with current := cpuLoop } := by
  have hcurrent := h.current hhost hrunning
  rw [hret] at hcurrent
  obtain ⟨hpos, hready⟩ := hcurrent.2 rfl
  refine ⟨hpos, fun _ _ => rounds_cpuLoop (fun hzero => hready (by omega)) (by omega), ?_⟩
  exact fun hthread => absurd hhost hthread

/-- A thread gets other code. -/
theorem HostRounds.thread (h : HostRounds rounds c) (hthread : c.executing = .thread t) :
    HostRounds rounds { c with current := code } := by
  refine ⟨fun hhost => ?_, h.saved⟩
  have hself : c.executing = .host := hhost
  rw [hthread] at hself
  cases hself

/-! ## Any run of the processor -/

theorem funded_boot : Funded (fun _ => 4) boot := by
  constructor
  case current => exact atMost_cpuBoot
  case made => trivial
  case saved =>
      intro ref hne hmade _
      cases ref with
      | host => exact absurd rfl hne
      | thread t => exact absurd hmade (Nat.not_lt_zero t)
  case unborn => exact fun _ _ => by decide

theorem hostRounds_boot : HostRounds 2 boot :=
  ⟨fun _ _ => rounds_cpuBoot, fun hthread => absurd rfl hthread⟩

/-- Whatever user code calls, there are budgets for what is left of it. -/
theorem funded_of_reachable (hreach : machine.system.Reachable boot c) :
    (∃ budget, Funded budget c) ∧ ∃ rounds, rounds ≤ 2 ∧ HostRounds rounds c := by
  have hall := hreach.invariant (fun c => machine.system.Reachable boot c ∧
      (∃ budget, Funded budget c) ∧ ∃ rounds, rounds ≤ 2 ∧ HostRounds rounds c)
    ⟨.refl, ⟨_, funded_boot⟩, 2, Nat.le_refl 2, hostRounds_boot⟩ ?_
  · exact hall.2
  · rintro c event c' ⟨hreach, ⟨budget, hfunded⟩, rounds, hle, hrounds⟩ hstep
    refine ⟨hreach.step hstep, ?_⟩
    cases event with
    | call op =>
        exact ⟨⟨_, (hfunded.call hreach hstep).2⟩, rounds, hle, hrounds.call hreach hstep⟩
    | timer =>
        cases hstep with
        | timer hrunning henabled =>
            exact ⟨⟨_, hfunded.goTo (atMost_yield hfunded.current)⟩, rounds, hle,
              hrounds.timer hreach hrunning henabled⟩
    | follow =>
        cases hstep with
        | @follow value code hrunning hret hfollow =>
            have hnext : Follow c.executing value c.state code := hfollow
            obtain hhost | ⟨t, hthread⟩ : c.executing = .host ∨ ∃ t, c.executing = .thread t := by
              cases c.executing with
              | host => exact .inl rfl
              | thread t => exact .inr ⟨t, rfl⟩
            · rw [hhost] at hnext
              cases hnext
              have hround := (hrounds.loop hle hrunning hhost hret).2
              exact ⟨⟨_, hfunded.goTo atMost_cpuLoop⟩, rounds - 1, by omega, hround⟩
            · rw [hthread] at hnext
              cases hnext with
              | user call =>
                  have hfunded' := hfunded.goTo (atMost_call call)
                  exact ⟨⟨_, hfunded'⟩, rounds, hle, hrounds.thread hthread⟩

end Threads
end Eecs482
