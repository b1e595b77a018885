import Eecs482.ProgLengths
import Eecs482.ThreadAgreement

/-!
# What the contexts have still to do

Every context that may run again has been saved, and the calls that its code has still to
make are covered by its budget: a call costs one, the timer and the functions of the
library bring a fixed number each.
-/

namespace Eecs482
namespace Threads

open Uniprocessor

variable {c c' : ThreadCpu} {s s' : State} {op : ThreadOp} {event : CpuEvent threadInterface}
  {ref : ContextRef} {n : ℕ} {code : ThreadCode Outcome}

/-! ## The length of the functions -/

/-- No function of the library makes more calls. -/
def callCost : ℕ := 28

/-- The calls of `yield`. -/
def timerCost : ℕ := 11

theorem atMost_swapHelper
    {next : Unit → ThreadCode Outcome} (h : (next ()).AtMost n) :
    (swapHelper >>= next).AtMost (n + 7) := by
  intro empty
  cases empty with
  | true => exact fun _ _ _ => h.mono (by omega)
  | false => exact fun _ _ _ _ _ _ => h

theorem atMost_yield (h : code.AtMost n) :
    (yield >>= fun _ => code).AtMost (n + timerCost) := by
  intro _ empty
  cases empty with
  | true => exact fun _ => h.mono (by omega)
  | false =>
      intro _
      change (swapHelper >>= (fun _ => interruptEnable) >>= fun _ => code).AtMost (n + 8)
      rw [Prog.bind_assoc]
      exact atMost_swapHelper fun _ => h

theorem atMost_returned (m : ℕ) :
    (Prog.call (I := cpuInterface threadInterface) (.access (.note (.returned · m))) fun _ =>
      .call .interruptEnable fun _ => .ret (.user false) : ThreadCode Outcome).AtMost 2 :=
  fun _ _ => trivial

theorem atMost_lock (m : ℕ) : (lock m).AtMost 12 := by
  intro _ status
  cases status with
  | true => exact fun _ => atMost_swapHelper (atMost_returned m)
  | false => exact fun _ _ => (atMost_returned m).mono (by decide)

theorem atMost_unlock (m : ℕ) : (unlock m).AtMost 10 := by
  intro _ owned
  cases owned with
  | false => exact fun _ => trivial
  | true =>
      intro _ _ empty
      cases empty with
      | true => exact fun _ => trivial
      | false => exact fun _ _ _ _ _ => trivial

theorem atMost_wait (cv m : ℕ) : (wait cv m).AtMost callCost := by
  have hagain : (do
      if !(← access (.status m)) then
        access (.occupyRunning m)
        access (.setStatus m true)
      else
        access (.push (.mutexQueue m))
        swapHelper
      access (.note (.returned · m))
      interruptEnable
      return .user false : ThreadCode Outcome).AtMost 11 := by
    intro status
    cases status with
    | false => exact fun _ _ => (atMost_returned m).mono (by decide)
    | true => exact fun _ => atMost_swapHelper (atMost_returned m)
  intro _ owned
  cases owned with
  | false => exact fun _ => trivial
  | true =>
      intro _ _ _ empty
      cases empty with
      | true => exact (atMost_swapHelper hagain).mono (by decide)
      | false =>
          intro _ _ _ _
          exact atMost_swapHelper hagain

theorem atMost_call (call : UserCall) : call.code.AtMost callCost := by
  have hreturn : ∀ n, (Prog.call (I := cpuInterface threadInterface) .interruptEnable fun _ =>
      .ret (.user false) : ThreadCode Outcome).AtMost (n + 1) := fun _ _ => trivial
  cases call with
  | create =>
      intro _ tcb
      cases tcb with
      | none => exact fun _ => trivial
      | some t => exact fun _ _ _ => trivial
  | join t =>
      intro _ expired
      cases expired with
      | true => exact hreturn _
      | false =>
          intro _
          exact (atMost_swapHelper (hreturn 0)).mono (by decide)
  | yield =>
      have hyield : UserCall.yield.code.AtMost (0 + timerCost) :=
        atMost_yield (show (Prog.ret _ : ThreadCode Outcome).AtMost 0 from trivial)
      exact hyield.mono (by decide)
  | lock m => exact (atMost_lock m).mono (by decide)
  | unlock m => exact (atMost_unlock m).mono (by decide)
  | wait cv m => exact atMost_wait cv m
  | signal cv =>
      intro _ empty
      cases empty with
      | true => exact hreturn _
      | false => exact fun _ _ => hreturn _
  | broadcast cv => exact fun _ _ => hreturn _
  | exit =>
      intro _ self _ _ empty
      cases empty with
      | true => exact fun _ => trivial
      | false => exact fun _ _ _ _ _ _ => trivial

theorem atMost_starter : starter.AtMost 2 :=
  fun _ _ => trivial

theorem atMost_cpuBoot : cpuBoot.AtMost 4 := by
  intro tcb
  cases tcb with
  | none => exact fun _ => trivial
  | some t => exact fun _ _ _ => trivial

theorem atMost_cpuLoop : cpuLoop.AtMost callCost := by
  intro empty
  cases empty with
  | true => exact fun _ _ _ _ => trivial
  | false => exact fun _ _ _ _ _ => trivial

/-! ## Budgets -/

/-- The context has been made. -/
def Made (s : State) : ContextRef → Prop
  | .host => True
  | .thread t => t < s.created

/-- The context may be switched to, for all that it knows. -/
def Resumable (ref : ContextRef) (s : State) : Prop :=
  ∃ s', assertions.Resumed ref s' ∧ threadView ref s' = threadView ref s

/-- The code that runs, and the code of the contexts that may be switched to, have still
so many calls to make. -/
structure Funded (budget : ContextRef → ℕ) (c : ThreadCpu) : Prop where
  current : c.current.AtMost (budget c.executing)
  made : Made c.state c.executing
  saved : ∀ ref, ref ≠ c.executing → Made c.state ref → Resumable ref c.state →
    ∃ code, c.contexts ref = some code ∧ code.AtMost (budget ref)
  unborn : ∀ t, c.state.created ≤ t → 2 ≤ budget (.thread t)

/-- A call costs one. -/
def spend (ref : ContextRef) (budget : ContextRef → ℕ) : ContextRef → ℕ :=
  Function.update budget ref (budget ref - 1)

theorem made_of_resumed (hresumed : assertions.Resumed ref s) : Made s ref := by
  cases ref with
  | host => trivial
  | thread t =>
      obtain ⟨place, hswitched⟩ := hresumed
      have hplace := (hswitched.only t).mpr rfl
      apply Nat.lt_of_not_le
      rw [← hswitched.unborn_iff, hplace]
      simp

theorem created_of_exec
    {answer : threadInterface.Answer op} (hexec : (answer, s') ∈ State.exec op s) :
    s'.created = s.created ∨
      machine.makes op answer = some (.thread s.created) ∧ s'.created = s.created + 1 := by
  by_cases hquiet : quiet op = true
  · obtain ⟨_, hbesides, _⟩ := unseen_of_quiet hquiet hexec
    exact .inl hbesides.created
  cases op with
  | makeTcb =>
      rcases List.mem_pair.mp hexec with heq | heq
      · cases heq
        exact .inl rfl
      · cases heq
        exact .inr ⟨rfl, rfl⟩
  | push q =>
      simp only [State.exec] at hexec
      split at hexec
      · cases hexec
      · split at hexec
        · cases List.mem_singleton.mp hexec
          exact .inl rfl
        · cases hexec
  | pop q =>
      obtain ⟨t, rest, _, rfl⟩ := mem_exec_pop hexec
      exact .inl ((besides_pop (q := q)).created)
  | wakeAll q =>
      simp only [State.exec] at hexec
      split at hexec
      · cases List.mem_singleton.mp hexec
        exact .inl besides_wakeAll.created
      · cases hexec
  | occupyFront m =>
      obtain ⟨_, _, _, _, hcreated, _⟩ := mem_exec_occupyFront hexec
      exact .inl hcreated
  | checkOwnership m =>
      cases List.mem_singleton.mp hexec
      exact .inl rfl
  | note event =>
      simp only [State.exec] at hexec
      split at hexec
      · cases hexec
      · cases List.mem_singleton.mp hexec
        exact .inl rfl
  | _ => exact absurd rfl hquiet

theorem Made.of_exec
    {answer : threadInterface.Answer op} (hexec : (answer, s') ∈ State.exec op s)
    (hnot : machine.makes op answer ≠ some ref) (h : Made s' ref) : Made s ref := by
  cases ref with
  | host => trivial
  | thread t =>
      have hlt : t < s'.created := h
      change t < s.created
      rcases created_of_exec hexec with hsame | ⟨hmakes, hcreated⟩
      · rwa [hsame] at hlt
      · have hne : t ≠ s.created := by
          rintro rfl
          exact hnot hmakes
        omega

variable {budget budget' : ContextRef → ℕ}

theorem Made.mono (h : Made s ref) (hle : s.created ≤ s'.created) : Made s' ref := by
  cases ref with
  | host => trivial
  | thread t => exact Nat.lt_of_lt_of_le h hle

theorem Funded.unborn_of_others
    (h : Funded budget c) (hothers : ∀ ref, ref ≠ c.executing → budget' ref = budget ref)
    (ht : c.state.created ≤ t) : 2 ≤ budget' (.thread t) := by
  have hne : ContextRef.thread t ≠ c.executing := by
    intro heq
    have hmade := h.made
    rw [← heq] at hmade
    exact absurd ht (Nat.not_le.mpr hmade)
  rw [hothers _ hne]
  exact h.unborn t ht

/-- The running context gets other code, and another budget. -/
theorem Funded.goTo (h : Funded budget c) (hcode : code.AtMost n) :
    Funded (Function.update budget c.executing n) { c with current := code } := by
  have hothers : ∀ ref, ref ≠ c.executing →
      Function.update budget c.executing n ref = budget ref :=
    fun ref hne => Function.update_of_ne hne _ _
  constructor
  case current =>
      change code.AtMost (Function.update budget c.executing n c.executing)
      rw [Function.update_self]
      exact hcode
  case made => exact h.made
  case saved =>
      intro ref hne hmade hresumable
      rw [hothers ref hne]
      exact h.saved ref hne hmade hresumable
  case unborn => exact fun t ht => h.unborn_of_others hothers ht

theorem spend_of_ne {self : ContextRef} (hne : ref ≠ self) : spend self budget ref = budget ref :=
  Function.update_of_ne hne _ _

theorem spend_self : spend ref budget ref = budget ref - 1 :=
  Function.update_self ..

theorem Funded.access
    {next : threadInterface.Answer op → ThreadCode Outcome}
    {answer : threadInterface.Answer op} (h : Funded budget c)
    (hcall : c.current = .call (.access op) next)
    (hquiet : assertions.Quiet c.executing op answer c.state s')
    (hexec : (answer, s') ∈ State.exec op c.state) :
    Funded (spend c.executing budget) { c with
      state := s'
      current := next answer
      contexts := machine.makeContexts op answer c.contexts } := by
  have hcreated : c.state.created ≤ s'.created := by
    rcases created_of_exec hexec with hsame | ⟨_, hcreated⟩ <;> omega
  have hcurrent := h.current
  rw [hcall] at hcurrent
  constructor
  case current =>
      change (next answer).AtMost (spend c.executing budget c.executing)
      rw [spend_self]
      exact hcurrent.next answer
  case made => exact h.made.mono hcreated
  case saved =>
      intro ref hne hmade hresumable
      change ∃ code, machine.makeContexts op answer c.contexts ref = some code ∧ _
      rw [spend_of_ne hne]
      unfold makeContexts
      by_cases hmakes : machine.makes op answer = some ref
      · have hborn := makes_created hexec hmakes
        rw [hmakes]
        refine ⟨starter, Function.update_self .., atMost_starter.mono ?_⟩
        rw [hborn]
        exact h.unborn _ (Nat.le_refl _)
      · have hview := hquiet.others ref hne hmakes
        obtain ⟨s'', hresumed, hsame⟩ := hresumable
        obtain ⟨code, hcode, hatMost⟩ := h.saved ref hne (hmade.of_exec hexec hmakes)
          ⟨s'', hresumed, hsame.trans hview⟩
        refine ⟨code, ?_, hatMost⟩
        cases hother : machine.makes op answer with
        | none => exact hcode
        | some made =>
            have hne' : ref ≠ made := by
              rintro rfl
              exact hmakes hother
            exact (Function.update_of_ne hne' _ _).trans hcode
  case unborn =>
      intro t ht
      exact h.unborn_of_others (fun ref hne => spend_of_ne hne) (Nat.le_trans hcreated ht)

/-- The running code switches to a context that may be switched to. -/
theorem Funded.switch
    {ucp : ContextRef} {contexts : ContextRef → Option (ThreadCode Outcome)}
    (h : Funded budget c) (hne : ucp ≠ c.executing) (hcontext : c.contexts ucp = some code)
    (hresumed : assertions.Resumed ucp c.state)
    (hself : Resumable c.executing c.state →
      ∃ rest, contexts c.executing = some rest ∧ rest.AtMost (budget c.executing - 1))
    (hothers : ∀ ref, ref ≠ c.executing → contexts ref = c.contexts ref) :
    Funded (spend c.executing budget)
      { c with executing := ucp, current := code, contexts := contexts } := by
  have hmade := made_of_resumed hresumed
  constructor
  case current =>
      change code.AtMost (spend c.executing budget ucp)
      obtain ⟨code', hcode', hatMost⟩ := h.saved ucp hne hmade ⟨_, hresumed, rfl⟩
      rw [hcontext] at hcode'
      cases hcode'
      rw [spend_of_ne hne]
      exact hatMost
  case made => exact hmade
  case saved =>
      intro ref _ hmade' hresumable
      change ∃ rest, contexts ref = some rest ∧ _
      by_cases href : ref = c.executing
      · subst href
        rw [spend_self]
        exact hself hresumable
      · rw [hothers ref href, spend_of_ne href]
        exact h.saved ref href hmade' hresumable
  case unborn => exact fun t ht => h.unborn_of_others (fun ref hne => spend_of_ne hne) ht

/-- What the running code calls is paid from its budget. -/
theorem Funded.call
    {op : CpuOp threadInterface} (hreach : machine.system.Reachable boot c)
    (h : Funded budget c) (hstep : machine.Step c (.call op) c') :
    0 < budget c.executing ∧ Funded (spend c.executing budget) c' := by
  have hinvariant := invariant_of_reachable hreach
  have hcurrent := h.current
  have hgoTo : ∀ {code : ThreadCode Outcome}, code.AtMost (budget c.executing - 1) →
      Funded (spend c.executing budget) { c with current := code } := h.goTo
  cases hstep with
  | @access op next answer state hrunning hcall hexec =>
      have hsafe := hinvariant.safe hrunning
      rw [hcall] at hsafe hcurrent
      rw [hsafe.disabled nofun] at hsafe
      exact ⟨hcurrent.pos, h.access hcall (hsafe.2.2 answer state hexec).1 hexec⟩
  | interruptDisable _ hcall =>
      rw [hcall] at hcurrent
      have hnext := hgoTo (hcurrent.next ())
      exact ⟨hcurrent.pos, hnext.current, hnext.made, hnext.saved, hnext.unborn⟩
  | interruptEnable _ hcall =>
      rw [hcall] at hcurrent
      have hnext := hgoTo (hcurrent.next ())
      exact ⟨hcurrent.pos, hnext.current, hnext.made, hnext.saved, hnext.unborn⟩
  | interruptEnableSuspend _ hcall =>
      rw [hcall] at hcurrent
      have hnext := hgoTo (hcurrent.next ())
      exact ⟨hcurrent.pos, hnext.current, hnext.made, hnext.saved, hnext.unborn⟩
  | @swapcontext oucp ucp next code hrunning hcall _ _ hcontext =>
      have hsafe := hinvariant.safe hrunning
      rw [hcall] at hsafe hcurrent
      rw [hsafe.disabled nofun] at hsafe
      obtain ⟨rfl, hne, _, _, hresumed, _⟩ := hsafe
      refine ⟨hcurrent.pos, h.switch hne hcontext hresumed ?_ ?_⟩
      · exact fun _ => ⟨_, Function.update_self .., hcurrent.next ()⟩
      · exact fun ref href => Function.update_of_ne href _ _
  | @setcontext ucp next code hrunning hcall _ hcontext =>
      have hsafe := hinvariant.safe hrunning
      rw [hcall] at hsafe hcurrent
      rw [hsafe.disabled nofun] at hsafe
      obtain ⟨hne, _, hresumed, _, hgone⟩ := hsafe
      refine ⟨hcurrent.pos, h.switch hne hcontext hresumed ?_ fun _ _ => rfl⟩
      intro hresumable
      obtain ⟨s'', hback, hview⟩ := hresumable
      exact absurd hback (hgone s'' hview)

/-- A call in the running code can be made. -/
theorem Funded.exists_call
    {op : CpuOp threadInterface} {next : (cpuInterface threadInterface).Answer op →
      ThreadCode Outcome} (hreach : machine.system.Reachable boot c) (h : Funded budget c)
    (hrunning : c.suspended = false) (hcall : c.current = .call op next) :
    ∃ c', machine.Step c (.call op) c' := by
  have hsafe := (invariant_of_reachable hreach).safe hrunning
  rw [hcall] at hsafe
  cases op with
  | access op =>
      rw [hsafe.disabled nofun] at hsafe
      obtain ⟨result, hmem⟩ := List.exists_mem_of_ne_nil _ hsafe.2.1
      exact ⟨_, .access hrunning hcall hmem⟩
  | interruptDisable => exact ⟨_, .interruptDisable hrunning hcall⟩
  | interruptEnable => exact ⟨_, .interruptEnable hrunning hcall⟩
  | interruptEnableSuspend => exact ⟨_, .interruptEnableSuspend hrunning hcall⟩
  | swapcontext oucp ucp =>
      rw [hsafe.disabled nofun] at hsafe
      obtain ⟨rfl, hne, hself, halive, hresumed, _⟩ := hsafe
      obtain ⟨code, hcode, _⟩ := h.saved ucp hne (made_of_resumed hresumed) ⟨_, hresumed, rfl⟩
      exact ⟨_, .swapcontext hrunning hcall hself halive hcode⟩
  | setcontext ucp =>
      rw [hsafe.disabled nofun] at hsafe
      obtain ⟨hne, halive, hresumed, _⟩ := hsafe
      obtain ⟨code, hcode, _⟩ := h.saved ucp hne (made_of_resumed hresumed) ⟨_, hresumed, rfl⟩
      exact ⟨_, .setcontext hrunning hcall halive hcode⟩

end Threads
end Eecs482
