import Eecs482.ThreadStatements

/-!
# All contexts follow their phases

In every run the code that runs and the saved contexts follow the phases of their
threads.  A step inside the library leaves the phases alone, or takes the context
that runs to its next phase.
-/

namespace Eecs482
namespace Threads

open Uniprocessor

variable {ι κ : Type} {total : ℕ}

/-- The running code and the saved contexts follow the phases.  A thread that has
finished leaves an old context behind, which never runs again. -/
structure Scripted (N : Numbering ι κ total) (phase : ContextRef → Phase κ)
    (c : ThreadCpu) : Prop where
  current : Follows N c.current (phase c.executing)
  saved : ∀ ref code, ref ≠ c.executing → c.contexts ref = some code →
    phase ref ≠ .finished → Follows N code (phase ref)
  calm : ∀ ref, ref ≠ c.executing → (phase ref).Calm
  born : ∀ t, c.state.created ≤ t → phase (.thread t) = .idle

variable {N : Numbering ι κ total} {phase : ContextRef → Phase κ} {c c' : ThreadCpu}
  {op : ThreadOp}

/-! ## Phases -/

theorem Phase.calm_of_ends {p : Phase κ} {value : Outcome} (h : p.Ends value) : p.Calm := by
  cases value with
  | user threw =>
      cases threw with
      | true =>
          rcases h with rfl | rfl
          · exact nofun
          · exact nofun
      | false =>
          rcases h with rfl | ⟨t, rfl⟩
          · exact nofun
          · exact nofun
  | loop =>
      obtain rfl : p = .hosting := h
      exact nofun
  | bootFailed =>
      obtain rfl : p = .booting := h
      exact nofun
  | suspended =>
      obtain rfl : p = .hosting := h
      exact nofun

theorem Next.of_idle
    {answer : threadInterface.Answer op} {p : Phase κ} (h : Next N .idle op answer p) :
    p = .idle := by
  cases h <;> first | rfl | contradiction

/-- Only `waitCalled` is noted between joining the queue and giving up the mutex. -/
theorem Follows.calm_or_access
    {code : ThreadCode Outcome} {p : Phase κ} (h : Follows N code p) :
    p.Calm ∨ ∃ op next, code = .call (.access op) next := by
  cases code with
  | ret value => exact .inl (Phase.calm_of_ends h)
  | call op next =>
      cases op with
      | access op => exact .inr ⟨op, next, rfl⟩
      | interruptDisable => exact .inl h.1
      | interruptEnable => exact .inl h.1
      | interruptEnableSuspend =>
          obtain ⟨rfl, _⟩ := h
          exact .inl nofun
      | swapcontext oucp ucp => exact .inl h.1
      | setcontext ucp =>
          obtain rfl : p = .finished := h
          exact .inl nofun

/-! ## Steps -/

/-- The context that runs goes to its next phase. -/
def moveTo (phase : ContextRef → Phase κ) (c : ThreadCpu) (p : Phase κ) :
    ContextRef → Phase κ :=
  Function.update phase c.executing p

theorem moveTo_self (p : Phase κ) : moveTo phase c p c.executing = p :=
  Function.update_self ..

theorem moveTo_of_ne {ref : ContextRef} (hne : ref ≠ c.executing) (p : Phase κ) :
    moveTo phase c p ref = phase ref :=
  Function.update_of_ne hne ..

/-- A statement of the running code. -/
theorem Scripted.access
    {next : threadInterface.Answer op → ThreadCode Outcome}
    {answer : threadInterface.Answer op} {state : State} {p : Phase κ}
    (h : Scripted N phase c) (hnext : Next N (phase c.executing) op answer p)
    (hfollows : Follows N (next answer) p)
    (hcreated : c.state.created ≤ state.created)
    (hmakes : ∀ ref, machine.makes op answer = some ref →
      ref = .thread c.state.created) :
    Scripted N (moveTo phase c p) { c with
      state := state
      current := next answer
      contexts := machine.makeContexts op answer c.contexts } := by
  have hidle : phase c.executing = .idle → p = .idle := by
    intro hidle
    rw [hidle] at hnext
    exact hnext.of_idle
  constructor
  case current =>
      change Follows N (next answer) (moveTo phase c p c.executing)
      rw [moveTo_self]
      exact hfollows
  case saved =>
      intro ref code hne href hlive
      change machine.makeContexts op answer c.contexts ref = some code at href
      have hother : moveTo phase c p ref = phase ref := moveTo_of_ne hne p
      rw [hother] at hlive ⊢
      unfold makeContexts at href
      cases hmade : machine.makes op answer with
      | none =>
          rw [hmade] at href
          exact h.saved ref code hne href hlive
      | some made =>
          rw [hmade] at href
          change Function.update c.contexts made (some starter) ref = some code at href
          rw [Function.update_apply] at href
          split at href
          case isTrue heq =>
              cases href
              have hborn := h.born c.state.created (Nat.le_refl _)
              rw [heq, hmakes made hmade, hborn]
              exact follows_starter
          case isFalse => exact h.saved ref code hne href hlive
  case calm =>
      intro ref hne
      have hother : moveTo phase c p ref = phase ref := moveTo_of_ne hne p
      rw [hother]
      exact h.calm ref hne
  case born =>
      intro t ht
      have hold := h.born t (Nat.le_trans hcreated ht)
      by_cases hself : ContextRef.thread t = c.executing
      · rw [hself] at hold ⊢
        rw [moveTo_self]
        exact hidle hold
      · rw [moveTo_of_ne hself]
        exact hold

/-- The running code switches to another context. -/
theorem Scripted.switch
    {ucp : ContextRef} {code : ThreadCode Outcome}
    {contexts : ContextRef → Option (ThreadCode Outcome)}
    (h : Scripted N phase c) (hcalm : (phase c.executing).Calm) (hne : ucp ≠ c.executing)
    (hcontext : c.contexts ucp = some code) (hlive : phase ucp ≠ .finished)
    (hself : ∀ rest, contexts c.executing = some rest → phase c.executing ≠ .finished →
      Follows N rest (phase c.executing))
    (hothers : ∀ ref, ref ≠ c.executing → contexts ref = c.contexts ref) :
    Scripted N phase { c with executing := ucp, current := code, contexts := contexts } := by
  constructor
  case current => exact h.saved ucp code hne hcontext hlive
  case saved =>
      intro ref rest _ href hlive'
      by_cases hself' : ref = c.executing
      · subst hself'
        exact hself rest href hlive'
      · exact h.saved ref rest hself' ((hothers ref hself').symm.trans href) hlive'
  case calm =>
      intro ref _
      by_cases hself' : ref = c.executing
      · rw [hself']
        exact hcalm
      · exact h.calm ref hself'
  case born => exact h.born

/-- How the phases change in a step inside the library. -/
inductive Moves (N : Numbering ι κ total) (phase : ContextRef → Phase κ) (c : ThreadCpu)
    (s' : State) : (ContextRef → Phase κ) → Prop
  | still (hstate : s' = c.state) : Moves N phase c s' phase
  | access {op : ThreadOp} {next : threadInterface.Answer op → ThreadCode Outcome}
      {answer : threadInterface.Answer op} {p : Phase κ}
      (hcurrent : c.current = .call (.access op) next)
      (hexec : (answer, s') ∈ State.exec op c.state)
      (hnext : Next N (phase c.executing) op answer p) :
      Moves N phase c s' (moveTo phase c p)

theorem Effect.created_le
    {self : ContextRef} {code : ThreadCode Outcome} {s s' : State}
    (h : Effect self code s s') : s.created ≤ s'.created := by
  cases h with
  | still h => exact h.created
  | readies _ h => exact h.created
  | joins _ _ _ h => exact h.created
  | leaves _ _ _ h => exact h.created
  | wakes _ _ h => exact h.created
  | hands _ _ _ h => exact h.created
  | notes _ _ _ _ h => exact h.created

theorem makes_created
    {s s' : State} {answer : threadInterface.Answer op} {ref : ContextRef}
    (hexec : (answer, s') ∈ State.exec op s) (hmakes : machine.makes op answer = some ref) :
    ref = .thread s.created := by
  cases op with
  | makeTcb =>
      rcases List.mem_pair.mp hexec with heq | heq
      · cases heq
        cases hmakes
      · cases heq
        cases hmakes
        rfl
  | _ => cases hmakes

/-- A switch is to a thread that has not finished. -/
theorem switched_live
    {s : State} {ref : ContextRef} (hresumed : assertions.Resumed ref s) :
    ∀ t, ref = .thread t → Event.finished t ∉ s.log := by
  rintro t rfl
  obtain ⟨place, hswitched⟩ := hresumed
  rw [← hswitched.finished_iff, (hswitched.only t).mpr rfl]
  exact nofun

/-- The phases are kept, or the context that runs goes to its next phase. -/
theorem Scripted.step
    {event : CpuEvent threadInterface} (h : Scripted N phase c)
    (hreach : machine.system.Reachable boot c)
    (hfinished : ∀ t, Event.finished t ∈ c.state.log ↔ phase (.thread t) = .finished)
    (hhost : phase .host ≠ .finished) (hstep : machine.Step c event c')
    (hevent : event ≠ .follow) :
    ∃ phase', Scripted N phase' c' ∧ Moves N phase c c'.state phase' := by
  have hcurrent := h.current
  have hinvariant := invariant_of_reachable hreach
  have hlive : ∀ ref, assertions.Resumed ref c.state → phase ref ≠ .finished := by
    intro ref hresumed
    cases ref with
    | host => exact hhost
    | thread t =>
        rw [ne_eq, ← hfinished]
        exact switched_live hresumed t rfl
  cases hstep with
  | @access op next answer state hrunning hcall hexec =>
      rw [hcall] at hcurrent
      obtain ⟨p, hnext, hfollows⟩ := hcurrent answer
      have hcreated : c.state.created ≤ state.created :=
        (effect_of_step hreach (.access hrunning hcall hexec)).created_le
      exact ⟨_, h.access hnext hfollows hcreated fun ref => makes_created hexec,
        .access hcall hexec hnext⟩
  | interruptDisable _ hcall =>
      rw [hcall] at hcurrent
      exact ⟨phase, ⟨hcurrent.2, h.saved, h.calm, h.born⟩, .still rfl⟩
  | interruptEnable _ hcall =>
      rw [hcall] at hcurrent
      exact ⟨phase, ⟨hcurrent.2, h.saved, h.calm, h.born⟩, .still rfl⟩
  | interruptEnableSuspend _ hcall =>
      rw [hcall] at hcurrent
      exact ⟨phase, ⟨hcurrent.2, h.saved, h.calm, h.born⟩, .still rfl⟩
  | @swapcontext oucp ucp next code hrunning hcall _ _ hcontext =>
      have hsafe := hinvariant.safe hrunning
      rw [hcall] at hcurrent hsafe
      rw [hsafe.disabled nofun] at hsafe
      obtain ⟨rfl, hne, _, _, hresumed, _⟩ := hsafe
      refine ⟨phase, h.switch hcurrent.1 hne hcontext (hlive ucp hresumed) ?_ ?_, .still rfl⟩
      · intro rest hrest _
        rw [Function.update_self] at hrest
        cases hrest
        exact hcurrent.2
      · exact fun ref href => Function.update_of_ne href _ _
  | @setcontext ucp next code hrunning hcall _ hcontext =>
      have hsafe := hinvariant.safe hrunning
      rw [hcall] at hcurrent hsafe
      rw [hsafe.disabled nofun] at hsafe
      obtain ⟨hne, _, hresumed, _⟩ := hsafe
      have hself : phase c.executing = .finished := hcurrent
      refine ⟨phase, h.switch ?_ hne hcontext (hlive ucp hresumed) ?_ fun _ _ => rfl, .still rfl⟩
      · rw [hself]
        exact nofun
      · exact fun _ _ hlive' => absurd hself hlive'
  | follow => exact absurd rfl hevent
  | timer hrunning henabled =>
      refine ⟨phase, ⟨follows_yield ?_ hcurrent, h.saved, h.calm, h.born⟩, .still rfl⟩
      rcases hcurrent.calm_or_access with hcalm | ⟨op, next, hcall⟩
      · exact hcalm
      · have hsafe := hinvariant.safe hrunning
        rw [hcall] at hsafe
        have hdisabled := hsafe.disabled nofun
        rw [henabled] at hdisabled
        cases hdisabled

/-- A thread makes a call. -/
theorem Scripted.enter
    {call : UserCall} {p : Phase κ} (h : Scripted N phase c)
    (hfollows : Follows N call.code p) {t : ℕ} (hself : c.executing = .thread t)
    (hborn : t < c.state.created) :
    Scripted N (moveTo phase c p) (enter call c) := by
  constructor
  case current =>
      change Follows N call.code (moveTo phase c p c.executing)
      rw [moveTo_self]
      exact hfollows
  case saved =>
      intro ref code hne href hlive
      have hother : moveTo phase c p ref = phase ref := moveTo_of_ne hne p
      rw [hother] at hlive ⊢
      exact h.saved ref code hne href hlive
  case calm =>
      intro ref hne
      have hother : moveTo phase c p ref = phase ref := moveTo_of_ne hne p
      rw [hother]
      exact h.calm ref hne
  case born =>
      intro u hu
      have hne : ContextRef.thread u ≠ c.executing := by
        rw [hself]
        rintro heq
        cases heq
        exact absurd hborn (Nat.not_lt.mpr hu)
      rw [moveTo_of_ne hne]
      exact h.born u hu

end Threads
end Eecs482
