import Eecs482.ThreadAccounts

/-!
# Programs that have enough memory are suspended in the end

Without the timer, and with memory for every thread that is created, the host and the
main thread get no exception.  When the length of the runs is bounded, one of them comes
to the point where the processor is suspended.
-/

namespace Eecs482
namespace Threads

open Uniprocessor

variable {c c' : ThreadCpu} {s s' : State} {op : ThreadOp} {event : CpuEvent threadInterface}
  {ref : ContextRef} {code : ThreadCode Outcome}

/-- There is memory for the thread. -/
def Granted : (op : ThreadOp) → threadInterface.Answer op → Prop
  | .makeTcb, tcb => tcb ≠ none
  | _, _ => True

/-- With enough memory the code does not throw. -/
def Succeeds : ThreadCode Outcome → Prop
  | .ret value => value ≠ .bootFailed ∧ value ≠ .user true
  | .call (.access op) next => ∀ answer, Granted op answer → Succeeds (next answer)
  | .call .interruptDisable next => Succeeds (next ())
  | .call .interruptEnable next => Succeeds (next ())
  | .call .interruptEnableSuspend next => Succeeds (next ())
  | .call (.swapcontext _ _) next => Succeeds (next ())
  | .call (.setcontext _) _ => True

theorem succeeds_return : Succeeds (.ret (.user false)) :=
  ⟨nofun, nofun⟩

theorem succeeds_swapHelper
    {next : Unit → ThreadCode Outcome} (h : Succeeds (next ())) :
    Succeeds (swapHelper >>= next) := by
  intro empty _
  cases empty with
  | true => exact fun _ _ _ _ => h
  | false => exact fun _ _ _ _ _ _ _ _ _ _ => h

theorem succeeds_starter : Succeeds starter :=
  fun _ _ => succeeds_return

theorem succeeds_cpuBoot : Succeeds cpuBoot := by
  intro tcb hgranted
  cases tcb with
  | none => exact absurd rfl hgranted
  | some t => exact fun _ _ _ _ _ _ => ⟨nofun, nofun⟩

theorem succeeds_cpuLoop : Succeeds cpuLoop := by
  intro empty _
  cases empty with
  | true => exact fun _ _ _ _ _ _ => ⟨nofun, nofun⟩
  | false => exact fun _ _ _ _ _ _ _ _ => ⟨nofun, nofun⟩

theorem succeeds_threadCreate : Succeeds threadCreate := by
  intro tcb hgranted
  cases tcb with
  | none => exact absurd rfl hgranted
  | some t => exact fun _ _ _ _ => succeeds_return

theorem succeeds_join (t : ℕ) : Succeeds (join t) := by
  intro expired _
  cases expired with
  | true => exact succeeds_return
  | false =>
      intro _ _
      exact succeeds_swapHelper succeeds_return

theorem succeeds_starterExit : Succeeds starterExit := by
  intro _ _ _ _ _ _ empty _
  cases empty with
  | true => trivial
  | false => exact fun _ _ _ _ _ _ _ _ _ _ => trivial

theorem succeeds_mainCall (total made : ℕ) : Succeeds (mainCall total made).code := by
  unfold mainCall
  split
  case isTrue => exact succeeds_threadCreate
  case isFalse =>
      split
      case isTrue => exact succeeds_join _
      case isFalse => exact succeeds_starterExit

/-- The host, and the main thread. -/
def Chief : ContextRef → Prop
  | .host => True
  | .thread t => t = 0

/-- The host and the main thread are not going to throw. -/
structure Unfailing (c : ThreadCpu) : Prop where
  current : Chief c.executing → Succeeds c.current
  saved : ∀ ref code, Chief ref → c.contexts ref = some code → Succeeds code

theorem Unfailing.goTo (h : Unfailing c) (hcode : Chief c.executing → Succeeds code) :
    Unfailing { c with current := code } :=
  ⟨hcode, h.saved⟩

theorem Unfailing.not_outOfMemory (h : Unfailing c) : ¬OutOfMemory c := by
  intro hthrew
  have hcurrent := h.current
  rcases hthrew with ⟨hself, hret⟩ | ⟨hself, hret⟩ <;> rw [hself, hret] at hcurrent
  · exact (hcurrent trivial).1 rfl
  · exact (hcurrent rfl).2 rfl

theorem Unfailing.call
    {op : CpuOp threadInterface} (hreach : machine.system.Reachable boot c) (h : Unfailing c)
    (hstep : machine.Step c (.call op) c')
    (hmemory : op = .access .makeTcb → c.state.created < c'.state.created) : Unfailing c' := by
  have hcurrent := h.current
  cases hstep with
  | @access op next answer state _ hcall hexec =>
      rw [hcall] at hcurrent
      have hgranted : Granted op answer := by
        cases op with
        | makeTcb =>
            rintro rfl
            have hcreated : c.state.created < state.created := hmemory rfl
            rcases List.mem_pair.mp hexec with heq | heq
            · cases heq
              exact absurd hcreated (Nat.lt_irrefl _)
            · cases heq
        | _ => trivial
      refine ⟨fun hchief => hcurrent hchief answer hgranted, fun ref code hchief hcode => ?_⟩
      change machine.makeContexts op answer c.contexts ref = some code at hcode
      unfold makeContexts at hcode
      cases hmakes : machine.makes op answer with
      | none =>
          rw [hmakes] at hcode
          exact h.saved ref code hchief hcode
      | some made =>
          rw [hmakes] at hcode
          change Function.update c.contexts made (some starter) ref = some code at hcode
          rw [Function.update_apply] at hcode
          split at hcode
          · cases hcode
            exact succeeds_starter
          · exact h.saved ref code hchief hcode
  | interruptDisable _ hcall =>
      rw [hcall] at hcurrent
      exact ⟨hcurrent, h.saved⟩
  | interruptEnable _ hcall =>
      rw [hcall] at hcurrent
      exact ⟨hcurrent, h.saved⟩
  | interruptEnableSuspend _ hcall =>
      rw [hcall] at hcurrent
      exact ⟨hcurrent, h.saved⟩
  | @swapcontext oucp ucp next code hrunning hcall _ _ hcontext =>
      have hsafe := (invariant_of_reachable hreach).safe hrunning
      rw [hcall] at hsafe hcurrent
      rw [hsafe.disabled nofun] at hsafe
      obtain ⟨rfl, _⟩ := hsafe
      refine ⟨fun hchief => h.saved _ _ hchief hcontext, fun ref rest hchief hrest => ?_⟩
      change Function.update c.contexts c.executing (some (next ())) ref = some rest at hrest
      rw [Function.update_apply] at hrest
      split at hrest
      case isTrue hself =>
          cases hrest
          rw [hself] at hchief
          exact hcurrent hchief
      case isFalse => exact h.saved ref rest hchief hrest
  | setcontext _ _ _ hcontext => exact ⟨fun hchief => h.saved _ _ hchief hcontext, h.saved⟩

/-! ## Programs -/

variable {ι κ σ : Type} {Loc : ι → Type} {total : ℕ} {N : Numbering ι κ total}
  {M : Monitor ι κ σ Loc} {prog prog' : ProgramState ι σ Loc} {shown : ProgramEvent}
  {shared : σ} {entry : ∀ i, Loc i} {inside : ∀ i, Loc i → Bool}

section Runs

variable [DecidableEq ι]

/-- The program without the timer, with memory for all threads. -/
def provided (N : Numbering ι κ total) (M : Monitor ι κ σ Loc) :
    EventSystem (ProgramState ι σ Loc) ProgramEvent where
  Step p shown p' := ProgramStep N M p shown p' ∧ shown ≠ .library .timer ∧
    (shown = .library (.call (.access .makeTcb)) → p.cpu.state.created < p'.cpu.state.created)

theorem Unfailing.step
    (hreach : machine.system.Reachable boot prog.cpu) (h : Unfailing prog.cpu)
    (hstep : (provided N M).Step prog shown prog') : Unfailing prog'.cpu := by
  obtain ⟨hstep, htimer, hmemory⟩ := hstep
  have hclient : ∀ {i call}, AtCall (N.thread i) prog.cpu → Unfailing (enter call prog.cpu) := by
    intro i call hcall
    apply h.goTo
    rw [hcall.executing]
    exact fun hchief => absurd hchief (N.thread_ne_zero i)
  cases hstep with
  | @library event cpu hevent hstep =>
      cases event with
      | follow => exact absurd rfl hevent
      | timer => exact absurd rfl htimer
      | call op =>
          apply h.call hreach hstep
          rintro rfl
          exact hmemory rfl
  | loop hhost hstep =>
      cases hstep with
      | @follow value code _ _ hfollow =>
          have hloop : Follow prog.cpu.executing value prog.cpu.state code := hfollow
          rw [hhost] at hloop
          cases hloop
          exact h.goTo fun _ => succeeds_cpuLoop
  | call hcall => exact hclient hcall
  | run => exact h
  | stop hcall => exact hclient hcall
  | main hcall => exact h.goTo fun _ => succeeds_mainCall total prog.made

/-- A run with memory for all threads is a run, and has no timer. -/
theorem run_of_provided
    {start : ProgramState ι σ Loc} {trace : List ProgramEvent}
    (hrun : (provided N M).Run start trace prog) :
    (program N M).Run start trace prog ∧ trace.countP ProgramEvent.isTimer = 0 := by
  induction hrun with
  | nil => exact ⟨.nil, rfl⟩
  | @snoc trace p q shown _ hstep ih =>
      obtain ⟨hstep, htimer, _⟩ := hstep
      refine ⟨ih.1.snoc hstep, ?_⟩
      have hnot : shown.isTimer = false := by
        unfold ProgramEvent.isTimer
        split
        · exact absurd rfl htimer
        · rfl
      rw [List.countP_append, ih.2, List.countP_singleton, hnot]
      rfl

/-- Where the program goes on, it does so with memory for all threads. -/
theorem GoesOn.provided (h : GoesOn N M prog) :
    ∃ shown p', (provided N M).Step prog shown p' := by
  obtain ⟨shown, p', htimer, hstep⟩ := h
  by_cases hmake : shown = .library (.call (.access .makeTcb))
  · subst hmake
    cases hstep with
    | library _ hstep =>
        cases hstep with
        | access hrunning hcall =>
            have hgranted := Uniprocessor.Step.access (M := machine) hrunning hcall
              (List.mem_cons_of_mem _ List.mem_cons_self)
            refine ⟨_, _, .library (by simp) hgranted, by simp, fun _ => ?_⟩
            exact Nat.lt_succ_self _
  · exact ⟨shown, p', hstep, htimer, fun heq => absurd heq hmake⟩

/-- A program does nothing once the processor is suspended. -/
theorem not_goesOn (hsuspended : prog.cpu.suspended = true) : ¬GoesOn N M prog := by
  intro hgoesOn
  obtain ⟨shown, p', htimer, hstep⟩ := hgoesOn
  have hrunning : prog.cpu.suspended = false := by
    cases hstep with
    | library _ hstep => cases hstep <;> assumption
    | loop _ hstep => cases hstep; assumption
    | call hcall => exact hcall.running
    | run hcall => exact hcall.running
    | stop hcall => exact hcall.running
    | main hcall => exact hcall.running
  rw [hsuspended] at hrunning
  cases hrunning

variable [DecidableEq κ]

theorem unfailing_of_provided
    {trace : List ProgramEvent} (hbracketed : M.Bracketed inside)
    (hentry : ∀ i, inside i (entry i) = false)
    (hrun : (provided N M).Run (programStart shared entry) trace prog) :
    Unfailing prog.cpu := by
  induction hrun with
  | nil => exact ⟨fun _ => succeeds_cpuBoot, fun _ _ _ hnone => by cases hnone⟩
  | snoc hrun hstep ih =>
      obtain ⟨m, _, htracks⟩ := (tracks_stutterSimulates hbracketed).reachable
        (tracks_start hbracketed hentry) ⟨_, (run_of_provided hrun).1⟩
      exact ih.step htracks.reachable hstep

/-- When the runs are bounded but for the timer, in one of them the processor is
suspended, and nobody has been short of memory. -/
theorem exists_suspended_of_length_le
    {bound bonus : ℕ} (hbracketed : M.Bracketed inside)
    (hentry : ∀ i, inside i (entry i) = false)
    (hbound : ∀ trace p, (program N M).Run (programStart shared entry) trace p →
      trace.length ≤ bound + bonus * trace.countP ProgramEvent.isTimer) :
    ∃ p, (program N M).Reachable (programStart shared entry) p ∧ p.cpu.suspended = true ∧
      ¬OutOfMemory p.cpu := by
  have hlength : ∀ trace p, (provided N M).Run (programStart shared entry) trace p →
      trace.length ≤ bound := by
    intro trace p hrun
    obtain ⟨hrun, htimers⟩ := run_of_provided hrun
    have hle := hbound trace p hrun
    rwa [htimers, Nat.mul_zero, Nat.add_zero] at hle
  obtain ⟨p, ⟨trace, hrun⟩, hstuck⟩ := EventSystem.exists_stuck_of_length_le hlength
  have hreach : (program N M).Reachable (programStart shared entry) p :=
    ⟨trace, (run_of_provided hrun).1⟩
  have hmemory := (unfailing_of_provided hbracketed hentry hrun).not_outOfMemory
  refine ⟨p, hreach, ?_, hmemory⟩
  rcases goesOn_of_reachable hbracketed hentry hreach with hsuspended | hthrew | hgoesOn
  · exact hsuspended
  · exact absurd hthrew hmemory
  · obtain ⟨shown, p', hstep⟩ := hgoesOn.provided
    exact absurd hstep (hstuck shown p')

end Runs

end Threads
end Eecs482
