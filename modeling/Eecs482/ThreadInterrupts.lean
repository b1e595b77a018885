import Eecs482.ThreadLibrary

/-!
# Interrupts in the thread library

The library disables interrupts in one function and enables them in another,
where the thread is resumed.  Each function keeps to the discipline by itself,
so no switch can break it.
-/

namespace Eecs482
namespace Threads

open Uniprocessor

/-- Whether interrupts are enabled where code has returned. -/
def Outcome.enabled : Outcome → Bool
  | .user _ => true
  | .loop => false
  | .bootFailed => true
  | .suspended => true

theorem disciplined_swapHelper :
    Disciplined (fun _ : Unit => false) swapHelper false := by
  refine ⟨rfl, fun empty => ?_⟩
  cases empty with
  | false => exact ⟨rfl, fun _ => ⟨rfl, fun _ => ⟨rfl, fun _ => ⟨rfl, fun _ =>
      ⟨rfl, rfl, fun _ => rfl⟩⟩⟩⟩⟩
  | true => exact ⟨rfl, fun _ => ⟨rfl, rfl, fun _ => rfl⟩⟩

theorem disciplined_yield : Disciplined (fun _ : Unit => true) yield true := by
  refine ⟨rfl, rfl, fun empty => ?_⟩
  cases empty with
  | false =>
      refine ⟨rfl, fun _ => ?_⟩
      exact disciplined_swapHelper.bind fun _ => ⟨rfl, rfl⟩
  | true => exact ⟨rfl, rfl⟩

theorem disciplined_starter : Disciplined Outcome.enabled starter false :=
  ⟨rfl, fun _ => ⟨rfl, rfl⟩⟩

theorem disciplined_starterExit : Disciplined Outcome.enabled starterExit true := by
  refine ⟨rfl, rfl, fun _ => ⟨rfl, fun _ => ⟨rfl, fun _ => ⟨rfl, fun empty => ?_⟩⟩⟩⟩
  cases empty with
  | false => exact ⟨rfl, fun _ => ⟨rfl, fun _ => ⟨rfl, fun _ => ⟨rfl, fun _ =>
      ⟨rfl, fun _ => rfl⟩⟩⟩⟩⟩
  | true => rfl

theorem disciplined_cpuBoot : Disciplined Outcome.enabled cpuBoot false := by
  refine ⟨rfl, fun tcb => ?_⟩
  cases tcb with
  | none => exact ⟨rfl, rfl⟩
  | some tcb => exact ⟨rfl, fun _ => ⟨rfl, fun _ => ⟨rfl, fun _ => rfl⟩⟩⟩

theorem disciplined_cpuLoop : Disciplined Outcome.enabled cpuLoop false := by
  refine ⟨rfl, fun empty => ?_⟩
  cases empty with
  | false => exact ⟨rfl, fun _ => ⟨rfl, fun _ => ⟨rfl, fun _ => ⟨rfl, rfl, fun _ =>
      rfl⟩⟩⟩⟩
  | true => exact ⟨rfl, fun _ => ⟨rfl, fun _ => ⟨rfl, fun _ => ⟨rfl, rfl⟩⟩⟩⟩

theorem disciplined_threadCreate : Disciplined Outcome.enabled threadCreate true := by
  refine ⟨rfl, rfl, fun tcb => ?_⟩
  cases tcb with
  | none => exact ⟨rfl, rfl⟩
  | some tcb => exact ⟨rfl, fun _ => ⟨rfl, fun _ => ⟨rfl, rfl⟩⟩⟩

theorem disciplined_join (t : ℕ) : Disciplined Outcome.enabled (join t) true := by
  refine ⟨rfl, rfl, fun expired => ?_⟩
  cases expired with
  | false =>
      refine ⟨rfl, fun _ => ?_⟩
      exact disciplined_swapHelper.bind fun _ => ⟨rfl, rfl⟩
  | true => exact ⟨rfl, rfl⟩

theorem disciplined_lock (m : ℕ) : Disciplined Outcome.enabled (lock m) true := by
  refine ⟨rfl, rfl, fun status => ?_⟩
  cases status with
  | true =>
      refine ⟨rfl, fun _ => ?_⟩
      exact disciplined_swapHelper.bind fun _ => ⟨rfl, fun _ => ⟨rfl, rfl⟩⟩
  | false => exact ⟨rfl, fun _ => ⟨rfl, fun _ => ⟨rfl, fun _ => ⟨rfl, rfl⟩⟩⟩⟩

theorem disciplined_unlock (m : ℕ) : Disciplined Outcome.enabled (unlock m) true := by
  refine ⟨rfl, rfl, fun owned => ?_⟩
  cases owned with
  | true =>
      refine ⟨rfl, fun _ => ⟨rfl, fun _ => ⟨rfl, fun empty => ?_⟩⟩⟩
      cases empty with
      | false => exact ⟨rfl, fun _ => ⟨rfl, fun _ => ⟨rfl, fun _ => ⟨rfl, fun _ =>
          ⟨rfl, rfl⟩⟩⟩⟩⟩
      | true => exact ⟨rfl, rfl⟩
  | false => exact ⟨rfl, rfl⟩

theorem disciplined_waitHeld (cv m : ℕ) :
    Disciplined Outcome.enabled (waitHeld cv m) false := by
  have hagain : Disciplined Outcome.enabled
      (swapHelper >>= fun _ => do
        if !(← access (.status m)) then
          access (.occupyRunning m)
          access (.setStatus m true)
        else
          access (.push (.mutexQueue m))
          swapHelper
        access (.note (.returned · m))
        interruptEnable
        return .user false) false := by
    refine disciplined_swapHelper.bind fun _ => ⟨rfl, fun status => ?_⟩
    cases status with
    | false => exact ⟨rfl, fun _ => ⟨rfl, fun _ => ⟨rfl, fun _ => ⟨rfl, rfl⟩⟩⟩⟩
    | true =>
        refine ⟨rfl, fun _ => ?_⟩
        exact disciplined_swapHelper.bind fun _ => ⟨rfl, fun _ => ⟨rfl, rfl⟩⟩
  refine ⟨rfl, fun _ => ⟨rfl, fun _ => ⟨rfl, fun _ => ⟨rfl, fun empty => ?_⟩⟩⟩⟩
  cases empty with
  | false => exact ⟨rfl, fun _ => ⟨rfl, fun _ => ⟨rfl, fun _ => ⟨rfl, fun _ => hagain⟩⟩⟩⟩
  | true => exact hagain

theorem disciplined_wait (cv m : ℕ) : Disciplined Outcome.enabled (wait cv m) true := by
  refine ⟨rfl, rfl, fun owned => ?_⟩
  cases owned with
  | true => exact disciplined_waitHeld cv m
  | false => exact ⟨rfl, rfl⟩

theorem disciplined_signal (cv : ℕ) : Disciplined Outcome.enabled (signal cv) true := by
  refine ⟨rfl, rfl, fun empty => ?_⟩
  cases empty with
  | false => exact ⟨rfl, fun _ => ⟨rfl, fun _ => ⟨rfl, rfl⟩⟩⟩
  | true => exact ⟨rfl, rfl⟩

theorem disciplined_broadcast (cv : ℕ) :
    Disciplined Outcome.enabled (broadcast cv) true :=
  ⟨rfl, rfl, fun _ => ⟨rfl, rfl⟩⟩

/-- All code of the library keeps to the discipline. -/
theorem allDisciplined : machine.AllDisciplined Outcome.enabled where
  entry := disciplined_starter
  timer := disciplined_yield
  follow := by
    intro ref value s code hfollow
    cases hfollow with
    | loop => exact disciplined_cpuLoop
    | user call =>
        cases call with
        | create => exact disciplined_threadCreate
        | join t => exact disciplined_join t
        | yield => exact disciplined_yield.bind fun _ => rfl
        | lock m => exact disciplined_lock m
        | unlock m => exact disciplined_unlock m
        | wait cv m => exact disciplined_wait cv m
        | signal cv => exact disciplined_signal cv
        | broadcast cv => exact disciplined_broadcast cv
        | exit => exact disciplined_starterExit

/-- A construction of a thread that throws changes nothing. -/
theorem threadCreate_threw
    {c e : ThreadCpu} (hrun : machine.Runs { c with current := threadCreate } e)
    (hthrew : e.current = .ret (.user true)) :
    e.state = c.state ∧ e.executing = c.executing := by
  obtain ⟨answer, state, hexec, hrun⟩ :=
    (hrun.interruptDisable rfl hthrew).access rfl hthrew
  rcases List.mem_pair.mp hexec with hfailed | hmade
  · cases hfailed
    have hend := (hrun.interruptEnable rfl hthrew).ret rfl
    rw [hend]
    exact ⟨rfl, rfl⟩
  · cases hmade
    obtain ⟨_, _, _, hrun⟩ := hrun.access rfl hthrew
    obtain ⟨_, _, _, hrun⟩ := hrun.access rfl hthrew
    have hend := (hrun.interruptEnable rfl hthrew).ret rfl
    rw [hend] at hthrew
    cases hthrew

/-- In every run the library uses its data and switches contexts with interrupts
disabled only, disables and enables them in turn, and user code always runs with
interrupts enabled.  A failed construction of a thread changes nothing. -/
theorem interrupts_of_reachable
    {c : ThreadCpu} (hreach : machine.system.Reachable boot c) :
    (∀ op next, c.current = .call op next → c.interrupts = interruptsFor op) ∧
      (∀ t, InUser t c → c.interrupts = true) ∧
      ∀ t, InUser t c → ∀ e, machine.Runs { c with current := threadCreate } e →
        e.current = .ret (.user true) → e.state = c.state := by
  have h := disciplined_of_reachable allDisciplined disciplined_cpuBoot hreach
  refine ⟨fun op next => h.interrupts_eq, fun t huser => ?_, fun _ _ e hrun hthrew =>
    (threadCreate_threw hrun hthrew).1⟩
  obtain ⟨_, threw, hcurrent⟩ := huser
  have hcode := h.current
  rw [hcurrent] at hcode
  exact hcode.symm

theorem interrupts_of_first_thread :
    ∃ c, machine.system.Reachable boot c ∧ InUser 0 c ∧ c.interrupts = true :=
  ⟨firstUser, reachable_firstUser, inUser_firstUser,
    (interrupts_of_reachable reachable_firstUser).2.1 0 inUser_firstUser⟩

end Threads
end Eecs482
