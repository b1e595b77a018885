import Eecs482.ThreadEndings
import Eecs482.ThreadRounds

/-!
# Programs go on

While the processor is not suspended, a program can take a step, and needs no timer for
it: each statement of the library is defined, each context that is switched to has been
saved, and no call throws.  The exception is `bad_alloc`, which the host or the main
thread may get.
-/

namespace Eecs482
namespace Threads

open Uniprocessor

variable {ι κ σ : Type} {Loc : ι → Type} {total : ℕ} {N : Numbering ι κ total}
  {M : Monitor ι κ σ Loc} {phase : ContextRef → Phase κ} {m : MonitorState ι κ σ Loc}
  {prog : ProgramState ι σ Loc} {shared : σ} {entry : ∀ i, Loc i}
  {inside : ∀ i, Loc i → Bool} {i : ι} {budget : ContextRef → ℕ} {rounds : ℕ}

/-- `bad_alloc` has been thrown: in the host, or in the main thread. -/
def OutOfMemory (c : ThreadCpu) : Prop :=
  c.executing = .host ∧ c.current = .ret .bootFailed ∨
    c.executing = .thread 0 ∧ c.current = .ret (.user true)

/-- Only the main thread gets an exception. -/
theorem Related.main_of_threw
    (h : Related N M phase prog m)
    (hphase : phase prog.cpu.executing = .throwing ∨ phase prog.cpu.executing = .creating) :
    prog.cpu.executing = .thread 0 := by
  rcases hphase with hthrowing | hcreating
  · rcases h.sees.who h.scripted.born prog.cpu.executing with
      hidle | ⟨_, hhosts⟩ | ⟨hmain, _⟩ | ⟨i, hself⟩
    · rw [hthrowing] at hidle
      cases hidle
    · rw [hthrowing] at hhosts
      exact hhosts.elim
    · exact hmain
    · have hstage := h.sees.stages.stage i
      rw [hself] at hthrowing
      rw [hthrowing] at hstage
      exact hstage.elim
  · exact h.sees.main_of_phase h.scripted.born (.inl hcreating)

section Steps

variable [DecidableEq ι]

/-- The program can take a step without the timer. -/
def GoesOn (N : Numbering ι κ total) (M : Monitor ι κ σ Loc) (p : ProgramState ι σ Loc) :
    Prop :=
  ∃ shown p', shown ≠ .library .timer ∧ ProgramStep N M p shown p'

/-- A thread of the monitor goes on as its code says. -/
theorem goesOn_client (hcall : AtCall (N.thread i) prog.cpu) : GoesOn N M prog := by
  cases hcalled : N.call (M.action i (prog.loc i)) with
  | some called => exact ⟨.user, _, by simp, .call hcall hcalled⟩
  | none =>
      cases haction : M.action i (prog.loc i) with
      | run effect => exact ⟨.user, _, by simp, .run hcall haction⟩
      | stop => exact ⟨.user, _, by simp, .stop hcall haction⟩
      | _ =>
          rw [haction] at hcalled
          cases hcalled

theorem Related.goesOn_thread
    {t : ℕ} (hreach : machine.system.Reachable boot prog.cpu) (h : Related N M phase prog m)
    (hcall : AtCall t prog.cpu) : GoesOn N M prog := by
  by_cases hzero : t = 0
  · subst hzero
    exact ⟨.user, _, by simp, .main hcall⟩
  · have hborn := hcall.born hreach
    have hcreated := h.sees.created_le
    obtain ⟨i, rfl⟩ := N.exists_thread (Nat.pos_of_ne_zero hzero) (by omega)
    exact goesOn_client hcall

/-- What has returned is followed by something. -/
theorem Related.goesOn_ret
    {value : Outcome} (hreach : machine.system.Reachable boot prog.cpu)
    (h : Related N M phase prog m) (hrounds : HostRounds rounds prog.cpu)
    (hrunning : prog.cpu.suspended = false) (hret : prog.cpu.current = .ret value) :
    OutOfMemory prog.cpu ∨ GoesOn N M prog := by
  have hcurrent := h.scripted.current
  rw [hret] at hcurrent
  have hends : (phase prog.cpu.executing).Ends value := hcurrent
  have hhost : (phase prog.cpu.executing).Hosts → prog.cpu.executing = .host :=
    h.sees.host_of_phase h.scripted.born
  cases value with
  | user threw =>
      cases threw with
      | true => exact .inl (.inr ⟨h.main_of_threw hends, hret⟩)
      | false =>
          cases hexecuting : prog.cpu.executing with
          | thread t => exact .inr (h.goesOn_thread hreach ⟨hrunning, hexecuting, hret⟩)
          | host =>
              have hhosts := h.sees.hosts
              rw [hexecuting] at hends
              rcases hends with hphase | ⟨t, hphase⟩ <;> rw [hphase] at hhosts <;>
                exact hhosts.elim
  | loop =>
      have hphase : phase prog.cpu.executing = .hosting := hends
      have hexecuting := hhost (by rw [hphase]; trivial)
      have hfollow : machine.Follow prog.cpu.executing .loop prog.cpu.state cpuLoop := by
        rw [hexecuting]
        exact Follow.loop
      exact .inr ⟨.library .follow, _, by simp, .loop hexecuting (.follow hrunning hret hfollow)⟩
  | bootFailed =>
      have hphase : phase prog.cpu.executing = .booting := hends
      exact .inl (.inl ⟨hhost (by rw [hphase]; trivial), hret⟩)
  | suspended =>
      have hphase : phase prog.cpu.executing = .hosting := hends
      have hlast := hrounds.current (hhost (by rw [hphase]; trivial)) hrunning
      rw [hret] at hlast
      exact absurd rfl hlast.1

theorem Related.goesOn
    (hreach : machine.system.Reachable boot prog.cpu) (h : Related N M phase prog m)
    (hfunded : Funded budget prog.cpu) (hrounds : HostRounds rounds prog.cpu)
    (hrunning : prog.cpu.suspended = false) : OutOfMemory prog.cpu ∨ GoesOn N M prog := by
  cases hcurrent : prog.cpu.current with
  | ret value => exact h.goesOn_ret hreach hrounds hrunning hcurrent
  | call op next =>
      obtain ⟨cpu, hstep⟩ := hfunded.exists_call hreach hrunning hcurrent
      exact .inr ⟨.library (.call op), _, by simp, .library (by simp) hstep⟩

end Steps

/-- A program never gets stuck: while the processor is not suspended and there is memory
for the threads, a step is possible. -/
theorem goesOn_of_reachable
    [DecidableEq ι] [DecidableEq κ] (hbracketed : M.Bracketed inside)
    (hentry : ∀ i, inside i (entry i) = false)
    (hreach : (program N M).Reachable (programStart shared entry) prog) :
    prog.cpu.suspended = true ∨ OutOfMemory prog.cpu ∨ GoesOn N M prog := by
  obtain ⟨m, _, htracks⟩ := (tracks_stutterSimulates hbracketed).reachable
    (tracks_start hbracketed hentry) hreach
  obtain ⟨phase, hrelated⟩ := htracks.related
  obtain ⟨⟨budget, hfunded⟩, rounds, _, hrounds⟩ := funded_of_reachable htracks.reachable
  cases hsuspended : prog.cpu.suspended with
  | true => exact .inl rfl
  | false => exact .inr (hrelated.goesOn htracks.reachable hfunded hrounds hsuspended)

end Threads
end Eecs482
