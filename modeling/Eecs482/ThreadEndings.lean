import Eecs482.ThreadRefinement

/-!
# The thread library implements monitors

Every run of a program on the thread library is a run of its monitor.  When the
processor suspends, the monitor is stuck: each of its threads sleeps or has stopped, and
when all have stopped, the main thread has, too.
-/

namespace Eecs482
namespace Threads

variable {ι κ σ : Type} {Loc : ι → Type} {total : ℕ} {N : Numbering ι κ total}
  {M : Monitor ι κ σ Loc} {phase : ContextRef → Phase κ} {m : MonitorState ι κ σ Loc} {i : ι}
  {prog : ProgramState ι σ Loc} {shared : σ} {entry : ∀ i, Loc i}
  {inside : ∀ i, Loc i → Bool}

/-! ## The end of a run -/

theorem Related.created_eq
    {place : ℕ → Place} (h : Related N M phase prog m)
    (hstopped : Stopped place prog.cpu.state) (hhost : phase .host = .hosting) :
    prog.cpu.state.created = total + 1 := by
  have hprogress := h.sees.started.progress hhost
  have hmain : phase (.thread 0) ≠ .finished → 0 < prog.cpu.state.created →
      total < prog.made := by
    intro hlive hcreated
    cases hplace : place 0 with
    | unborn =>
        have hunborn := (hstopped.unborn_iff 0).mp hplace
        omega
    | running => exact absurd hplace (hstopped.noRunning 0)
    | finished =>
        exact absurd ((h.sees.seen.finished 0).mp ((hstopped.finished_iff 0).mp hplace)) hlive
    | queued q =>
        have hmem := (hstopped.mem_iff q 0).mpr hplace
        have hq : q ≠ .ready := by
          rintro rfl
          rw [hstopped.ready] at hmem
          cases hmem
        rcases h.sees.seen.placed q 0 hq hmem with ⟨⟨i, hzero⟩, _⟩ | ⟨_, _, hmade⟩
        · exact absurd hzero (N.thread_ne_zero i)
        · exact hmade
  obtain ⟨hphase, hcreated⟩ | ⟨hphase, hcreated, hpos, hle⟩ | ⟨_, hcreated, _⟩ := hprogress
  · have hmade := hmain (by simp [hphase]) (by omega)
    omega
  · have hmade := hmain (by simp [hphase]) (by omega)
    omega
  · exact hcreated

theorem Related.returned
    (h : Related N M phase prog m) (hfinished : Event.finished (N.thread i) ∈ prog.cpu.state.log) :
    M.Returned i m := by
  have hstage := h.sees.stages.stage i
  rw [(h.sees.seen.finished _).mp hfinished] at hstage
  exact ⟨prog.loc i, hstage.2, hstage.1⟩

/-- Where the threads of the monitor are when nothing runs any more. -/
theorem Related.rests
    {place : ℕ → Place} (h : Related N M phase prog m)
    (hstopped : Stopped place prog.cpu.state) (hexecuting : prog.cpu.executing = .host)
    (hhost : phase .host = .hosting) (i : ι) :
    place (N.thread i) = .finished ∧ M.Returned i m ∨ (∃ cv l, m.thread i = .asleep cv l) ∨
      N.thread i ∈ prog.cpu.state.queues (.mutexQueue N.mutex) := by
  have hcreated := h.created_eq hstopped hhost
  have hstage := h.sees.stages.stage i
  cases hplace : place (N.thread i) with
  | unborn =>
      have hunborn := (hstopped.unborn_iff _).mp hplace
      have hle := N.thread_le i
      omega
  | running => exact absurd hplace (hstopped.noRunning _)
  | finished => exact .inl ⟨rfl, h.returned ((hstopped.finished_iff _).mp hplace)⟩
  | queued q =>
      have hmem := (hstopped.mem_iff q _).mpr hplace
      have hq : q ≠ .ready := by
        rintro rfl
        rw [hstopped.ready] at hmem
        cases hmem
      rcases h.sees.seen.placed q _ hq hmem with ⟨_, hfits⟩ | ⟨hzero, _⟩
      · rcases hfits with ⟨rfl, _⟩ | ⟨cv, rfl, hphase | hphase⟩
        · exact .inr (.inr hmem)
        · rw [hphase] at hstage
          obtain ⟨_, ⟨_, hasleep⟩ | ⟨hout, _⟩⟩ := hstage
          · exact .inr (.inl ⟨cv, _, hasleep⟩)
          · exact absurd hmem hout
        · refine absurd hphase (h.scripted.calm _ ?_ cv)
          rw [hexecuting]
          simp
      · exact absurd hzero (N.thread_ne_zero i)

/-- Nobody waits for the mutex in the end: its owner would run inside the brackets. -/
theorem Related.unlocked
    {place : ℕ → Place} (hbracketed : M.Bracketed inside)
    (hexclusive : Monitor.Exclusive inside m) (h : Related N M phase prog m)
    (hstopped : Stopped place prog.cpu.state) (hexecuting : prog.cpu.executing = .host)
    (hhost : phase .host = .hosting) :
    prog.cpu.state.queues (.mutexQueue N.mutex) = [] := by
  have hapart := h.sees.handing.apart (h.clean hexecuting)
  have hnobody : ∀ j, m.owner ≠ some j := by
    intro j howner
    have hinside := (hexclusive.owner_iff j).mp howner
    rcases h.rests hstopped hexecuting hhost j with ⟨_, l, hthread, hstop⟩ | ⟨cv, l, hthread⟩ | hmem
    · have hcode := hbracketed j l
      rw [hthread] at hinside
      rw [hstop] at hcode
      exact absurd (hcode.symm.trans hinside) (by simp)
    · rw [hthread] at hinside
      exact hinside
    · exact hapart _ ((h.sees.stages.owner_iff j).mp howner) hmem
  apply hstopped.free
  cases hstatus : (prog.cpu.state.mutexes N.mutex).status with
  | false => rfl
  | true =>
      obtain ⟨u, hu⟩ := Option.ne_none_iff_exists'.mp (hstopped.owner_ne _ hstatus)
      have hholds : Holds u N.mutex prog.cpu.state.log := by
        rw [hstopped.holds_iff, State.owner, hstatus, if_pos rfl]
        exact hu
      obtain ⟨j, rfl⟩ := h.sees.seen.holder u hholds
      exact absurd ((h.sees.stages.owner_iff j).mpr hholds) (hnobody j)

/-- When the processor has been suspended, each thread of the monitor has finished or
sleeps. -/
theorem Related.ended
    (hbracketed : M.Bracketed inside) (hexclusive : Monitor.Exclusive inside m)
    (hreach : machine.system.Reachable boot prog.cpu) (h : Related N M phase prog m)
    (hsuspended : prog.cpu.suspended = true) (i : ι) :
    Event.finished (N.thread i) ∈ prog.cpu.state.log ∧ M.Returned i m ∨
      ∃ cv l, m.thread i = .asleep cv l := by
  obtain ⟨hexecuting, place, hstopped⟩ := (invariant_of_reachable hreach).idle hsuspended
  have hhost := h.idle hsuspended
  have hempty := h.unlocked hbracketed hexclusive hstopped hexecuting hhost
  rcases h.rests hstopped hexecuting hhost i with ⟨hplace, hreturned⟩ | hasleep | hmem
  · exact .inl ⟨(hstopped.finished_iff _).mp hplace, hreturned⟩
  · exact .inr hasleep
  · rw [hempty] at hmem
    cases hmem

/-- When all threads of the monitor have stopped, all threads have finished. -/
theorem Related.finished
    {t : ℕ} (hbracketed : M.Bracketed inside) (hexclusive : Monitor.Exclusive inside m)
    (hreach : machine.system.Reachable boot prog.cpu) (h : Related N M phase prog m)
    (hsuspended : prog.cpu.suspended = true) (hall : ∀ i, M.Returned i m) (ht : t ≤ total) :
    Event.finished t ∈ prog.cpu.state.log := by
  have hclient : ∀ i, Event.finished (N.thread i) ∈ prog.cpu.state.log := by
    intro i
    rcases h.ended hbracketed hexclusive hreach hsuspended i with ⟨hfinished, _⟩ | ⟨cv, l, hasleep⟩
    · exact hfinished
    · obtain ⟨_, hthread, _⟩ := hall i
      rw [hasleep] at hthread
      cases hthread
  obtain ⟨_, place, hstopped⟩ := (invariant_of_reachable hreach).idle hsuspended
  have hcreated := h.created_eq hstopped (h.idle hsuspended)
  by_cases hzero : t = 0
  · subst hzero
    cases hplace : place 0 with
    | unborn =>
        have hunborn := (hstopped.unborn_iff 0).mp hplace
        omega
    | running => exact absurd hplace (hstopped.noRunning 0)
    | finished => exact (hstopped.finished_iff 0).mp hplace
    | queued q =>
        have hmem := (hstopped.mem_iff q 0).mpr hplace
        have hq : q ≠ .ready := by
          rintro rfl
          rw [hstopped.ready] at hmem
          cases hmem
        obtain ⟨⟨i, hzero⟩, _⟩ | ⟨_, ⟨v, rfl, hpos⟩, _⟩ := h.sees.seen.placed q 0 hq hmem
        · exact absurd hzero (N.thread_ne_zero i)
        · obtain ⟨hborn, hlive⟩ := hstopped.joining 0 v hplace
          rw [ne_eq, hstopped.unborn_iff] at hborn
          obtain ⟨i, rfl⟩ := N.exists_thread hpos (by omega)
          exact absurd ((hstopped.finished_iff _).mpr (hclient i)) hlive
  · obtain ⟨i, rfl⟩ := N.exists_thread (by omega) ht
    exact hclient i

/-! ## Whole runs -/

theorem Related.atCall
    (hreach : machine.system.Reachable boot prog.cpu) (h : Related N M phase prog m)
    (huser : InUser (N.thread i) prog.cpu) : AtCall (N.thread i) prog.cpu := by
  obtain ⟨hrunning, _⟩ := working_of_inUser hreach huser
  obtain ⟨hexecuting, threw, hcurrent⟩ := huser
  refine ⟨hrunning, hexecuting, ?_⟩
  cases threw with
  | false => exact hcurrent
  | true =>
      have hends := h.scripted.current
      rw [hcurrent, hexecuting] at hends
      have hstage := h.sees.stages.stage i
      rcases hends with hphase | hphase <;> rw [hphase] at hstage <;> exact hstage.elim

variable [DecidableEq ι] [DecidableEq κ]

/-- What the state of the monitor says about that of the program. -/
structure Implements (N : Numbering ι κ total) (M : Monitor ι κ σ Loc)
    (p : ProgramState ι σ Loc) (m : MonitorState ι κ σ Loc) : Prop where
  shared : m.shared = p.shared
  owner_iff : ∀ i, m.owner = some i ↔ Holds (N.thread i) N.mutex p.cpu.state.log
  /-- No call throws, and a thread that runs user code is where the monitor has it. -/
  running : ∀ i, InUser (N.thread i) p.cpu →
    AtCall (N.thread i) p.cpu ∧ m.thread i = .running (p.loc i)
  asleep : ∀ i cv l, m.thread i = .asleep cv l →
    N.thread i ∈ p.cpu.state.queues (.cvQueue (N.cv cv))
  returned : ∀ i, Event.finished (N.thread i) ∈ p.cpu.state.log → M.Returned i m
  /-- The processor is suspended only when the monitor is stuck. -/
  stuck : p.cpu.suspended = true → ¬M.CanStep m
  finished : p.cpu.suspended = true → (∀ i, M.Returned i m) →
    ∀ t, t ≤ total → Event.finished t ∈ p.cpu.state.log

theorem Tracks.implements (hbracketed : M.Bracketed inside) (h : Tracks N M inside prog m) :
    Implements N M prog m := by
  obtain ⟨phase, hrelated⟩ := h.related
  constructor
  case shared => exact hrelated.shared
  case owner_iff => exact hrelated.sees.stages.owner_iff
  case running =>
      intro i huser
      have hcall := hrelated.atCall h.reachable huser
      exact ⟨hcall, (hrelated.running hcall).2⟩
  case asleep =>
      intro i cv l hasleep
      have hstage := hrelated.sees.stages.stage i
      rw [hasleep] at hstage
      exact hstage.asleep
  case returned => exact fun i => hrelated.returned
  case stuck =>
      intro hsuspended
      apply Monitor.not_canStep
      intro i
      have hended := hrelated.ended hbracketed h.exclusive h.reachable hsuspended i
      exact hended.imp_left And.right
  case finished =>
      intro hsuspended hall t ht
      exact hrelated.finished hbracketed h.exclusive h.reachable hsuspended hall ht

/-- The thread library implements monitors: in every run of a program whose threads keep
to the order of `lock` and `unlock`, the program is where a run of its monitor is. -/
theorem implements_of_reachable
    (hbracketed : M.Bracketed inside) (hentry : ∀ i, inside i (entry i) = false)
    (hreach : (program N M).Reachable (programStart shared entry) prog) :
    ∃ m, M.system.Reachable (Monitor.start shared entry) m ∧ Implements N M prog m := by
  obtain ⟨m, hmonitor, htracks⟩ := (tracks_stutterSimulates hbracketed).reachable
    (tracks_start hbracketed hentry) hreach
  exact ⟨m, hmonitor, htracks.implements hbracketed⟩

end Threads
end Eecs482
