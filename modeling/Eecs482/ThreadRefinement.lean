import Eecs482.ThreadMonitorSteps

/-!
# Programs run as their monitors do

Each step of a program on the thread library is a step of its monitor or none, whatever
the schedule and wherever the timer strikes.
-/

namespace Eecs482
namespace Threads

open Uniprocessor

variable {ι κ σ : Type} {Loc : ι → Type} {total : ℕ} {N : Numbering ι κ total}
  {M : Monitor ι κ σ Loc} {phase : ContextRef → Phase κ} {loc : ∀ i, Loc i}
  {s s' : State} {m : MonitorState ι κ σ Loc} {made : ℕ} {i : ι} {p : Phase κ}
  {c c' : ThreadCpu} {op : ThreadOp} {self : ContextRef} {event : CpuEvent threadInterface}

/-! ## The host -/

/-- The host hands over no mutex. -/
theorem Next.clean
    {answer : threadInterface.Answer op} {p' : Phase κ} (hnext : Next N p op answer p')
    (hhosts : p.Hosts) (hexec : (answer, s') ∈ State.exec op s) (hclean : Clean s) :
    Clean s' := by
  have hsame : s'.log = s.log → Clean s' := by
    intro hlog n k log
    rw [hlog]
    exact hclean n k log
  cases hnext with
  | quiet _ hquiet =>
      obtain ⟨events, hbesides, hmoves⟩ := unseen_of_quiet hquiet hexec
      cases events with
      | nil => exact hsame hbesides.log
      | cons event events =>
          intro n k log hlog
          rw [hbesides.log, List.cons_append, List.cons.injEq] at hlog
          have hmove := hmoves event List.mem_cons_self
          rw [hlog.1] at hmove
          exact hmove
  | hands _ hthread => exact absurd hhosts hthread
  | boots =>
      obtain ⟨_, rfl⟩ | ⟨_, _, hlog, _⟩ := mem_exec_makeTcb hexec
      · exact hclean
      · exact hsame hlog
  | bootFails =>
      obtain ⟨_, rfl⟩ | ⟨_, _, hlog, _⟩ := mem_exec_makeTcb hexec
      · exact hclean
      · exact hsame hlog
  | owned => exact hsame (congrArg _ (Prod.mk.inj (List.mem_singleton.mp hexec)).2)
  | disowned => exact hsame (congrArg _ (Prod.mk.inj (List.mem_singleton.mp hexec)).2)
  | _ => exact hhosts.elim

theorem Scripted.clean
    (h : Scripted N phase c) (hreach : machine.system.Reachable boot c)
    (hhosts : (phase .host).Hosts) (hclean : c.executing = .host → Clean c.state)
    (hstep : machine.Step c event c') (hhost : c'.executing = .host) : Clean c'.state := by
  by_cases hsame : c'.executing = c.executing
  · have hbefore := hsame.symm.trans hhost
    have hold := hclean hbefore
    have hcurrent := h.current
    cases hstep with
    | @access op next answer state _ hcall hexec =>
        rw [hcall] at hcurrent
        obtain ⟨p', hnext, _⟩ := hcurrent answer
        rw [hbefore] at hnext
        exact hnext.clean hhosts hexec hold
    | interruptDisable => exact hold
    | interruptEnable => exact hold
    | interruptEnableSuspend => exact hold
    | swapcontext => exact hold
    | setcontext => exact hold
    | follow => exact hold
    | timer => exact hold
  · have hswitching := Reading.switching_of_step verified kept_calls safe_cpuBoot
      ⟨nofun, nofun⟩ guarded_cpuBoot hreach hstep hsame
    exact hswitching.clean

/-- The processor is suspended by the host, at the end of its loop. -/
theorem Scripted.suspends
    (h : Scripted N phase c) (hrunning : c.suspended = false)
    (hstep : machine.Step c event c') (hsuspended : c'.suspended = true) :
    phase c.executing = .hosting ∧ ∃ next, c.current = .call .interruptEnableSuspend next := by
  have hcurrent := h.current
  cases hstep with
  | interruptEnableSuspend _ hcall =>
      rw [hcall] at hcurrent
      exact ⟨hcurrent.1, _, hcall⟩
  | access => exact absurd (hsuspended.symm.trans hrunning) nofun
  | interruptDisable => exact absurd (hsuspended.symm.trans hrunning) nofun
  | interruptEnable => exact absurd (hsuspended.symm.trans hrunning) nofun
  | swapcontext => exact absurd (hsuspended.symm.trans hrunning) nofun
  | setcontext => exact absurd (hsuspended.symm.trans hrunning) nofun
  | follow => exact absurd (hsuspended.symm.trans hrunning) nofun
  | timer => exact absurd (hsuspended.symm.trans hrunning) nofun

/-! ## All that is known of a program -/

/-- The program and the monitor agree. -/
structure Related (N : Numbering ι κ total) (M : Monitor ι κ σ Loc)
    (phase : ContextRef → Phase κ) (p : ProgramState ι σ Loc)
    (m : MonitorState ι κ σ Loc) : Prop where
  scripted : Scripted N phase p.cpu
  sees : Sees N M phase p.made p.loc p.cpu.state m
  shared : m.shared = p.shared
  clean : p.cpu.executing = .host → Clean p.cpu.state
  idle : p.cpu.suspended = true → phase .host = .hosting

theorem Sees.hosts (h : Sees N M phase made loc s m) : (phase .host).Hosts := by
  obtain hhost | ⟨hhost, _⟩ := h.started.booted <;> rw [hhost] <;> trivial

variable {prog prog' : ProgramState ι σ Loc} {shown : ProgramEvent}

/-- A step inside the library. -/
theorem Related.library
    [DecidableEq ι] [DecidableEq κ] {inside : ∀ i, Loc i → Bool} {cpu : ThreadCpu}
    (hbracketed : M.Bracketed inside) (hexclusive : Monitor.Exclusive inside m)
    (hreach : machine.system.Reachable boot prog.cpu) (h : Related N M phase prog m)
    (hstep : machine.Step prog.cpu event cpu) (hevent : event ≠ .follow) :
    ∃ m' phase', (m' = m ∨ ∃ i, M.Step m i m') ∧ Moves N phase prog.cpu cpu.state phase' ∧
      Related N M phase' { prog with cpu := cpu } m' := by
  have hrunning : prog.cpu.suspended = false := by
    cases hstep <;> assumption
  have hhosts := h.sees.hosts
  have hlive : phase .host ≠ .finished := by
    intro hphase
    rw [hphase] at hhosts
    exact hhosts.elim
  have hclean := h.scripted.clean hreach hhosts h.clean hstep
  obtain ⟨phase', hscripted, hmoves⟩ :=
    h.scripted.step hreach h.sees.seen.finished hlive hstep hevent
  cases hmoves with
  | still hstate =>
      refine ⟨m, phase, .inl rfl, .still hstate, hscripted, ?_, h.shared, hclean,
        fun hsuspended => ?_⟩
      · change Sees N M phase prog.made prog.loc cpu.state m
        rw [hstate]
        exact h.sees
      · obtain ⟨hphase, _⟩ := h.scripted.suspends hrunning hstep hsuspended
        have hself : (phase prog.cpu.executing).Hosts → prog.cpu.executing = .host :=
          h.sees.host_of_phase h.scripted.born
        rw [hphase] at hself
        rw [← hself trivial]
        exact hphase
  | access hcurrent hexec hnext =>
      have hguard := Reading.guard_of_reachable verified kept_calls safe_cpuBoot
        ⟨nofun, nofun⟩ guarded_cpuBoot hreach hrunning hcurrent
      obtain ⟨hhands, hwhere⟩ := hguard _ _ hcurrent
      obtain ⟨htested, _⟩ := (invariant_of_reachable hreach).guard hrunning hcurrent
      obtain ⟨m', hmoved, hshared, hsees⟩ := h.sees.access hbracketed hexclusive
        h.scripted.born h.scripted.calm hhands hwhere htested hexec hnext
      refine ⟨m', _, hmoved, .access hcurrent hexec hnext, hscripted, hsees,
        hshared.trans h.shared, hclean, ?_⟩
      intro hsuspended
      obtain ⟨_, next, hcall⟩ := h.scripted.suspends hrunning hstep hsuspended
      rw [hcurrent] at hcall
      cases hcall

/-- The next round of the loop of the host. -/
theorem Related.loop
    {cpu : ThreadCpu} (h : Related N M phase prog m) (hhost : prog.cpu.executing = .host)
    (hstep : machine.Step prog.cpu .follow cpu) :
    Related N M phase { prog with cpu := cpu } m := by
  have hcurrent := h.scripted.current
  cases hstep with
  | @follow value code hrunning hret hfollow =>
      rw [hret] at hcurrent
      have hloop : Follow prog.cpu.executing value prog.cpu.state code := hfollow
      rw [hhost] at hloop
      cases hloop with
      | loop =>
          have hphase : phase prog.cpu.executing = .hosting := hcurrent
          have hcode : Follows N cpuLoop (phase prog.cpu.executing) := by
            rw [hphase]
            exact follows_cpuLoop
          exact ⟨⟨hcode, h.scripted.saved, h.scripted.calm, h.scripted.born⟩, h.sees, h.shared,
            h.clean, h.idle⟩

/-! ## User code -/

theorem AtCall.inUser {t : ℕ} (h : AtCall t c) : InUser t c :=
  ⟨h.executing, false, h.current⟩

theorem AtCall.born {t : ℕ} (h : AtCall t c) (hreach : machine.system.Reachable boot c) :
    t < c.state.created := by
  obtain ⟨_, _, place, hworking⟩ := working_of_inUser hreach h.inUser
  exact hworking.created_gt

theorem AtCall.ends {t : ℕ} (h : AtCall t c) (hscripted : Scripted N phase c) :
    phase (.thread t) = .idle ∨ ∃ u, phase (.thread t) = .joining u := by
  have hcurrent := hscripted.current
  rw [h.current, h.executing] at hcurrent
  exact hcurrent

/-- A thread of the monitor that runs user code is where the monitor has it. -/
theorem Related.running
    (h : Related N M phase prog m) (hcall : AtCall (N.thread i) prog.cpu) :
    phase (.thread (N.thread i)) = .idle ∧ m.thread i = .running (prog.loc i) := by
  have hstage := h.sees.stages.stage i
  rcases hcall.ends h.scripted with hphase | ⟨u, hphase⟩
  · rw [hphase] at hstage
    exact ⟨hphase, hstage⟩
  · rw [hphase] at hstage
    exact hstage.elim

/-- A thread of the monitor goes on in user code, or makes a call. -/
theorem Sees.go
    [DecidableEq ι] {l : Loc i} {shared : σ} {thread : MonitorThread κ (Loc i)}
    (h : Sees N M phase made loc s m) (hphase : phase (.thread (N.thread i)) = .idle)
    (hp : p ≠ .finished)
    (hstage : Stage M i l (Holds (N.thread i) N.mutex s.log)
      (fun cv => N.thread i ∈ s.queues (.cvQueue (N.cv cv))) thread p) :
    Sees N M (Function.update phase (.thread (N.thread i)) p) made (Function.update loc i l) s
      ⟨shared, m.owner, Function.update m.thread i thread⟩ := by
  have hfits : ∀ q, ¬(phase (.thread (N.thread i))).Fits N q := by
    simp [hphase, Phase.Fits]
  constructor
  case seen =>
      refine h.seen.shorten (fun r _ => .refl _) (List.nil_append _).symm (by simp) ?_
        (by simp [hphase]) hp
      exact fun r hr hmem => absurd hmem (h.out hfits r hr)
  case started => exact h.started.client i
  case handing => exact h.handing
  case stages =>
      apply h.stages.move ⟨fun _ => update_client, fun _ _ => Iff.rfl, fun _ _ _ => Iff.rfl⟩
        h.stages.owner_iff
      rw [Function.update_self]
      exact hstage

/-- The stage of a thread that makes a call. -/
theorem stage_of_call
    {l next : Loc i} {call : UserCall} {holds : Prop} {inCv : κ → Prop}
    (haction : N.call (M.action i l) = some (call, next))
    (hlock : ∀ next, M.action i l = .lock next → ¬holds) :
    Stage M i next holds inCv (.running l) (Phase.ofAction (M.action i l)) := by
  cases hsame : M.action i l with
  | lock next' =>
      rw [hsame] at haction
      cases haction
      exact ⟨hlock _ hsame, l, hsame, rfl⟩
  | unlock next' =>
      rw [hsame] at haction
      cases haction
      exact ⟨l, hsame, rfl⟩
  | wait cv next' =>
      rw [hsame] at haction
      cases haction
      exact ⟨l, hsame, rfl⟩
  | signal cv next' =>
      rw [hsame] at haction
      cases haction
      exact ⟨l, hsame, rfl⟩
  | broadcast cv next' =>
      rw [hsame] at haction
      cases haction
      exact ⟨l, hsame, rfl⟩
  | run effect =>
      rw [hsame] at haction
      cases haction
  | stop =>
      rw [hsame] at haction
      cases haction

theorem Related.call
    [DecidableEq ι] {inside : ∀ i, Loc i → Bool} {call : UserCall} {next : Loc i}
    (hbracketed : M.Bracketed inside) (hexclusive : Monitor.Exclusive inside m)
    (hreach : machine.system.Reachable boot prog.cpu) (h : Related N M phase prog m)
    (hcall : AtCall (N.thread i) prog.cpu)
    (haction : N.call (M.action i (prog.loc i)) = some (call, next)) :
    Related N M (moveTo phase prog.cpu (Phase.ofAction (M.action i (prog.loc i))))
      { prog with
        cpu := enter call prog.cpu
        loc := Function.update prog.loc i next } m := by
  obtain ⟨hphase, hthread⟩ := h.running hcall
  have hlock : ∀ next, M.action i (prog.loc i) = .lock next →
      ¬Holds (N.thread i) N.mutex prog.cpu.state.log := by
    intro next hlock hholds
    have hcode := hbracketed i (prog.loc i)
    rw [hlock] at hcode
    have howner := (h.sees.stages.owner_iff i).mpr hholds
    rw [hexclusive.running_iff hthread, hcode.1] at howner
    cases howner
  have hp : Phase.ofAction (M.action i (prog.loc i)) ≠ .finished := by
    cases M.action i (prog.loc i) <;> simp [Phase.ofAction]
  have hsees : Sees N M
      (Function.update phase (.thread (N.thread i)) (Phase.ofAction (M.action i (prog.loc i))))
      prog.made (Function.update prog.loc i next) prog.cpu.state
      ⟨m.shared, m.owner, Function.update m.thread i (m.thread i)⟩ := by
    apply h.sees.go hphase hp
    rw [hthread]
    exact stage_of_call haction hlock
  rw [Function.update_eq_self, ← hcall.executing] at hsees
  have hborn := hcall.born hreach
  exact ⟨h.scripted.enter (follows_call haction) hcall.executing hborn, hsees, h.shared,
    h.clean, fun hsuspended => absurd (hsuspended.symm.trans hcall.running) (by simp)⟩

/-- The start function of a thread of the monitor returns. -/
theorem Related.stop
    [DecidableEq ι] (hreach : machine.system.Reachable boot prog.cpu)
    (h : Related N M phase prog m) (hcall : AtCall (N.thread i) prog.cpu)
    (haction : M.action i (prog.loc i) = .stop) :
    Related N M (moveTo phase prog.cpu .exiting) { prog with cpu := enter .exit prog.cpu } m := by
  obtain ⟨hphase, hthread⟩ := h.running hcall
  have hsees : Sees N M (Function.update phase (.thread (N.thread i)) .exiting) prog.made
      (Function.update prog.loc i (prog.loc i)) prog.cpu.state
      ⟨m.shared, m.owner, Function.update m.thread i (m.thread i)⟩ := by
    apply h.sees.go hphase (by simp)
    rw [hthread]
    exact ⟨haction, rfl⟩
  rw [Function.update_eq_self, Function.update_eq_self, ← hcall.executing] at hsees
  have hborn := hcall.born hreach
  exact ⟨h.scripted.enter follows_starterExit hcall.executing hborn, hsees, h.shared,
    h.clean, fun hsuspended => absurd (hsuspended.symm.trans hcall.running) (by simp)⟩

/-- A thread of the monitor executes statements on the shared variables. -/
theorem Related.run
    [DecidableEq ι] [DecidableEq κ] {effect : σ → σ × Loc i} (h : Related N M phase prog m)
    (hcall : AtCall (N.thread i) prog.cpu)
    (haction : M.action i (prog.loc i) = .run effect) :
    ∃ m', M.Step m i m' ∧
      Related N M phase { prog with
        shared := (effect prog.shared).1
        loc := Function.update prog.loc i (effect prog.shared).2 } m' := by
  obtain ⟨hphase, hthread⟩ := h.running hcall
  refine ⟨_, .run hthread haction, ?_⟩
  rw [h.shared]
  have hsees : Sees N M (Function.update phase (.thread (N.thread i)) .idle) prog.made
      (Function.update prog.loc i (effect prog.shared).2) prog.cpu.state
      ⟨(effect prog.shared).1, m.owner,
        Function.update m.thread i (.running (effect prog.shared).2)⟩ :=
    h.sees.go hphase (by simp) rfl
  rw [← hphase, Function.update_eq_self] at hsees
  exact ⟨h.scripted, hsees, rfl, h.clean, h.idle⟩

theorem Related.hosting
    (hreach : machine.system.Reachable boot prog.cpu) (h : Related N M phase prog m)
    {t : ℕ} (hcall : AtCall t prog.cpu) : phase .host = .hosting := by
  have hborn := hcall.born hreach
  obtain hhost | ⟨_, hnone, _⟩ := h.sees.started.booted
  · exact hhost
  · omega

/-- The main thread joins threads that it has created. -/
theorem Related.legal
    (hreach : machine.system.Reachable boot prog.cpu) (h : Related N M phase prog m)
    (hcall : AtCall 0 prog.cpu) : (mainCall total prog.made).Legal prog.cpu.state := by
  obtain ⟨hcreated, _⟩ :=
    h.sees.started.call (h.hosting hreach hcall) (hcall.ends h.scripted)
  unfold mainCall
  split
  case isTrue => trivial
  case isFalse hle =>
      split
      case isTrue hlt =>
          change prog.made - total + 1 < prog.cpu.state.created
          omega
      case isFalse => trivial

/-- The main thread makes its next call. -/
theorem Related.main
    (hreach : machine.system.Reachable boot prog.cpu) (h : Related N M phase prog m)
    (hcall : AtCall 0 prog.cpu) :
    Related N M (moveTo phase prog.cpu (mainPhase total prog.made))
      { prog with
        cpu := enter (mainCall total prog.made) prog.cpu
        made := prog.made + 1 } m := by
  have hborn := hcall.born hreach
  have hsees := h.sees.callMain (h.hosting hreach hcall) (hcall.ends h.scripted)
  rw [← hcall.executing] at hsees
  exact ⟨h.scripted.enter (follows_mainCall prog.made) hcall.executing hborn, hsees, h.shared,
    h.clean, fun hsuspended => absurd (hsuspended.symm.trans hcall.running) (by simp)⟩

/-! ## Whole runs -/

/-- What is known of a program in a run, and of its monitor. -/
structure Tracks (N : Numbering ι κ total) (M : Monitor ι κ σ Loc)
    (inside : ∀ i, Loc i → Bool) (p : ProgramState ι σ Loc) (m : MonitorState ι κ σ Loc) :
    Prop where
  reachable : machine.system.Reachable boot p.cpu
  exclusive : Monitor.Exclusive inside m
  related : ∃ phase, Related N M phase p m

/-- What the processor does in a program it may do. -/
theorem Related.cpu
    [DecidableEq ι] (hreach : machine.system.Reachable boot prog.cpu) (h : Related N M phase prog m)
    (hstep : ProgramStep N M prog shown prog') : machine.system.Reachable boot prog'.cpu := by
  cases hstep with
  | library _ hstep => exact hreach.step hstep
  | loop _ hstep => exact hreach.step hstep
  | call hcall haction => exact enter_reachable hreach hcall (N.call_legal haction)
  | run => exact hreach
  | stop hcall => exact enter_reachable hreach hcall trivial
  | main hcall => exact enter_reachable hreach hcall (h.legal hreach hcall)

variable [DecidableEq ι] [DecidableEq κ] {inside : ∀ i, Loc i → Bool}

/-- Each step of the program is a step of the monitor, or none. -/
theorem Related.step
    (hbracketed : M.Bracketed inside) (hexclusive : Monitor.Exclusive inside m)
    (hreach : machine.system.Reachable boot prog.cpu) (h : Related N M phase prog m)
    (hstep : ProgramStep N M prog shown prog') :
    ∃ m' phase', (m' = m ∨ ∃ i, M.Step m i m') ∧ Related N M phase' prog' m' := by
  cases hstep with
  | library hevent hstep =>
      obtain ⟨m', phase', hmoved, _, hrelated⟩ :=
        h.library hbracketed hexclusive hreach hstep hevent
      exact ⟨m', phase', hmoved, hrelated⟩
  | loop hhost hstep => exact ⟨m, phase, .inl rfl, h.loop hhost hstep⟩
  | call hcall haction =>
      exact ⟨m, _, .inl rfl, h.call hbracketed hexclusive hreach hcall haction⟩
  | @run i effect hcall haction =>
      obtain ⟨m', hmoved, hrelated⟩ := h.run hcall haction
      exact ⟨m', phase, .inr ⟨i, hmoved⟩, hrelated⟩
  | stop hcall haction => exact ⟨m, _, .inl rfl, h.stop hreach hcall haction⟩
  | main hcall => exact ⟨m, _, .inl rfl, h.main hreach hcall⟩

theorem tracks_stutterSimulates (hbracketed : M.Bracketed inside) :
    (program N M).StutterSimulates M.system (Tracks N M inside) := by
  intro prog shown prog' m h hstep
  obtain ⟨phase, hrelated⟩ := h.related
  obtain ⟨m', phase', hmoved, hrelated'⟩ :=
    hrelated.step hbracketed h.exclusive h.reachable hstep
  refine ⟨m', hmoved, hrelated.cpu h.reachable hstep, ?_, phase', hrelated'⟩
  rcases hmoved with rfl | ⟨i, hmoved⟩
  · exact h.exclusive
  · exact h.exclusive.step hbracketed hmoved

variable {shared : σ} {entry : ∀ i, Loc i}

/-- The phases before `cpu::boot`. -/
def startPhase : ContextRef → Phase κ
  | .host => .booting
  | .thread _ => .idle

theorem tracks_start
    (hbracketed : M.Bracketed inside) (hentry : ∀ i, inside i (entry i) = false) :
    Tracks N M inside (programStart shared entry) (Monitor.start shared entry) := by
  have hnobody : ∀ u k, ¬Holds u k (programStart shared entry).cpu.state.log := fun _ _ => id
  have hempty : ∀ q u, u ∉ (programStart shared entry).cpu.state.queues q :=
    fun _ _ => List.not_mem_nil
  refine ⟨.refl, Monitor.exclusive_of_reachable hbracketed hentry .refl, startPhase, ?_⟩
  constructor
  case scripted =>
      refine ⟨follows_cpuBoot, ?_, ?_, fun _ _ => rfl⟩
      · intro ref code _ hcontext
        cases hcontext
      · intro ref hne cv
        cases ref with
        | host => exact absurd rfl hne
        | thread t => simp [startPhase]
  case sees =>
      constructor
      case seen =>
          refine ⟨fun q u _ hmem => absurd hmem (hempty q u), fun q _ => List.nodup_nil, ?_, ?_⟩
          · exact fun u hu => absurd hu (hnobody u _)
          · exact fun t => iff_of_false List.not_mem_nil (by simp [startPhase])
      case started => exact ⟨.inr ⟨rfl, rfl, rfl, rfl⟩, fun hhost => by cases hhost⟩
      case handing => exact fun u hu => absurd hu (hnobody u _)
      case stages =>
          exact ⟨fun i => iff_of_false (by simp [Monitor.start]) (hnobody _ _),
            fun i => rfl⟩
  case shared => rfl
  case clean =>
      intro _ n k log hlog
      cases hlog
  case idle =>
      intro hsuspended
      cases hsuspended

end Threads
end Eecs482
