import Eecs482.ProgLengths
import Eecs482.ThreadProgress
import Mathlib.Algebra.BigOperators.Group.Finset.Piecewise

/-!
# Programs come to their end

A monitor with a rank that its steps lower has its program come to an end: the steps of
the program are paid from the rank, from the calls of the main thread and from a bonus
for each interrupt of the timer.
-/

namespace Eecs482
namespace Threads

open Uniprocessor

variable {ι κ σ : Type} {Loc : ι → Type} {total : ℕ} {N : Numbering ι κ total}
  {M : Monitor ι κ σ Loc} {phase phase' : ContextRef → Phase κ} {m m' : MonitorState ι κ σ Loc}
  {prog prog' : ProgramState ι σ Loc} {shown : ProgramEvent} {shared : σ} {entry : ∀ i, Loc i}
  {inside : ∀ i, Loc i → Bool} {self : ContextRef} {loc : ∀ i, Loc i} {i : ι}
  {budget prepaid : ContextRef → ℕ} {rounds : ℕ}

/-! ## What is to be paid -/

/-- The host and the threads. -/
def refs (total : ℕ) : Finset ContextRef :=
  insert .host ((Finset.range (total + 1)).image .thread)

theorem card_refs : (refs total).card = total + 2 := by
  rw [refs, Finset.card_insert_of_notMem (by simp),
    Finset.card_image_of_injective _ fun _ _ => ContextRef.thread.inj, Finset.card_range]

theorem thread_mem_refs {t : ℕ} (ht : t ≤ total) : .thread t ∈ refs total :=
  Finset.mem_insert_of_mem (Finset.mem_image_of_mem _ (Finset.mem_range.mpr (by omega)))

theorem sum_refs_update (budget : ContextRef → ℕ) (hmem : self ∈ refs total) (n : ℕ) :
    ∑ ref ∈ refs total, Function.update budget self n ref + budget self =
      ∑ ref ∈ refs total, budget ref + n := by
  have hrest := Finset.sum_eq_add_sum_sdiff_singleton_of_mem hmem budget
  rw [Finset.sum_update_of_mem hmem, hrest]
  omega

/-- The thread has made its last call. -/
def Phase.Ending : Phase κ → Prop
  | .exiting => True
  | .finished => True
  | _ => False

/-- The thread is going to make another call, or will be after its step. -/
def Due (N : Numbering ι κ total) (phase : ContextRef → Phase κ) (loc : ∀ i, Loc i)
    (m : MonitorState ι κ σ Loc) (i : ι) : Prop :=
  m.thread i = .running (loc i) ∧ ¬(phase (.thread (N.thread i))).Ending

theorem Next.ending
    {p p' : Phase κ} {op : ThreadOp} {answer : threadInterface.Answer op}
    (hnext : Next N p op answer p') (h : p.Ending) : p'.Ending := by
  cases hnext with
  | disowned hreleases => cases p <;> first | exact absurd h id | exact absurd hreleases id
  | _ => exact h

theorem Moves.ending
    {s : State} (hmoves : Moves N phase prog.cpu s phase') (h : (phase self).Ending) :
    (phase' self).Ending := by
  cases hmoves with
  | still => exact h
  | @access op next answer p _ _ hnext =>
      by_cases hself : self = prog.cpu.executing
      · subst hself
        rw [moveTo_self]
        exact hnext.ending h
      · rw [moveTo_of_ne hself]
        exact h

/-- A thread that is due after a step of the library, and had not moved, has been due
before. -/
theorem due_of_moves
    {s : State} (hmoves : Moves N phase prog.cpu s phase') (hdue : Due N phase' loc m' i)
    (hthread : m.thread i = .running (loc i)) : Due N phase loc m i :=
  ⟨hthread, fun hending => hdue.2 (hmoves.ending hending)⟩

/-- No call leads back to where it is made. -/
def Numbering.Forward (N : Numbering ι κ total) (M : Monitor ι κ σ Loc) : Prop :=
  ∀ i l call next, N.call (M.action i l) = some (call, next) → next ≠ l

/-- The timer interrupts the code that runs. -/
def ProgramEvent.isTimer : ProgramEvent → Bool
  | .library .timer => true
  | _ => false

/-- What a thread pays for its next call: the call, and what the library does. -/
def price : ℕ :=
  callCost + 1

/-- The thread that makes a call pays for it. -/
theorem sum_prepaid (hmem : self ∈ refs total) (hpaid : price ≤ prepaid self) :
    ∑ ref ∈ refs total, Function.update prepaid self (prepaid self - price) ref + price =
      ∑ ref ∈ refs total, prepaid ref := by
  have hsum := sum_refs_update prepaid hmem (prepaid self - price)
  omega

/-- Everything that is known of a program, its monitor and its accounts. -/
structure Balanced (N : Numbering ι κ total) (M : Monitor ι κ σ Loc) [DecidableEq ι]
    [DecidableEq κ] (inside : ∀ i, Loc i → Bool) (start : MonitorState ι κ σ Loc)
    (p : ProgramState ι σ Loc) (m : MonitorState ι κ σ Loc) (phase : ContextRef → Phase κ)
    (budget prepaid : ContextRef → ℕ) (rounds : ℕ) : Prop where
  reachable : machine.system.Reachable boot p.cpu
  monitor : M.system.Reachable start m
  exclusive : Monitor.Exclusive inside m
  related : Related N M phase p m
  funded : Funded budget p.cpu
  host : HostRounds rounds p.cpu
  rounds_le : rounds ≤ 2
  prepaid : ∀ i, Due N phase p.loc m i → price ≤ prepaid (.thread (N.thread i))
  main : 2 * total < p.made → (phase (.thread 0)).Ending
  made_le : p.made ≤ 2 * total + 1

/-- How many steps can be paid. -/
def worth (total rank made : ℕ) (budget prepaid : ContextRef → ℕ) (rounds : ℕ) : ℕ :=
  ∑ ref ∈ refs total, budget ref + ∑ ref ∈ refs total, prepaid ref +
    price * (rank + (2 * total + 1 - made) + rounds)

section Payments

variable [DecidableEq ι] [DecidableEq κ] {start : MonitorState ι κ σ Loc}

theorem Balanced.mem_refs
    (h : Balanced N M inside start prog m phase budget prepaid rounds) :
    prog.cpu.executing ∈ refs total := by
  have hmade := h.funded.made
  have hcreated := h.related.sees.created_le
  cases hexecuting : prog.cpu.executing with
  | host => exact Finset.mem_insert_self ..
  | thread t =>
      rw [hexecuting] at hmade
      have hlt : t < prog.cpu.state.created := hmade
      exact thread_mem_refs (by omega)

/-- The accounts after a step of the library. -/
theorem Balanced.library
    {event : CpuEvent threadInterface} {cpu : ThreadCpu} {budget' : ContextRef → ℕ}
    (hbracketed : M.Bracketed inside) (rank : MonitorState ι κ σ Loc → ℕ)
    (hlowers : ∀ m i m', M.system.Reachable start m → M.Step m i m' → rank m' < rank m)
    (h : Balanced N M inside start prog m phase budget prepaid rounds)
    (hstep : machine.Step prog.cpu event cpu) (hevent : event ≠ .follow)
    (hfunded : Funded budget' cpu) (hhost : HostRounds rounds cpu) :
    ∃ m' phase' prepaid', Balanced N M inside start { prog with cpu := cpu } m' phase'
        budget' prepaid' rounds ∧
      ∑ ref ∈ refs total, prepaid' ref + price * rank m' ≤
        ∑ ref ∈ refs total, prepaid ref + price * rank m := by
  obtain ⟨m', phase', hmoved, hmoves, hrelated⟩ :=
    h.related.library hbracketed h.exclusive h.reachable hstep hevent
  have hmain : 2 * total < prog.made → (phase' (.thread 0)).Ending :=
    fun hmade => hmoves.ending (h.main hmade)
  rcases hmoved with rfl | ⟨j, hstep'⟩
  · refine ⟨m', phase', prepaid, ⟨h.reachable.step hstep, h.monitor, h.exclusive, hrelated,
      hfunded, hhost, h.rounds_le, fun i hdue => ?_, hmain, h.made_le⟩, Nat.le_refl _⟩
    exact h.prepaid i (due_of_moves hmoves hdue hdue.1)
  · refine ⟨m', phase', Function.update prepaid (.thread (N.thread j)) price,
      ⟨h.reachable.step hstep, h.monitor.step hstep', h.exclusive.step hbracketed hstep',
        hrelated, hfunded, hhost, h.rounds_le, fun i hdue => ?_, hmain, h.made_le⟩, ?_⟩
    · by_cases hi : i = j
      · subst hi
        rw [Function.update_self]
      · have hne : ContextRef.thread (N.thread i) ≠ .thread (N.thread j) :=
          fun heq => hi (N.thread_injective (ContextRef.thread.inj heq))
        rw [Function.update_of_ne hne]
        exact h.prepaid i (due_of_moves hmoves hdue (hstep'.running_of_ne hi hdue.1))
    · have hsum := sum_refs_update prepaid (thread_mem_refs (N.thread_le j)) price
      have hrank := hlowers m j m' h.monitor hstep'
      have hprice : price * rank m' + price ≤ price * rank m := by
        rw [← Nat.mul_succ]
        exact Nat.mul_le_mul_left _ hrank
      omega

/-- A thread of the monitor calls, or stops. -/
theorem Balanced.enter
    {call : UserCall} {p : Phase κ} {next : Loc i}
    (h : Balanced N M inside start prog m phase budget prepaid rounds)
    (hcall : AtCall (N.thread i) prog.cpu)
    (hreach : machine.system.Reachable boot (enter call prog.cpu))
    (hrelated : Related N M (moveTo phase prog.cpu p)
      { prog with cpu := enter call prog.cpu, loc := Function.update prog.loc i next } m)
    (hlast : next ≠ prog.loc i ∨ p.Ending) :
    ∃ phase' budget' prepaid',
      Balanced N M inside start
        { prog with cpu := enter call prog.cpu, loc := Function.update prog.loc i next }
        m phase' budget' prepaid' rounds ∧
      ∑ ref ∈ refs total, budget' ref + ∑ ref ∈ refs total, prepaid' ref + 1 ≤
        ∑ ref ∈ refs total, budget ref + ∑ ref ∈ refs total, prepaid ref := by
  obtain ⟨hphase, hthread⟩ := h.related.running hcall
  have hmem : ContextRef.thread (N.thread i) ∈ refs total := thread_mem_refs (N.thread_le i)
  have hdue : Due N phase prog.loc m i := by
    refine ⟨hthread, ?_⟩
    rw [hphase]
    exact id
  have hpaid := h.prepaid i hdue
  have hself : ∀ j, j ≠ i → ContextRef.thread (N.thread j) ≠ .thread (N.thread i) :=
    fun j hj heq => hj (N.thread_injective (ContextRef.thread.inj heq))
  have hphase' : ∀ ref, ref ≠ .thread (N.thread i) → moveTo phase prog.cpu p ref = phase ref := by
    intro ref hne
    rw [← hcall.executing] at hne
    exact moveTo_of_ne hne p
  refine ⟨_, Function.update budget (.thread (N.thread i)) callCost,
    Function.update prepaid (.thread (N.thread i)) (prepaid (.thread (N.thread i)) - price),
    ⟨hreach, h.monitor, h.exclusive, hrelated, ?_, h.host.thread hcall.executing, h.rounds_le,
      ?_, ?_, h.made_le⟩, ?_⟩
  · have hfunded : Funded (Function.update budget prog.cpu.executing callCost)
        (Threads.enter call prog.cpu) := h.funded.goTo (atMost_call call)
    rwa [hcall.executing] at hfunded
  · intro j hdue'
    by_cases hj : j = i
    · subst hj
      obtain ⟨hsame, hnot⟩ := hdue'
      rcases hlast with hne | hending
      · have hloc : MonitorThread.running (prog.loc j) =
            .running (Function.update prog.loc j next j) := hthread.symm.trans hsame
        rw [Function.update_self] at hloc
        exact absurd (MonitorThread.running.inj hloc).symm hne
      · rw [← hcall.executing, moveTo_self] at hnot
        exact absurd hending hnot
    · rw [Function.update_of_ne (hself j hj)]
      apply h.prepaid j
      rw [Due, hphase' _ (hself j hj)] at hdue'
      change m.thread j = .running (Function.update prog.loc i next j) ∧ _ at hdue'
      rwa [Function.update_of_ne hj] at hdue'
  · intro hmade
    rw [hphase' _ fun heq => N.thread_ne_zero i (ContextRef.thread.inj heq).symm]
    exact h.main hmade
  · have hbudget := sum_refs_update budget hmem callCost
    have hprepaid := sum_prepaid hmem hpaid
    have hprice : price = callCost + 1 := rfl
    omega

/-- A thread of the monitor executes statements on the shared variables. -/
theorem Balanced.run
    {effect : σ → σ × Loc i} (hbracketed : M.Bracketed inside)
    (h : Balanced N M inside start prog m phase budget prepaid rounds)
    (hcall : AtCall (N.thread i) prog.cpu) (haction : M.action i (prog.loc i) = .run effect) :
    ∃ m', M.Step m i m' ∧ Balanced N M inside start { prog with
        shared := (effect prog.shared).1
        loc := Function.update prog.loc i (effect prog.shared).2 }
      m' phase budget prepaid rounds := by
  obtain ⟨hphase, hthread⟩ := h.related.running hcall
  obtain ⟨m', hstep, hrelated⟩ := h.related.run hcall haction
  refine ⟨m', hstep, h.reachable, h.monitor.step hstep, h.exclusive.step hbracketed hstep,
    hrelated, h.funded, h.host, h.rounds_le, fun j hdue => h.prepaid j ?_, h.main, h.made_le⟩
  by_cases hj : j = i
  · subst hj
    exact ⟨hthread, hdue.2⟩
  · have hsame : m'.thread j = .running (Function.update prog.loc i _ j) := hdue.1
    rw [Function.update_of_ne hj] at hsame
    exact ⟨hstep.running_of_ne hj hsame, hdue.2⟩

/-- The main thread makes its next call. -/
theorem Balanced.callMain
    (h : Balanced N M inside start prog m phase budget prepaid rounds)
    (hcall : AtCall 0 prog.cpu) :
    prog.made ≤ 2 * total ∧
      Balanced N M inside start { prog with
          cpu := Threads.enter (mainCall total prog.made) prog.cpu
          made := prog.made + 1 }
        m (moveTo phase prog.cpu (mainPhase total prog.made))
        (Function.update budget (.thread 0) callCost) prepaid rounds := by
  have hends := hcall.ends h.related.scripted
  have hnot : ¬(phase (.thread 0)).Ending := by
    rcases hends with hphase | ⟨t, hphase⟩ <;> rw [hphase] <;> exact id
  have hmade : prog.made ≤ 2 * total := Nat.le_of_not_lt fun hlt => hnot (h.main hlt)
  have hclient : ∀ j, moveTo phase prog.cpu (mainPhase total prog.made) (.thread (N.thread j)) =
      phase (.thread (N.thread j)) := by
    intro j
    apply moveTo_of_ne
    rw [hcall.executing]
    exact fun heq => N.thread_ne_zero j (ContextRef.thread.inj heq)
  refine ⟨hmade, ⟨?_, h.monitor, h.exclusive, h.related.main h.reachable hcall, ?_,
    h.host.thread hcall.executing, h.rounds_le, fun j hdue => h.prepaid j ?_, fun hlast => ?_,
    Nat.succ_le_succ hmade⟩⟩
  · exact enter_reachable h.reachable hcall (h.related.legal h.reachable hcall)
  · have hfunded : Funded (Function.update budget prog.cpu.executing callCost)
        (Threads.enter (mainCall total prog.made) prog.cpu) := h.funded.goTo (atMost_call _)
    rwa [hcall.executing] at hfunded
  · rw [Due, hclient] at hdue
    exact hdue
  · have hexit : (mainPhase total prog.made : Phase κ) = .exiting := by
      have hlt : 2 * total < prog.made + 1 := hlast
      rw [mainPhase, if_neg (by omega), if_neg (by omega)]
    rw [← hcall.executing, moveTo_self, hexit]
    trivial

/-- The host starts another round of its loop. -/
theorem Balanced.loop
    {cpu : ThreadCpu} (h : Balanced N M inside start prog m phase budget prepaid rounds)
    (hhost : prog.cpu.executing = .host) (hstep : machine.Step prog.cpu .follow cpu) :
    0 < rounds ∧ Balanced N M inside start { prog with cpu := cpu } m phase
      (Function.update budget .host callCost) prepaid (rounds - 1) := by
  have hrelated := h.related.loop hhost hstep
  have hreach := h.reachable.step hstep
  cases hstep with
  | @follow value code hrunning hret hfollow =>
      have hloop : Follow prog.cpu.executing value prog.cpu.state code := hfollow
      rw [hhost] at hloop
      cases hloop
      obtain ⟨hpos, hrounds⟩ := h.host.loop h.rounds_le hrunning hhost hret
      have hfunded := h.funded.goTo atMost_cpuLoop
      rw [hhost] at hfunded
      have hle := h.rounds_le
      refine ⟨hpos, hreach, h.monitor, h.exclusive, hrelated, ?_, hrounds, by omega, h.prepaid,
        h.main, h.made_le⟩
      rwa [hhost]

/-! ## Every step is paid -/

/-- The steps of a program that is in balance, with the bonus for the timer. -/
theorem Balanced.step
    (hbracketed : M.Bracketed inside) (hforward : N.Forward M)
    (rank : MonitorState ι κ σ Loc → ℕ)
    (hlowers : ∀ m i m', M.system.Reachable start m → M.Step m i m' → rank m' < rank m)
    (h : Balanced N M inside start prog m phase budget prepaid rounds)
    (hstep : ProgramStep N M prog shown prog') :
    ∃ m' phase' budget' prepaid' rounds',
      Balanced N M inside start prog' m' phase' budget' prepaid' rounds' ∧
      worth total (rank m') prog'.made budget' prepaid' rounds' + 1 ≤
        worth total (rank m) prog.made budget prepaid rounds +
          if shown.isTimer then timerCost + 1 else 0 := by
  have hmem := h.mem_refs
  have hprice : price = callCost + 1 := rfl
  cases hstep with
  | @library event cpu hevent hstep =>
      cases event with
      | follow => exact absurd rfl hevent
      | call op =>
          obtain ⟨hpos, hfunded⟩ := h.funded.call h.reachable hstep
          obtain ⟨m', phase', prepaid', hbalanced, hle⟩ := h.library hbracketed rank hlowers hstep
            hevent hfunded (h.host.call h.reachable hstep)
          refine ⟨m', phase', _, prepaid', rounds, hbalanced, ?_⟩
          have hsum := sum_refs_update budget hmem (budget prog.cpu.executing - 1)
          simp only [worth, spend, Nat.mul_add, ProgramEvent.isTimer]
          simp only [Bool.false_eq_true, if_false]
          omega
      | timer =>
          have hcpu : cpu = { prog.cpu with current := yield >>= fun _ => prog.cpu.current } ∧
              prog.cpu.suspended = false ∧ prog.cpu.interrupts = true := by
            cases hstep with
            | timer hrunning henabled => exact ⟨rfl, hrunning, henabled⟩
          obtain ⟨rfl, hrunning, henabled⟩ := hcpu
          have hfunded := h.funded.goTo (atMost_yield h.funded.current)
          obtain ⟨m', phase', prepaid', hbalanced, hle⟩ := h.library hbracketed rank hlowers hstep
            hevent hfunded (h.host.timer h.reachable hrunning henabled)
          refine ⟨m', phase', _, prepaid', rounds, hbalanced, ?_⟩
          have hsum := sum_refs_update budget hmem
            (budget prog.cpu.executing + timerCost)
          simp only [worth, Nat.mul_add, ProgramEvent.isTimer, if_true]
          omega
  | loop hhost hstep =>
      obtain ⟨hpos, hbalanced⟩ := h.loop hhost hstep
      refine ⟨m, phase, _, prepaid, rounds - 1, hbalanced, ?_⟩
      rw [hhost] at hmem
      have hsum := sum_refs_update budget hmem callCost
      have hround : price * rounds = price * (rounds - 1) + price := by
        rw [← Nat.mul_succ, Nat.succ_eq_add_one, Nat.sub_add_cancel hpos]
      simp only [worth, Nat.mul_add, ProgramEvent.isTimer]
      simp only [Bool.false_eq_true, if_false]
      omega
  | @call i call next hcall haction =>
      obtain ⟨phase', budget', prepaid', hbalanced, hle⟩ := h.enter hcall
        (enter_reachable h.reachable hcall (N.call_legal haction))
        (h.related.call hbracketed h.exclusive h.reachable hcall haction)
        (.inl (hforward i _ call next haction))
      refine ⟨m, phase', budget', prepaid', rounds, hbalanced, ?_⟩
      simp only [worth, ProgramEvent.isTimer]
      simp only [Bool.false_eq_true, if_false]
      omega
  | @run i effect hcall haction =>
      obtain ⟨m', hstep, hbalanced⟩ := h.run hbracketed hcall haction
      refine ⟨m', phase, budget, prepaid, rounds, hbalanced, ?_⟩
      have hrank := hlowers m i m' h.monitor hstep
      have hpaid : price * rank m' + price ≤ price * rank m := by
        rw [← Nat.mul_succ]
        exact Nat.mul_le_mul_left _ hrank
      simp only [worth, Nat.mul_add, ProgramEvent.isTimer]
      simp only [Bool.false_eq_true, if_false]
      omega
  | @stop i hcall haction =>
      have hrelated := h.related.stop h.reachable hcall haction
      have hloc : Function.update prog.loc i (prog.loc i) = prog.loc := Function.update_eq_self ..
      have hreach : machine.system.Reachable boot (Threads.enter .exit prog.cpu) :=
        enter_reachable h.reachable hcall trivial
      have henter : Related N M (moveTo phase prog.cpu .exiting) { prog with
          cpu := Threads.enter .exit prog.cpu
          loc := Function.update prog.loc i (prog.loc i) } m := by
        rwa [hloc]
      obtain ⟨phase', budget', prepaid', hbalanced, hle⟩ :=
        h.enter hcall hreach henter (.inr trivial)
      rw [hloc] at hbalanced
      refine ⟨m, phase', budget', prepaid', rounds, hbalanced, ?_⟩
      simp only [worth, ProgramEvent.isTimer]
      simp only [Bool.false_eq_true, if_false]
      omega
  | main hcall =>
      obtain ⟨hmade, hbalanced⟩ := h.callMain hcall
      refine ⟨m, _, _, prepaid, rounds, hbalanced, ?_⟩
      rw [hcall.executing] at hmem
      have hsum := sum_refs_update budget hmem callCost
      have hcalls : price * (2 * total + 1 - prog.made) =
          price * (2 * total + 1 - (prog.made + 1)) + price := by
        rw [← Nat.mul_succ]
        congr 1
        omega
      simp only [worth, Nat.mul_add, ProgramEvent.isTimer]
      simp only [Bool.false_eq_true, if_false]
      omega

end Payments

/-! ## Whole runs -/

/-- The steps of a run without the timer: what the contexts have at first, the calls of
the main thread, the rounds of the host, and a call for each step of the monitor. -/
def runCost (total rank : ℕ) : ℕ :=
  (total + 2) * (4 + price) + price * (rank + (2 * total + 1) + 2)

section Runs

variable [DecidableEq ι] [DecidableEq κ] {trace : List ProgramEvent}

theorem exists_balanced_start
    (N : Numbering ι κ total) (shared : σ) (hbracketed : M.Bracketed inside)
    (hentry : ∀ i, inside i (entry i) = false) :
    ∃ phase, Balanced N M inside (Monitor.start shared entry) (programStart shared entry)
      (Monitor.start shared entry) phase (fun _ => 4) (fun _ => price) 2 := by
  have htracks : Tracks N M inside (programStart shared entry) (Monitor.start shared entry) :=
    tracks_start hbracketed hentry
  obtain ⟨phase, hrelated⟩ := htracks.related
  refine ⟨phase, .refl, .refl, htracks.exclusive, hrelated, funded_boot, hostRounds_boot,
    Nat.le_refl 2, fun _ _ => Nat.le_refl _, fun hmade => ?_, Nat.zero_le _⟩
  exact absurd hmade (Nat.not_lt_zero _)

theorem worth_start (total rank : ℕ) :
    worth total rank 0 (fun _ => 4) (fun _ => price) 2 = runCost total rank := by
  have hconst : ∀ n : ℕ, ∑ _ref ∈ refs total, n = (total + 2) * n := by
    intro n
    rw [← card_refs]
    exact Finset.sum_const_nat fun _ _ => rfl
  rw [worth, runCost, hconst, hconst, Nat.mul_add (total + 2), Nat.sub_zero]

/-- The program is in balance, and can pay for so many steps. -/
def Affords (N : Numbering ι κ total) (M : Monitor ι κ σ Loc) (inside : ∀ i, Loc i → Bool)
    (start : MonitorState ι κ σ Loc) (rank : MonitorState ι κ σ Loc → ℕ)
    (p : ProgramState ι σ Loc) (credit : ℕ) : Prop :=
  ∃ m phase budget prepaid rounds, Balanced N M inside start p m phase budget prepaid rounds ∧
    credit = worth total (rank m) p.made budget prepaid rounds

/-- The program is bounded when its monitor is, but for the interrupts of the timer. -/
theorem length_le_of_rank
    (hbracketed : M.Bracketed inside) (hentry : ∀ i, inside i (entry i) = false)
    (hforward : N.Forward M) (rank : MonitorState ι κ σ Loc → ℕ)
    (hlowers : ∀ m i m', M.system.Reachable (Monitor.start shared entry) m → M.Step m i m' →
      rank m' < rank m)
    (hrun : (program N M).Run (programStart shared entry) trace prog) :
    trace.length ≤ runCost total (rank (Monitor.start shared entry)) +
      (timerCost + 1) * trace.countP ProgramEvent.isTimer := by
  have hpays : ∀ p shown p' k,
      Affords N M inside (Monitor.start shared entry) rank p k → (program N M).Step p shown p' →
        ∃ k', Affords N M inside (Monitor.start shared entry) rank p' k' ∧
          k' + 1 ≤ k + if shown.isTimer then timerCost + 1 else 0 := by
    intro p shown p' k hcredit hstep
    obtain ⟨m, phase, budget, prepaid, rounds, hbalanced, rfl⟩ := hcredit
    obtain ⟨m', phase', budget', prepaid', rounds', hbalanced', hle⟩ :=
      hbalanced.step hbracketed hforward rank hlowers hstep
    exact ⟨_, ⟨m', phase', budget', prepaid', rounds', hbalanced', rfl⟩, hle⟩
  obtain ⟨phase, hbalanced⟩ := exists_balanced_start N shared hbracketed hentry
  have hworth := worth_start total (rank (Monitor.start shared entry))
  have hstart : Affords N M inside (Monitor.start shared entry) rank
      (programStart shared entry) (runCost total (rank (Monitor.start shared entry))) :=
    ⟨_, phase, _, _, _, hbalanced, hworth.symm⟩
  exact EventSystem.Run.length_le_of_credit hpays hstart hrun

/-- In every run, a program goes on until the processor is suspended.  Where the steps of
its monitor lower a rank, this takes a bounded number of steps, and a fixed number more
for each interrupt of the timer. -/
theorem goesOn_and_ends
    (hbracketed : M.Bracketed inside) (hentry : ∀ i, inside i (entry i) = false)
    (hrun : (program N M).Run (programStart shared entry) trace prog) :
    (prog.cpu.suspended = true ∨ OutOfMemory prog.cpu ∨ GoesOn N M prog) ∧
      ∀ rank : MonitorState ι κ σ Loc → ℕ, N.Forward M →
        (∀ m i m', M.system.Reachable (Monitor.start shared entry) m → M.Step m i m' →
          rank m' < rank m) →
        trace.length ≤ runCost total (rank (Monitor.start shared entry)) +
          (timerCost + 1) * trace.countP ProgramEvent.isTimer := by
  constructor
  · exact goesOn_of_reachable hbracketed hentry ⟨trace, hrun⟩
  · intro rank hforward hlowers
    exact length_le_of_rank hbracketed hentry hforward rank hlowers hrun

end Runs

end Threads
end Eecs482
