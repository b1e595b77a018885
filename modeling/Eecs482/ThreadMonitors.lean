import Eecs482.ThreadScripts

/-!
# The thread library is a monitor

A program on the thread library runs as its monitor does: what the library does to
the mutex and the condition variables, at any schedule and with the timer at any
point, is a step of the monitor or nothing.  The steps are taken where the library
notes them, and by the thread that gets the mutex when it is handed over.
-/

namespace Eecs482
namespace Threads

open Uniprocessor

variable {ι κ σ : Type} {Loc : ι → Type} {total : ℕ}

/-! ## The states of the two -/

/-- The thread of the monitor that goes with a phase, for a thread that goes on at
`loc` after its call. -/
def Stage (M : Monitor ι κ σ Loc) (i : ι) (loc : Loc i) (holds : Prop) (inCv : κ → Prop)
    (thread : MonitorThread κ (Loc i)) : Phase κ → Prop
  | .idle => thread = .running loc
  | .locking => ¬holds ∧ ∃ prev, M.action i prev = .lock loc ∧ thread = .running prev
  | .queued => holds ∧ thread = .running loc ∨
      ¬holds ∧ ∃ prev, M.action i prev = .lock loc ∧ thread = .running prev
  | .unlocking => ∃ prev, M.action i prev = .unlock loc ∧ thread = .running prev
  | .waiting cv => ∃ prev, M.action i prev = .wait cv loc ∧ thread = .running prev
  | .entering cv => inCv cv ∧ ∃ prev, M.action i prev = .wait cv loc ∧ thread = .running prev
  | .waited cv => ¬holds ∧
      (inCv cv ∧ thread = .asleep cv loc ∨ ¬inCv cv ∧ thread = .woken loc)
  | .requeued => holds ∧ thread = .running loc ∨ ¬holds ∧ thread = .woken loc
  | .signalling cv => ∃ prev, M.action i prev = .signal cv loc ∧ thread = .running prev
  | .broadcasting cv => ∃ prev, M.action i prev = .broadcast cv loc ∧ thread = .running prev
  | .exiting => M.action i loc = .stop ∧ thread = .running loc
  | .finished => M.action i loc = .stop ∧ thread = .running loc
  | _ => False

/-- The monitor is where the program is. -/
structure Matches (N : Numbering ι κ total) (M : Monitor ι κ σ Loc)
    (phase : ContextRef → Phase κ) (loc : ∀ i, Loc i) (s : State)
    (m : MonitorState ι κ σ Loc) : Prop where
  owner_iff : ∀ i, m.owner = some i ↔ Holds (N.thread i) N.mutex s.log
  stage : ∀ i, Stage M i (loc i) (Holds (N.thread i) N.mutex s.log)
    (fun cv => N.thread i ∈ s.queues (.cvQueue (N.cv cv))) (m.thread i)
    (phase (.thread (N.thread i)))

variable {N : Numbering ι κ total} {M : Monitor ι κ σ Loc} {phase phase' : ContextRef → Phase κ}
  {loc : ∀ i, Loc i} {s s' : State} {m : MonitorState ι κ σ Loc} {made : ℕ} {i : ι}

/-! ## Threads of the monitor that stay where they are -/

theorem Matches.congr
    (h : Matches N M phase loc s m)
    (hphase : ∀ i, phase' (.thread (N.thread i)) = phase (.thread (N.thread i)))
    (hholds : ∀ i, Holds (N.thread i) N.mutex s'.log ↔ Holds (N.thread i) N.mutex s.log)
    (hcv : ∀ i cv, N.thread i ∈ s'.queues (.cvQueue (N.cv cv)) ↔
      N.thread i ∈ s.queues (.cvQueue (N.cv cv))) : Matches N M phase' loc s' m := by
  constructor
  case owner_iff => exact fun i => (h.owner_iff i).trans (hholds i).symm
  case stage =>
      intro i
      simp only [hphase, hholds, hcv]
      exact h.stage i

theorem Matches.unseen (h : Matches N M phase loc s m) (hunseen : Unseen s s') :
    Matches N M phase loc s' m := by
  obtain ⟨events, hbesides, hmoves⟩ := hunseen
  apply h.congr fun _ => rfl
  · intro i
    rw [hbesides.log, holds_moves hmoves]
  · intro i cv
    rw [hbesides.cvQueue _ nofun]

/-- Nobody holds the mutex. -/
theorem Matches.owner_none
    (h : Matches N M phase loc s m) (hnobody : ∀ u, ¬Holds u N.mutex s.log) :
    m.owner = none := by
  cases howner : m.owner with
  | none => rfl
  | some j => exact absurd ((h.owner_iff j).mp howner) (hnobody _)

/-- A sleeping thread has called `wait`, and is in the queue. -/
theorem Stage.asleep
    {l l' : Loc i} {holds : Prop} {inCv : κ → Prop} {cv : κ} {p : Phase κ}
    (h : Stage M i l holds inCv (.asleep cv l') p) : inCv cv := by
  cases p with
  | waited cv' =>
      obtain ⟨_, ⟨hin, hasleep⟩ | ⟨_, hwoken⟩⟩ := h
      · cases hasleep
        exact hin
      · cases hwoken
  | _ => simp [Stage] at h

/-! ## One thread of the monitor moves -/

/-- Of the others nothing changes. -/
structure Alone (N : Numbering ι κ total) (i : ι) (phase phase' : ContextRef → Phase κ)
    (s s' : State) : Prop where
  phase_eq : ∀ j, j ≠ i →
    phase' (.thread (N.thread j)) = phase (.thread (N.thread j))
  holds_iff : ∀ j, j ≠ i →
    (Holds (N.thread j) N.mutex s'.log ↔ Holds (N.thread j) N.mutex s.log)
  cv_iff : ∀ j, j ≠ i → ∀ cv, (N.thread j ∈ s'.queues (.cvQueue (N.cv cv)) ↔
    N.thread j ∈ s.queues (.cvQueue (N.cv cv)))

/-- The next step of the thread is to take the mutex. -/
def Acquires (M : Monitor ι κ σ Loc) (i : ι) (l : Loc i)
    (thread : MonitorThread κ (Loc i)) : Prop :=
  thread = .woken l ∨ ∃ prev, M.action i prev = .lock l ∧ thread = .running prev

/-- The thread waits for the mutex, or has been handed it. -/
def Phase.Wants (phase : Phase κ) : Prop :=
  phase = .locking ∨ phase = .queued ∨ phase = .requeued ∨ ∃ cv, phase = .waited cv

theorem Stage.wants
    {next : Loc i} {holds : Prop} {inCv : κ → Prop} {thread : MonitorThread κ (Loc i)}
    {p : Phase κ} (h : Stage M i next holds inCv thread p) (hwants : p.Wants)
    (hout : ∀ cv, ¬inCv cv) :
    holds ∧ thread = .running next ∨ ¬holds ∧ Acquires M i next thread := by
  rcases hwants with rfl | rfl | rfl | ⟨cv, rfl⟩
  · exact .inr ⟨h.1, .inr h.2⟩
  · rcases h with hheld | ⟨hnot, hprev⟩
    · exact .inl hheld
    · exact .inr ⟨hnot, .inr hprev⟩
  · rcases h with hheld | ⟨hnot, hwoken⟩
    · exact .inl hheld
    · exact .inr ⟨hnot, .inl hwoken⟩
  · obtain ⟨hnot, ⟨hin, _⟩ | ⟨_, hwoken⟩⟩ := h
    · exact absurd hin (hout cv)
    · exact .inr ⟨hnot, .inl hwoken⟩

/-- The thread after a broadcast. -/
theorem Stage.wake
    [DecidableEq κ] {l : Loc i} {holds : Prop} {inCv inCv' : κ → Prop} {cv : κ} {p : Phase κ}
    {thread : MonitorThread κ (Loc i)} (h : Stage M i l holds inCv thread p)
    (hcalm : p.Calm) (hempty : ¬inCv' cv) (hcv : ∀ cv', cv' ≠ cv → (inCv' cv' ↔ inCv cv')) :
    Stage M i l holds inCv' (thread.wake cv) p := by
  cases p with
  | waited cv' =>
      obtain ⟨hnot, ⟨hin, rfl⟩ | ⟨hout, rfl⟩⟩ := h
      · refine ⟨hnot, ?_⟩
        by_cases hsame : cv' = cv
        · subst hsame
          rw [MonitorThread.wake, if_pos rfl]
          exact .inr ⟨hempty, rfl⟩
        · rw [MonitorThread.wake, if_neg hsame]
          exact .inl ⟨(hcv cv' hsame).mpr hin, rfl⟩
      · refine ⟨hnot, .inr ⟨fun hin => ?_, rfl⟩⟩
        by_cases hsame : cv' = cv
        · subst hsame
          exact hempty hin
        · exact hout ((hcv cv' hsame).mp hin)
  | entering cv' => exact absurd rfl (hcalm cv')
  | _ => cases thread <;> simp_all [Stage, MonitorThread.wake]

/-- All threads leave the queue of the condition variable. -/
theorem Matches.wakeAll
    [DecidableEq κ] (h : Matches N M phase loc s m) {cv : κ}
    (hcalm : ∀ i, (phase (.thread (N.thread i))).Calm)
    (hholds : ∀ i, Holds (N.thread i) N.mutex s'.log ↔ Holds (N.thread i) N.mutex s.log)
    (hempty : s'.queues (.cvQueue (N.cv cv)) = [])
    (hcv : ∀ cv', cv' ≠ cv →
      s'.queues (.cvQueue (N.cv cv')) = s.queues (.cvQueue (N.cv cv'))) :
    Matches N M phase loc s' { m with thread := fun i => (m.thread i).wake cv } := by
  constructor
  case owner_iff => exact fun i => (h.owner_iff i).trans (hholds i).symm
  case stage =>
      intro i
      simp only [hholds]
      apply (h.stage i).wake (hcalm i)
      · rw [hempty]
        exact List.not_mem_nil
      · intro cv' hne
        rw [hcv cv' hne]

section Moves

variable [DecidableEq ι]

theorem Matches.move
    (h : Matches N M phase loc s m) (halone : Alone N i phase phase' s s') {l : Loc i}
    {shared : σ} {owner : Option ι} {thread : MonitorThread κ (Loc i)}
    (howner : ∀ j, owner = some j ↔ Holds (N.thread j) N.mutex s'.log)
    (hstage : Stage M i l (Holds (N.thread i) N.mutex s'.log)
      (fun cv => N.thread i ∈ s'.queues (.cvQueue (N.cv cv))) thread
      (phase' (.thread (N.thread i)))) :
    Matches N M phase' (Function.update loc i l) s'
      ⟨shared, owner, Function.update m.thread i thread⟩ := by
  constructor
  case owner_iff => exact howner
  case stage =>
      intro j
      by_cases hj : j = i
      · subst hj
        rw [Function.update_self]
        change Stage _ _ _ _ _ (Function.update m.thread j thread j) _
        rw [Function.update_self]
        exact hstage
      · rw [Function.update_of_ne hj]
        change Stage _ _ _ _ _ (Function.update m.thread i thread j) _
        rw [Function.update_of_ne hj, halone.phase_eq j hj]
        simp only [halone.holds_iff j hj, halone.cv_iff j hj]
        exact h.stage j

/-- The thread goes on, and will be where it would have been after its call. -/
theorem Matches.call
    (h : Matches N M phase loc s m) (halone : Alone N i phase phase' s s')
    {shared : σ} {owner : Option ι} {thread : MonitorThread κ (Loc i)}
    (howner : ∀ j, owner = some j ↔ Holds (N.thread j) N.mutex s'.log)
    (hstage : Stage M i (loc i) (Holds (N.thread i) N.mutex s'.log)
      (fun cv => N.thread i ∈ s'.queues (.cvQueue (N.cv cv))) thread
      (phase' (.thread (N.thread i)))) :
    Matches N M phase' loc s' ⟨shared, owner, Function.update m.thread i thread⟩ := by
  have hmove : Matches N M phase' (Function.update loc i (loc i)) s'
      ⟨shared, owner, Function.update m.thread i thread⟩ := h.move halone howner hstage
  rwa [Function.update_eq_self] at hmove

/-- The thread is at another phase, and where it was. -/
theorem Matches.advance
    (h : Matches N M phase loc s m) (halone : Alone N i phase phase' s s')
    (hholds : Holds (N.thread i) N.mutex s'.log ↔ Holds (N.thread i) N.mutex s.log)
    (hstage : Stage M i (loc i) (Holds (N.thread i) N.mutex s'.log)
      (fun cv => N.thread i ∈ s'.queues (.cvQueue (N.cv cv))) (m.thread i)
      (phase' (.thread (N.thread i)))) :
    Matches N M phase' loc s' m := by
  have howner : ∀ j, m.owner = some j ↔ Holds (N.thread j) N.mutex s'.log := by
    intro j
    by_cases hj : j = i
    · subst hj
      exact (h.owner_iff j).trans hholds.symm
    · exact (h.owner_iff j).trans (halone.holds_iff j hj).symm
  have hcall : Matches N M phase' loc s'
      ⟨m.shared, m.owner, Function.update m.thread i (m.thread i)⟩ :=
    h.call halone howner hstage
  rwa [Function.update_eq_self] at hcall

/-- A thread leaves the queue of the condition variable. -/
theorem Matches.woken
    (h : Matches N M phase loc s m) {cv : κ}
    (hphase : phase (.thread (N.thread i)) = .waited cv)
    (hin : N.thread i ∈ s.queues (.cvQueue (N.cv cv)))
    (hholds : ∀ j, Holds (N.thread j) N.mutex s'.log ↔ Holds (N.thread j) N.mutex s.log)
    (hself : N.thread i ∉ s'.queues (.cvQueue (N.cv cv)))
    (hcv : ∀ j, j ≠ i → ∀ cv, (N.thread j ∈ s'.queues (.cvQueue (N.cv cv)) ↔
      N.thread j ∈ s.queues (.cvQueue (N.cv cv)))) :
    m.thread i = .asleep cv (loc i) ∧
      Matches N M phase loc s' { m with
        thread := Function.update m.thread i (.woken (loc i)) } := by
  have hstage := h.stage i
  rw [hphase] at hstage
  obtain ⟨hnot, ⟨_, hasleep⟩ | ⟨hout, _⟩⟩ := hstage
  · refine ⟨hasleep, h.call ⟨fun _ _ => rfl, fun j _ => hholds j, hcv⟩ ?_ ?_⟩
    · exact fun j => (h.owner_iff j).trans (hholds j).symm
    · rw [hphase]
      exact ⟨fun hheld => hnot ((hholds i).mp hheld), .inr ⟨hself, rfl⟩⟩
  · exact absurd hin hout

variable [DecidableEq κ]

/-- The monitor takes one step or none, and is where the program is then. -/
def Tracked (N : Numbering ι κ total) (M : Monitor ι κ σ Loc)
    (phase : ContextRef → Phase κ) (loc : ∀ i, Loc i) (s : State)
    (m : MonitorState ι κ σ Loc) : Prop :=
  ∃ m', (m' = m ∨ ∃ i, M.Step m i m') ∧ m'.shared = m.shared ∧
    Matches N M phase loc s m'

theorem Matches.tracked (h : Matches N M phase loc s m) : Tracked N M phase loc s m :=
  ⟨m, .inl rfl, rfl, h⟩

theorem acquire_step
    {next : Loc i} (hfree : m.owner = none) (hthread : Acquires M i next (m.thread i)) :
    M.Step m i { m with
      owner := some i
      thread := Function.update m.thread i (.running next) } := by
  rcases hthread with hwoken | ⟨prev, haction, hrunning⟩
  · exact .wake hwoken hfree
  · exact .lock hrunning haction hfree

/-- A thread gets the free mutex. -/
theorem Matches.acquire
    (h : Matches N M phase loc s m) (hnobody : ∀ u, ¬Holds u N.mutex s.log)
    (hheld : ∀ u, Holds u N.mutex s'.log ↔ u = N.thread i)
    (hphase : ∀ j, j ≠ i → phase' (.thread (N.thread j)) = phase (.thread (N.thread j)))
    (hcv : ∀ cv, s'.queues (.cvQueue (N.cv cv)) = s.queues (.cvQueue (N.cv cv)))
    (hacquires : Acquires M i (loc i) (m.thread i))
    (hstage : Stage M i (loc i) True
      (fun cv => N.thread i ∈ s'.queues (.cvQueue (N.cv cv))) (.running (loc i))
      (phase' (.thread (N.thread i)))) :
    Tracked N M phase' loc s' m := by
  have halone : Alone N i phase phase' s s' := by
    constructor
    case phase_eq => exact hphase
    case holds_iff =>
        intro j hj
        rw [hheld]
        exact iff_of_false (fun heq => hj (N.thread_injective heq)) (hnobody _)
    case cv_iff =>
        intro j _ cv
        rw [hcv]
  refine ⟨_, .inr ⟨i, acquire_step (h.owner_none hnobody) hacquires⟩, rfl, ?_⟩
  apply h.call halone
  · intro j
    rw [hheld, Option.some.injEq, N.thread_injective.eq_iff, eq_comm]
  · rw [show Holds (N.thread i) N.mutex s'.log ↔ True from iff_true_intro ((hheld _).mpr rfl)]
    exact hstage

end Moves

end Threads
end Eecs482
