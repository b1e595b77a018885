import Eecs482.ThreadAgreement

/-!
# What a statement does to the monitor

Each statement of a thread, by its phase: the program and the monitor agree again, and
the monitor has taken at most one step.  The owner of the mutex comes from the monitor,
whose code keeps to the order of `lock` and `unlock`.
-/

namespace Eecs482
namespace Threads

variable {ι κ σ : Type} {Loc : ι → Type} {total : ℕ} {N : Numbering ι κ total}
  {M : Monitor ι κ σ Loc} {phase : ContextRef → Phase κ} {loc : ∀ i, Loc i}
  {s s' : State} {m : MonitorState ι κ σ Loc} {made u : ℕ} {i : ι} {p : Phase κ}
  {q : Queue} {op : ThreadOp} {self : ContextRef}

theorem Sees.quiet
    {code : ThreadCode Outcome} {answer : threadInterface.Answer op}
    (h : Sees N M phase made loc s m) (hunseen : Unseen s s') (hhands : HandsOver s op)
    (hwhere : CalledWhere self code s op) (hexec : (answer, s') ∈ State.exec op s) :
    Sees N M phase made loc s' m := by
  have hnodup := h.seen.nodup (.mutexQueue N.mutex) (by simp)
  constructor
  case seen => exact h.seen.unseen hunseen
  case started =>
      obtain ⟨_, hbesides, _⟩ := hunseen
      rw [hbesides.created]
      exact h.started
  case handing => exact h.handing.unseen hnodup hunseen hhands hwhere hexec
  case stages => exact h.stages.unseen hunseen

/-! ## The host and the main thread -/

theorem Sees.boot
    (h : Sees N M phase made loc s m) (hphase : phase .host = .booting)
    (hqueues : s'.queues = s.queues) (hlog : s'.log = s.log)
    (hcreated : s'.created = s.created + 1) :
    Sees N M (Function.update phase .host .hosting) made loc s' m := by
  have hstarted := h.started
  rw [hphase] at hstarted
  have hthread : ∀ t, Function.update phase .host .hosting (.thread t) = phase (.thread t) :=
    fun t => Function.update_of_ne (by simp) _ _
  constructor
  case seen =>
      constructor
      case placed =>
          intro q u hq hmem
          rw [hqueues] at hmem
          rw [Belongs, hthread]
          exact h.seen.placed q u hq hmem
      case nodup =>
          rw [hqueues]
          exact h.seen.nodup
      case holder =>
          rw [hlog]
          exact h.seen.holder
      case finished =>
          intro t
          rw [hlog, hthread]
          exact h.seen.finished t
  case started =>
      rw [hcreated, Function.update_self, hthread]
      exact hstarted.boot
  case handing =>
      rw [Handing, hlog, hqueues]
      exact h.handing
  case stages =>
      apply h.stages.congr fun i => hthread _
      · intro i
        rw [hlog]
      · intro i cv
        rw [hqueues]

theorem Sees.create
    (h : Sees N M phase made loc s m) (hphase : phase (.thread 0) = .creating)
    (hqueues : s'.queues = s.queues) (hlog : s'.log = s.log)
    (hcreated : s'.created = s.created + 1) :
    Sees N M (Function.update phase (.thread 0) .idle) made loc s' m := by
  have hstarted := h.started
  rw [hphase] at hstarted
  have hsublist : ∀ r, r ≠ .ready → (s'.queues r).Sublist (s.queues r) := by
    intro r _
    rw [hqueues]
  constructor
  case seen =>
      exact h.seen.shorten hsublist (hlog.trans (List.nil_append _).symm) (by simp)
        (fun r hr hmem => h.seen.main hr hmem) (by simp [hphase]) (by simp)
  case started =>
      rw [hcreated, Function.update_self, update_host]
      exact hstarted.create
  case handing =>
      rw [Handing, hlog, hqueues]
      exact h.handing
  case stages =>
      apply h.stages.congr fun i => update_main
      · intro i
        rw [hlog]
      · intro i cv
        rw [hqueues]

theorem mainPhase_ne_finished : (mainPhase total made : Phase κ) ≠ .finished := by
  unfold mainPhase
  split
  · simp
  · split <;> simp

theorem Sees.callMain
    (h : Sees N M phase made loc s m) (hhost : phase .host = .hosting)
    (hmain : phase (.thread 0) = .idle ∨ ∃ t, phase (.thread 0) = .joining t) :
    Sees N M (Function.update phase (.thread 0) (mainPhase total made)) (made + 1) loc s m := by
  have hlive : phase (.thread 0) ≠ .finished := by
    rcases hmain with hphase | ⟨t, hphase⟩ <;> simp [hphase]
  constructor
  case seen =>
      exact (h.seen.shorten (fun r _ => .refl _) (List.nil_append _).symm (by simp)
        (fun r hr hmem => h.seen.main hr hmem) hlive mainPhase_ne_finished).succ
  case started =>
      rw [update_host, Function.update_self]
      exact (h.started.call hhost hmain).2
  case handing => exact h.handing
  case stages =>
      exact h.stages.congr (fun _ => update_main) (fun _ => Iff.rfl) fun _ _ => Iff.rfl

theorem Sees.join
    {v : ℕ} (h : Sees N M phase made loc s m) (hclean : Clean s)
    (hphase : phase (.thread 0) = .joining v) (hout : ∀ r, 0 ∉ s.queues r) :
    Sees N M (Function.update phase (.thread 0) .idle) made loc
      (s.pushed 0 (.joinQueue v)) m := by
  have hstarted := h.started
  rw [hphase] at hstarted
  obtain ⟨hidle, hpos, hmade⟩ := hstarted.join
  have hqueues : ∀ r, (∀ v, r ≠ .joinQueue v) →
      (s.pushed 0 (.joinQueue v)).queues r = s.queues r := by
    intro r hr
    rw [pushed_queues, if_neg (hr v)]
  constructor
  case seen =>
      exact h.seen.push hout (.inr ⟨rfl, ⟨v, rfl, hpos⟩, hmade⟩) (by simp [hphase]) (by simp)
  case started =>
      rw [Function.update_self, update_host]
      exact hidle
  case handing =>
      refine Apart.handing fun u hheld => ?_
      rw [hqueues _ (by simp)]
      exact h.handing.apart hclean u hheld
  case stages =>
      have hholds : ∀ u, Holds u N.mutex (s.pushed 0 (.joinQueue v)).log ↔
          Holds u N.mutex s.log := fun u => Iff.rfl
      apply h.stages.congr (fun i => update_main) fun i => hholds _
      intro i cv
      rw [hqueues _ (by simp)]

theorem Sees.finishMain
    (h : Sees N M phase made loc s m) (hclean : Clean s)
    (hphase : phase (.thread 0) = .exiting) (hnoted : Noted (.finished 0) s s') :
    Sees N M (Function.update phase (.thread 0) .finished) made loc s' m := by
  have hstarted := h.started
  rw [hphase] at hstarted
  have hholds : ∀ u, Holds u N.mutex s'.log ↔ Holds u N.mutex s.log := by
    intro u
    rw [hnoted.log]
    rfl
  constructor
  case seen =>
      apply h.seen.note hnoted
      case hplaced => exact fun r hr hmem => h.seen.main hr hmem
      case hholder => exact fun u hu => .inl ((hholds u).mp hu)
      case hrest =>
          intro u hu heq
          exact hu (Event.finished.inj heq).symm
      case hself =>
          rw [hnoted.log]
          exact iff_of_true List.mem_cons_self rfl
  case started =>
      rw [hnoted.created, Function.update_self, update_host]
      exact hstarted.finish
  case handing =>
      refine Apart.handing fun u hu => ?_
      rw [hnoted.queues]
      exact h.handing.apart hclean u ((hholds u).mp hu)
  case stages =>
      apply h.stages.congr (fun i => update_main) fun i => hholds _
      intro i cv
      rw [hnoted.queues]

/-- A thread in the queue of a condition variable waits for a signal. -/
theorem Sees.waiter
    {cv : κ} (h : Sees N M phase made loc s m)
    (hcalm : ∀ ref, ref ≠ .thread (N.thread i) → (phase ref).Calm)
    (hfits : ∀ q, ¬(phase (.thread (N.thread i))).Fits N q)
    (hmem : u ∈ s.queues (.cvQueue (N.cv cv))) :
    ∃ j, N.thread j = u ∧ phase (.thread (N.thread j)) = .waited cv := by
  have hnot := h.out hfits (.cvQueue (N.cv cv)) (by simp)
  obtain ⟨⟨j, rfl⟩, hfit⟩ | ⟨_, ⟨v, hjoin, _⟩, _⟩ := h.seen.placed _ u (by simp) hmem
  case inr => cases hjoin
  refine ⟨j, rfl, ?_⟩
  rcases hfit with ⟨hmutex, _⟩ | ⟨cv', hcv, hphase⟩
  · cases hmutex
  · obtain rfl := N.cv_injective (Queue.cvQueue.inj hcv)
    rcases hphase with hwaited | hentering
    · exact hwaited
    · refine absurd hentering (hcalm _ (fun heq => ?_) cv)
      rw [ContextRef.thread.inj heq] at hmem
      exact hnot hmem

section Calls

variable [DecidableEq ι]

/-! ## Joining a queue -/

theorem Sees.push
    (h : Sees N M phase made loc s m) (hclean : Clean s)
    (hout : ∀ r, N.thread i ∉ s.queues r) (hfits : p.Fits N q)
    (hmutex : q = .mutexQueue N.mutex → ¬Holds (N.thread i) N.mutex s.log)
    (hlive : phase (.thread (N.thread i)) ≠ .finished) (hp : p ≠ .finished)
    (hstage : Stage M i (loc i) (Holds (N.thread i) N.mutex s.log)
      (fun cv => q = .cvQueue (N.cv cv)) (m.thread i) p) :
    Sees N M (Function.update phase (.thread (N.thread i)) p) made loc
      (s.pushed (N.thread i) q) m := by
  have hbelongs : Belongs N (Function.update phase (.thread (N.thread i)) p) made
      (N.thread i) q := by
    refine .inl ⟨⟨i, rfl⟩, ?_⟩
    rw [Function.update_self]
    exact hfits
  constructor
  case seen => exact h.seen.push hout hbelongs hlive hp
  case started => exact h.started.client i
  case handing =>
      refine Apart.handing fun u hheld hmem => ?_
      change Holds u N.mutex s.log at hheld
      have hapart := h.handing.apart hclean u hheld
      rw [pushed_queues] at hmem
      split at hmem
      case isTrue heq =>
          rw [← heq] at hmem
          rcases List.mem_append.mp hmem with hold | hnew
          · exact hapart hold
          · rw [List.mem_singleton.mp hnew] at hheld
            exact hmutex heq.symm hheld
      case isFalse => exact hapart hmem
  case stages =>
      have hcv : ∀ j cv, N.thread j ∈ (s.pushed (N.thread i) q).queues (.cvQueue (N.cv cv)) ↔
          N.thread j ∈ s.queues (.cvQueue (N.cv cv)) ∨ j = i ∧ q = .cvQueue (N.cv cv) := by
        intro j cv
        rw [pushed_queues]
        split
        case isTrue heq =>
            rw [← heq, List.mem_append, List.mem_singleton, N.thread_injective.eq_iff]
            simp
        case isFalse hne => simp [Ne.symm hne]
      refine h.stages.advance (i := i) ⟨fun _ => update_client, fun _ _ => Iff.rfl, ?_⟩
        Iff.rfl ?_
      · intro j hj cv
        rw [hcv]
        simp [hj]
      · have hself : ∀ cv, N.thread i ∈ (s.pushed (N.thread i) q).queues (.cvQueue (N.cv cv)) ↔
            q = .cvQueue (N.cv cv) := by
          intro cv
          rw [hcv, or_iff_right (hout _), and_iff_right rfl]
        rw [Function.update_self]
        simp only [hself]
        exact hstage

/-! ## The end of a thread -/

theorem Sees.finish
    (h : Sees N M phase made loc s m) (hclean : Clean s)
    (hphase : phase (.thread (N.thread i)) = .exiting)
    (hnoted : Noted (.finished (N.thread i)) s s') :
    Sees N M (Function.update phase (.thread (N.thread i)) .finished) made loc s' m := by
  have hfits : ∀ q, ¬(phase (.thread (N.thread i))).Fits N q := by
    simp [hphase, Phase.Fits]
  have hholds : ∀ u, Holds u N.mutex s'.log ↔ Holds u N.mutex s.log := by
    intro u
    rw [hnoted.log]
    rfl
  constructor
  case seen =>
      apply h.seen.note hnoted
      case hplaced => exact fun r hr hmem => absurd hmem (h.out hfits r hr)
      case hholder => exact fun u hu => .inl ((hholds u).mp hu)
      case hrest =>
          intro u hu heq
          exact hu (Event.finished.inj heq).symm
      case hself =>
          rw [hnoted.log]
          exact iff_of_true List.mem_cons_self rfl
  case started =>
      rw [hnoted.created]
      exact h.started.client i
  case handing =>
      refine Apart.handing fun u hu => ?_
      rw [hnoted.queues]
      exact h.handing.apart hclean u ((hholds u).mp hu)
  case stages =>
      have hstage := h.stages.stage i
      rw [hphase] at hstage
      apply h.stages.advance ⟨fun _ => update_client, fun _ _ => hholds _, _⟩ (hholds _)
      · rw [Function.update_self]
        exact hstage
      · intro j _ cv
        rw [hnoted.queues]

/-- A thread gives up the mutex. -/
theorem Sees.releases
    {event : Event} {thread : MonitorThread κ (Loc i)}
    (h : Sees N M phase made loc s m) (hclean : Clean s)
    (hevent : Releases (N.thread i) N.mutex event) (hnoted : Noted event s s')
    (howner : m.owner = some i) (hlive : phase (.thread (N.thread i)) ≠ .finished)
    (hp : p ≠ .finished)
    (hplaced : ∀ r, r ≠ .ready → N.thread i ∈ s.queues r → p.Fits N r)
    (hstage : Stage M i (loc i) False
      (fun cv => N.thread i ∈ s.queues (.cvQueue (N.cv cv))) thread p) :
    Sees N M (Function.update phase (.thread (N.thread i)) p) made loc s'
      { m with owner := none, thread := Function.update m.thread i thread } := by
  have hlog : ∀ u, Holds u N.mutex s'.log ↔ u ≠ N.thread i ∧ Holds u N.mutex s.log := by
    intro u
    rw [hnoted.log, hevent.holds, and_iff_left rfl, ne_eq, eq_comm]
  constructor
  case seen =>
      apply h.seen.note hnoted
      case hplaced =>
          intro r hr hmem
          refine .inl ⟨⟨i, rfl⟩, ?_⟩
          rw [Function.update_self]
          exact hplaced r hr hmem
      case hholder => exact fun u hu => .inl ((hlog u).mp hu).2
      case hrest => exact fun u _ => (hevent.ne_finished u).symm
      case hself =>
          exact h.seen.live (hnoted.finished_iff (hevent.ne_finished _)) hlive hp
  case started =>
      rw [hnoted.created]
      exact h.started.client i
  case handing =>
      refine Apart.handing fun u hu => ?_
      rw [hnoted.queues]
      exact h.handing.apart hclean u ((hlog u).mp hu).2
  case stages =>
      have halone : Alone N i phase (Function.update phase (.thread (N.thread i)) p) s s' := by
        constructor
        case phase_eq => exact fun _ => update_client
        case holds_iff =>
            intro j hj
            rw [hlog, and_iff_right fun heq => hj (N.thread_injective heq)]
        case cv_iff =>
            intro j _ cv
            rw [hnoted.queues]
      apply h.stages.call halone
      · intro j
        rw [hlog, ← h.stages.owner_iff, howner, Option.some.injEq, N.thread_injective.ne_iff]
        exact iff_of_false nofun fun hboth => hboth.1 hboth.2.symm
      · have hgone : Holds (N.thread i) N.mutex s'.log ↔ False := by
          rw [hlog]
          exact iff_of_false (fun hboth => hboth.1 rfl) id
        rw [Function.update_self]
        simp only [hgone, hnoted.queues]
        exact hstage

variable [DecidableEq κ]

/-! ## The mutex changes hands -/

/-- The first thread in the queue of the mutex gets it. -/
theorem Sees.hands
    {answer : Unit} (h : Sees N M phase made loc s m)
    (hnobody : ∀ u, ¬Holds u N.mutex s.log)
    (hexec : (answer, s') ∈ State.exec (.occupyFront N.mutex) s) :
    Reached N M phase made loc s' m := by
  obtain ⟨n, rest, hqueue, hqueues, hcreated, hlog⟩ := mem_exec_occupyFront hexec
  have hmem : n ∈ s.queues (.mutexQueue N.mutex) := by
    rw [hqueue]
    exact List.mem_cons_self
  have hheld : ∀ u, Holds u N.mutex s'.log ↔ u = n := by
    intro u
    rw [hlog]
    change (n = u ∧ N.mutex = N.mutex) ∨ Holds u N.mutex s.log ↔ u = n
    rw [or_iff_left (hnobody u), and_iff_left rfl, eq_comm]
  obtain ⟨⟨i, rfl⟩, hfits⟩ | ⟨_, ⟨v, hjoin, _⟩, _⟩ := h.seen.placed _ n (by simp) hmem
  case inr => cases hjoin
  have hwaits : phase (.thread (N.thread i)) = .queued ∨
      phase (.thread (N.thread i)) = .requeued := by
    rcases hfits with ⟨_, hphase⟩ | ⟨cv, hcv, _⟩
    · exact hphase
    · cases hcv
  apply Tracked.reached
  · have hstage := h.stages.stage i
    have hacquires : Acquires M i (loc i) (m.thread i) := by
      rcases hwaits with hphase | hphase
      · rw [hphase] at hstage
        rcases hstage with ⟨hholds, _⟩ | ⟨_, hprev⟩
        · exact absurd hholds (hnobody _)
        · exact .inr hprev
      · rw [hphase] at hstage
        rcases hstage with ⟨hholds, _⟩ | ⟨_, hwoken⟩
        · exact absurd hholds (hnobody _)
        · exact .inl hwoken
    apply h.stages.acquire hnobody hheld (fun _ _ => rfl) _ hacquires
    · rcases hwaits with hphase | hphase <;> rw [hphase] <;> exact .inl ⟨trivial, rfl⟩
    · intro cv
      rw [hqueues]
  · constructor
    case placed =>
        rw [hqueues]
        exact h.seen.placed
    case nodup =>
        rw [hqueues]
        exact h.seen.nodup
    case holder => exact fun u hu => ⟨i, ((hheld u).mp hu).symm⟩
    case finished =>
        intro t
        rw [hlog, List.mem_cons, or_iff_right (by simp)]
        exact h.seen.finished t
  · rw [hcreated]
    exact h.started
  · intro u hu _
    rw [(hheld u).mp hu]
    exact ⟨_, hlog⟩

theorem Sees.returned
    {code : ThreadCode Outcome} (h : Sees N M phase made loc s m) (hclean : Clean s)
    (hwants : (phase (.thread (N.thread i))).Wants)
    (hnotes : Notes (N.thread i) code s (.returned (N.thread i) N.mutex))
    (hnoted : Noted (.returned (N.thread i) N.mutex) s s') :
    Reached N M (Function.update phase (.thread (N.thread i)) .idle) made loc s' m := by
  obtain ⟨hholds, hout⟩ : (Holds (N.thread i) N.mutex s.log ∨
      (∀ u, ¬Holds u N.mutex s.log) ∧ s.queues (.mutexQueue N.mutex) = []) ∧
      ∀ q, N.thread i ∉ s.queues q := by
    cases hnotes with
    | returned hholds _ hout _ => exact ⟨hholds, hout⟩
  have hlog : ∀ u, Holds u N.mutex s'.log ↔ u = N.thread i ∨ Holds u N.mutex s.log := by
    intro u
    rw [hnoted.log]
    change (N.thread i = u ∧ N.mutex = N.mutex) ∨ _ ↔ _
    rw [and_iff_left rfl, eq_comm]
  have hcv : ∀ cv, s'.queues (.cvQueue (N.cv cv)) = s.queues (.cvQueue (N.cv cv)) := by
    intro cv
    rw [hnoted.queues]
  have hlive : phase (.thread (N.thread i)) ≠ .finished := by
    rcases hwants with hphase | hphase | hphase | ⟨cv, hphase⟩ <;> rw [hphase] <;> simp
  apply Tracked.reached
  · rcases (h.stages.stage i).wants hwants fun cv => hout _ with
      ⟨hheld, hrunning⟩ | ⟨hnot, hacquires⟩
    · have halone : Alone N i phase
          (Function.update phase (.thread (N.thread i)) .idle) s s' := by
        constructor
        case phase_eq => exact fun _ => update_client
        case holds_iff =>
            intro j hj
            rw [hlog, or_iff_right fun heq => hj (N.thread_injective heq)]
        case cv_iff =>
            intro j _ cv
            rw [hcv]
      apply Matches.tracked
      apply h.stages.advance halone
      · rw [hlog, or_iff_left_of_imp fun _ => rfl]
        exact iff_of_true rfl hheld
      · rw [Function.update_self]
        exact hrunning
    · have hnobody : ∀ u, ¬Holds u N.mutex s.log := by
        rcases hholds with hheld | ⟨hnobody, _⟩
        · exact absurd hheld hnot
        · exact hnobody
      apply h.stages.acquire hnobody _ (fun _ => update_client) hcv hacquires
      · rw [Function.update_self]
        exact rfl
      · intro u
        rw [hlog, or_iff_left (hnobody u)]
  · apply h.seen.note hnoted
    case hplaced => exact fun r _ hmem => absurd hmem (hout r)
    case hholder =>
        intro u hu
        rcases (hlog u).mp hu with rfl | hold
        · exact .inr ⟨i, rfl⟩
        · exact .inl hold
    case hrest => simp
    case hself => exact h.seen.live (hnoted.finished_iff (by simp)) hlive (by simp)
  · rw [hnoted.created]
    exact h.started.client i
  · refine Apart.handing fun u hu => ?_
    rw [hnoted.queues]
    rcases (hlog u).mp hu with rfl | hold
    · exact hout _
    · exact h.handing.apart hclean u hold

/-! ## Threads are woken -/

/-- Thread `i`, which is in no queue, makes queues shorter. -/
theorem Sees.wakes
    {events : List Event} (h : Sees N M phase made loc s m) (hclean : Clean s)
    (hsublist : ∀ r, r ≠ .ready → (s'.queues r).Sublist (s.queues r))
    (hlog : s'.log = events ++ s.log) (hmoves : ∀ event ∈ events, event.Moves)
    (hcreated : s'.created = s.created)
    (hfits : ∀ q, ¬(phase (.thread (N.thread i))).Fits N q)
    (hlive : phase (.thread (N.thread i)) ≠ .finished) (hp : p ≠ .finished)
    (htracked : Tracked N M (Function.update phase (.thread (N.thread i)) p) loc s' m) :
    Reached N M (Function.update phase (.thread (N.thread i)) p) made loc s' m := by
  apply htracked.reached
  · refine h.seen.shorten hsublist hlog hmoves (fun r hr hmem => ?_) hlive hp
    exact absurd hmem (h.out hfits r hr)
  · rw [hcreated]
    exact h.started.client i
  · refine Apart.handing fun u hheld hmem => ?_
    rw [hlog, holds_moves hmoves] at hheld
    have hold := (hsublist (.mutexQueue N.mutex) (by simp)).subset hmem
    exact h.handing.apart hclean u hheld hold

theorem Sees.nobody
    {cv : κ} (h : Sees N M phase made loc s m) (hclean : Clean s)
    (hphase : phase (.thread (N.thread i)) = .signalling cv)
    (hempty : s.queues (.cvQueue (N.cv cv)) = []) :
    Reached N M (Function.update phase (.thread (N.thread i)) .idle) made loc s m := by
  have hstage := h.stages.stage i
  have hfits : ∀ q, ¬(phase (.thread (N.thread i))).Fits N q := by
    simp [hphase, Phase.Fits]
  rw [hphase] at hstage
  obtain ⟨prev, haction, hrunning⟩ := hstage
  have hnobody : ∀ j loc', m.thread j ≠ .asleep cv loc' := by
    intro j loc' hasleep
    have hother := h.stages.stage j
    rw [hasleep] at hother
    have hin := hother.asleep
    rw [hempty] at hin
    cases hin
  have hlive : phase (.thread (N.thread i)) ≠ .finished := by simp [hphase]
  refine h.wakes hclean (fun r _ => .refl _) (List.nil_append _).symm (by simp) rfl hfits hlive
    (by simp) ?_
  refine ⟨_, .inr ⟨i, .signalNobody hrunning haction hnobody⟩, rfl, ?_⟩
  apply h.stages.call ⟨fun _ => update_client, fun _ _ => Iff.rfl, fun _ _ _ => Iff.rfl⟩
    h.stages.owner_iff
  rw [Function.update_self]
  exact rfl

theorem Sees.signal
    {cv : κ} {answer : Unit} (h : Sees N M phase made loc s m) (hclean : Clean s)
    (hcalm : ∀ ref, ref ≠ .thread (N.thread i) → (phase ref).Calm)
    (hphase : phase (.thread (N.thread i)) = .signalling cv)
    (hexec : (answer, s') ∈ State.exec (.pop (.cvQueue (N.cv cv))) s) :
    Reached N M (Function.update phase (.thread (N.thread i)) .idle) made loc s' m := by
  have hfits : ∀ q, ¬(phase (.thread (N.thread i))).Fits N q := by
    simp [hphase, Phase.Fits]
  obtain ⟨u, rest, hqueue, rfl⟩ := mem_exec_pop hexec
  have hmem : u ∈ s.queues (.cvQueue (N.cv cv)) := by
    rw [hqueue]
    exact List.mem_cons_self
  obtain ⟨j, rfl, hwaited⟩ := h.waiter hcalm hfits hmem
  have hlasting : (Queue.cvQueue (N.cv cv)).Lasting := fun _ => by simp
  have hbesides : Besides (.cvQueue (N.cv cv)) [.pop (N.thread j) (.cvQueue (N.cv cv))] s
      (s.pop (N.thread j) (.cvQueue (N.cv cv)) rest) := besides_pop
  have hmoves : ∀ event ∈ [Event.pop (N.thread j) (.cvQueue (N.cv cv))], event.Moves := by
    simp [Event.Moves]
  have hrest : (s.pop (N.thread j) (.cvQueue (N.cv cv)) rest).queues (.cvQueue (N.cv cv)) =
      rest := by
    rw [becomes_pop.queues _ hlasting, Function.update_self]
  generalize s.pop (N.thread j) (.cvQueue (N.cv cv)) rest = s' at hbesides hrest ⊢
  have hnodup := h.seen.nodup (.cvQueue (N.cv cv)) (by simp)
  rw [hqueue, List.nodup_cons] at hnodup
  have hholds : ∀ k, Holds (N.thread k) N.mutex s'.log ↔ Holds (N.thread k) N.mutex s.log := by
    intro k
    rw [hbesides.log, holds_moves hmoves]
  have hself : N.thread j ∉ s'.queues (.cvQueue (N.cv cv)) := by
    rw [hrest]
    exact hnodup.1
  have hcv : ∀ k, k ≠ j → ∀ cv', (N.thread k ∈ s'.queues (.cvQueue (N.cv cv')) ↔
      N.thread k ∈ s.queues (.cvQueue (N.cv cv'))) := by
    intro k hk cv'
    by_cases hsame : cv' = cv
    · rw [hsame, hrest, hqueue, List.mem_cons, N.thread_injective.eq_iff, or_iff_right hk]
    · rw [hbesides.cvQueue]
      exact fun heq => hsame (N.cv_injective (Queue.cvQueue.inj heq))
  obtain ⟨hasleep, hmatches⟩ := h.stages.woken hwaited hmem hholds hself hcv
  have hstage := h.stages.stage i
  rw [hphase] at hstage
  obtain ⟨prev, haction, hrunning⟩ := hstage
  have hlive : phase (.thread (N.thread i)) ≠ .finished := by simp [hphase]
  refine h.wakes hclean ?_ hbesides.log hmoves hbesides.created hfits hlive (by simp) ?_
  · intro r hr
    by_cases hsame : r = .cvQueue (N.cv cv)
    · rw [hsame, hrest, hqueue]
      exact List.sublist_cons_self _ rest
    · exact hbesides.sublist r hr hsame
  · refine ⟨_, .inr ⟨i, .signal hrunning haction hasleep⟩, rfl, ?_⟩
    apply hmatches.call ⟨fun _ => update_client, fun _ _ => Iff.rfl, fun _ _ _ => Iff.rfl⟩
      hmatches.owner_iff
    rw [Function.update_self]
    exact rfl

theorem Sees.broadcast
    {cv : κ} {answer : Unit} (h : Sees N M phase made loc s m) (hclean : Clean s)
    (hcalm : ∀ ref, ref ≠ .thread (N.thread i) → (phase ref).Calm)
    (hphase : phase (.thread (N.thread i)) = .broadcasting cv)
    (hexec : (answer, s') ∈ State.exec (.wakeAll (.cvQueue (N.cv cv))) s) :
    Reached N M (Function.update phase (.thread (N.thread i)) .idle) made loc s' m := by
  have hfits : ∀ q, ¬(phase (.thread (N.thread i))).Fits N q := by
    simp [hphase, Phase.Fits]
  have hlasting : (Queue.cvQueue (N.cv cv)).Lasting := fun _ => by simp
  obtain ⟨events, hbesides, hmoves, hempty⟩ : ∃ events,
      Besides (.cvQueue (N.cv cv)) events s s' ∧ (∀ event ∈ events, event.Moves) ∧
        s'.queues (.cvQueue (N.cv cv)) = [] := by
    simp only [State.exec] at hexec
    split at hexec
    · cases List.mem_singleton.mp hexec
      refine ⟨_, besides_wakeAll, moves_popped _, ?_⟩
      rw [(becomes_wakeAll (by simp)).queues _ hlasting, emptied, Function.update_self]
    · cases hexec
  have hself : ∀ j, (phase (.thread (N.thread j))).Calm := by
    intro j
    by_cases hj : j = i
    · rw [hj, hphase]
      exact fun _ => by simp
    · exact hcalm _ fun heq => hj (N.thread_injective (ContextRef.thread.inj heq))
  have hholds : ∀ j, Holds (N.thread j) N.mutex s'.log ↔ Holds (N.thread j) N.mutex s.log := by
    intro j
    rw [hbesides.log, holds_moves hmoves]
  have hmatches : Matches N M phase loc s' { m with thread := fun j => (m.thread j).wake cv } := by
    apply h.stages.wakeAll hself hholds hempty
    intro cv' hne
    exact hbesides.cvQueue _ fun heq => hne (N.cv_injective (Queue.cvQueue.inj heq))
  have hstage := h.stages.stage i
  rw [hphase] at hstage
  obtain ⟨prev, haction, hrunning⟩ := hstage
  have hlive : phase (.thread (N.thread i)) ≠ .finished := by simp [hphase]
  refine h.wakes hclean ?_ hbesides.log hmoves hbesides.created hfits hlive (by simp) ?_
  · intro r hr
    by_cases hsame : r = .cvQueue (N.cv cv)
    · rw [hsame, hempty]
      exact List.nil_sublist _
    · exact hbesides.sublist r hr hsame
  · refine ⟨_, .inr ⟨i, .broadcast hrunning haction⟩, rfl, ?_⟩
    apply hmatches.call ⟨fun _ => update_client, fun _ _ => Iff.rfl, fun _ _ _ => Iff.rfl⟩
      hmatches.owner_iff
    rw [Function.update_self]
    exact rfl

end Calls

/-! ## Any statement -/

/-- The phases of the calls on a monitor. -/
def Phase.Calls : Phase κ → Prop
  | .locking => True
  | .queued => True
  | .unlocking => True
  | .waiting _ => True
  | .entering _ => True
  | .waited _ => True
  | .requeued => True
  | .signalling _ => True
  | .broadcasting _ => True
  | _ => False

/-- The phases of the calls of the main thread. -/
def Phase.Mains : Phase κ → Prop
  | .creating => True
  | .joining _ => True
  | .exiting => True
  | .finished => True
  | _ => False

theorem Phase.mains_of_waits (h : p.Waits) : p.Mains := by
  cases p <;> trivial

theorem Sees.created_le (h : Sees N M phase made loc s m) : s.created ≤ total + 1 := by
  obtain hhost | ⟨_, hnone, _⟩ := h.started.booted
  · obtain ⟨_, hcreated⟩ | ⟨_, hcreated, _⟩ | ⟨_, hcreated, _⟩ := h.started.progress hhost
    all_goals omega
  · omega

/-- Whoever has a phase of its own is the host, the main thread or a thread of the
monitor. -/
theorem Sees.who
    (h : Sees N M phase made loc s m)
    (hborn : ∀ t, s.created ≤ t → phase (.thread t) = .idle) (self : ContextRef) :
    phase self = .idle ∨ self = .host ∧ (phase self).Hosts ∨
      self = .thread 0 ∧ (phase self).Mains ∨ ∃ i, self = .thread (N.thread i) := by
  have hcreated := h.created_le
  cases self with
  | host =>
      refine .inr (.inl ⟨rfl, ?_⟩)
      obtain hhost | ⟨hhost, _⟩ := h.started.booted <;> rw [hhost] <;> trivial
  | thread t =>
      by_cases hunborn : s.created ≤ t
      · exact .inl (hborn t hunborn)
      by_cases hzero : t = 0
      · subst hzero
        obtain hhost | ⟨_, _, _, hmain⟩ := h.started.booted
        · obtain ⟨hmain, _⟩ | ⟨hmain, _⟩ | ⟨hmain, _⟩ := h.started.progress hhost
          · exact .inl hmain
          · refine .inr (.inr (.inl ⟨rfl, ?_⟩))
            rw [hmain]
            trivial
          · exact .inr (.inr (.inl ⟨rfl, Phase.mains_of_waits hmain⟩))
        · exact .inl hmain
      · obtain ⟨i, rfl⟩ := N.exists_thread (t := t) (by omega) (by omega)
        exact .inr (.inr (.inr ⟨i, rfl⟩))

theorem Sees.client_of_calls
    (h : Sees N M phase made loc s m)
    (hborn : ∀ t, s.created ≤ t → phase (.thread t) = .idle)
    (hcalls : (phase self).Calls) : ∃ i, self = .thread (N.thread i) := by
  rcases h.who hborn self with hidle | ⟨_, hhost⟩ | ⟨_, hmain⟩ | hclient
  · rw [hidle] at hcalls
    exact hcalls.elim
  · generalize phase self = p at hcalls hhost
    cases p <;> first | exact hcalls.elim | exact hhost.elim
  · generalize phase self = p at hcalls hmain
    cases p <;> first | exact hcalls.elim | exact hmain.elim
  · exact hclient

theorem Sees.main_of_phase
    (h : Sees N M phase made loc s m)
    (hborn : ∀ t, s.created ≤ t → phase (.thread t) = .idle)
    (hphase : phase self = .creating ∨ ∃ t, phase self = .joining t) : self = .thread 0 := by
  rcases h.who hborn self with hidle | ⟨_, hhost⟩ | ⟨hmain, _⟩ | ⟨i, rfl⟩
  · rw [hidle] at hphase
    simp at hphase
  · rcases hphase with hphase | ⟨t, hphase⟩ <;> rw [hphase] at hhost <;> exact hhost.elim
  · exact hmain
  · have hstage := h.stages.stage i
    rcases hphase with hphase | ⟨t, hphase⟩ <;> rw [hphase] at hstage <;> exact hstage.elim

theorem Sees.host_of_phase
    (h : Sees N M phase made loc s m)
    (hborn : ∀ t, s.created ≤ t → phase (.thread t) = .idle)
    (hphase : (phase self).Hosts) : self = .host := by
  rcases h.who hborn self with hidle | ⟨hhost, _⟩ | ⟨_, hmain⟩ | ⟨i, rfl⟩
  · rw [hidle] at hphase
    exact hphase.elim
  · exact hhost
  · generalize phase self = p at hphase hmain
    cases p <;> first | exact hphase.elim | exact hmain.elim
  · have hstage := h.stages.stage i
    generalize phase (.thread (N.thread i)) = p at hphase hstage
    cases p <;> first | exact hphase.elim | exact hstage.elim

theorem owner_of_wait
    {inside : ∀ i, Loc i → Bool} {prev next : Loc i} {cv : κ} (hbracketed : M.Bracketed inside)
    (hexclusive : Monitor.Exclusive inside m) (hthread : m.thread i = .running prev)
    (haction : M.action i prev = .wait cv next) : m.owner = some i := by
  have hcode := hbracketed i prev
  rw [haction] at hcode
  exact (hexclusive.running_iff hthread).mpr hcode.1

theorem Sees.owner_of_releases
    {inside : ∀ i, Loc i → Bool} (h : Sees N M phase made loc s m)
    (hbracketed : M.Bracketed inside) (hexclusive : Monitor.Exclusive inside m)
    (hreleases : (phase (.thread (N.thread i))).Releases) : m.owner = some i := by
  have hstage := h.stages.stage i
  generalize phase (.thread (N.thread i)) = p at hreleases hstage
  cases p with
  | unlocking =>
      obtain ⟨prev, haction, hthread⟩ := hstage
      have hcode := hbracketed i prev
      rw [haction] at hcode
      exact (hexclusive.running_iff hthread).mpr hcode.1
  | waiting cv =>
      obtain ⟨prev, haction, hthread⟩ := hstage
      exact owner_of_wait hbracketed hexclusive hthread haction
  | _ => exact hreleases.elim

theorem mem_exec_makeTcb
    {answer : Option ℕ} (hexec : (answer, s') ∈ State.exec .makeTcb s) :
    answer = none ∧ s' = s ∨ answer ≠ none ∧ s'.queues = s.queues ∧ s'.log = s.log ∧
      s'.created = s.created + 1 := by
  rcases List.mem_pair.mp hexec with heq | heq
  · cases heq
    exact .inl ⟨rfl, rfl⟩
  · cases heq
    exact .inr ⟨by simp, rfl, rfl, rfl⟩

theorem eq_of_mem_exec_makeTcb
    (hexec : ((none : Option ℕ), s') ∈ State.exec .makeTcb s) : s' = s := by
  rcases mem_exec_makeTcb hexec with ⟨_, heq⟩ | ⟨hsome, _⟩
  · exact heq
  · exact absurd rfl hsome

theorem Sees.owned
    {inside : ∀ i, Loc i → Bool} {answer : Bool} (h : Sees N M phase made loc s m)
    (hbracketed : M.Bracketed inside) (hexclusive : Monitor.Exclusive inside m)
    (hreleases : (phase (.thread (N.thread i))).Releases)
    (htested : Tested (.thread (N.thread i)) s (.checkOwnership N.mutex))
    (hexec : (answer, s') ∈ State.exec (.checkOwnership N.mutex) s) : answer = true := by
  obtain ⟨t, hself, howned⟩ := htested
  cases hself
  have howner := h.owner_of_releases hbracketed hexclusive hreleases
  have hpasses := howned.mpr ((h.stages.owner_iff i).mp howner)
  simp only [State.exec, List.mem_singleton, Prod.mk.injEq, hpasses] at hexec
  exact hexec.1

section Access

variable [DecidableEq ι] [DecidableEq κ] {code : ThreadCode Outcome} {answer : Unit}

theorem Sees.pushes
    (h : Sees N M phase made loc s m) (hclean : Clean s)
    (hwhere : CalledWhere (.thread (N.thread i)) code s (.push q))
    (hexec : (answer, s') ∈ State.exec (.push q) s) (hfits : p.Fits N q)
    (hmutex : q = .mutexQueue N.mutex → ¬Holds (N.thread i) N.mutex s.log)
    (hlive : phase (.thread (N.thread i)) ≠ .finished) (hp : p ≠ .finished)
    (hstage : (∀ r, N.thread i ∉ s.queues r) →
      Stage M i (loc i) (Holds (N.thread i) N.mutex s.log)
        (fun cv => q = .cvQueue (N.cv cv)) (m.thread i) p) :
    Reached N M (Function.update phase (.thread (N.thread i)) p) made loc s' m := by
  obtain ⟨t, hself, hrunning, hout, _⟩ := hwhere
  cases hself
  rw [mem_exec_push hrunning hexec]
  exact (h.push hclean hout hfits hmutex hlive hp (hstage hout)).reached

theorem Sees.notesReturned
    (h : Sees N M phase made loc s m) (hclean : Clean s)
    (hwants : (phase (.thread (N.thread i))).Wants)
    (hwhere : CalledWhere (.thread (N.thread i)) code s (.note (.returned · N.mutex)))
    (hexec : (answer, s') ∈ State.exec (.note (.returned · N.mutex)) s) :
    Reached N M (Function.update phase (.thread (N.thread i)) .idle) made loc s' m := by
  obtain ⟨t, hself, hrunning, hnotes⟩ := hwhere
  cases hself
  rw [mem_exec_note hrunning hexec]
  exact h.returned hclean hwants hnotes (noted_note _)

theorem Sees.notesUnlocked
    {inside : ∀ i, Loc i → Bool} (h : Sees N M phase made loc s m)
    (hbracketed : M.Bracketed inside) (hexclusive : Monitor.Exclusive inside m)
    (hclean : Clean s) (hphase : phase (.thread (N.thread i)) = .unlocking)
    (hwhere : CalledWhere (.thread (N.thread i)) code s (.note (.unlocked · N.mutex)))
    (hexec : (answer, s') ∈ State.exec (.note (.unlocked · N.mutex)) s) :
    Reached N M (Function.update phase (.thread (N.thread i)) .idle) made loc s' m := by
  obtain ⟨t, hself, hrunning, _⟩ := hwhere
  cases hself
  rw [mem_exec_note hrunning hexec]
  have hstage := h.stages.stage i
  rw [hphase] at hstage
  obtain ⟨prev, haction, hthread⟩ := hstage
  have howner := h.owner_of_releases hbracketed hexclusive (by rw [hphase]; trivial)
  have hfits : ∀ q, ¬(phase (.thread (N.thread i))).Fits N q := by
    simp [hphase, Phase.Fits]
  refine ⟨_, .inr ⟨i, .unlock hthread haction howner⟩, rfl, ?_⟩
  exact h.releases hclean (.inl rfl) (noted_note _) howner (by simp [hphase]) (by simp)
    (fun r hr hmem => absurd hmem (h.out hfits r hr)) rfl

/-- `wait` gives up the mutex, its caller being in the queue. -/
theorem Sees.notesWaitCalled
    {inside : ∀ i, Loc i → Bool} {cv : κ} (h : Sees N M phase made loc s m)
    (hbracketed : M.Bracketed inside) (hexclusive : Monitor.Exclusive inside m)
    (hclean : Clean s) (hphase : phase (.thread (N.thread i)) = .entering cv)
    (hwhere : CalledWhere (.thread (N.thread i)) code s (.note (.waitCalled · N.mutex)))
    (hexec : (answer, s') ∈ State.exec (.note (.waitCalled · N.mutex)) s) :
    Reached N M (Function.update phase (.thread (N.thread i)) (.waited cv)) made loc s' m := by
  obtain ⟨t, hself, hrunning, _⟩ := hwhere
  cases hself
  rw [mem_exec_note hrunning hexec]
  have hstage := h.stages.stage i
  rw [hphase] at hstage
  obtain ⟨hin, prev, haction, hthread⟩ := hstage
  have howner := owner_of_wait hbracketed hexclusive hthread haction
  refine ⟨_, .inr ⟨i, .wait hthread haction howner⟩, rfl, ?_⟩
  refine h.releases hclean (.inr rfl) (noted_note _) howner (by simp [hphase]) (by simp) ?_
    ⟨id, .inl ⟨hin, rfl⟩⟩
  intro r hr hmem
  rcases h.seen.placed r _ hr hmem with ⟨_, hfit⟩ | ⟨hzero, _⟩
  · rw [hphase] at hfit
    simpa [Phase.Fits, and_comm] using hfit
  · exact absurd hzero (N.thread_ne_zero i)

theorem Sees.notesFinished
    (h : Sees N M phase made loc s m) (hclean : Clean s)
    (hborn : ∀ t, s.created ≤ t → phase (.thread t) = .idle) (hphase : phase self = .exiting)
    (hwhere : CalledWhere self code s (.note .finished))
    (hexec : (answer, s') ∈ State.exec (.note .finished) s) :
    Reached N M (Function.update phase self .finished) made loc s' m := by
  obtain ⟨t, hself, hrunning, _⟩ := hwhere
  subst hself
  rw [mem_exec_note hrunning hexec]
  rcases h.who hborn (.thread t) with hidle | ⟨hhost, _⟩ | ⟨hmain, _⟩ | ⟨i, hself⟩
  · rw [hphase] at hidle
    cases hidle
  · cases hhost
  · cases hmain
    exact (h.finishMain hclean hphase (noted_note _)).reached
  · cases hself
    exact (h.finish hclean hphase (noted_note _)).reached

end Access

/-- The program and the monitor agree after any statement. -/
theorem Sees.access
    [DecidableEq ι] [DecidableEq κ] {inside : ∀ i, Loc i → Bool} {code : ThreadCode Outcome}
    {answer : threadInterface.Answer op} (hbracketed : M.Bracketed inside)
    (hexclusive : Monitor.Exclusive inside m) (h : Sees N M phase made loc s m)
    (hborn : ∀ t, s.created ≤ t → phase (.thread t) = .idle)
    (hcalm : ∀ ref, ref ≠ self → (phase ref).Calm) (hhands : HandsOver s op)
    (hwhere : CalledWhere self code s op) (htested : Tested self s op)
    (hexec : (answer, s') ∈ State.exec op s) (hnext : Next N (phase self) op answer p) :
    Reached N M (Function.update phase self p) made loc s' m := by
  have hclean : (∀ q, op ≠ .readyPushFront q) → (∀ q, op ≠ .pop q) → Clean s :=
    hhands.clean
  have hclient : (phase self).Calls → ∃ i, self = .thread (N.thread i) :=
    h.client_of_calls hborn
  generalize hphase : phase self = before at hnext hclient
  cases hnext with
  | quiet _ hquiet =>
      rw [← hphase, Function.update_eq_self]
      exact (h.quiet (unseen_of_quiet hquiet hexec) hhands hwhere hexec).reached
  | hands =>
      rw [← hphase, Function.update_eq_self]
      exact h.hands hwhere hexec
  | queues =>
      obtain ⟨i, rfl⟩ := hclient trivial
      have hstage := h.stages.stage i
      rw [hphase] at hstage
      obtain ⟨hnot, hprev⟩ := hstage
      exact h.pushes (hclean (by simp) (by simp)) hwhere hexec (.inl ⟨rfl, .inl rfl⟩)
        (fun _ => hnot) (by simp [hphase]) (by simp) fun _ => .inr ⟨hnot, hprev⟩
  | @requeues cv =>
      obtain ⟨i, rfl⟩ := hclient trivial
      have hstage := h.stages.stage i
      rw [hphase] at hstage
      obtain ⟨hnot, hwaits⟩ := hstage
      refine h.pushes (hclean (by simp) (by simp)) hwhere hexec (.inl ⟨rfl, .inr rfl⟩)
        (fun _ => hnot) (by simp [hphase]) (by simp) fun hout => ?_
      obtain ⟨hin, _⟩ | ⟨_, hwoken⟩ := hwaits
      · exact absurd hin (hout _)
      · exact .inr ⟨hnot, hwoken⟩
  | @enters cv =>
      obtain ⟨i, rfl⟩ := hclient trivial
      have hstage := h.stages.stage i
      rw [hphase] at hstage
      exact h.pushes (hclean (by simp) (by simp)) hwhere hexec (.inr ⟨cv, rfl, .inr rfl⟩)
        (by simp) (by simp [hphase]) (by simp) fun _ => ⟨rfl, hstage⟩
  | locked =>
      obtain ⟨i, rfl⟩ := hclient trivial
      refine h.notesReturned (hclean (by simp) (by simp)) ?_ hwhere hexec
      rw [hphase]
      exact .inl rfl
  | granted =>
      obtain ⟨i, rfl⟩ := hclient trivial
      refine h.notesReturned (hclean (by simp) (by simp)) ?_ hwhere hexec
      rw [hphase]
      exact .inr (.inl rfl)
  | @relocked cv =>
      obtain ⟨i, rfl⟩ := hclient trivial
      refine h.notesReturned (hclean (by simp) (by simp)) ?_ hwhere hexec
      rw [hphase]
      exact .inr (.inr (.inr ⟨cv, rfl⟩))
  | regranted =>
      obtain ⟨i, rfl⟩ := hclient trivial
      refine h.notesReturned (hclean (by simp) (by simp)) ?_ hwhere hexec
      rw [hphase]
      exact .inr (.inr (.inl rfl))
  | owned =>
      have hsame : s' = s := (Prod.mk.inj (List.mem_singleton.mp hexec)).2
      rw [← hphase, Function.update_eq_self, hsame]
      exact h.reached
  | disowned hreleases =>
      have hcalls : before.Calls := by
        cases before <;> trivial
      obtain ⟨i, rfl⟩ := hclient hcalls
      have hpasses := h.owned hbracketed hexclusive (by rwa [hphase]) htested hexec
      cases hpasses
  | unlocked =>
      obtain ⟨i, rfl⟩ := hclient trivial
      exact h.notesUnlocked hbracketed hexclusive (hclean (by simp) (by simp)) hphase hwhere hexec
  | waits =>
      obtain ⟨i, rfl⟩ := hclient trivial
      exact h.notesWaitCalled hbracketed hexclusive (hclean (by simp) (by simp)) hphase hwhere
        hexec
  | nobody =>
      obtain ⟨i, rfl⟩ := hclient trivial
      simp only [State.exec, State.hasQueue, if_true, List.mem_singleton, Prod.mk.injEq] at hexec
      obtain ⟨hempty, rfl⟩ := hexec
      exact h.nobody (hclean (by simp) (by simp)) hphase (List.isEmpty_iff.mp hempty.symm)
  | signals =>
      obtain ⟨i, rfl⟩ := hclient trivial
      refine h.signal (fun n k log hlog => ?_) hcalm hphase hexec
      rcases hhands n k log hlog with hop | hop <;> cases hop
  | broadcasts =>
      obtain ⟨i, rfl⟩ := hclient trivial
      exact h.broadcast (hclean (by simp) (by simp)) hcalm hphase hexec
  | finishes =>
      exact h.notesFinished (hclean (by simp) (by simp)) hborn hphase hwhere hexec
  | boots =>
      obtain rfl := h.host_of_phase hborn (by rw [hphase]; trivial)
      obtain ⟨hnone, _⟩ | ⟨_, hqueues, hlog, hcreated⟩ := mem_exec_makeTcb hexec
      · cases hnone
      · exact (h.boot hphase hqueues hlog hcreated).reached
  | bootFails =>
      rw [← hphase, Function.update_eq_self, eq_of_mem_exec_makeTcb hexec]
      exact h.reached
  | creates =>
      obtain rfl := h.main_of_phase hborn (.inl hphase)
      obtain ⟨hnone, _⟩ | ⟨_, hqueues, hlog, hcreated⟩ := mem_exec_makeTcb hexec
      · cases hnone
      · exact (h.create hphase hqueues hlog hcreated).reached
  | createFails =>
      rw [← hphase, Function.update_eq_self, eq_of_mem_exec_makeTcb hexec]
      exact h.reached
  | joins =>
      obtain rfl := h.main_of_phase hborn (.inr ⟨_, hphase⟩)
      obtain ⟨t, hself, hrunning, hout, _⟩ := hwhere
      cases hself
      rw [mem_exec_push hrunning hexec]
      exact (h.join (hclean (by simp) (by simp)) hphase hout).reached

end Threads
end Eecs482
