import Eecs482.ThreadEffects
import Eecs482.ThreadPhases

/-!
# What a monitor sees of a statement

Most statements move threads to and from the ready queue only, or destroy TCBs
with their join queues.  Of such a statement the monitor sees nothing.
-/

namespace Eecs482
namespace Threads

variable {s s' s'' : State} {t u m : ℕ} {q q' : Queue} {rest : List ℕ} {op : ThreadOp}
  {events events' : List Event}

/-- The event is about queues only. -/
def Event.Moves : Event → Prop
  | .push _ _ => True
  | .pop _ _ => True
  | _ => False

/-- What a statement does that may do anything to the ready queue and to `q`. -/
structure Besides (q : Queue) (events : List Event) (s s' : State) : Prop where
  log : s'.log = events ++ s.log
  sublist : ∀ r, r ≠ .ready → r ≠ q → (s'.queues r).Sublist (s.queues r)
  cvQueue : ∀ cv, .cvQueue cv ≠ q → s'.queues (.cvQueue cv) = s.queues (.cvQueue cv)
  created : s'.created = s.created

theorem Besides.of_same
    (hlog : s'.log = s.log) (hqueues : s'.queues = s.queues)
    (hcreated : s'.created = s.created) : Besides .ready [] s s' := by
  constructor
  case log => exact hlog
  case created => exact hcreated
  case sublist =>
      intro r _ _
      rw [hqueues]
  case cvQueue =>
      intro cv _
      rw [hqueues]

theorem Besides.trans (h : Besides q events s s') (h' : Besides q events' s' s'') :
    Besides q (events' ++ events) s s'' := by
  constructor
  case log => rw [h'.log, h.log, List.append_assoc]
  case sublist => exact fun r hr hq => (h'.sublist r hr hq).trans (h.sublist r hr hq)
  case cvQueue => exact fun cv hcv => (h'.cvQueue cv hcv).trans (h.cvQueue cv hcv)
  case created => exact h'.created.trans h.created

theorem Besides.weaken (h : Besides .ready events s s') : Besides q events s s' := by
  constructor
  case log => exact h.log
  case sublist => exact fun r hr _ => h.sublist r hr hr
  case cvQueue => exact fun cv _ => h.cvQueue cv nofun
  case created => exact h.created

/-! ## Destruction of TCBs -/

theorem sublist_release (fuel : ℕ) (r : Queue) :
    ((s.release fuel t).queues r).Sublist (s.queues r) := by
  induction fuel generalizing s t with
  | zero => exact .refl _
  | succ fuel ih =>
      have hall : ∀ (threads : List ℕ) (s : State),
          ((threads.foldl (fun s u => s.release fuel u) s).queues r).Sublist
            (s.queues r) := by
        intro threads
        induction threads with
        | nil => exact fun s => .refl _
        | cons u threads ihall => exact fun s => (ihall (s.release fuel u)).trans ih
      unfold State.release
      split
      · refine (hall _ _).trans ?_
        change (Function.update s.queues (.joinQueue t) [] r).Sublist (s.queues r)
        rw [Function.update_apply]
        split
        · exact List.nil_sublist _
        · exact .refl _
      · exact .refl _

theorem besides_drop : Besides .ready [] s (s.drop t) where
  log := unmoved_drop.log
  sublist r _ _ := sublist_release _ r
  cvQueue _ _ := unmoved_drop.queues _ fun _ => nofun
  created := unmoved_drop.created

/-- A statement that destroys a TCB at its end, if any. -/
theorem besides_dropOld
    (old : Option ℕ) (hlog : s'.log = s.log) (hqueues : s'.queues = s.queues)
    (hcreated : s'.created = s.created) : Besides .ready [] s (s'.dropOld old) := by
  have hsame : Besides .ready [] s s' := .of_same hlog hqueues hcreated
  cases old with
  | none => exact hsame
  | some t => exact hsame.trans besides_drop

theorem besides_previousReset : Besides .ready [] s s.previousReset :=
  besides_dropOld s.previousThread rfl rfl rfl

theorem besides_previousRunning : Besides .ready [] s s.previousRunning := by
  unfold State.previousRunning
  cases s.runningThread with
  | none => exact besides_previousReset
  | some t => exact besides_dropOld s.previousThread rfl rfl rfl

theorem besides_runningReset : Besides .ready [] s s.runningReset :=
  besides_dropOld s.runningThread rfl rfl rfl

theorem besides_runningFront : Besides .ready [] s (s.runningFront t) :=
  besides_dropOld s.runningThread rfl rfl rfl

/-! ## Queues -/

theorem besides_push : Besides q [] s (s.push t q) := by
  have hother : ∀ r, r ≠ q → (s.push t q).queues r = s.queues r :=
    fun r hr => Function.update_of_ne hr _ _
  constructor
  case log => rfl
  case sublist =>
      intro r _ hr
      rw [hother r hr]
  case cvQueue => exact fun cv hcv => hother _ hcv
  case created => rfl

/-- An event is noted at the end. -/
theorem Besides.noted {event : Event} (h : Besides q [] s s') :
    Besides q [event] s (s'.note event) where
  log := congrArg (event :: ·) h.log
  sublist := h.sublist
  cvQueue := h.cvQueue
  created := h.created

theorem besides_pop : Besides q [.pop t q] s (s.pop t q rest) := by
  have hother : ∀ r, r ≠ q → ((s.setQueue q rest).note (.pop t q)).queues r = s.queues r :=
    fun r hr => Function.update_of_ne hr _ _
  have hset : Besides q [.pop t q] s ((s.setQueue q rest).note (.pop t q)) := by
    constructor
    case log => rfl
    case sublist =>
        intro r _ hr
        rw [hother r hr]
    case cvQueue => exact fun cv hcv => hother _ hcv
    case created => rfl
  exact hset.trans (besides_drop.weaken (q := q))

/-- A queue becomes shorter, which is not that of a condition variable. -/
theorem besides_shorten
    (hrest : rest.Sublist (s.queues q)) (hcv : ∀ cv, q ≠ .cvQueue cv) :
    Besides .ready [.pop t q] s (s.pop t q rest) := by
  have hpop : Besides q [.pop t q] s (s.pop t q rest) := besides_pop
  constructor
  case log => exact hpop.log
  case sublist =>
      intro r hr _
      by_cases hrq : r = q
      · subst hrq
        have hset : ((s.setQueue r rest).note (.pop t r)).queues r = rest :=
          Function.update_self ..
        have hdrop := sublist_release (s := (s.setQueue r rest).note (.pop t r))
          (t := t) (s.created + 1) r
        rw [hset] at hdrop
        exact hdrop.trans hrest
      · exact hpop.sublist r hr hrq
  case cvQueue => exact fun cv _ => hpop.cvQueue cv (hcv cv).symm
  case created => exact hpop.created

/-- The threads of a queue are woken one by one. -/
theorem Besides.wakeAll {r : Queue}
    (hone : ∀ s t, Besides r [.pop t q] s (State.wakeOne q s t)) :
    Besides r ((s.queues q).map (Event.pop · q)).reverse s (s.wakeAll q) := by
  suffices h : ∀ (threads : List ℕ) (s : State),
      Besides r (threads.map (Event.pop · q)).reverse s
        (threads.foldl (State.wakeOne q) s) from h _ s
  intro threads
  induction threads with
  | nil => exact fun s => (Besides.of_same rfl rfl rfl).weaken
  | cons t threads ih =>
      intro s
      rw [List.map_cons, List.reverse_cons]
      exact (hone s t).trans (ih (State.wakeOne q s t))

theorem besides_wakeAll :
    Besides q ((s.queues q).map (Event.pop · q)).reverse s (s.wakeAll q) :=
  .wakeAll fun _ _ => (besides_push (q := .ready)).weaken.trans besides_pop

theorem besides_wakeJoiners :
    Besides .ready ((s.queues (.joinQueue t)).map (Event.pop · (.joinQueue t))).reverse s
      (s.wakeAll (.joinQueue t)) := by
  apply Besides.wakeAll
  intro s u
  have hpush : (s.push u .ready).queues (.joinQueue t) = s.queues (.joinQueue t) := by
    rw [push_queues, if_neg (by simp)]
  apply (besides_push (q := .ready)).trans (besides_shorten _ (by simp))
  rw [hpush]
  exact List.tail_sublist _

/-! ## Events that only move threads -/

theorem holds_moves (hmoves : ∀ event ∈ events, event.Moves) (log : List Event) :
    Holds u m (events ++ log) ↔ Holds u m log := by
  induction events with
  | nil => rfl
  | cons event events ih =>
      have hrest := ih fun e he => hmoves e (List.mem_cons_of_mem _ he)
      have hevent := hmoves event List.mem_cons_self
      cases event <;> first | exact hrest | exact hevent.elim

theorem finished_moves (hmoves : ∀ event ∈ events, event.Moves) (log : List Event) :
    Event.finished t ∈ events ++ log ↔ Event.finished t ∈ log := by
  rw [List.mem_append, or_iff_right]
  exact fun hmem => hmoves _ hmem

theorem moves_popped (threads : List ℕ) :
    ∀ event ∈ (threads.map (Event.pop · q)).reverse, event.Moves := by
  intro event hevent
  rw [List.mem_reverse, List.mem_map] at hevent
  obtain ⟨t, _, rfl⟩ := hevent
  trivial

/-! ## Quiet statements -/

/-- The monitor sees nothing. -/
def Unseen (s s' : State) : Prop :=
  ∃ events, Besides .ready events s s' ∧ ∀ event ∈ events, event.Moves

theorem unseen_still (h : Besides .ready [] s s') : Unseen s s' :=
  ⟨[], h, by simp⟩

theorem unseen_of_quiet
    {answer : threadInterface.Answer op} (hquiet : quiet op = true)
    (hexec : (answer, s') ∈ State.exec op s) : Unseen s s' := by
  cases op with
  | previousReset =>
      cases List.mem_singleton.mp hexec
      exact unseen_still besides_previousReset
  | previousRunning =>
      cases List.mem_singleton.mp hexec
      exact unseen_still besides_previousRunning
  | runningReset =>
      cases List.mem_singleton.mp hexec
      exact unseen_still besides_runningReset
  | runningFront =>
      simp only [State.exec] at hexec
      split at hexec
      · cases hexec
      · cases List.mem_singleton.mp hexec
        exact unseen_still besides_runningFront
  | running =>
      rw [mem_exec_running hexec]
      exact unseen_still (.of_same rfl rfl rfl)
  | empty q =>
      simp only [State.exec] at hexec
      split at hexec
      · cases List.mem_singleton.mp hexec
        exact unseen_still (.of_same rfl rfl rfl)
      · cases hexec
  | push q =>
      cases q with
      | ready =>
          simp only [State.exec] at hexec
          split at hexec
          · cases hexec
          case h_2 t _ =>
              split at hexec
              · cases List.mem_singleton.mp hexec
                exact ⟨[.push t .ready], besides_push.noted, by simp [Event.Moves]⟩
              · cases hexec
      | mutexQueue m => cases hquiet
      | cvQueue cv => cases hquiet
      | joinQueue t => cases hquiet
  | readyPushFront q =>
      simp only [State.exec] at hexec
      split at hexec
      · cases hexec
      · cases List.mem_singleton.mp hexec
        exact unseen_still besides_push
  | pop q =>
      have hcv : ∀ cv, q ≠ .cvQueue cv := by
        rintro cv rfl
        cases hquiet
      simp only [State.exec] at hexec
      split at hexec
      · cases hexec
      case h_2 t rest hqueue =>
          cases List.mem_singleton.mp hexec
          refine ⟨[.pop t q], besides_shorten ?_ hcv, by simp [Event.Moves]⟩
          rw [hqueue]
          exact List.sublist_cons_self t rest
  | wakeAll q =>
      cases q with
      | joinQueue t =>
          simp only [State.exec] at hexec
          split at hexec
          · cases List.mem_singleton.mp hexec
            exact ⟨_, besides_wakeJoiners, moves_popped _⟩
          · cases hexec
      | ready => cases hquiet
      | mutexQueue m => cases hquiet
      | cvQueue cv => cases hquiet
  | makeTcb => cases hquiet
  | readyPushTcb t =>
      cases List.mem_singleton.mp hexec
      exact unseen_still besides_push
  | tcbReset t =>
      cases List.mem_singleton.mp hexec
      exact unseen_still besides_drop
  | occupyFront m => cases hquiet
  | note event => cases hquiet
  | expired t =>
      cases List.mem_singleton.mp hexec
      exact unseen_still (.of_same rfl rfl rfl)
  | status m =>
      cases List.mem_singleton.mp hexec
      exact unseen_still (.of_same rfl rfl rfl)
  | setStatus m status =>
      cases List.mem_singleton.mp hexec
      exact unseen_still (.of_same rfl rfl rfl)
  | occupyRunning m =>
      cases List.mem_singleton.mp hexec
      exact unseen_still (.of_same rfl rfl rfl)
  | checkOwnership m => cases hquiet
  | newHostContext =>
      cases List.mem_singleton.mp hexec
      exact unseen_still (.of_same rfl rfl rfl)
  | deleteHostContext =>
      cases List.mem_singleton.mp hexec
      exact unseen_still (.of_same rfl rfl rfl)

end Threads
end Eecs482
