import Eecs482.ThreadLibrary

/-!
# What statements do to the queues

The destruction of a TCB empties its `join_queue` and changes no other queue,
whatever the state.  So each statement changes the queues of the library, of the
mutexes and of the condition variables as it says, and notes it in the log.
-/

namespace Eecs482
namespace Threads

variable {s s' s'' : State} {t u m : ℕ} {q : Queue} {rest : List ℕ}

/-- The queue is not part of a TCB. -/
def Queue.Lasting (q : Queue) : Prop :=
  ∀ t, q ≠ .joinQueue t

/-- No thread is moved, and nothing is noted. -/
structure Unmoved (s s' : State) : Prop where
  log : s'.log = s.log
  queues : ∀ q, q.Lasting → s'.queues q = s.queues q
  mutexes : s'.mutexes = s.mutexes
  runningThread : s'.runningThread = s.runningThread
  created : s'.created = s.created

theorem Unmoved.refl : Unmoved s s :=
  ⟨rfl, fun _ _ => rfl, rfl, rfl, rfl⟩

theorem Unmoved.trans (h : Unmoved s s') (h' : Unmoved s' s'') : Unmoved s s'' where
  log := h'.log.trans h.log
  queues q hq := (h'.queues q hq).trans (h.queues q hq)
  mutexes := h'.mutexes.trans h.mutexes
  runningThread := h'.runningThread.trans h.runningThread
  created := h'.created.trans h.created

/-- TCBs are destroyed one after the other. -/
theorem Unmoved.foldl
    {f : State → ℕ → State} (hf : ∀ s t, Unmoved s (f s t)) (threads : List ℕ) :
    Unmoved s (threads.foldl f s) := by
  induction threads generalizing s with
  | nil => exact .refl
  | cons t threads ih => exact (hf s t).trans ih

theorem unmoved_release (fuel : ℕ) : Unmoved s (s.release fuel t) := by
  induction fuel generalizing s t with
  | zero => exact .refl
  | succ fuel ih =>
      unfold State.release
      split
      · refine Unmoved.trans ?_ (Unmoved.foldl (fun s u => ih) _)
        refine ⟨rfl, fun q hq => ?_, rfl, rfl, rfl⟩
        exact Function.update_of_ne (hq t) _ _
      · exact ⟨rfl, fun _ _ => rfl, rfl, rfl, rfl⟩

theorem unmoved_drop : Unmoved s (s.drop t) :=
  unmoved_release _

theorem unmoved_dropOld (old : Option ℕ) : Unmoved s (s.dropOld old) := by
  cases old with
  | none => exact .refl
  | some t => exact unmoved_drop

theorem unmoved_previousReset : Unmoved s s.previousReset := by
  refine Unmoved.trans ?_ (unmoved_dropOld _)
  exact ⟨rfl, fun _ _ => rfl, rfl, rfl, rfl⟩

theorem unmoved_previousRunning : Unmoved s s.previousRunning := by
  unfold State.previousRunning
  cases s.runningThread with
  | none => exact unmoved_previousReset
  | some t =>
      refine Unmoved.trans ?_ (unmoved_dropOld _)
      exact ⟨rfl, fun _ _ => rfl, rfl, rfl, rfl⟩

/-! ## Queues and the log -/

/-- The events are noted, and the queues become these. -/
structure Becomes (events : List Event) (queues : Queue → List ℕ) (s s' : State) :
    Prop where
  log : s'.log = events ++ s.log
  queues : ∀ q, q.Lasting → s'.queues q = queues q
  created : s.created ≤ s'.created

/-- A statement that destroys TCBs at its end. -/
theorem Unmoved.becomes
    {events : List Event} {queues : Queue → List ℕ} (h : Unmoved s' s'')
    (hlog : s'.log = events ++ s.log) (hqueues : s'.queues = queues)
    (hcreated : s'.created = s.created) : Becomes events queues s s'' where
  log := h.log.trans hlog
  queues q hq := by rw [h.queues q hq, hqueues]
  created := Nat.le_of_eq (h.created.trans hcreated).symm

theorem becomes_previousReset : Becomes [] s.queues s s.previousReset :=
  unmoved_previousReset.becomes rfl rfl rfl

theorem becomes_previousRunning : Becomes [] s.queues s s.previousRunning :=
  unmoved_previousRunning.becomes rfl rfl rfl

theorem becomes_runningReset : Becomes [] s.queues s s.runningReset :=
  (unmoved_dropOld s.runningThread).becomes rfl rfl rfl

theorem becomes_runningFront : Becomes [] s.queues s (s.runningFront t) :=
  (unmoved_dropOld s.runningThread).becomes rfl rfl rfl

theorem becomes_tcbReset : Becomes [] s.queues s (s.drop t) :=
  unmoved_drop.becomes rfl rfl rfl

/-- The queues after `t` has joined `q`. -/
def appended (t : ℕ) (q : Queue) (queues : Queue → List ℕ) : Queue → List ℕ :=
  Function.update queues q (queues q ++ [t])

theorem becomes_push : Becomes [] (appended t q s.queues) s (s.push t q) :=
  ⟨rfl, fun _ _ => rfl, Nat.le_refl _⟩

theorem becomes_pop :
    Becomes [.pop t q] (Function.update s.queues q rest) s (s.pop t q rest) :=
  unmoved_drop.becomes rfl rfl rfl

/-- The queues after all of `q` have been made ready. -/
def emptied (q : Queue) (queues : Queue → List ℕ) : Queue → List ℕ :=
  Function.update (Function.update queues .ready (queues .ready ++ queues q)) q []

/-- One round of the loop that wakes the threads of a queue. -/
def State.wakeOne (q : Queue) (s : State) (t : ℕ) : State :=
  (s.push t .ready).pop t q (s.queues q).tail

theorem wakeOne_queue (r : Queue) (hr : r.Lasting) :
    (s.wakeOne q t).queues r =
      if r = q then (s.queues q).tail
      else if r = .ready then s.queues .ready ++ [t] else s.queues r := by
  rw [State.wakeOne, becomes_pop.queues r hr, Function.update_apply]
  split
  case isTrue => rfl
  case isFalse =>
      rw [becomes_push.queues r hr, appended, Function.update_apply]

/-- The loop, with the threads it has still to go through. -/
theorem wake_foldl
    (threads : List ℕ) (hq : q ≠ .ready)
    (hqueue : q.Lasting → s.queues q = threads) :
    (threads.foldl (State.wakeOne q) s).log =
        (threads.map (Event.pop · q)).reverse ++ s.log ∧
      (threads.foldl (State.wakeOne q) s).created = s.created ∧
      ∀ r, r.Lasting → (threads.foldl (State.wakeOne q) s).queues r =
        if r = q then []
        else if r = .ready then s.queues .ready ++ threads else s.queues r := by
  induction threads generalizing s with
  | nil =>
      refine ⟨rfl, rfl, fun r hr => ?_⟩
      rw [List.foldl_nil, List.append_nil]
      split
      case isTrue heq =>
          subst heq
          exact hqueue hr
      case isFalse =>
          split
          case isTrue heq => rw [heq]
          case isFalse => rfl
  | cons t threads ih =>
      have hready : Queue.ready.Lasting := fun _ => nofun
      have hone := wakeOne_queue (s := s) (q := q) (t := t)
      have hlog : (s.wakeOne q t).log = .pop t q :: s.log := becomes_pop.log
      have hcreated : (s.wakeOne q t).created = s.created := unmoved_drop.created
      have hrest : q.Lasting → (s.wakeOne q t).queues q = threads := by
        intro hlasting
        rw [hone q hlasting, if_pos rfl, hqueue hlasting, List.tail_cons]
      obtain ⟨hlog', hcreated', hqueues'⟩ := ih hrest
      rw [List.foldl_cons]
      refine ⟨?_, hcreated'.trans hcreated, fun r hr => ?_⟩
      · rw [hlog', hlog, List.map_cons, List.reverse_cons, List.append_assoc]
        rfl
      · rw [hqueues' r hr]
        split
        case isTrue => rfl
        case isFalse hne =>
            split
            case isTrue =>
                rw [hone .ready hready, if_neg hq.symm, if_pos rfl, List.append_assoc]
                rfl
            case isFalse hother => rw [hone r hr, if_neg hne, if_neg hother]

theorem becomes_wakeAll (hq : q ≠ .ready) :
    Becomes ((s.queues q).map (Event.pop · q)).reverse (emptied q s.queues) s
      (s.wakeAll q) := by
  obtain ⟨hlog, hcreated, hqueues⟩ := wake_foldl (s := s) (s.queues q) hq fun _ => rfl
  refine ⟨hlog, fun r hr => ?_, Nat.le_of_eq hcreated.symm⟩
  rw [emptied, Function.update_apply, Function.update_apply]
  exact hqueues r hr

end Threads
end Eecs482
