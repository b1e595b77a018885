import Eecs482.ThreadTurns

/-!
# The log of the waits

The log tells which threads are in the queues of the condition variables, and by
what they have been taken from there.  Between the call of `wait` and its return
a thread joins no such queue again.
-/

namespace Eecs482
namespace Threads

open Uniprocessor

variable {s s' : State} {t u m k cv : ℕ} {q : Queue} {self : ContextRef}
  {code : ThreadCode Outcome} {event : Event} {log : List Event}
  {queues queues' : Queue → List ℕ}

/-! ## The last wait of a thread -/

/-- The condition variable whose signal or broadcast has taken `t` from the queue. -/
def wokenBy (t : ℕ) : Event → Option ℕ
  | .pop u (.cvQueue cv) => if u = t then some cv else none
  | _ => none

/-- The condition variable whose queue `t` has joined last, and those that have
woken `t` since. -/
def lastWait (t : ℕ) : List Event → Option (ℕ × List ℕ)
  | [] => none
  | .push u (.cvQueue cv) :: log => if u = t then some (cv, []) else lastWait t log
  | .pop u (.cvQueue cv) :: log =>
      if u = t then (lastWait t log).map fun wait => (wait.1, cv :: wait.2)
      else lastWait t log
  | _ :: log => lastWait t log

theorem lastWait_append
    {mid : List Event} {wakers : List ℕ} (hlog : lastWait t log = some (cv, wakers))
    (hmid : ∀ k, Event.push t (.cvQueue k) ∉ mid) :
    lastWait t (mid ++ log) = some (cv, mid.filterMap (wokenBy t) ++ wakers) := by
  induction mid with
  | nil => exact hlog
  | cons event mid ih =>
      have hrest := ih fun k hmem => hmid k (List.mem_cons_of_mem _ hmem)
      cases event with
      | push u q =>
          cases q with
          | cvQueue k =>
              have hne : u ≠ t := by
                rintro rfl
                exact hmid k List.mem_cons_self
              rw [List.cons_append, lastWait, if_neg hne, hrest]
              rfl
          | ready => exact hrest
          | mutexQueue m => exact hrest
          | joinQueue v => exact hrest
      | pop u q =>
          cases q with
          | cvQueue k =>
              rw [List.cons_append, lastWait, hrest, List.filterMap_cons, wokenBy]
              by_cases hu : u = t
              · rw [if_pos hu, if_pos hu]
                rfl
              · rw [if_neg hu, if_neg hu]
          | ready => exact hrest
          | mutexQueue m => exact hrest
          | joinQueue v => exact hrest
      | handed u m => exact hrest
      | returned u m => exact hrest
      | unlocked u m => exact hrest
      | waitCalled u m => exact hrest
      | finished u => exact hrest

/-- The queues of the condition variables agree with the log. -/
structure WaitsRecorded (queues : Queue → List ℕ) (log : List Event) : Prop where
  nodup : ∀ cv, (queues (.cvQueue cv)).Nodup
  mem_iff : ∀ t cv, t ∈ queues (.cvQueue cv) ↔ lastWait t log = some (cv, [])
  once : ∀ t cv wakers, lastWait t log = some (cv, wakers) → wakers = [] ∨ wakers = [cv]

theorem WaitsRecorded.congr
    {log' : List Event} (h : WaitsRecorded queues log)
    (hqueues : ∀ cv, queues' (.cvQueue cv) = queues (.cvQueue cv))
    (hlog : ∀ t, lastWait t log' = lastWait t log) : WaitsRecorded queues' log' where
  nodup cv := by
    rw [hqueues]
    exact h.nodup cv
  mem_iff t cv := by
    rw [hqueues, hlog]
    exact h.mem_iff t cv
  once t cv wakers hlast := by
    rw [hlog] at hlast
    exact h.once t cv wakers hlast

/-- A thread that is in no queue joins the queue of a condition variable. -/
theorem WaitsRecorded.push
    (cv : ℕ) (h : WaitsRecorded queues log) (hout : ∀ k, t ∉ queues (.cvQueue k)) :
    WaitsRecorded (appended t (.cvQueue cv) queues) (.push t (.cvQueue cv) :: log) := by
  have hlast : ∀ u, lastWait u (.push t (.cvQueue cv) :: log) =
      if t = u then some (cv, []) else lastWait u log := fun _ => rfl
  have hqueue : ∀ k, appended t (.cvQueue cv) queues (.cvQueue k) =
      if k = cv then queues (.cvQueue cv) ++ [t] else queues (.cvQueue k) := by
    intro k
    rw [appended, Function.update_apply]
    exact if_congr (by rw [Queue.cvQueue.injEq]) rfl rfl
  constructor
  case nodup =>
      intro k
      rw [hqueue]
      split
      · rw [List.nodup_append]
        refine ⟨h.nodup cv, by simp, fun v hv w hw heq => hout cv ?_⟩
        rw [← List.mem_singleton.mp hw, ← heq]
        exact hv
      · exact h.nodup k
  case mem_iff =>
      intro u k
      rw [hqueue, hlast]
      by_cases hu : t = u
      · subst hu
        rw [if_pos rfl, Option.some.injEq, Prod.mk.injEq, and_iff_left rfl]
        by_cases hk : k = cv
        · rw [if_pos hk, List.mem_append, List.mem_singleton]
          exact iff_of_true (.inr rfl) hk.symm
        · rw [if_neg hk]
          exact iff_of_false (hout k) (Ne.symm hk)
      · rw [if_neg hu, ← h.mem_iff]
        by_cases hk : k = cv
        · rw [if_pos hk, hk, List.mem_append, List.mem_singleton]
          exact or_iff_left fun heq => hu heq.symm
        · rw [if_neg hk]
  case once =>
      intro u k wakers hwait
      rw [hlast] at hwait
      split at hwait
      · cases hwait
        exact .inl rfl
      · exact h.once u k wakers hwait

/-- The front of the queue of a condition variable is taken. -/
theorem WaitsRecorded.pop
    {rest : List ℕ} (h : WaitsRecorded queues log)
    (hqueue : queues (.cvQueue cv) = t :: rest) :
    WaitsRecorded (Function.update queues (.cvQueue cv) rest)
      (.pop t (.cvQueue cv) :: log) := by
  have hwaits : lastWait t log = some (cv, []) := by
    rw [← h.mem_iff, hqueue]
    exact List.mem_cons_self
  have hlast : ∀ u, lastWait u (.pop t (.cvQueue cv) :: log) =
      if t = u then some (cv, [cv]) else lastWait u log := by
    intro u
    rw [lastWait]
    split
    case isTrue heq =>
        rw [← heq, hwaits]
        rfl
    case isFalse => rfl
  have hnodup := h.nodup cv
  rw [hqueue, List.nodup_cons] at hnodup
  have hrest : ∀ k, Function.update queues (.cvQueue cv) rest (.cvQueue k) =
      if k = cv then rest else queues (.cvQueue k) := by
    intro k
    rw [Function.update_apply]
    exact if_congr (by rw [Queue.cvQueue.injEq]) rfl rfl
  constructor
  case nodup =>
      intro k
      rw [hrest]
      split
      · exact hnodup.2
      · exact h.nodup k
  case mem_iff =>
      intro u k
      rw [hrest, hlast]
      by_cases hu : t = u
      · subst hu
        rw [if_pos rfl]
        refine iff_of_false ?_ (by simp)
        split
        · exact hnodup.1
        · rw [h.mem_iff, hwaits, Option.some.injEq, Prod.mk.injEq]
          rintro ⟨rfl, _⟩
          contradiction
      · rw [if_neg hu, ← h.mem_iff]
        by_cases hk : k = cv
        · rw [if_pos hk, hk, hqueue, List.mem_cons]
          exact (or_iff_right fun heq => hu heq.symm).symm
        · rw [if_neg hk]
  case once =>
      intro u k wakers hwait
      rw [hlast] at hwait
      split at hwait
      · cases hwait
        exact .inr rfl
      · exact h.once u k wakers hwait

/-- All threads in the queue of a condition variable are taken. -/
theorem WaitsRecorded.popAll
    {threads : List ℕ} (h : WaitsRecorded queues log)
    (hqueue : queues (.cvQueue cv) = threads) :
    WaitsRecorded (Function.update queues (.cvQueue cv) [])
      ((threads.map (Event.pop · (.cvQueue cv))).reverse ++ log) := by
  induction threads generalizing queues log with
  | nil =>
      have hsame : Function.update queues (.cvQueue cv) [] = queues := by
        rw [← hqueue, Function.update_eq_self]
      rw [hsame]
      exact h
  | cons t threads ih =>
      have hone := ih (h.pop hqueue) (Function.update_self ..)
      rw [Function.update_idem] at hone
      rw [List.map_cons, List.reverse_cons, List.append_assoc, List.singleton_append]
      exact hone

/-! ## From the call of `wait` to its return -/

/-- A thread that gives up a mutex to wait has just joined the queue, and joins no
queue of a condition variable before `wait` has returned. -/
def WaitsOrdered : List Event → Prop
  | [] => True
  | .waitCalled t _ :: log =>
      (∃ cv rest, log = .push t (.cvQueue cv) :: rest) ∧ WaitsOrdered log
  | .push t (.cvQueue _) :: log => inWait t log = none ∧ WaitsOrdered log
  | _ :: log => WaitsOrdered log

theorem WaitsOrdered.tail (h : WaitsOrdered (event :: log)) : WaitsOrdered log := by
  cases event with
  | push u q =>
      cases q with
      | cvQueue cv => exact h.2
      | ready => exact h
      | mutexQueue m => exact h
      | joinQueue v => exact h
  | waitCalled u m => exact h.2
  | pop u q => exact h
  | handed u m => exact h
  | returned u m => exact h
  | unlocked u m => exact h
  | finished u => exact h

theorem WaitsOrdered.popped
    (h : WaitsOrdered log) (threads : List ℕ) :
    WaitsOrdered ((threads.map (Event.pop · q)).reverse ++ log) := by
  induction threads generalizing log with
  | nil => exact h
  | cons t threads ih =>
      have hone : WaitsOrdered (.pop t q :: log) := h
      rw [List.map_cons, List.reverse_cons, List.append_assoc]
      exact ih hone

/-- While `wait` has not returned, its caller waits for nothing else. -/
theorem WaitsOrdered.inWait_eq
    {mid earlier : List Event} (h : WaitsOrdered (mid ++ .waitCalled t k :: earlier))
    (hmid : ∀ m, Event.returned t m ∉ mid) :
    inWait t (mid ++ .waitCalled t k :: earlier) = some k ∧
      ∀ cv, Event.push t (.cvQueue cv) ∉ mid := by
  induction mid with
  | nil => exact ⟨if_pos rfl, fun cv => List.not_mem_nil⟩
  | cons event mid ih =>
      rw [List.cons_append] at h ⊢
      obtain ⟨hwait, hpush⟩ := ih h.tail fun m hmem => hmid m (List.mem_cons_of_mem _ hmem)
      have hother : (∀ cv, event ≠ .push t (.cvQueue cv)) →
          ∀ cv, Event.push t (.cvQueue cv) ∉ event :: mid := by
        intro hne cv hmem
        rcases List.mem_cons.mp hmem with heq | hold
        · exact hne cv heq.symm
        · exact hpush cv hold
      cases event with
      | push u q =>
          refine ⟨hwait, hother fun cv heq => ?_⟩
          cases heq
          rw [h.1] at hwait
          cases hwait
      | waitCalled u m =>
          refine ⟨?_, hother (by simp)⟩
          rw [inWait, hwait]
          refine if_neg ?_
          rintro rfl
          obtain ⟨cv, rest, hrest⟩ := h.1
          have hlog := h.2
          rw [hrest] at hlog hwait
          rw [show inWait u (.push u (.cvQueue cv) :: rest) = inWait u rest from rfl,
            hlog.1] at hwait
          cases hwait
      | returned u m =>
          refine ⟨?_, hother (by simp)⟩
          rw [inWait, hwait]
          refine if_neg ?_
          rintro rfl
          exact hmid m List.mem_cons_self
      | pop u q => exact ⟨hwait, hother (by simp)⟩
      | handed u m => exact ⟨hwait, hother (by simp)⟩
      | unlocked u m => exact ⟨hwait, hother (by simp)⟩
      | finished u => exact ⟨hwait, hother (by simp)⟩

/-! ## Steps -/

/-- What is known of the waits of all threads. -/
structure WaitsKnown (s : State) : Prop where
  recorded : WaitsRecorded s.queues s.log
  ordered : WaitsOrdered s.log

theorem lasting_cvQueue : (Queue.cvQueue cv).Lasting :=
  fun _ => nofun

theorem cvQueue_ne_ready : Queue.cvQueue cv ≠ .ready :=
  nofun

theorem lastWait_other (hq : ∀ cv, q ≠ .cvQueue cv) (log : List Event) :
    lastWait t (.push u q :: log) = lastWait t log ∧
      lastWait t (.pop u q :: log) = lastWait t log := by
  cases q with
  | cvQueue cv => exact absurd rfl (hq cv)
  | ready => exact ⟨rfl, rfl⟩
  | mutexQueue m => exact ⟨rfl, rfl⟩
  | joinQueue v => exact ⟨rfl, rfl⟩

theorem lastWait_popped
    (threads : List ℕ) (hq : ∀ cv, q ≠ .cvQueue cv) (log : List Event) :
    lastWait t ((threads.map (Event.pop · q)).reverse ++ log) = lastWait t log := by
  induction threads generalizing log with
  | nil => rfl
  | cons u threads ih =>
      rw [List.map_cons, List.reverse_cons, List.append_assoc, List.singleton_append, ih,
        (lastWait_other hq log).2]

theorem Effect.waitsRecorded
    (h : Effect self code s s') (hrecorded : WaitsRecorded s.queues s.log) :
    WaitsRecorded s'.queues s'.log := by
  cases h with
  | still h =>
      apply hrecorded.congr
      · exact fun cv => h.queues _ lasting_cvQueue
      · exact fun t => by rw [h.log, List.nil_append]
  | readies _ h =>
      apply hrecorded.congr
      · intro cv
        rw [h.queues _ lasting_cvQueue, appended, Function.update_of_ne cvQueue_ne_ready]
      · exact fun t => by rw [h.log, List.nil_append]
  | @joins t q _ hwhere hrunning h =>
      obtain ⟨v, _, hrunning', hout, _⟩ := hwhere
      rw [hrunning] at hrunning'
      cases hrunning'
      rw [h.log]
      by_cases hq : ∃ cv, q = .cvQueue cv
      · obtain ⟨cv, rfl⟩ := hq
        have hpush := hrecorded.push cv fun k => hout _
        exact hpush.congr (fun k => h.queues _ lasting_cvQueue) fun _ => rfl
      · have hne : ∀ k, q ≠ .cvQueue k := fun k heq => hq ⟨k, heq⟩
        refine hrecorded.congr (fun k => ?_) fun _ => (lastWait_other hne _).1
        rw [h.queues _ lasting_cvQueue, appended, Function.update_of_ne (hne k).symm]
  | @leaves t q rest _ _ hqueue h =>
      rw [h.log]
      by_cases hq : ∃ cv, q = .cvQueue cv
      · obtain ⟨cv, rfl⟩ := hq
        exact (hrecorded.pop hqueue).congr (fun k => h.queues _ lasting_cvQueue)
          fun _ => rfl
      · have hne : ∀ k, q ≠ .cvQueue k := fun k heq => hq ⟨k, heq⟩
        refine hrecorded.congr (fun k => ?_) fun _ => (lastWait_other hne _).2
        rw [h.queues _ lasting_cvQueue, Function.update_of_ne (hne k).symm]
  | @wakes q _ _ h =>
      rw [h.log]
      by_cases hq : ∃ cv, q = .cvQueue cv
      · obtain ⟨cv, rfl⟩ := hq
        refine (hrecorded.popAll rfl).congr (fun k => ?_) fun _ => rfl
        rw [h.queues _ lasting_cvQueue, emptied]
        simp only [Function.update_apply, cvQueue_ne_ready, if_false]
      · have hne : ∀ k, q ≠ .cvQueue k := fun k heq => hq ⟨k, heq⟩
        refine hrecorded.congr (fun k => ?_) fun _ => lastWait_popped _ hne _
        rw [h.queues _ lasting_cvQueue, emptied, Function.update_of_ne (hne k).symm,
          Function.update_of_ne cvQueue_ne_ready]
  | hands _ _ _ h =>
      rw [h.log]
      exact hrecorded.congr (fun cv => h.queues _ lasting_cvQueue) fun _ => rfl
  | notes _ _ hnotes _ h =>
      rw [h.log]
      refine hrecorded.congr (fun cv => h.queues _ lasting_cvQueue) fun _ => ?_
      cases hnotes <;> rfl

theorem Effect.waitsOrdered
    (h : Effect self code s s') (hordered : WaitsOrdered s.log) : WaitsOrdered s'.log := by
  cases h with
  | still h =>
      rw [h.log]
      exact hordered
  | readies _ h =>
      rw [h.log]
      exact hordered
  | @joins t q _ hwhere hrunning h =>
      obtain ⟨v, _, hrunning', _, hcv⟩ := hwhere
      rw [hrunning] at hrunning'
      cases hrunning'
      rw [h.log]
      cases q with
      | cvQueue cv => exact ⟨(hcv cv rfl).1, hordered⟩
      | ready => exact hordered
      | mutexQueue m => exact hordered
      | joinQueue v => exact hordered
  | leaves _ _ _ h =>
      rw [h.log]
      exact hordered
  | wakes _ _ h =>
      rw [h.log]
      exact hordered.popped _
  | hands _ _ _ h =>
      rw [h.log]
      exact hordered
  | notes _ _ hnotes _ h =>
      rw [h.log]
      cases hnotes with
      | finished => exact hordered
      | unlocked m => exact hordered
      | waitCalled _ hlog => exact ⟨⟨_, _, hlog⟩, hordered⟩
      | returned => exact hordered

theorem reachable_waitsKnown
    {c : ThreadCpu} (hreach : machine.system.Reachable boot c) : WaitsKnown c.state := by
  have hboth := hreach.invariant
    (fun c => machine.system.Reachable boot c ∧ WaitsKnown c.state) ⟨.refl, ?_⟩ ?_
  · exact hboth.2
  · refine ⟨⟨fun _ => List.nodup_nil, fun t cv => ?_, nofun⟩, trivial⟩
    exact iff_of_false List.not_mem_nil nofun
  · intro c event c' h hstep
    obtain ⟨hreach, hknown⟩ := h
    have heffect := effect_of_step hreach hstep
    exact ⟨hreach.step hstep, heffect.waitsRecorded hknown.recorded,
      heffect.waitsOrdered hknown.ordered⟩

end Threads
end Eecs482
