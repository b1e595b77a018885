import Eecs482.ThreadWaits

/-!
# Waiting for a signal

A thread that waits for a signal is in the queue of the condition variable before
it gives up the mutex.  One signal or broadcast takes it from there, and `wait`
returns once it has the mutex again.
-/

namespace Eecs482
namespace Threads

open Uniprocessor

variable {s s' : State} {t m k cv : ℕ}

/-! ## Undisturbed calls -/

section Calls

variable {c e : ThreadCpu} {place : ℕ → Place} {value : Outcome}

/-- Undisturbed, the running code returns normally, with the state `s`. -/
def EndsWith (c : ThreadCpu) (s : State) : Prop :=
  (∃ e, machine.Runs c e ∧ e.current = .ret (.user false)) ∧
    ∀ e value, machine.Runs c e → e.current = .ret value →
      value = .user false ∧ e.state = s ∧ e.executing = c.executing

theorem EndsWith.ret (hcurrent : c.current = .ret (.user false)) :
    EndsWith c c.state := by
  refine ⟨⟨c, .refl, hcurrent⟩, fun e value hrun hret => ?_⟩
  obtain rfl := hrun.ret hcurrent
  rw [hcurrent] at hret
  cases hret
  exact ⟨rfl, rfl, rfl⟩

theorem EndsWith.interruptDisable
    {next : Unit → ThreadCode Outcome} (hrunning : c.suspended = false)
    (hcurrent : c.current = .call .interruptDisable next)
    (h : EndsWith { c with interrupts := false, current := next () } s) :
    EndsWith c s := by
  obtain ⟨⟨e, hrun, hret⟩, hall⟩ := h
  refine ⟨⟨e, .step (Step.interruptDisable hrunning hcurrent) hrun, hret⟩, ?_⟩
  intro e value hrun hret
  exact hall e value (hrun.interruptDisable hcurrent hret) hret

theorem EndsWith.interruptEnable
    {next : Unit → ThreadCode Outcome} (hrunning : c.suspended = false)
    (hcurrent : c.current = .call .interruptEnable next)
    (h : EndsWith { c with interrupts := true, current := next () } s) :
    EndsWith c s := by
  obtain ⟨⟨e, hrun, hret⟩, hall⟩ := h
  refine ⟨⟨e, .step (Step.interruptEnable hrunning hcurrent) hrun, hret⟩, ?_⟩
  intro e value hrun hret
  exact hall e value (hrun.interruptEnable hcurrent hret) hret

theorem EndsWith.access
    {op : ThreadOp} {answer : threadInterface.Answer op}
    {next : threadInterface.Answer op → ThreadCode Outcome}
    (hrunning : c.suspended = false) (hcurrent : c.current = .call (.access op) next)
    (hexec : State.exec op c.state = [(answer, s')])
    (h : EndsWith { c with
      state := s'
      current := next answer
      contexts := machine.makeContexts op answer c.contexts } s) :
    EndsWith c s := by
  obtain ⟨⟨e, hrun, hret⟩, hall⟩ := h
  have hmem : (answer, s') ∈ State.exec op c.state := by
    rw [hexec]
    exact List.mem_cons_self
  refine ⟨⟨e, .step (Step.access hrunning hcurrent hmem) hrun, hret⟩, ?_⟩
  intro e value hrun hret
  obtain ⟨answer', state, hmem', hrest⟩ := hrun.access hcurrent hret
  have hresult : (answer', state) ∈ State.exec op c.state := hmem'
  rw [hexec, List.mem_singleton] at hresult
  cases hresult
  exact hall e value hrest hret

/-- `signal` makes the thread that has waited longest ready, if any waits. -/
theorem signal_ends
    (cv : ℕ) (h : Working place t c.state) (hrunning : c.suspended = false) :
    (c.state.queues (.cvQueue cv) = [] →
      EndsWith { c with current := signal cv } c.state) ∧
    ∀ u rest, c.state.queues (.cvQueue cv) = u :: rest →
      EndsWith { c with current := signal cv } (c.state.woken u (.cvQueue cv) rest) := by
  constructor
  · intro hempty
    have hexec : State.exec (.empty (.cvQueue cv)) c.state = [(true, c.state)] := by
      simp [State.exec, State.hasQueue, hempty]
    refine EndsWith.interruptDisable hrunning rfl ?_
    refine EndsWith.access hrunning rfl hexec ?_
    refine EndsWith.interruptEnable hrunning rfl ?_
    exact .ret rfl
  · intro u rest hqueue
    have hexec : State.exec (.empty (.cvQueue cv)) c.state = [(false, c.state)] := by
      simp [State.exec, State.hasQueue, hqueue]
    have hqueue' : (c.state.push u .ready).queues (.cvQueue cv) = u :: rest := by
      rw [push_queues, if_neg cvQueue_ne_ready, hqueue]
    have hrefs : c.state.refs u ≠ 0 := by
      apply h.refs_ne_zero (q := .cvQueue cv)
      rw [hqueue]
      exact List.mem_cons_self
    refine EndsWith.interruptDisable hrunning rfl ?_
    refine EndsWith.access hrunning rfl hexec ?_
    refine EndsWith.access hrunning rfl (exec_readyPushFront hqueue) ?_
    refine EndsWith.access hrunning rfl (exec_pop hqueue') ?_
    refine EndsWith.interruptEnable hrunning rfl ?_
    rw [← push_pop_eq hrefs]
    exact .ret rfl

/-- `broadcast` makes all threads that wait ready. -/
theorem broadcast_ends (hrunning : c.suspended = false) :
    EndsWith { c with current := broadcast cv } (c.state.wakeAll (.cvQueue cv)) := by
  have hexec : State.exec (.wakeAll (.cvQueue cv)) c.state =
      [((), c.state.wakeAll (.cvQueue cv))] := by
    simp only [State.exec, State.hasQueue, if_true]
  refine EndsWith.interruptDisable hrunning rfl ?_
  refine EndsWith.access hrunning rfl hexec ?_
  refine EndsWith.interruptEnable hrunning rfl ?_
  exact .ret rfl

/-- The caller of `wait` is in the queue, and still owns the mutex. -/
def JoinsCv (t cv m : ℕ) (c d : ThreadCpu) : Prop :=
  d.state = c.state.pushed t (.cvQueue cv) ∧ d.state.owner m = some t ∧
    d.executing = c.executing ∧ d.interrupts = false ∧
      ∃ next, d.current = .call (.access (.note (.waitCalled · m))) next

/-- The owner of a mutex that calls `wait` joins the queue first. -/
theorem wait_joins
    (h : Working place t c.state) (hheld : Holds t m c.state.log)
    (hrun : machine.Runs { c with current := wait cv m } e)
    (hret : e.current = .ret value) (hrunning : c.suspended = false) :
    ∃ d, machine.Runs { c with current := wait cv m } d ∧ JoinsCv t cv m c d ∧
      machine.Runs d e := by
  have howned : (true, c.state) ∈ State.exec (.checkOwnership m) c.state := by
    rw [State.exec, h.checkOwnership_iff.mpr hheld]
    exact List.mem_cons_self
  have hpush : State.exec (.push (.cvQueue cv)) c.state =
      [((), c.state.pushed t (.cvQueue cv))] := by
    simp only [State.exec, h.running, State.hasQueue, if_true]
    rfl
  obtain ⟨answer, state, hmem, hrest⟩ :=
    (hrun.interruptDisable rfl hret).access rfl hret
  rcases List.mem_singleton.mp hmem
  rw [h.checkOwnership_iff.mpr hheld] at hrest
  obtain ⟨answer, state, hmem, hrest⟩ := hrest.access rfl hret
  have hpushed : (answer, state) ∈ State.exec (.push (.cvQueue cv)) c.state := hmem
  rw [hpush, List.mem_singleton] at hpushed
  cases hpushed
  have howner : c.state.owner m = some t := (h.holds_iff t m).mp hheld
  exact ⟨_, .step (Step.interruptDisable hrunning rfl)
    (.step (Step.access hrunning rfl howned)
      (.step (Step.access hrunning rfl hmem) .refl)),
    ⟨rfl, howner, rfl, rfl, _, rfl⟩, hrest⟩

end Calls

/-! ## Whole runs -/

section Runs

variable {c c' : ThreadCpu}

/-- `wait` gives up a mutex that the caller owns, with the caller at the back of the
queue. -/
def GivesUpLast (c c' : ThreadCpu) : Prop :=
  ∀ t m, c'.state.log = .waitCalled t m :: c.state.log →
    c.state.owner m = some t ∧ ∃ cv front, (wait cv m).Rest c.current ∧
      c.state.queues (.cvQueue cv) = front ++ [t]

/-- The queue of a condition variable is joined at its back by `wait`.  A thread
leaves it by `signal`, which takes the first, or with all others by `broadcast`. -/
def CvStep (cv : ℕ) (c c' : ThreadCpu) : Prop :=
  c'.state.queues (.cvQueue cv) = c.state.queues (.cvQueue cv) ∨
    (∃ t m, (wait cv m).Rest c.current ∧ c.state.runningThread = some t ∧
      c'.state.queues (.cvQueue cv) = c.state.queues (.cvQueue cv) ++ [t]) ∨
    (∃ t rest, (signal cv).Rest c.current ∧ c.state.queues (.cvQueue cv) = t :: rest ∧
      c'.state.queues (.cvQueue cv) = rest) ∨
    (broadcast cv).Rest c.current ∧ c'.state.queues (.cvQueue cv) = [] ∧
      c'.state.queues .ready = c.state.queues .ready ++ c.state.queues (.cvQueue cv)

/-- `wait` returns to a caller that owns the mutex again and is in no queue.  It has
been taken from the queue exactly once since it gave up the mutex. -/
def ReturnsWoken (c c' : ThreadCpu) : Prop :=
  ∀ t m, c'.state.log = .returned t m :: c.state.log →
    ∀ mid k earlier, c.state.log = mid ++ .waitCalled t k :: earlier →
      (∀ j, Event.returned t j ∉ mid) →
        k = m ∧ c'.state.owner m = some t ∧ (∀ q, t ∉ c'.state.queues q) ∧
          ∃ cv rest, earlier = .push t (.cvQueue cv) :: rest ∧
            mid.filterMap (wokenBy t) = [cv]

theorem Effect.givesUpLast
    (h : Effect c.executing c.current c.state c'.state) : GivesUpLast c c' := by
  intro t m hlog
  obtain ⟨_, u, _, hnotes⟩ := h.noted hlog nofun nofun nofun
  cases hnotes with
  | waitCalled hcode _ hqueue howner => exact ⟨howner, _, _, hcode, hqueue⟩

theorem Effect.cvStep
    (h : Effect c.executing c.current c.state c'.state) : CvStep cv c c' := by
  cases h with
  | still h => exact .inl (h.queues _ lasting_cvQueue)
  | readies _ h =>
      left
      rw [h.queues _ lasting_cvQueue, appended, Function.update_of_ne cvQueue_ne_ready]
  | @joins t q _ hwhere hrunning h =>
      obtain ⟨v, _, hrunning', _, hcv⟩ := hwhere
      rw [hrunning] at hrunning'
      cases hrunning'
      have hqueue := h.queues (.cvQueue cv) lasting_cvQueue
      rw [appended, Function.update_apply] at hqueue
      split at hqueue
      case isTrue heq =>
          subst heq
          obtain ⟨_, m, hcode⟩ := hcv cv rfl
          exact .inr (.inl ⟨t, m, hcode, hrunning, hqueue⟩)
      case isFalse => exact .inl hqueue
  | @leaves t q rest _ hwhere hfront h =>
      have hqueue := h.queues (.cvQueue cv) lasting_cvQueue
      rw [Function.update_apply] at hqueue
      split at hqueue
      case isTrue heq =>
          subst heq
          exact .inr (.inr (.inl ⟨t, rest, hwhere, hfront, hqueue⟩))
      case isFalse => exact .inl hqueue
  | @wakes q _ hwhere h =>
      have hqueue := h.queues (.cvQueue cv) lasting_cvQueue
      rw [emptied, Function.update_apply] at hqueue
      split at hqueue
      case isTrue heq =>
          subst heq
          obtain ⟨_, _, _, hcode⟩ := hwhere
          have hready := h.queues .ready lasting_ready
          rw [emptied, Function.update_of_ne cvQueue_ne_ready.symm,
            Function.update_self] at hready
          exact .inr (.inr (.inr ⟨hcode cv rfl, hqueue, hready⟩))
      case isFalse =>
          rw [Function.update_of_ne cvQueue_ne_ready] at hqueue
          exact .inl hqueue
  | hands _ _ _ h => exact .inl (h.queues _ lasting_cvQueue)
  | notes _ _ _ _ h => exact .inl (h.queues _ lasting_cvQueue)

/-- A thread that returns from `wait` has been woken by one signal or broadcast. -/
theorem WaitsKnown.wokenOnce
    {mid earlier : List Event} (h : WaitsKnown s) (hout : ∀ q, t ∉ s.queues q)
    (hlog : s.log = mid ++ .waitCalled t k :: earlier)
    (hmid : ∀ j, Event.returned t j ∉ mid) :
    inWait t s.log = some k ∧ ∃ cv rest, earlier = .push t (.cvQueue cv) :: rest ∧
      mid.filterMap (wokenBy t) = [cv] := by
  have hordered := h.ordered
  rw [hlog] at hordered
  obtain ⟨hwait, hpush⟩ := hordered.inWait_eq hmid
  have hcall : ∃ cv rest, earlier = .push t (.cvQueue cv) :: rest := by
    clear hlog hmid hwait hpush
    induction mid with
    | nil => exact hordered.1
    | cons event mid ih => exact ih hordered.tail
  obtain ⟨cv, rest, rfl⟩ := hcall
  have hstart : lastWait t (.waitCalled t k :: .push t (.cvQueue cv) :: rest) =
      some (cv, []) := if_pos rfl
  have hlast := lastWait_append hstart hpush
  rw [List.append_nil, ← hlog] at hlast
  rw [← hlog] at hwait
  refine ⟨hwait, cv, rest, rfl, ?_⟩
  rcases h.recorded.once t cv _ hlast with hnone | hone
  · rw [hnone, ← h.recorded.mem_iff] at hlast
    exact absurd hlast (hout _)
  · exact hone

theorem Effect.returnsWoken
    (h : Effect c.executing c.current c.state c'.state) (hknown : WaitsKnown c.state) :
    ReturnsWoken c c' := by
  intro t m hlog mid k earlier hsplit hmid
  obtain ⟨hstate, u, _, hnotes⟩ := h.noted hlog nofun nofun nofun
  cases hnotes with
  | returned _ howner hout hwait =>
      obtain ⟨hin, hwoken⟩ := hknown.wokenOnce hout hsplit hmid
      have hmutex : k = m := by
        rw [hin] at hwait
        rcases hwait with hnone | hsome
        · cases hnone
        · exact Option.some.inj hsome
      rw [hstate]
      exact ⟨hmutex, howner, hout, hwoken⟩

/-- A caller of `wait` that holds the mutex joins the queue before it gives up the
mutex, and keeps its place there.  Threads leave the queue by `signal`, which takes
the one that has waited longest, or by `broadcast`, which takes all in order.  When
`wait` returns, the caller owns the mutex, is in no queue and has been taken from
the queue of the condition variable once. -/
theorem waits_of_reachable
    (hreach : machine.system.Reachable boot c) :
    (∀ t cv m, InUser t c → Holds t m c.state.log → ∀ e value,
      machine.Runs { c with current := wait cv m } e → e.current = .ret value →
        ∃ d, machine.Runs { c with current := wait cv m } d ∧ JoinsCv t cv m c d ∧
          machine.Runs d e) ∧
    (∀ t cv, InUser t c →
      (c.state.queues (.cvQueue cv) = [] →
        EndsWith { c with current := signal cv } c.state) ∧
      (∀ u rest, c.state.queues (.cvQueue cv) = u :: rest →
        EndsWith { c with current := signal cv }
          (c.state.woken u (.cvQueue cv) rest)) ∧
      ∃ s, EndsWith { c with current := broadcast cv } s ∧
        s.queues (.cvQueue cv) = [] ∧
        s.queues .ready = c.state.queues .ready ++ c.state.queues (.cvQueue cv) ∧
        ∀ q, q ≠ .cvQueue cv → q ≠ .ready → s.queues q = c.state.queues q) ∧
    (∀ cv d, machine.system.Reachable c d →
      ∃ taken, departed (.cvQueue cv) d.state.log =
          departed (.cvQueue cv) c.state.log ++ taken ∧
        InTurn (c.state.queues (.cvQueue cv)) taken (d.state.queues (.cvQueue cv))) ∧
    ∀ event c', machine.Step c event c' →
      GivesUpLast c c' ∧ (∀ cv, CvStep cv c c') ∧ ReturnsWoken c c' := by
  refine ⟨fun t cv m huser hheld e value hrun hret => ?_, fun t cv huser => ?_,
    fun cv d hrun => ?_, fun event c' hstep => ?_⟩
  · obtain ⟨hrunning, _, place, h⟩ := working_of_inUser hreach huser
    exact wait_joins h hheld hrun hret hrunning
  · obtain ⟨hrunning, _, place, h⟩ := working_of_inUser hreach huser
    obtain ⟨hempty, hfront⟩ := signal_ends cv h hrunning
    obtain ⟨_, hnone, hready, _, _, _, _, _, hother, _⟩ :=
      h.toCore.wakeAll (q := .cvQueue cv) nofun nofun
    exact ⟨hempty, hfront, _, broadcast_ends hrunning, hnone, hready, hother⟩
  · refine EventSystem.Reachable.inTurn (fun c : ThreadCpu => c.state.queues (.cvQueue cv))
      (fun c => departed (.cvQueue cv) c.state.log) ?_ hreach hrun
    intro c event c' hreach hstep
    exact (effect_of_step hreach hstep).departed_inTurn lasting_cvQueue
  · have heffect := effect_of_step hreach hstep
    exact ⟨heffect.givesUpLast, fun cv => heffect.cvStep,
      heffect.returnsWoken (reachable_waitsKnown hreach)⟩

/-- The first thread takes a mutex, and waits. -/
theorem waits_of_holder :
    ∃ c, machine.system.Reachable boot c ∧ InUser 0 c ∧ Holds 0 0 c.state.log ∧
      ∀ e value, machine.Runs { c with current := wait 0 0 } e →
        e.current = .ret value →
          ∃ d, machine.Runs { c with current := wait 0 0 } d ∧ JoinsCv 0 0 0 c d ∧
            machine.Runs d e := by
  obtain ⟨c, hplay, huser, hheld⟩ :
      ∃ c, play [some (.lock 0)] firstUser = some c ∧ InUser 0 c ∧
        Holds 0 0 c.state.log := ⟨_, rfl, ⟨rfl, false, rfl⟩, by decide⟩
  have hreach := reachable_of_play hplay reachable_firstUser
  exact ⟨c, hreach, huser, hheld, (waits_of_reachable hreach).1 0 0 0 huser hheld⟩

end Runs

end Threads
end Eecs482
