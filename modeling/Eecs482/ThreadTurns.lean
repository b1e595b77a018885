import Eecs482.ServiceOrder
import Eecs482.ThreadEffects
import Eecs482.ThreadGuarantees

/-!
# Threads take turns

A mutex goes to the threads in its queue in the order in which they have joined
it, and to nobody else while there are such threads.  Ready threads run in the
order in which they became ready.
-/

namespace Eecs482
namespace Threads

open Uniprocessor

/-- The threads that have been taken from `q`, oldest first. -/
def departed (q : Queue) : List Event → List ℕ
  | [] => []
  | .pop t r :: log => if r = q then departed q log ++ [t] else departed q log
  | _ :: log => departed q log

/-- The threads that have obtained `m`, oldest first.  A thread that has not been
handed the mutex obtains it when `lock` or `wait` returns. -/
def granted (m : ℕ) : List Event → List ℕ
  | [] => []
  | .handed t k :: log => if k = m then granted m log ++ [t] else granted m log
  | .returned t k :: log =>
      if k = m ∧ ¬Holds t m log then granted m log ++ [t] else granted m log
  | _ :: log => granted m log

/-- The threads in the queue of `m`, but for the one that has just been handed
the mutex. -/
def State.waiters (m : ℕ) (s : State) : List ℕ :=
  match s.log with
  | .handed _ k :: _ =>
      if k = m then (s.queues (.mutexQueue m)).tail else s.queues (.mutexQueue m)
  | _ => s.queues (.mutexQueue m)

variable {s s' : State} {t u m : ℕ} {q : Queue} {self : ContextRef}
  {code : ThreadCode Outcome} {event : Event}

/-! ## Queues are served from the front -/

theorem departed_popped (threads : List ℕ) (r : Queue) (log : List Event) :
    departed q ((threads.map (Event.pop · r)).reverse ++ log) =
      if r = q then departed q log ++ threads else departed q log := by
  induction threads generalizing log with
  | nil =>
      rw [List.append_nil, ite_self]
      rfl
  | cons t threads ih =>
      have hone : departed q (.pop t r :: log) =
          if r = q then departed q log ++ [t] else departed q log := rfl
      rw [List.map_cons, List.reverse_cons, List.append_assoc, List.singleton_append, ih,
        hone]
      split
      · rw [List.append_assoc, List.singleton_append]
      · rfl

theorem Notes.departed_eq (h : Notes t code s event) :
    departed q (event :: s.log) = departed q s.log := by
  cases h <;> rfl

/-- A step serves a queue from its front. -/
theorem Effect.departed_inTurn (h : Effect self code s s') (hq : q.Lasting) :
    ∃ served, departed q s'.log = departed q s.log ++ served ∧
      InTurn (s.queues q) served (s'.queues q) := by
  have hnobody : ∀ log, departed q log = departed q log ++ [] :=
    fun log => (List.append_nil _).symm
  cases h with
  | still h =>
      rw [h.log, h.queues q hq]
      exact ⟨[], hnobody _, .refl⟩
  | @readies t _ h =>
      rw [h.log, h.queues q hq]
      refine ⟨[], hnobody _, ?_⟩
      rw [appended, Function.update_apply]
      split
      case isTrue heq =>
          rw [heq]
          exact .join [t]
      case isFalse => exact .refl
  | @joins t r _ _ _ h =>
      rw [h.log, h.queues q hq]
      refine ⟨[], hnobody _, ?_⟩
      rw [appended, Function.update_apply]
      split
      case isTrue heq =>
          rw [heq]
          exact .join [t]
      case isFalse => exact .refl
  | @leaves t r rest _ _ hqueue h =>
      have hone : departed q (.pop t r :: s.log) =
          if r = q then departed q s.log ++ [t] else departed q s.log := rfl
      rw [h.log, h.queues q hq, List.singleton_append, hone, Function.update_apply]
      by_cases hr : q = r
      · rw [if_pos hr, if_pos hr.symm, hr, hqueue]
        exact ⟨[t], rfl, .serve [t]⟩
      · rw [if_neg hr, if_neg (Ne.symm hr)]
        exact ⟨[], hnobody _, .refl⟩
  | @wakes r _ hwhere h =>
      rw [h.log, h.queues q hq, departed_popped, emptied, Function.update_apply]
      by_cases hr : q = r
      · rw [if_pos hr, if_pos hr.symm, hr]
        refine ⟨s.queues r, rfl, ?_⟩
        have hall : InTurn (s.queues r ++ []) (s.queues r) [] := .serve _
        rw [List.append_nil] at hall
        exact hall
      · rw [if_neg hr, if_neg (Ne.symm hr), Function.update_apply]
        refine ⟨[], hnobody _, ?_⟩
        split
        case isTrue heq =>
            rw [heq]
            exact .join _
        case isFalse => exact .refl
  | hands _ _ _ h =>
      rw [h.log, h.queues q hq]
      exact ⟨[], hnobody _, .refl⟩
  | notes _ _ hnotes _ h =>
      rw [h.log, h.queues q hq, List.singleton_append, hnotes.departed_eq]
      exact ⟨[], hnobody _, .refl⟩

/-! ## Mutexes -/

theorem waiters_of_clean (hclean : ∀ n k log, s.log ≠ .handed n k :: log) :
    s.waiters m = s.queues (.mutexQueue m) := by
  unfold State.waiters
  split
  case h_1 n k log hlog => exact absurd hlog (hclean n k log)
  case h_2 => rfl

theorem waiters_of_log (hlog : s'.log = s.log)
    (hqueue : s'.queues (.mutexQueue m) = s.queues (.mutexQueue m)) :
    s'.waiters m = s.waiters m := by
  rw [State.waiters, State.waiters, hlog, hqueue]

theorem waiters_handed
    {n k : ℕ} {log : List Event} (hlog : s.log = .handed n k :: log) :
    s.waiters m = if k = m then (s.queues (.mutexQueue m)).tail
      else s.queues (.mutexQueue m) := by
  rw [State.waiters, hlog]

theorem granted_popped (threads : List ℕ) (log : List Event) :
    granted m ((threads.map (Event.pop · q)).reverse ++ log) = granted m log := by
  induction threads generalizing log with
  | nil => rfl
  | cons t threads ih =>
      rw [List.map_cons, List.reverse_cons, List.append_assoc]
      exact ih (.pop t q :: log)

theorem lasting_mutexQueue : (Queue.mutexQueue m).Lasting :=
  fun _ => nofun

theorem mutexQueue_ne_ready : Queue.mutexQueue m ≠ .ready :=
  nofun

/-- Those who wait for a mutex do not change, and nobody obtains it. -/
theorem granted_same
    (hgranted : granted m s'.log = granted m s.log)
    (hwaiters : s'.waiters m = s.waiters m) :
    ∃ served, granted m s'.log = granted m s.log ++ served ∧
      InTurn (s.waiters m) served (s'.waiters m) := by
  refine ⟨[], ?_, ?_⟩
  · rw [hgranted, List.append_nil]
  · rw [hwaiters]
    exact .refl

/-- A step grants a mutex to the first of those who wait for it, or to somebody
else when nobody waits. -/
theorem Effect.granted_inTurn (h : Effect self code s s') :
    ∃ served, granted m s'.log = granted m s.log ++ served ∧
      InTurn (s.waiters m) served (s'.waiters m) := by
  cases h with
  | still h =>
      apply granted_same
      · rw [h.log, List.nil_append]
      · exact waiters_of_log h.log (h.queues _ lasting_mutexQueue)
  | readies _ h =>
      refine granted_same (by rw [h.log, List.nil_append]) (waiters_of_log h.log ?_)
      rw [h.queues _ lasting_mutexQueue, appended,
        Function.update_of_ne mutexQueue_ne_ready]
  | @joins t q hclean _ _ h =>
      have hclean' : ∀ n k log, s'.log ≠ .handed n k :: log := by
        rw [h.log]
        exact fun n k log => by simp
      rw [waiters_of_clean hclean, waiters_of_clean hclean', h.log,
        h.queues _ lasting_mutexQueue, appended, Function.update_apply]
      refine ⟨[], (List.append_nil _).symm, ?_⟩
      split
      case isTrue heq =>
          rw [heq]
          exact .join [t]
      case isFalse => exact .refl
  | @leaves t q rest hhands hwhere hqueue h =>
      have hclean' : ∀ n k log, s'.log ≠ .handed n k :: log := by
        rw [h.log]
        exact fun n k log => by simp
      have hgranted : granted m s'.log = granted m s.log := by
        rw [h.log]
        rfl
      apply granted_same hgranted
      rw [waiters_of_clean hclean', h.queues _ lasting_mutexQueue, Function.update_apply]
      cases q with
      | mutexQueue k =>
          obtain ⟨n, rest', log, _, hlog⟩ := hwhere
          rw [waiters_handed hlog]
          by_cases hk : k = m
          · rw [if_pos (by rw [hk]), if_pos hk, ← hk, hqueue, List.tail_cons]
          · rw [if_neg (by simpa using Ne.symm hk), if_neg hk]
      | _ =>
          have hclean : ∀ n k log, s.log ≠ .handed n k :: log := by
            intro n k log hlog
            rcases hhands n k log hlog with hop | hop <;> cases hop
          rw [waiters_of_clean hclean, if_neg (by simp)]
  | @wakes q hclean hwhere h =>
      have hclean' : ∀ n k log, s'.log ≠ .handed n k :: log := by
        intro n k log hlog
        rw [h.log] at hlog
        cases hthreads : ((s.queues q).map (Event.pop · q)).reverse with
        | nil =>
            rw [hthreads] at hlog
            exact hclean n k log hlog
        | cons event events =>
            rw [hthreads, List.cons_append, List.cons.injEq] at hlog
            have hmem : event ∈ ((s.queues q).map (Event.pop · q)).reverse := by
              rw [hthreads]
              exact List.mem_cons_self
            rw [hlog.1] at hmem
            simp at hmem
      apply granted_same
      · rw [h.log, granted_popped]
      · obtain ⟨_, hmutex, _⟩ := hwhere
        rw [waiters_of_clean hclean, waiters_of_clean hclean',
          h.queues _ lasting_mutexQueue, emptied, Function.update_of_ne (hmutex m).symm,
          Function.update_of_ne mutexQueue_ne_ready]
  | @hands n k rest hclean _ hqueue h =>
      have hone : granted m (.handed n k :: s.log) =
          if k = m then granted m s.log ++ [n] else granted m s.log := rfl
      rw [waiters_of_clean hclean, waiters_handed h.log, h.log, List.singleton_append, hone,
        h.queues _ lasting_mutexQueue]
      by_cases hk : k = m
      · subst hk
        rw [if_pos rfl, if_pos rfl, hqueue]
        exact ⟨[n], rfl, .serve [n]⟩
      · rw [if_neg hk, if_neg hk]
        exact ⟨[], (List.append_nil _).symm, .refl⟩
  | @notes t event hclean _ hnotes _ h =>
      have hclean' : ∀ n k log, s'.log ≠ .handed n k :: log := by
        intro n k log hlog
        rw [h.log, List.singleton_append, List.cons.injEq] at hlog
        rw [hlog.1] at hnotes
        cases hnotes
      have hwaiters : s'.waiters m = s.waiters m := by
        rw [waiters_of_clean hclean, waiters_of_clean hclean',
          h.queues _ lasting_mutexQueue]
      cases hnotes with
      | finished => exact granted_same (by rw [h.log]; rfl) hwaiters
      | unlocked k => exact granted_same (by rw [h.log]; rfl) hwaiters
      | waitCalled => exact granted_same (by rw [h.log]; rfl) hwaiters
      | @returned k hholds =>
          have hone : granted m (.returned t k :: s.log) =
              if k = m ∧ ¬Holds t m s.log then granted m s.log ++ [t]
              else granted m s.log := rfl
          by_cases hnew : k = m ∧ ¬Holds t m s.log
          · obtain ⟨rfl, hnot⟩ := hnew
            obtain ⟨_, hempty⟩ := hholds.resolve_left hnot
            rw [hwaiters, waiters_of_clean hclean, hempty, h.log, List.singleton_append,
              hone, if_pos ⟨rfl, hnot⟩]
            exact ⟨[t], rfl, .nobody⟩
          · refine granted_same ?_ hwaiters
            rw [h.log, List.singleton_append, hone, if_neg hnew]

/-! ## Holders -/

/-- Whoever holds a mutex has been the last to obtain it. -/
def LastGranted (log : List Event) : Prop :=
  ∀ t m, Holds t m log → (granted m log).getLast? = some t

theorem LastGranted.popped
    {log : List Event} (h : LastGranted log) (threads : List ℕ) :
    LastGranted ((threads.map (Event.pop · q)).reverse ++ log) := by
  induction threads generalizing log with
  | nil => exact h
  | cons t threads ih =>
      have hone : LastGranted (.pop t q :: log) := h
      rw [List.map_cons, List.reverse_cons, List.append_assoc]
      exact ih hone

/-- A mutex that nobody holds is obtained by `u`. -/
theorem LastGranted.granted
    {log : List Event} {k : ℕ} (h : LastGranted log) (hnobody : ∀ v, ¬Holds v k log)
    (hholds : ∀ t m, Holds t m (event :: log) → (u = t ∧ k = m) ∨ Holds t m log)
    (hgranted : ∀ m, granted m (event :: log) =
      if k = m then granted m log ++ [u] else granted m log) :
    LastGranted (event :: log) := by
  intro t m hheld
  rw [hgranted]
  rcases hholds t m hheld with ⟨rfl, rfl⟩ | hold
  · rw [if_pos rfl, List.getLast?_concat]
  · have hne : k ≠ m := by
      rintro rfl
      exact hnobody t hold
    rw [if_neg hne]
    exact h t m hold

theorem Effect.lastGranted
    (h : Effect self code s s') (hlast : LastGranted s.log) : LastGranted s'.log := by
  cases h with
  | still h =>
      rw [h.log]
      exact hlast
  | readies _ h =>
      rw [h.log]
      exact hlast
  | joins _ _ _ h =>
      rw [h.log]
      exact hlast
  | leaves _ _ _ h =>
      rw [h.log]
      exact hlast
  | wakes _ _ h =>
      rw [h.log]
      exact hlast.popped _
  | hands _ hnobody _ h =>
      rw [h.log]
      exact hlast.granted hnobody (fun _ _ => id) fun _ => rfl
  | @notes t event _ _ hnotes _ h =>
      rw [h.log]
      cases hnotes with
      | finished => exact hlast
      | unlocked k => exact fun v m hheld => hlast v m hheld.2
      | waitCalled => exact fun v m hheld => hlast v m hheld.2
      | @returned k hholds =>
          by_cases hheld : Holds t k s.log
          · intro v m hv
            have hsame : granted m (.returned t k :: s.log) = granted m s.log := by
              refine if_neg ?_
              rintro ⟨rfl, hnot⟩
              exact hnot hheld
            change (granted m (.returned t k :: s.log)).getLast? = some v
            rw [hsame]
            rcases hv with ⟨rfl, rfl⟩ | hv
            · exact hlast t k hheld
            · exact hlast v m hv
          · obtain ⟨hnobody, _⟩ := hholds.resolve_left hheld
            apply hlast.granted hnobody (fun _ _ => id)
            intro m
            refine if_congr (and_iff_left_of_imp ?_) rfl rfl
            rintro rfl
            exact hheld

/-! ## The ready queue -/

theorem lasting_ready : Queue.ready.Lasting :=
  fun _ => nofun

/-- No thread becomes ready twice. -/
theorem Effect.ready_nodup
    (h : Effect self code s s') (hnodup : (s.queues .ready).Nodup) :
    (s'.queues .ready).Nodup := by
  have hjoin : ∀ t, t ∉ s.queues .ready → (s.queues .ready ++ [t]).Nodup := by
    intro t hnot
    rw [List.nodup_append]
    refine ⟨hnodup, by simp, fun v hv w hw heq => hnot ?_⟩
    rw [← List.mem_singleton.mp hw, ← heq]
    exact hv
  cases h with
  | still h =>
      rw [h.queues _ lasting_ready]
      exact hnodup
  | readies hnot h =>
      rw [h.queues _ lasting_ready, appended, Function.update_self]
      exact hjoin _ hnot
  | @joins t q _ hwhere hrunning h =>
      obtain ⟨v, _, hrunning', hout, _⟩ := hwhere
      rw [hrunning] at hrunning'
      cases hrunning'
      rw [h.queues _ lasting_ready, appended, Function.update_apply]
      split
      case isTrue heq =>
          rw [← heq]
          exact hjoin t (hout _)
      case isFalse => exact hnodup
  | @leaves t q rest _ _ hqueue h =>
      rw [h.queues _ lasting_ready, Function.update_apply]
      split
      case isTrue heq =>
          rw [heq, hqueue] at hnodup
          exact (List.nodup_cons.mp hnodup).2
      case isFalse => exact hnodup
  | @wakes q _ hwhere h =>
      obtain ⟨hq, _, hall, _⟩ := hwhere
      rw [h.queues _ lasting_ready, emptied, Function.update_of_ne hq.symm,
        Function.update_self]
      exact hall
  | hands _ _ _ h =>
      rw [h.queues _ lasting_ready]
      exact hnodup
  | notes _ _ _ _ h =>
      rw [h.queues _ lasting_ready]
      exact hnodup

/-- The thread that is taken from the ready queue is the running one. -/
theorem Effect.dispatched
    {threads : List ℕ} (h : Effect self code s s')
    (hdeparted : departed .ready s'.log = departed .ready s.log ++ threads) :
    ∀ n ∈ threads, s.runningThread = some n := by
  have hnone : departed .ready s'.log = departed .ready s.log →
      ∀ n ∈ threads, s.runningThread = some n := by
    intro hsame
    rw [hsame, List.self_eq_append_right] at hdeparted
    rw [hdeparted]
    exact fun n hmem => absurd hmem List.not_mem_nil
  cases h with
  | still h => exact hnone (by rw [h.log, List.nil_append])
  | readies _ h => exact hnone (by rw [h.log, List.nil_append])
  | joins _ _ _ h => exact hnone (by rw [h.log]; rfl)
  | @leaves t q rest _ hwhere hqueue h =>
      have hone : departed .ready (.pop t q :: s.log) =
          if q = .ready then departed .ready s.log ++ [t] else departed .ready s.log := rfl
      rw [h.log, List.singleton_append, hone] at hdeparted hnone
      by_cases hq : q = .ready
      · subst hq
        rw [if_pos rfl, List.append_cancel_left_eq] at hdeparted
        obtain ⟨n, rest', hqueue', hrunning⟩ := hwhere
        rw [hqueue] at hqueue'
        cases hqueue'
        rw [← hdeparted]
        intro n hmem
        rw [List.mem_singleton.mp hmem, hrunning]
      · rw [if_neg hq] at hnone
        exact hnone rfl
  | wakes _ hwhere h =>
      refine hnone ?_
      rw [h.log, departed_popped, if_neg hwhere.1]
  | hands _ _ _ h => exact hnone (by rw [h.log]; rfl)
  | notes _ _ hnotes _ h =>
      refine hnone ?_
      rw [h.log, List.singleton_append, hnotes.departed_eq]

/-! ## Whole runs -/

variable {c : ThreadCpu}

theorem boot_granted :
    LastGranted boot.state.log ∧ (boot.state.queues .ready).Nodup :=
  ⟨fun _ _ => False.elim, List.nodup_nil⟩

theorem reachable_granted
    (hreach : machine.system.Reachable boot c) :
    LastGranted c.state.log ∧ (c.state.queues .ready).Nodup := by
  have hboth := hreach.invariant
    (fun c => machine.system.Reachable boot c ∧
      LastGranted c.state.log ∧ (c.state.queues .ready).Nodup)
    ⟨.refl, boot_granted⟩ ?_
  · exact hboth.2
  · intro c event c' h hstep
    obtain ⟨hreach, hlast, hnodup⟩ := h
    have heffect := effect_of_step hreach hstep
    exact ⟨hreach.step hstep, heffect.lastGranted hlast, heffect.ready_nodup hnodup⟩

/-- Contexts are switched to the running thread, or to the host. -/
theorem switch_runs
    {c' : ThreadCpu} {event : CpuEvent threadInterface}
    (hreach : machine.system.Reachable boot c) (hstep : machine.Step c event c')
    (hswitch : c'.executing ≠ c.executing) (hthread : c'.executing = .thread t) :
    c.state.runningThread = some t := by
  have h := invariant_of_reachable hreach
  cases hstep with
  | access => exact absurd rfl hswitch
  | interruptDisable => exact absurd rfl hswitch
  | interruptEnable => exact absurd rfl hswitch
  | interruptEnableSuspend => exact absurd rfl hswitch
  | follow => exact absurd rfl hswitch
  | timer => exact absurd rfl hswitch
  | swapcontext hrunning hcurrent =>
      have hsafe := h.safe hrunning
      rw [hcurrent] at hsafe
      rw [hsafe.disabled nofun] at hsafe
      obtain ⟨_, _, _, _, hresumed, _⟩ := hsafe
      cases hthread
      obtain ⟨place, hswitched⟩ := hresumed
      exact hswitched.running
  | setcontext hrunning hcurrent =>
      have hsafe := h.safe hrunning
      rw [hcurrent] at hsafe
      rw [hsafe.disabled nofun] at hsafe
      obtain ⟨_, _, hresumed, _⟩ := hsafe
      cases hthread
      obtain ⟨place, hswitched⟩ := hresumed
      exact hswitched.running

/-- From every state of every run on, those who wait for a mutex obtain it in the
order of its queue, and nobody else obtains it before them; the last to have
obtained it is its holder.  Those who are ready run in the order of the ready
queue, in which nobody occurs twice. -/
theorem turns_of_reachable
    (hreach : machine.system.Reachable boot c) :
    (∀ d, machine.system.Reachable c d →
      (∀ m, ∃ served, granted m d.state.log = granted m c.state.log ++ served ∧
        InTurn (c.state.waiters m) served (d.state.waiters m)) ∧
      ∃ dispatched,
        departed .ready d.state.log = departed .ready c.state.log ++ dispatched ∧
        InTurn (c.state.queues .ready) dispatched (d.state.queues .ready)) ∧
    (∀ t m, Holds t m c.state.log → (granted m c.state.log).getLast? = some t) ∧
    (c.state.queues .ready).Nodup ∧
    ∀ event c', machine.Step c event c' →
      (∀ threads, departed .ready c'.state.log = departed .ready c.state.log ++ threads →
        ∀ n ∈ threads, c.state.runningThread = some n) ∧
      ∀ t, c'.executing ≠ c.executing → c'.executing = .thread t →
        c.state.runningThread = some t := by
  obtain ⟨hlast, hnodup⟩ := reachable_granted hreach
  refine ⟨fun d hrun => ⟨fun m => ?_, ?_⟩, hlast, hnodup, ?_⟩
  · refine EventSystem.Reachable.inTurn (fun c : ThreadCpu => c.state.waiters m)
      (fun c => granted m c.state.log) ?_ hreach hrun
    intro c event c' hreach hstep
    exact (effect_of_step hreach hstep).granted_inTurn
  · refine EventSystem.Reachable.inTurn (fun c : ThreadCpu => c.state.queues .ready)
      (fun c => departed .ready c.state.log) ?_ hreach hrun
    intro c event c' hreach hstep
    exact (effect_of_step hreach hstep).departed_inTurn lasting_ready
  · intro event c' hstep
    refine ⟨fun threads hthreads => (effect_of_step hreach hstep).dispatched hthreads, ?_⟩
    intro t hswitch hthread
    exact switch_runs hreach hstep hswitch hthread

/-- The first thread hands the mutex to the one that waits for it, which is dispatched
when the first one joins it. -/
theorem turns_of_contending :
    ∃ c d, play contending firstUser = some c ∧
      play [some (.unlock 0), some (.join 1)] c = some d ∧ c.state.waiters 0 = [1] ∧
      InTurn (c.state.waiters 0) [1] (d.state.waiters 0) ∧
      InTurn (c.state.queues .ready) [1] (d.state.queues .ready) ∧
      (granted 0 d.state.log).getLast? = some 1 := by
  obtain ⟨c, d, hplay, hmore, hwaits, hgranted, hdeparted, hheld⟩ :
      ∃ c d, play contending firstUser = some c ∧
        play [some (.unlock 0), some (.join 1)] c = some d ∧ c.state.waiters 0 = [1] ∧
        granted 0 d.state.log = granted 0 c.state.log ++ [1] ∧
        departed .ready d.state.log = departed .ready c.state.log ++ [1] ∧
        Holds 1 0 d.state.log :=
    ⟨_, _, rfl, rfl, rfl, rfl, rfl, by decide⟩
  have hreach := reachable_of_play hplay reachable_firstUser
  have hrun : machine.system.Reachable c d := reachable_of_play hmore .refl
  obtain ⟨hmutexes, dispatched, hdispatched, hready⟩ := (turns_of_reachable hreach).1 d hrun
  obtain ⟨served, hserved, hturn⟩ := hmutexes 0
  rw [hgranted, List.append_cancel_left_eq] at hserved
  rw [hdeparted, List.append_cancel_left_eq] at hdispatched
  subst hserved hdispatched
  exact ⟨c, d, hplay, hmore, hwaits, hturn, hready,
    (turns_of_reachable (hreach.trans hrun)).2.1 1 0 hheld⟩

end Threads
end Eecs482
