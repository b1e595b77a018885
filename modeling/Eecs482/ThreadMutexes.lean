import Eecs482.ThreadFunctions

/-!
# Mutexes and condition variables are safe

A mutex goes from hand to hand in a few statements, with interrupts disabled.
The statements come in different orders in `unlock` and `wait`, and have the
same effect.
-/

namespace Eecs482
namespace Threads

open Uniprocessor

variable {place place' : ℕ → Place} {s s' : State} {t u m : ℕ} {q : Queue}
  {rest : List ℕ}

theorem exec_note {event : ℕ → Event} (hrunning : s.runningThread = some t) :
    State.exec (.note event) s = [((), s.note (event t))] := by
  simp only [State.exec, hrunning]

/-! ## Taking a mutex -/

/-- The end of `lock` and `wait`: the mutex is the caller's. -/
theorem safe_returned
    (h : Working place t s) (hheld : Holds t m s.log) :
    assertions.Safe (.thread t)
      (.call (.access (.note (.returned · m))) fun _ =>
        .call .interruptEnable fun _ => .ret (.user false)) false s := by
  have hworking : Working place t (s.note (.returned t m)) :=
    h.change (h.toCore.returned hheld) rfl rfl (fun _ => Iff.rfl) (h.joined.cons nofun)
  exact safe_still (exec_note h.running) trivial rfl h.kept rfl rfl
    (.of_event (.returned t m) rfl rfl) (safe_return (if_pos rfl) hworking)

/-- The end of `lock` and `wait` when the mutex has just been taken. -/
theorem safe_acquired
    (h : Working place t s) (hfree : (s.mutexes m).status = false)
    (hs' : s' = s.setMutex m { status := true, occupyThread := some t }) :
    assertions.Safe (.thread t)
      (.call (.access (.note (.returned · m))) fun _ =>
        .call .interruptEnable fun _ => .ret (.user false)) false s' := by
  subst hs'
  have hborn : place t ≠ .unborn := by
    rw [(h.only t).mpr rfl]
    exact nofun
  have hworking : Working place t (s.acquired t m) :=
    h.change (h.toCore.acquired hborn hfree) rfl rfl (fun _ => Iff.rfl)
      (h.joined.cons nofun)
  exact safe_still (exec_note h.running) trivial rfl (h.kept.of_same rfl rfl) rfl rfl
    (.of_event (.returned t m) rfl rfl) (safe_return (if_pos rfl) hworking)

/-- A thread that waited for a mutex holds it when it runs again. -/
theorem Working.holds
    (h : Working place t s) (hwaiting : waitingFor t s.log = some m) :
    Holds t m s.log := by
  rcases h.waiting t m hwaiting with hqueued | hheld
  · rw [(h.only t).mpr rfl] at hqueued
    cases hqueued
  · exact hheld

/-- The thread waits for the mutex, and returns with it. -/
theorem safe_mutexQueue
    (h : Working place t s) (htaken : (s.mutexes m).status = true) :
    assertions.Safe (.thread t)
      (.call (.access (.push (.mutexQueue m))) fun _ => swapHelper >>= fun _ =>
        .call (.access (.note (.returned · m))) fun _ =>
          .call .interruptEnable fun _ => .ret (.user false)) false s := by
  refine safe_block h nofun rfl nofun (fun k hk => by cases hk; exact htaken) ?_
  intro place' s' hworking hsame
  refine safe_returned hworking (hworking.holds (hsame.trans ?_))
  exact if_pos rfl

theorem safe_lock : assertions.Safe (.thread t) (lock m) true s := by
  rintro s₁ ⟨hwaiting, place, h⟩ _
  cases hstatus : (s₁.mutexes m).status with
  | true =>
      have hexec : State.exec (.status m) s₁ = [(true, s₁)] := by
        rw [← hstatus]
        rfl
      exact safe_read hexec trivial rfl h.kept (safe_mutexQueue h hstatus)
  | false =>
      have hexec : State.exec (.status m) s₁ = [(false, s₁)] := by
        rw [← hstatus]
        rfl
      refine safe_read hexec trivial rfl h.kept ?_
      refine safe_still rfl trivial rfl h.kept rfl rfl (.of_log rfl) ?_
      refine safe_still rfl trivial rfl (h.kept.of_same rfl rfl) rfl rfl (.of_log rfl) ?_
      refine safe_acquired h hstatus ?_
      simp only [State.setMutex, h.running, Function.update_self, Function.update_idem]

/-! ## Releasing a mutex -/

theorem Working.checkOwnership_iff (h : Working place t s) :
    s.checkOwnership m = true ↔ Holds t m s.log := by
  have hrefs : s.refs t ≠ 0 := h.kept.2 t rfl
  rw [h.holds_iff, State.checkOwnership, State.owner]
  cases howner : (s.mutexes m).occupyThread with
  | none => simp
  | some v =>
      cases hstatus : (s.mutexes m).status with
      | false => simp
      | true =>
          simp only [h.running, Bool.and_true, Bool.and_eq_true, bne_iff_ne, beq_iff_eq,
            Option.some.injEq, if_true]
          refine ⟨fun hv => hv.2.symm, ?_⟩
          rintro rfl
          exact ⟨hrefs, rfl⟩

theorem safe_checkOwnership
    {next : Bool → ThreadCode Outcome} (h : Working place t s)
    (hheld : Holds t m s.log → assertions.Safe (.thread t) (next true) false s)
    (hfree : ¬Holds t m s.log → assertions.Safe (.thread t) (next false) false s) :
    assertions.Safe (.thread t) (.call (.access (.checkOwnership m)) next) false s := by
  have htest : Tested (.thread t) s (.checkOwnership m) :=
    ⟨t, rfl, h.checkOwnership_iff⟩
  refine safe_read rfl htest rfl h.kept ?_
  cases howned : s.checkOwnership m with
  | true => exact hheld (h.checkOwnership_iff.mp howned)
  | false =>
      refine hfree fun hheld => ?_
      rw [h.checkOwnership_iff.mpr hheld] at howned
      cases howned

theorem Kept.woken
    {self : ContextRef} (h : Kept self s) (hqueue : s.queues q = u :: rest) :
    Kept self (s.woken u q rest) := by
  refine ⟨fun r v hmem => ?_, h.2⟩
  have hfront : ∀ v ∈ u :: rest, s.refs v ≠ 0 := by
    rw [← hqueue]
    exact h.1 q
  rw [woken_queues] at hmem
  split at hmem
  · exact hfront v (List.mem_cons_of_mem _ hmem)
  split at hmem
  · rcases List.mem_append.mp hmem with hold | hnew
    · exact h.1 .ready v hold
    · rw [List.mem_singleton.mp hnew]
      exact hfront u List.mem_cons_self
  · exact h.1 r v hmem

theorem woken_joinQueue (hjoin : ∀ v, q ≠ .joinQueue v) (v : ℕ) :
    (s.woken u q rest).queues (.joinQueue v) = s.queues (.joinQueue v) := by
  rw [woken_queues, if_neg (hjoin v).symm, if_neg (by simp)]

/-- The first thread of a queue is made ready. -/
theorem safe_wakeFront
    {self : ContextRef} {next : Unit → ThreadCode Outcome} (hkept : Kept self s)
    (hqueue : s.queues q = u :: rest) (hq : q ≠ .ready) (hjoin : ∀ v, q ≠ .joinQueue v)
    (hnext : assertions.Safe self (next ()) false (s.woken u q rest)) :
    assertions.Safe self
      (.call (.access (.readyPushFront q)) fun _ => .call (.access (.pop q)) next)
      false s := by
  have hpush : State.exec (.readyPushFront q) s = [((), s.push u .ready)] := by
    simp only [State.exec, hqueue]
  have hrefs : s.refs u ≠ 0 := by
    refine hkept.1 q u ?_
    rw [hqueue]
    exact List.mem_cons_self
  have hrest : (s.push u .ready).queues q = u :: rest := by
    rw [push_queues, if_neg hq, hqueue]
  have hpop : State.exec (.pop q) (s.push u .ready) = [((), s.woken u q rest)] := by
    rw [← push_pop_eq hrefs]
    simp only [State.exec, hrest]
  refine safe_access hpush trivial rfl (.of_log rfl) hkept.push .push ?_
  refine safe_access hpop trivial rfl (.of_event (.pop u q) rfl trivial)
    (hkept.woken hqueue) (.of_queues fun v => ?_) hnext
  have hne : Queue.joinQueue v ≠ .ready := by simp
  rw [woken_joinQueue hjoin, push_queues, if_neg hne]

theorem exec_occupyFront
    {n : ℕ} (hqueue : s.queues (.mutexQueue m) = n :: rest) :
    State.exec (.occupyFront m) s =
      [((), (s.setMutex m { s.mutexes m with occupyThread := some n }).note
        (.handed n m))] := by
  simp only [State.exec, hqueue]

/-- The state after the first thread that waits for the mutex has got it. -/
def State.passedOn (n m : ℕ) (rest : List ℕ) (event : Event) (s : State) : State :=
  (s.handedOver n m event).woken n (.mutexQueue m) rest

theorem Core.passedOn
    {n : ℕ} {event : Event} (h : Core place s) (hevent : Releases t m event)
    (hheld : Holds t m s.log) (hrunning : waitingFor t s.log = none)
    (hqueue : s.queues (.mutexQueue m) = n :: rest) :
    Core (Function.update place n (.queued .ready)) (s.passedOn n m rest event) := by
  have hborn : place n ≠ .unborn := by
    rw [(h.front hqueue).1]
    exact nofun
  refine (h.handedOver hevent hheld hrunning hborn).woken hqueue nofun fun k hk => ?_
  cases hk
  exact .inl ⟨rfl, rfl⟩

theorem safe_unlock : assertions.Safe (.thread t) (unlock m) true s := by
  rintro s₁ ⟨hwaiting, place, h⟩ _
  refine safe_checkOwnership h (fun hheld => ?_) fun _ => safe_return hwaiting h
  have hevent : Releases t m (.unlocked t m) := .inl rfl
  refine safe_still (exec_note h.running) trivial rfl h.kept rfl rfl
    (.of_event (.unlocked t m) rfl trivial) ?_
  refine safe_still rfl trivial rfl (h.kept.of_same rfl rfl) rfl rfl (.of_log rfl) ?_
  cases hqueue : s₁.queues (.mutexQueue m) with
  | nil =>
      have hworking := h.change
        (h.toCore.released hevent hheld hwaiting hqueue) rfl rfl (fun _ => Iff.rfl)
        (h.joined.cons (by simp))
      have hempty : ∀ s' : State, s'.queues = s₁.queues →
          State.exec (.empty (.mutexQueue m)) s' = [(true, s')] := by
        intro s' hs'
        simp [State.exec, State.hasQueue, hs', hqueue]
      exact safe_read (hempty _ rfl) trivial rfl (h.kept.of_same rfl rfl)
        (safe_return hwaiting hworking)
  | cons n rest =>
      have hempty : ∀ s' : State, s'.queues = s₁.queues →
          State.exec (.empty (.mutexQueue m)) s' = [(false, s')] := by
        intro s' hs'
        simp [State.exec, State.hasQueue, hs', hqueue]
      refine safe_read (hempty _ rfl) trivial rfl (h.kept.of_same rfl rfl) ?_
      refine safe_still (exec_occupyFront hqueue) trivial rfl (h.kept.of_same rfl rfl) rfl rfl
        (.of_event (.handed n m) rfl trivial) ?_
      refine safe_wakeFront (h.kept.of_same rfl rfl) hqueue (by simp) (by simp) ?_
      have hcore := h.toCore.passedOn hevent hheld hwaiting hqueue
      have hworking := h.change hcore rfl rfl
        (only_update (h.front hqueue).1 (by simp) (by simp))
        (.cons (.cons (.cons h.joined (by simp)) (by simp)) (by simp))
      refine safe_still (show State.exec (.setStatus m true) _ =
        [((), s₁.passedOn n m rest (.unlocked t m))] from ?_) trivial rfl
        (.woken (h.kept.of_same rfl rfl) hqueue) rfl rfl (.of_log rfl)
        (safe_return hwaiting hworking)
      simp [State.exec, State.passedOn, State.handedOver, State.woken, State.setMutex,
        State.note]

/-! ## Condition variables -/

theorem safe_broadcast {cv : ℕ} :
    assertions.Safe (.thread t) (broadcast cv) true s := by
  rintro s₁ ⟨hwaiting, place, h⟩ _
  refine safe_wakeAll h.toCore h.kept (by simp) (by simp) rfl (by simp) fun _ => ?_
  obtain ⟨hcore, _, _, hrunning, hprevious, _, _, _, _, popped, hlog, hpopped⟩ :=
    h.toCore.wakeAll (q := .cvQueue cv) (by simp) (by simp)
  have hpop : ∀ event ∈ popped, ∀ v u, event ≠ .pop v (.joinQueue u) := by
    intro event hevent v u heq
    obtain ⟨w, hw⟩ := hpopped event hevent
    rw [heq] at hw
    cases hw
  have hworking := h.change hcore hrunning hprevious (fun u => ?_) ?_
  · refine safe_return ?_ hworking
    rw [hlog, waitingFor_popped hpopped]
    exact hwaiting
  · rw [wokenPlace]
    split
    case isTrue hmem =>
        rw [(h.mem_iff _ u).mp hmem]
        exact iff_of_false (by simp) (by simp)
    case isFalse => rfl
  · rw [hlog]
    intro v u hmem
    rcases List.mem_append.mp hmem with hnew | hold
    · exact absurd rfl (hpop _ hnew v u)
    · exact List.mem_append_right _ (h.joined v u hold)

theorem safe_signal {cv : ℕ} :
    assertions.Safe (.thread t) (signal cv) true s := by
  rintro s₁ ⟨hwaiting, place, h⟩ _
  cases hqueue : s₁.queues (.cvQueue cv) with
  | nil =>
      have hempty : State.exec (.empty (.cvQueue cv)) s₁ = [(true, s₁)] := by
        simp [State.exec, State.hasQueue, hqueue]
      exact safe_read hempty trivial rfl h.kept (safe_return hwaiting h)
  | cons n rest =>
      have hempty : State.exec (.empty (.cvQueue cv)) s₁ = [(false, s₁)] := by
        simp [State.exec, State.hasQueue, hqueue]
      refine safe_read hempty trivial rfl h.kept ?_
      refine safe_wakeFront h.kept hqueue (by simp) (by simp) ?_
      have hcore := h.toCore.woken hqueue (by simp) (by simp)
      have hworking := h.change hcore rfl rfl
        (only_update (h.front hqueue).1 (by simp) (by simp)) (h.joined.cons (by simp))
      exact safe_return hwaiting hworking

/-- `wait` takes the mutex again. -/
theorem safe_waitAgain
    (h : Working place t s) :
    assertions.Safe (.thread t) (do
      if !(← access (.status m)) then
        access (.occupyRunning m)
        access (.setStatus m true)
      else
        access (.push (.mutexQueue m))
        swapHelper
      access (.note (.returned · m))
      interruptEnable
      return .user false) false s := by
  cases hstatus : (s.mutexes m).status with
  | true =>
      have hexec : State.exec (.status m) s = [(true, s)] := by
        rw [← hstatus]
        rfl
      exact safe_read hexec trivial rfl h.kept (safe_mutexQueue h hstatus)
  | false =>
      have hexec : State.exec (.status m) s = [(false, s)] := by
        rw [← hstatus]
        rfl
      refine safe_read hexec trivial rfl h.kept ?_
      refine safe_still rfl trivial rfl h.kept rfl rfl (.of_log rfl) ?_
      refine safe_still rfl trivial rfl (h.kept.of_same rfl rfl) rfl rfl (.of_log rfl) ?_
      refine safe_acquired h hstatus ?_
      simp only [State.setMutex, h.running, Function.update_self, Function.update_idem]

theorem Parked.change
    (h : Parked place t s) (hcore : Core place' s')
    (hrunning : s'.runningThread = s.runningThread)
    (hprevious : s'.previousThread = s.previousThread)
    (hnone : ∀ u, place' u = .running → place u = .running)
    (hjoined : Joined s'.log) : Parked place' t s' where
  toCore := hcore
  running := hrunning.trans h.running
  noRunning u hu := h.noRunning u (hnone u hu)
  noPrevious := hprevious.trans h.noPrevious
  joined := hjoined

/-- The caller of `wait`, which has given up the mutex, waits for a signal. -/
theorem safe_waitSwitch
    {cv : ℕ} (h : Parked place t s) (hplace : place t = .queued (.cvQueue cv)) :
    assertions.Safe (.thread t) (do
      swapHelper
      if !(← access (.status m)) then
        access (.occupyRunning m)
        access (.setStatus m true)
      else
        access (.push (.mutexQueue m))
        swapHelper
      access (.note (.returned · m))
      interruptEnable
      return .user false) false s := by
  refine safe_swapHelper h hplace (fun rest hready => ?_) fun place' s' hworking _ =>
    safe_waitAgain hworking
  have hmem : t ∈ s.queues .ready := by
    rw [hready]
    exact List.mem_cons_self
  rw [h.mem_iff, hplace] at hmem
  cases hmem

theorem safe_waitHeld
    {cv : ℕ} (h : Working place t s) (hwaiting : waitingFor t s.log = none)
    (hheld : Holds t m s.log) :
    assertions.Safe (.thread t) (waitHeld cv m) false s := by
  refine safe_push h rfl (by simp) (by simp) fun hparked => ?_
  have hevent : Releases t m (.waitCalled t m) := .inr rfl
  have hplace := Function.update_self t (Place.queued (.cvQueue cv)) place
  have hheld' : Holds t m (s.pushed t (.cvQueue cv)).log := hheld
  have hwaiting' : waitingFor t (s.pushed t (.cvQueue cv)).log = none := hwaiting
  generalize s.pushed t (.cvQueue cv) = s₂ at hparked hheld' hwaiting' ⊢
  refine safe_still (exec_note hparked.running) trivial rfl hparked.kept rfl rfl
    (.of_event (.waitCalled t m) rfl trivial) ?_
  refine safe_still rfl trivial rfl (hparked.kept.of_same rfl rfl) rfl rfl (.of_log rfl) ?_
  cases hqueue : s₂.queues (.mutexQueue m) with
  | nil =>
      have hempty : ∀ s' : State, s'.queues = s₂.queues →
          State.exec (.empty (.mutexQueue m)) s' = [(true, s')] := by
        intro s' hs'
        simp [State.exec, State.hasQueue, hs', hqueue]
      refine safe_read (hempty _ rfl) trivial rfl (hparked.kept.of_same rfl rfl) ?_
      have hcore := hparked.toCore.released hevent hheld' hwaiting' hqueue
      have hparked' := hparked.change hcore rfl rfl (fun _ => id)
        (hparked.joined.cons (by simp))
      exact safe_waitSwitch hparked' hplace
  | cons n rest =>
      have hempty : ∀ s' : State, s'.queues = s₂.queues →
          State.exec (.empty (.mutexQueue m)) s' = [(false, s')] := by
        intro s' hs'
        simp [State.exec, State.hasQueue, hs', hqueue]
      have hpush : ∀ s' : State, s'.queues = s₂.queues →
          State.exec (.readyPushFront (.mutexQueue m)) s' = [((), s'.push n .ready)] := by
        intro s' hs'
        simp only [State.exec, hs', hqueue]
      have hkept : ∀ s' : State, s'.queues = s₂.queues → s'.refs = s₂.refs →
          Kept (.thread t) (s'.push n .ready) := fun s' hqueues hrefs =>
        (hparked.kept.of_same hqueues hrefs).push
      refine safe_read (hempty _ rfl) trivial rfl (hparked.kept.of_same rfl rfl) ?_
      refine safe_access (hpush _ rfl) trivial rfl (.of_log rfl) (hkept _ rfl rfl) .push ?_
      refine safe_still rfl trivial rfl (hkept _ rfl rfl) rfl rfl (.of_log rfl) ?_
      have hfront : ∀ s' : State, s'.queues = (s₂.push n .ready).queues →
          s'.queues (.mutexQueue m) = n :: rest := by
        intro s' hs'
        rw [hs', push_queues, if_neg (by simp), hqueue]
      let s₃ := s₂.handedOver n m (.waitCalled t m)
      have hoccupy : ∀ s' : State, s'.queues = (s₂.push n .ready).queues →
          (s'.setMutex m { s'.mutexes m with occupyThread := some n }).note
            (.handed n m) = s₃.push n .ready →
          State.exec (.occupyFront m) s' = [((), s₃.push n .ready)] := by
        intro s' hs' heq
        rw [exec_occupyFront (hfront s' hs'), heq]
      refine safe_still (hoccupy _ rfl (by simp [s₃, State.handedOver, State.setMutex,
          State.note, State.push, State.setQueue, State.retain])) trivial rfl
        ((hkept s₂ rfl rfl).of_same rfl rfl) rfl rfl (.of_event (.handed n m) rfl trivial)
        ?_
      have hcore := hparked.toCore.passedOn hevent hheld' hwaiting' hqueue
      have hrefs : s₃.refs n ≠ 0 := by
        refine hparked.kept.1 (.mutexQueue m) n ?_
        rw [hqueue]
        exact List.mem_cons_self
      have hpop : State.exec (.pop (.mutexQueue m)) (s₃.push n .ready) =
          [((), s₂.passedOn n m rest (.waitCalled t m))] := by
        rw [State.passedOn, ← push_pop_eq hrefs]
        simp only [State.exec, hfront (s₃.push n .ready) rfl]
      have hother := fun v => @only_update _ n _ (.queued .ready)
        (hparked.front hqueue).1 (by simp) (by simp) v
      have hparked' := hparked.change hcore rfl rfl (fun u => (hother u).mp)
        (.cons (.cons (.cons hparked.joined (by simp)) (by simp)) (by simp))
      have hstays : Function.update (Function.update place t (.queued (.cvQueue cv))) n
          (.queued .ready) t = .queued (.cvQueue cv) := by
        rw [Function.update_of_ne, hplace]
        rintro rfl
        have hqueued := (hparked.front hqueue).1
        rw [hplace] at hqueued
        cases hqueued
      refine safe_access hpop trivial rfl (.of_event (.pop n (.mutexQueue m)) rfl trivial)
        hparked'.kept (.of_queues fun v => ?_) (safe_waitSwitch hparked' hstays)
      rw [push_queues, if_neg (by simp)]
      exact woken_joinQueue (by simp) v

theorem safe_wait {cv : ℕ} : assertions.Safe (.thread t) (wait cv m) true s := by
  rintro s₁ ⟨hwaiting, place, h⟩ _
  exact safe_checkOwnership h (safe_waitHeld h hwaiting) fun _ => safe_return hwaiting h

/-! ## All code that can be run -/

theorem verified : assertions.Verified where
  entry := by
    intro ref s hresumed hfresh
    cases ref with
    | host => cases hfresh
    | thread t =>
        obtain ⟨place, h⟩ := hresumed
        exact safe_starter h hfresh
  timer := by
    intro self s code hsettled hcode
    cases self with
    | thread t => exact safe_yield hcode
    | host =>
        intro s₁ hempty hview
        have hexec : State.exec (.empty .ready) s₁ = [(true, s₁)] := by
          simp [State.exec, State.hasQueue, show s₁.queues .ready = [] from hempty _]
        have hkept : Kept .host s₁ := by
          refine ⟨fun q t hmem => ?_, (by simp)⟩
          rw [show s₁.queues q = [] from hempty q] at hmem
          cases hmem
        exact safe_read hexec trivial rfl hkept ⟨hempty, hcode.of_view hview⟩
  follow := by
    intro self enabled value s code hreturned hsettled hfollow
    cases hfollow with
    | loop =>
        obtain ⟨_, rfl, place, h⟩ := hreturned
        exact safe_cpuLoop h
    | user call =>
        obtain ⟨rfl, _⟩ := hreturned
        cases call with
        | create => exact safe_threadCreate
        | join u => exact safe_join
        | yield => exact safe_yield fun _ _ _ => ⟨rfl, (by simp)⟩
        | lock m => exact safe_lock
        | unlock m => exact safe_unlock
        | wait cv m => exact safe_wait
        | signal cv => exact safe_signal
        | broadcast cv => exact safe_broadcast
        | exit => exact safe_starterExit

/-- The invariant of the processor under the thread library. -/
theorem invariant_of_reachable
    {c : ThreadCpu} (hreach : machine.system.Reachable boot c) :
    assertions.CpuInvariant c :=
  Assertions.sound verified safe_cpuBoot ⟨nofun, nofun⟩ hreach

end Threads
end Eecs482
