import Eecs482.ThreadSafety

/-!
# The functions of the thread library are safe

One lemma for each function, which says that it may be called by a running
thread.  What happens between two switches is a chain of the steps of `Core`.
-/

namespace Eecs482
namespace Threads

open Uniprocessor

variable {place place' : ℕ → Place} {s s' : State} {t u m : ℕ} {q : Queue}
  {rest : List ℕ}

/-! ## Steps of a running thread -/

theorem Working.change
    (h : Working place t s) (hcore : Core place' s')
    (hrunning : s'.runningThread = s.runningThread)
    (hprevious : s'.previousThread = s.previousThread)
    (honly : ∀ u, place' u = .running ↔ place u = .running)
    (hjoined : Joined s'.log) : Working place' t s' where
  toCore := hcore
  running := hrunning.trans h.running
  only u := (honly u).trans (h.only u)
  previous p hp := by
    rw [hprevious, h.noPrevious] at hp
    cases hp
  joined := hjoined
  noPrevious := hprevious.trans h.noPrevious

theorem only_update
    {p p' : Place} (hplace : place u = p) (hp : p ≠ .running) (hp' : p' ≠ .running)
    (v : ℕ) : Function.update place u p' v = .running ↔ place v = .running := by
  by_cases hv : v = u
  · rw [hv, Function.update_self, hplace]
    exact iff_of_false hp' hp
  · rw [Function.update_of_ne hv]

/-- A running thread returns to user code. -/
theorem safe_return
    {threw : Bool} (hwaiting : waitingFor t s.log = none) (h : Working place t s) :
    assertions.Safe (.thread t)
      (.call .interruptEnable fun _ => .ret (.user threw)) false s :=
  ⟨⟨hwaiting, place, h⟩, fun _ _ _ => ⟨rfl, nofun⟩⟩

theorem Working.pushed
    (h : Working place t s)
    (hjoin : ∀ u, q = .joinQueue u → place u ≠ .unborn ∧ place u ≠ .finished)
    (hstatus : ∀ m, q = .mutexQueue m → (s.mutexes m).status = true) :
    Parked (Function.update place t (.queued q)) t (s.pushed t q) where
  toCore := h.toCore.pushed ((h.only t).mpr rfl) hjoin hstatus
  running := h.running
  noRunning u := by
    by_cases hu : u = t
    · rw [hu, Function.update_self]
      exact nofun
    · rw [Function.update_of_ne hu, ne_eq, h.only]
      exact hu
  noPrevious := h.noPrevious
  joined := h.joined.cons nofun

/-- The running thread joins a queue. -/
theorem safe_push
    {next : Unit → ThreadCode Outcome} (h : Working place t s)
    (hqueue : s.hasQueue q = true)
    (hjoin : ∀ u, q = .joinQueue u → place u ≠ .unborn ∧ place u ≠ .finished)
    (hstatus : ∀ m, q = .mutexQueue m → (s.mutexes m).status = true)
    (hnext : Parked (Function.update place t (.queued q)) t (s.pushed t q) →
      assertions.Safe (.thread t) (next ()) false (s.pushed t q)) :
    assertions.Safe (.thread t) (.call (.access (.push q)) next) false s := by
  have hparked := h.pushed hjoin hstatus
  have hexec : State.exec (.push q) s = [((), s.pushed t q)] := by
    simp only [State.exec, h.running, hqueue, if_true]
    rfl
  refine safe_access hexec trivial rfl (.of_event (.push t q) rfl ?_) hparked.kept
    JoinersStay.push (hnext hparked)
  cases q <;> trivial

/-- The thread joins a queue and gives up the processor. -/
theorem safe_block
    {next : Unit → ThreadCode Outcome} (h : Working place t s) (hq : q ≠ .ready)
    (hqueue : s.hasQueue q = true)
    (hjoin : ∀ u, q = .joinQueue u → place u ≠ .unborn ∧ place u ≠ .finished)
    (hstatus : ∀ m, q = .mutexQueue m → (s.mutexes m).status = true)
    (hnext : ∀ place s', Working place t s' →
      waitingFor t s'.log = waitingFor t (.push t q :: s.log) →
        assertions.Safe (.thread t) (next ()) false s') :
    assertions.Safe (.thread t)
      (.call (.access (.push q)) fun _ => swapHelper >>= next) false s := by
  refine safe_push h hqueue hjoin hstatus fun hparked => ?_
  refine safe_swapHelper hparked (Function.update_self ..) ?_ ?_
  · intro rest hready
    have hmem : t ∈ (s.pushed t q).queues .ready := by
      rw [hready]
      exact List.mem_cons_self
    rw [hparked.mem_iff, Function.update_self, Place.queued.injEq] at hmem
    exact hq hmem
  · intro place' s' hworking hview
    refine hnext place' s' hworking ?_
    simp only [threadView, Option.some.injEq, Prod.mk.injEq] at hview
    exact hview.2

/-! ## Threads -/

/-- `yield` ends as it began, with others having run in the meantime. -/
theorem safe_yield
    {code : ThreadCode Outcome}
    (hcode : assertions.Safe (.thread t) code true s) :
    assertions.Safe (.thread t) (yield >>= fun _ => code) true s := by
  rintro s₁ ⟨hwaiting, place, h⟩ hview
  cases hready : s₁.queues .ready with
  | nil =>
      have hexec : State.exec (.empty .ready) s₁ = [(true, s₁)] := by
        simp [State.exec, State.hasQueue, hready]
      refine safe_read hexec trivial rfl h.kept ?_
      exact ⟨⟨hwaiting, place, h⟩, hcode.of_view hview⟩
  | cons n rest =>
      have hexec : State.exec (.empty .ready) s₁ = [(false, s₁)] := by
        simp [State.exec, State.hasQueue, hready]
      refine safe_read hexec trivial rfl h.kept ?_
      refine safe_push h rfl (by simp) (by simp) fun hparked => ?_
      change assertions.Safe (.thread t)
        (swapHelper >>= (fun _ => interruptEnable) >>= fun _ => code) false _
      rw [Prog.bind_assoc]
      refine safe_swapHelper hparked (Function.update_self ..) ?_ ?_
      · intro rest' hfront
        have hmem : t ∈ s₁.queues .ready := by
          rw [pushed_queues, if_pos rfl, hready] at hfront
          rw [hready]
          cases hfront
          exact List.mem_cons_self
        exact h.notMem ((h.only t).mpr rfl) hmem
      · intro place' s' hworking hview'
        have hsame : threadView (.thread t) s' = threadView (.thread t) s₁ := by
          rw [hview']
          simp [threadView, State.pushed, State.note, State.push, State.setQueue,
            State.retain, waitingFor]
        have hwaiting' : waitingFor t s'.log = none := by
          simp only [threadView, Option.some.injEq, Prod.mk.injEq] at hsame
          rw [hsame.2, hwaiting]
        exact ⟨⟨hwaiting', place', hworking⟩, hcode.of_view (hsame.trans hview)⟩

/-- A thread object refers to a TCB until the thread has finished. -/
theorem Working.refs_ne_zero_iff (h : Working place t s) :
    s.refs u ≠ 0 ↔ u < s.created ∧ Event.finished u ∉ s.log := by
  have hcounted := h.counted u
  have hborn := h.unborn_iff u
  have hrunning := h.only u
  rw [← h.finished_iff u]
  rw [h.running, h.noPrevious, pointer_none] at hcounted
  by_cases hut : u = t
  · have hplace := hrunning.mpr hut
    rw [hplace] at hborn ⊢
    rw [hut, pointer_self] at hcounted
    have hnot : ¬s.created ≤ u := fun hle => by cases hborn.mpr hle
    refine iff_of_true (by rw [hut]; omega) ⟨by omega, (by simp)⟩
  · rw [pointer_of_ne fun heq => hut heq.symm] at hcounted
    cases hplace : place u with
    | unborn =>
        rw [hplace] at hborn hcounted
        have hle := hborn.mp rfl
        refine iff_of_false (fun hne => hne hcounted) fun hlt => ?_
        omega
    | running => exact absurd (hrunning.mp hplace) hut
    | queued q =>
        rw [hplace] at hborn hcounted
        have hnot : ¬s.created ≤ u := fun hle => by cases hborn.mpr hle
        simp only [Place.refs] at hcounted
        exact iff_of_true (by omega) ⟨by omega, (by simp)⟩
    | finished =>
        rw [hplace] at hcounted
        exact iff_of_false (fun hne => hne hcounted) fun hlive => hlive.2 rfl

theorem safe_join : assertions.Safe (.thread t) (join u) true s := by
  rintro s₁ ⟨hwaiting, place, h⟩ _
  by_cases hrefs : s₁.refs u = 0
  · have hexec : State.exec (.expired u) s₁ = [(true, s₁)] := by
      simp [State.exec, hrefs]
    exact safe_read hexec h.refs_ne_zero_iff rfl h.kept (safe_return hwaiting h)
  · have hexec : State.exec (.expired u) s₁ = [(false, s₁)] := by
      simp [State.exec, hrefs]
    obtain ⟨hborn, hlive⟩ := h.refs_ne_zero_iff.mp hrefs
    refine safe_read hexec h.refs_ne_zero_iff rfl h.kept ?_
    refine safe_block h (by simp) (bne_iff_ne.mpr hrefs) ?_ (by simp) ?_
    · rintro v heq
      cases heq
      rw [ne_eq, ne_eq, h.unborn_iff, h.finished_iff]
      exact ⟨by omega, hlive⟩
    · intro place' s' hworking hsame
      exact safe_return (hsame.trans hwaiting) hworking

/-- A thread is made and put into the ready queue. -/
theorem safe_threadCreate : assertions.Safe (.thread t) threadCreate true s := by
  rintro s₁ ⟨hwaiting, place, h⟩ _
  have hunborn := (h.unborn_iff s₁.created).mpr (Nat.le_refl _)
  have hne : s₁.created ≠ t := by
    intro heq
    rw [(h.only _).mpr heq] at hunborn
    cases hunborn
  have hzero : s₁.refs s₁.created = 0 := by
    have hcounted := h.counted s₁.created
    rw [hunborn, h.running, h.noPrevious, pointer_of_ne hne.symm] at hcounted
    exact hcounted
  have hworking : Working (Function.update place s₁.created (.queued .ready)) t
      s₁.spawned :=
    h.change (h.toCore.spawned hzero) rfl rfl (only_update hunborn nofun nofun) h.joined
  refine ⟨⟨trivial, fun answer s' hmem => ?_⟩, nofun, fun answer s' hmem => ?_⟩
  · rcases List.mem_pair.mp hmem with heq | heq <;> cases heq <;>
      exact .of_queues fun _ => rfl
  rcases List.mem_pair.mp hmem with heq | heq
  · cases heq
    exact ⟨⟨fun _ _ _ => rfl, nofun, h.kept⟩, safe_return hwaiting h⟩
  · cases heq
    have hkept : ∀ v, s₁.refs v ≠ 0 →
        Function.update s₁.refs s₁.created 1 v ≠ 0 := by
      intro v hv
      by_cases hvc : v = s₁.created <;> simp [hvc, hv]
    have hmade : Kept (.thread t) { s₁ with
        created := s₁.created + 1
        refs := Function.update s₁.refs s₁.created 1 } :=
      ⟨fun q v hv => hkept v (h.kept.1 q v hv), fun v hv => hkept v (h.kept.2 v hv)⟩
    refine ⟨⟨fun ref _ _ => ?_, fun ref href => ?_, hmade⟩, ?_⟩
    · cases ref <;> rfl
    · cases href
      refine ⟨fun heq => hne (by cases heq; rfl), ?_⟩
      have hnot : Event.finished s₁.created ∉ s₁.log := by
        rw [← h.finished_iff, hunborn]
        exact nofun
      simp only [threadView, hnot, h.toCore.waitingFor_unborn, decide_false]
    refine safe_access rfl trivial rfl (.of_log rfl) hmade.push .push ?_
    have hdrop : State.exec (.tcbReset s₁.created)
        (State.push s₁.created .ready { s₁ with
          created := s₁.created + 1
          refs := Function.update s₁.refs s₁.created 1 }) = [((), s₁.spawned)] := by
      simp only [State.exec, List.cons.injEq, Prod.mk.injEq, true_and, and_true]
      rw [drop_eq (.inl (by simp [State.push, State.setQueue, State.retain]))]
      simp [State.spawned, State.push, State.setQueue, State.retain]
    exact safe_access hdrop trivial rfl (.of_log rfl) hworking.kept
      (.of_queues fun _ => rfl) (safe_return hwaiting hworking)

theorem waitingFor_popped
    {popped log : List Event} (hpopped : ∀ event ∈ popped, ∃ u, event = .pop u q) :
    waitingFor t (popped ++ log) = waitingFor t log := by
  induction popped with
  | nil => rfl
  | cons event popped ih =>
      obtain ⟨u, rfl⟩ := hpopped event List.mem_cons_self
      exact ih fun event hevent => hpopped event (List.mem_cons_of_mem _ hevent)

/-- All threads of a queue are made ready. -/
theorem safe_wakeAll
    {self : ContextRef} {next : Unit → ThreadCode Outcome} (h : Core place s)
    (hkept : Kept self s) (hq : q ≠ .ready) (hmutex : ∀ m, q ≠ .mutexQueue m)
    (hqueue : s.hasQueue q = true)
    (hjoin : ∀ u, q = .joinQueue u → self = .thread u ∧ Event.finished u ∉ s.log)
    (hnext : Kept self (s.wakeAll q) →
      assertions.Safe self (next ()) false (s.wakeAll q)) :
    assertions.Safe self (.call (.access (.wakeAll q)) next) false s := by
  obtain ⟨hcore, _, hready, _, _, hrefs, _, _, hother, popped, hlog, hpopped⟩ :=
    h.wakeAll hq hmutex
  have hexec : State.exec (.wakeAll q) s = [((), s.wakeAll q)] := by
    simp only [State.exec, hqueue, if_true]
  have hkept' : Kept self (s.wakeAll q) := by
    refine hcore.kept fun v hv => ?_
    rw [hrefs]
    exact hkept.2 v hv
  refine safe_access hexec trivial rfl ?_ hkept' ?_ (hnext hkept')
  · intro ref _
    cases ref with
    | host => rfl
    | thread v =>
        have hnone : Event.finished v ∉ popped := by
          intro hmem
          obtain ⟨w, heq⟩ := hpopped _ hmem
          cases heq
        simp only [threadView, hlog, List.mem_append, hnone, false_or,
          waitingFor_popped hpopped]
  · intro v u hmem
    by_cases hv : q = .joinQueue v
    · subst hv
      obtain ⟨hself, hlive⟩ := hjoin v rfl
      refine .inr ⟨rfl, hself, hlive, ?_⟩
      rw [hready]
      exact List.mem_append_right _ hmem
    · refine .inl ?_
      rw [hother _ (Ne.symm hv) (by simp)]
      exact hmem

/-- A new thread drops `previous_thread` and calls its start function. -/
theorem safe_starter
    (h : Switched place t s)
    (hfresh : threadView (.thread t) s = some (false, none)) :
    assertions.Safe (.thread t) starter false s := by
  refine safe_previousReset h fun s' hworking hview => safe_return ?_ hworking
  rw [hfresh] at hview
  simp only [threadView, Option.some.injEq, Prod.mk.injEq] at hview
  exact hview.2

/-- What a thread that has woken its joiners leaves behind. -/
structure Exited (place : ℕ → Place) (t : ℕ) (s : State) : Prop extends
    Parked place t s where
  finished : place t = .finished

theorem Working.exited (h : Working place t s) :
    ∃ place', Exited place' t ((s.wakeAll (.joinQueue t)).note (.finished t)) := by
  obtain ⟨hcore, hempty, _, hrunning, hprevious, _, _, _, _, popped, hlog, hpopped⟩ :=
    h.toCore.wakeAll (q := .joinQueue t) (by simp) (by simp)
  have hplace : wokenPlace place (s.queues (.joinQueue t)) t = .running := by
    rw [wokenPlace, if_neg (h.notMem ((h.only t).mpr rfl))]
    exact (h.only t).mpr rfl
  refine ⟨_, ⟨⟨hcore.finished hplace hempty, hrunning.trans h.running, fun u => ?_,
    hprevious.trans h.noPrevious, fun v u hmem => ?_⟩, Function.update_self ..⟩⟩
  · by_cases hu : u = t
    · rw [hu, Function.update_self]
      simp
    · rw [Function.update_of_ne hu, wokenPlace]
      split
      · simp
      · rw [ne_eq, h.only]
        exact hu
  · change Event.pop v (.joinQueue u) ∈
      Event.finished t :: (s.wakeAll (.joinQueue t)).log at hmem
    change Event.finished u ∈ Event.finished t :: (s.wakeAll (.joinQueue t)).log
    rw [hlog] at hmem ⊢
    rcases List.mem_cons.mp hmem with heq | hmem
    · cases heq
    · rcases List.mem_append.mp hmem with hnew | hold
      · obtain ⟨w, heq⟩ := hpopped _ hnew
        cases heq
        exact List.mem_cons_self
      · exact List.mem_cons_of_mem _ (List.mem_append_right _ (h.joined v u hold))

theorem Exited.refs_eq (h : Exited place t s) : s.refs t = 1 := by
  have hcounted := h.counted t
  rw [h.finished, h.running, h.noPrevious, pointer_self] at hcounted
  exact hcounted

/-- The thread that has finished refers to itself by `previous_thread` only. -/
def State.leaving (t : ℕ) (s : State) : State :=
  { s with runningThread := none, previousThread := some t }

theorem Exited.previousRunning_eq (h : Exited place t s) :
    s.previousRunning = { s with
      previousThread := some t
      refs := Function.update s.refs t 2 } := by
  rw [State.previousRunning, h.running, h.noPrevious]
  simp only [State.dropOld, State.retain, h.refs_eq, h.running]

theorem Exited.runningReset_eq (h : Exited place t s) :
    s.previousRunning.runningReset = s.leaving t := by
  have hdrop : State.drop t { s with
      runningThread := none
      previousThread := some t
      refs := Function.update s.refs t 2 } = s.leaving t := by
    rw [drop_eq (.inl (by simp))]
    simp only [State.leaving, Function.update_self, Function.update_idem,
      Nat.add_one_sub_one]
    rw [← h.refs_eq, Function.update_eq_self]
  rw [h.previousRunning_eq, State.runningReset]
  simp only [h.running]
  exact hdrop

theorem Exited.leaving (h : Exited place t s) : Core place (s.leaving t) := by
  refine ⟨h.toPlaced.of_same rfl rfl fun _ => Iff.rfl,
    ⟨h.holds_iff, h.owner_ne, h.born, h.free, h.waiting⟩, fun v => ?_, h.hostContext⟩
  have hv := h.counted v
  rw [h.running, h.noPrevious] at hv
  exact hv.trans (Nat.add_right_comm _ _ _)

/-- A thread that has finished switches away for good. -/
theorem Exited.gone
    (h : Exited place t s)
    (hview : threadView (.thread t) s' = threadView (.thread t) s) :
    ¬assertions.Resumed (.thread t) s' := by
  rintro ⟨place', hswitched⟩
  simp only [threadView, Option.some.injEq, Prod.mk.injEq, decide_eq_decide] at hview
  have hfinished := (hswitched.finished_iff t).mpr
    (hview.1.mpr ((h.finished_iff t).mp h.finished))
  rw [(hswitched.only t).mpr rfl] at hfinished
  cases hfinished

/-- The switch at the end of `starter`. -/
theorem Exited.safe (h : Exited place t s) :
    assertions.Safe (.thread t) (do
      if !(← access (.empty .ready)) then
        access .previousRunning
        access .runningReset
        access .runningFront
        access (.pop .ready)
        let next ← access .running
        setcontext (.thread next)
      else
        setcontext .host
      return .user false) false s := by
  cases hready : s.queues .ready with
  | nil =>
      have hempty : State.exec (.empty .ready) s = [(true, s)] := by
        simp [State.exec, State.hasQueue, hready]
      refine safe_read hempty trivial rfl h.kept ?_
      exact ⟨(by simp), h.hostContext, ⟨hready, place, h.toCore, h.noRunning, h.noPrevious,
        .inr hready, h.joined⟩, h.toCore.kept (by simp), fun s' hview => h.gone hview⟩
  | cons n rest =>
      have hempty : State.exec (.empty .ready) s = [(false, s)] := by
        simp [State.exec, State.hasQueue, hready]
      refine safe_read hempty trivial rfl h.kept ?_
      have hkept : Kept (.thread t) s.previousRunning := by
        rw [h.previousRunning_eq]
        have hrefs : ∀ v, s.refs v ≠ 0 → Function.update s.refs t 2 v ≠ 0 := by
          intro v hv
          by_cases hvt : v = t <;> simp [hvt, hv]
        exact ⟨fun q v hv => hrefs v (h.kept.1 q v hv),
          fun v hv => hrefs v (h.kept.2 v hv)⟩
      refine safe_access rfl trivial rfl (.of_log (by rw [h.previousRunning_eq])) hkept
        (.of_queues fun _ => by rw [h.previousRunning_eq]) ?_
      have hreset : State.exec .runningReset s.previousRunning =
          [((), s.leaving t)] := by
        rw [← h.runningReset_eq]
        rfl
      have hkept' : Kept (.thread t) (s.leaving t) :=
        h.kept.of_same rfl rfl
      refine safe_access hreset trivial rfl
        (.of_log (by rw [h.previousRunning_eq]; rfl)) hkept'
        (.of_queues fun _ => by rw [h.previousRunning_eq]; rfl) ?_
      refine safe_dispatch h.leaving hkept' hready (fun _ hrun => by cases hrun) fun hdispatch => ?_
      have hswitched := h.leaving.switched hready hdispatch h.noRunning
        (fun p hp => by cases hp; exact h.finished) h.joined
      refine ⟨fun heq => ?_, bne_iff_ne.mpr (hswitched.kept.2 n rfl), ⟨_, hswitched⟩,
        hswitched.kept, fun s' hview => h.gone (hview.trans ?_)⟩
      · cases heq
        have hplace := (h.front hready).1
        rw [h.finished] at hplace
        cases hplace
      · simp [threadView, State.dispatched, State.leaving, waitingFor]

theorem safe_starterExit : assertions.Safe (.thread t) starterExit true s := by
  rintro s₁ ⟨hwaiting, place, h⟩ _
  have hself : State.exec .running s₁ = [(t, s₁)] := by
    simp only [State.exec, h.running]
  refine safe_read hself trivial rfl h.kept ?_
  have hfinished : Event.finished t ∉ s₁.log := by
    rw [← h.finished_iff, (h.only t).mpr rfl]
    simp
  refine safe_wakeAll h.toCore h.kept (by simp) (by simp) (bne_iff_ne.mpr (h.kept.2 t rfl))
    (fun u hu => by cases hu; exact ⟨rfl, hfinished⟩) fun hkept => ?_
  obtain ⟨place', hexited⟩ := h.exited
  have hnote : State.exec (.note .finished) (s₁.wakeAll (.joinQueue t)) =
      [((), (s₁.wakeAll (.joinQueue t)).note (.finished t))] := by
    have hrunning : (s₁.wakeAll (.joinQueue t)).runningThread = some t :=
      hexited.running
    simp only [State.exec, hrunning]
  exact safe_still hnote trivial rfl hkept rfl rfl (.of_event (.finished t) rfl rfl)
    hexited.safe

/-! ## The host -/

/-- `running_thread.reset()` when no thread runs spares the waiting threads. -/
theorem Hosted.runningReset
    (h : Hosted place s) (hs' : s' = { s with hostContext := false }) :
    ∃ refs, s'.runningReset = { s' with runningThread := none, refs := refs } ∧
      ∀ q v, v ∈ s.queues q → refs v ≠ 0 := by
  subst hs'
  cases hrunning : s.runningThread with
  | none =>
      refine ⟨s.refs, ?_, h.kept.1⟩
      simp only [State.runningReset]
      rfl
  | some t =>
      have hcounted := h.counted t
      rw [hrunning, h.noPrevious, pointer_self] at hcounted
      have hone : s.refs t = (place t).refs + 1 := hcounted
      have hdrop : State.drop t { s with hostContext := false, runningThread := none } =
          { s with
            hostContext := false
            runningThread := none
            refs := Function.update s.refs t (s.refs t - 1) } := by
        refine drop_eq ?_
        cases hplace : place t with
        | unborn =>
            refine .inr ⟨by rw [hone, hplace]; rfl, ?_⟩
            rw [List.eq_nil_iff_forall_not_mem]
            intro v hmem
            exact (h.joining v t ((h.mem_iff _ v).mp hmem)).1 hplace
        | running => exact absurd hplace (h.noRunning t)
        | queued q => exact .inl (by rw [hone, hplace]; exact Nat.le_refl 2)
        | finished =>
            exact .inr ⟨by rw [hone, hplace]; rfl, h.toCore.no_joiners hplace⟩
      refine ⟨Function.update s.refs t (s.refs t - 1), ?_, fun q v hmem => ?_⟩
      · simp only [State.runningReset]
        exact hdrop
      · by_cases hv : v = t
        · subst hv
          rw [Function.update_self, hone, (h.mem_iff q v).mp hmem]
          exact nofun
        · rw [Function.update_of_ne hv]
          exact h.kept.1 q v hmem

theorem safe_cpuLoop (h : Hosted place s) :
    assertions.Safe .host cpuLoop false s := by
  cases hready : s.queues .ready with
  | cons n rest =>
      have hempty : State.exec (.empty .ready) s = [(false, s)] := by
        simp [State.exec, State.hasQueue, hready]
      refine safe_read hempty trivial rfl h.kept ?_
      have hnone : s.runningThread = none := by
        rcases h.empty with hnone | hnil
        · exact hnone
        · rw [hready] at hnil
          cases hnil
      refine safe_dispatch h.toCore h.kept hready
        (fun v hv => by rw [hnone] at hv; cases hv) fun hdispatch => ?_
      have hswitched := h.toCore.switched hready hdispatch h.noRunning
        (fun p hp => by rw [h.noPrevious] at hp; cases hp) h.joined
      refine ⟨rfl, (by simp), hswitched.hostContext, bne_iff_ne.mpr (hswitched.kept.2 n rfl),
        ⟨_, hswitched⟩, hswitched.kept, ?_⟩
      rintro s' ⟨_, place', h'⟩ _
      have hsame : s'.previousReset = s' := by
        have hprevious := h'.noPrevious
        cases s'
        cases hprevious
        rfl
      refine safe_access rfl trivial rfl (.of_log (by rw [hsame]))
        (by rw [hsame]; exact h'.kept) (.of_queues fun _ => by rw [hsame]) ?_
      exact ⟨rfl, rfl, place', by rw [hsame]; exact h'⟩
  | nil =>
      have hempty : State.exec (.empty .ready) s = [(true, s)] := by
        simp [State.exec, State.hasQueue, hready]
      refine safe_read hempty trivial rfl h.kept ?_
      refine safe_still rfl trivial rfl h.kept rfl rfl (.of_log rfl) ?_
      obtain ⟨refs, hreset, hrefs⟩ := h.runningReset rfl
      have hkept : ∀ s' : State, s'.queues = s.queues → s'.refs = refs →
          Kept .host s' := by
        intro s' hqueues hs'
        refine ⟨fun q v hmem => ?_, (by simp)⟩
        rw [hqueues] at hmem
        rw [hs']
        exact hrefs q v hmem
      refine safe_access rfl trivial rfl (.of_log (by rw [hreset]))
        (hkept _ (by rw [hreset]) (by rw [hreset]))
        (.of_queues fun _ => by rw [hreset]) ?_
      rw [hreset]
      have hprevious : ∀ s' : State, s'.previousThread = none → s'.previousReset = s' := by
        intro s' hnone
        cases s'
        cases hnone
        rfl
      have hlast := hprevious { s with
        hostContext := false, runningThread := none, refs := refs } h.noPrevious
      have hexec : State.exec .previousReset { s with
            hostContext := false, runningThread := none, refs := refs } =
          [((), { s with
            hostContext := false, runningThread := none, refs := refs })] := by
        rw [State.exec, hlast]
      refine safe_read hexec trivial rfl (hkept _ rfl rfl) ?_
      exact ⟨rfl, place, ⟨h.toPlaced.of_same rfl rfl fun _ => Iff.rfl,
        ⟨h.holds_iff, h.owner_ne, h.born, h.free, h.waiting⟩, h.noRunning, hready⟩⟩

/-- Nothing has been allocated but the context of the host. -/
theorem Core.initial : Core (fun _ => .unborn) { hostContext := true } where
  nodup _ := List.nodup_nil
  mem_iff _ _ := iff_of_false List.not_mem_nil nofun
  unborn_iff t := iff_of_true rfl (Nat.zero_le t)
  finished_iff _ := iff_of_false nofun List.not_mem_nil
  joining := nofun
  holds_iff _ _ := iff_of_false id nofun
  owner_ne := nofun
  born _ _ := False.elim
  free _ _ := rfl
  waiting := nofun
  counted _ := rfl
  hostContext := rfl

theorem safe_cpuBoot : assertions.Safe .host cpuBoot false {} := by
  have hempty : Kept .host {} := ⟨(by simp), (by simp)⟩
  have hspawned := Core.initial.spawned rfl
  refine ⟨⟨trivial, fun answer s' hmem => ?_⟩, List.cons_ne_nil _ _, fun answer s' hmem => ?_⟩
  · rcases List.mem_pair.mp hmem with heq | heq <;> cases heq <;>
      exact .of_queues fun _ => rfl
  rcases List.mem_pair.mp hmem with heq | heq
  · cases heq
    exact ⟨⟨fun _ _ _ => rfl, (fun _ hmakes => by cases hmakes), hempty⟩, fun _ => rfl,
      fun _ _ _ => trivial⟩
  · cases heq
    have hmade : Kept .host { ({} : State) with
        created := 1
        refs := Function.update (fun _ => 0) 0 1 } :=
      ⟨(by simp), (by simp)⟩
    refine ⟨⟨fun ref _ _ => ?_, fun ref href => ?_, hmade⟩, ?_⟩
    · cases ref <;> rfl
    · cases href
      exact ⟨(by simp), rfl⟩
    refine safe_access rfl trivial rfl (.of_log rfl) hmade.push .push ?_
    have hdrop : State.exec (.tcbReset 0) (State.push 0 .ready { ({} : State) with
        created := 1
        refs := Function.update (fun _ => 0) 0 1 }) = [((), State.spawned {})] := by
      simp only [State.exec, List.cons.injEq, Prod.mk.injEq, true_and, and_true]
      rw [drop_eq (.inl (by simp [State.push, State.setQueue, State.retain]))]
      simp [State.spawned, State.push, State.setQueue, State.retain]
    have hkept : Kept .host (State.spawned {}) :=
      ⟨fun _ _ hmem => hspawned.refs_ne_zero hmem, (by simp)⟩
    refine safe_access hdrop trivial rfl (.of_log rfl) hkept (.of_queues fun _ => rfl) ?_
    refine safe_still rfl trivial rfl hkept rfl rfl (.of_log rfl) ?_
    refine ⟨rfl, rfl, _, hspawned, fun u => ?_, rfl, .inl rfl, fun _ _ hmem => by cases hmem⟩
    by_cases hu : u = 0 <;> simp [hu]

end Threads
end Eecs482
