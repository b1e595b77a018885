import Eecs482.UniprocessorRules
import Eecs482.ThreadLibrary
import Eecs482.ThreadInvariant

/-!
# What the threads agree on

When a thread is switched to, it is the one that is placed as running, and
`previous_thread` is a thread that has finished, if any.  Between two switches
the library moves threads from place to place by itself.
-/

namespace Eecs482
namespace Threads

open Uniprocessor

/-! ## Assertions -/

/-- Joiners are woken by the end of the thread only. -/
def Joined (log : List Event) : Prop :=
  ∀ t u, Event.pop t (.joinQueue u) ∈ log → Event.finished u ∈ log

/-- The thread `t` has just been switched to. -/
structure Switched (place : ℕ → Place) (t : ℕ) (s : State) : Prop extends
    Core place s where
  running : s.runningThread = some t
  only : ∀ u, place u = .running ↔ u = t
  previous : ∀ p, s.previousThread = some p → place p = .finished
  joined : Joined s.log

/-- The thread `t` runs. -/
structure Working (place : ℕ → Place) (t : ℕ) (s : State) : Prop extends
    Switched place t s where
  noPrevious : s.previousThread = none

/-- The thread `t` is going to switch to another. -/
structure Parked (place : ℕ → Place) (t : ℕ) (s : State) : Prop extends
    Core place s where
  running : s.runningThread = some t
  noRunning : ∀ u, place u ≠ .running
  noPrevious : s.previousThread = none
  joined : Joined s.log

/-- The host runs. -/
structure Hosted (place : ℕ → Place) (s : State) : Prop extends Core place s where
  noRunning : ∀ u, place u ≠ .running
  noPrevious : s.previousThread = none
  empty : s.runningThread = none ∨ s.queues .ready = []
  joined : Joined s.log

/-- Nothing will run any more. -/
structure Stopped (place : ℕ → Place) (s : State) : Prop extends
    Placed place s, Owned place s where
  noRunning : ∀ u, place u ≠ .running
  ready : s.queues .ready = []

/-- Nothing that is going to run has been released. -/
def Kept (self : ContextRef) (s : State) : Prop :=
  (∀ q t, t ∈ s.queues q → s.refs t ≠ 0) ∧ ∀ t, self = .thread t → s.refs t ≠ 0

/-- The joiners of a thread stay until it wakes them at its end. -/
def JoinersStay (self : ContextRef) (op : ThreadOp) (s s' : State) : Prop :=
  ∀ t u, u ∈ s.queues (.joinQueue t) →
    u ∈ s'.queues (.joinQueue t) ∨
      op = .wakeAll (.joinQueue t) ∧ self = .thread t ∧ Event.finished t ∉ s.log ∧
        u ∈ s'.queues .ready

/-- What the tests of the library find out. -/
def Tested (self : ContextRef) (s : State) : ThreadOp → Prop
  | .expired t => s.refs t ≠ 0 ↔ t < s.created ∧ Event.finished t ∉ s.log
  | .checkOwnership m => ∃ t, self = .thread t ∧
      (s.checkOwnership m = true ↔ Holds t m s.log)
  | _ => True

/-- A thread knows whether it has finished and what it waits for. -/
def threadView : ContextRef → State → Option (Bool × Option ℕ)
  | .host, _ => none
  | .thread t, s => some (decide (Event.finished t ∈ s.log), waitingFor t s.log)

abbrev assertions : Assertions machine where
  Local := Option (Bool × Option ℕ)
  view := threadView
  fresh := some (false, none)
  Settled
    | .host, s => ∀ q, s.queues q = []
    | .thread t, s => waitingFor t s.log = none ∧ ∃ place, Working place t s
  Resumed
    | .host, s => s.queues .ready = [] ∧ ∃ place, Hosted place s
    | .thread t, s => ∃ place, Switched place t s
  Returned ref enabled
    | .user _, _ => enabled = true ∧ ref ≠ .host
    | .loop, s => ref = .host ∧ enabled = false ∧ ∃ place, Hosted place s
    | _, _ => True
  Idle ref s := ref = .host ∧ ∃ place, Stopped place s
  Always := Kept
  Guard self op s := Tested self s op ∧
    ∀ answer s', (answer, s') ∈ State.exec op s → JoinersStay self op s s'

variable {place : ℕ → Place} {s s' : State} {t u m : ℕ} {q : Queue} {rest : List ℕ}
  {self : ContextRef} {op : ThreadOp}

/-! ## Frames -/

/-- Nobody else learns anything about himself. -/
def ViewsStay (self : ContextRef) (s s' : State) : Prop :=
  ∀ ref, ref ≠ self → threadView ref s' = threadView ref s

theorem ViewsStay.of_log (hlog : s'.log = s.log) : ViewsStay self s s' := by
  intro ref _
  cases ref with
  | host => rfl
  | thread v => simp only [threadView, hlog]

/-- The event says nothing about the views of those other than `self`. -/
def Event.Private (self : ContextRef) : Event → Prop
  | .push t (.mutexQueue _) => self = .thread t
  | .returned t _ => self = .thread t
  | .finished t => self = .thread t
  | _ => True

theorem ViewsStay.of_event
    (event : Event) (hlog : s'.log = event :: s.log) (hevent : event.Private self) :
    ViewsStay self s s' := by
  intro ref hne
  cases ref with
  | host => rfl
  | thread v =>
      have hother : ∀ t, self = .thread t → t ≠ v := by
        rintro t rfl rfl
        exact hne rfl
      simp only [threadView, hlog, List.mem_cons]
      cases event with
      | push t q =>
          cases q with
          | mutexQueue k => simp [waitingFor, hother t hevent]
          | ready => simp [waitingFor]
          | cvQueue cv => simp [waitingFor]
          | joinQueue t => simp [waitingFor]
      | returned t k => simp [waitingFor, hother t hevent]
      | finished t => simp [waitingFor, (hother t hevent).symm]
      | pop t q => simp [waitingFor]
      | handed t k => simp [waitingFor]
      | unlocked t k => simp [waitingFor]
      | waitCalled t k => simp [waitingFor]

theorem Kept.of_same
    (h : Kept self s) (hqueues : s'.queues = s.queues) (hrefs : s'.refs = s.refs) :
    Kept self s' := by
  rw [Kept, hqueues, hrefs]
  exact h

theorem Core.kept
    (h : Core place s) (hself : ∀ t, self = .thread t → s.refs t ≠ 0) : Kept self s :=
  ⟨fun _ _ hmem => h.refs_ne_zero hmem, hself⟩

theorem Kept.push (h : Kept self s) : Kept self (s.push t q) := by
  have hrefs : ∀ v, (s.push t q).refs v ≠ 0 ↔ v = t ∨ s.refs v ≠ 0 := by
    intro v
    change Function.update s.refs t (s.refs t + 1) v ≠ 0 ↔ _
    by_cases hv : v = t
    · subst hv
      simp
    · simp [hv]
  refine ⟨fun r v hmem => (hrefs v).mpr ?_, fun v hv => (hrefs v).mpr (.inr (h.2 v hv))⟩
  rw [push_queues] at hmem
  split at hmem
  · rcases List.mem_append.mp hmem with hold | hnew
    · exact .inr (h.1 q v hold)
    · exact .inl (List.mem_singleton.mp hnew)
  · exact .inr (h.1 r v hmem)

theorem JoinersStay.of_queues
    (hqueues : ∀ t, s'.queues (.joinQueue t) = s.queues (.joinQueue t)) :
    JoinersStay self op s s' := by
  intro t u hmem
  rw [hqueues]
  exact .inl hmem

theorem JoinersStay.push : JoinersStay self op s (s.push t q) := by
  intro v u hmem
  refine .inl ?_
  rw [push_queues]
  split
  case isTrue heq =>
      rw [← heq]
      exact List.mem_append_left _ hmem
  case isFalse => exact hmem

/-! ## Rules -/

section Rules

variable {next : threadInterface.Answer op → ThreadCode Outcome}
  {answer : threadInterface.Answer op}

/-- The rule of a statement. -/
theorem safe_access
    (hexec : State.exec op s = [(answer, s')]) (htest : Tested self s op)
    (hmakes : machine.makes op answer = none) (hviews : ViewsStay self s s')
    (hkept : Kept self s') (hjoiners : JoinersStay self op s s')
    (hnext : assertions.Safe self (next answer) false s') :
    assertions.Safe self (.call (.access op) next) false s := by
  refine Assertions.Safe.access ⟨htest, fun answer' t hmem => ?_⟩ hexec
    ⟨fun ref hne _ => hviews ref hne, fun ref hmade => ?_, hkept⟩ hnext
  · rw [hexec, List.mem_singleton] at hmem
    cases hmem
    exact hjoiners
  · rw [hmakes] at hmade
    cases hmade

/-- The rule of a statement that moves no thread. -/
theorem safe_still
    (hexec : State.exec op s = [(answer, s')]) (htest : Tested self s op)
    (hmakes : machine.makes op answer = none) (hkept : Kept self s)
    (hqueues : s'.queues = s.queues) (hrefs : s'.refs = s.refs)
    (hviews : ViewsStay self s s')
    (hnext : assertions.Safe self (next answer) false s') :
    assertions.Safe self (.call (.access op) next) false s :=
  safe_access hexec htest hmakes hviews (hkept.of_same hqueues hrefs)
    (.of_queues fun _ => by rw [hqueues]) hnext

/-- The rule of a statement that changes nothing. -/
theorem safe_read
    (hexec : State.exec op s = [(answer, s)]) (htest : Tested self s op)
    (hmakes : machine.makes op answer = none) (hkept : Kept self s)
    (hnext : assertions.Safe self (next answer) false s) :
    assertions.Safe self (.call (.access op) next) false s :=
  safe_still hexec htest hmakes hkept rfl rfl (.of_log rfl) hnext

end Rules

/-! ## Switches -/

theorem Core.no_joiners
    (h : Core place s) (hfinished : place t = .finished) :
    s.queues (.joinQueue t) = [] := by
  rw [List.eq_nil_iff_forall_not_mem]
  intro v hmem
  exact (h.joining v t ((h.mem_iff _ v).mp hmem)).2 hfinished

theorem Switched.kept (h : Switched place t s) : Kept (.thread t) s := by
  refine h.toCore.kept fun v hv => ?_
  cases hv
  have hcounted := h.counted t
  rw [h.running, pointer_self] at hcounted
  omega

theorem Parked.kept (h : Parked place t s) : Kept (.thread t) s := by
  refine h.toCore.kept fun v hv => ?_
  cases hv
  have hcounted := h.counted t
  rw [h.running, pointer_self] at hcounted
  omega

theorem Hosted.kept (h : Hosted place s) : Kept .host s :=
  h.toCore.kept nofun

/-- `previous_thread.reset()` destroys the thread that has finished. -/
theorem Switched.previousReset_eq
    {p : ℕ} (h : Switched place t s) (hprevious : s.previousThread = some p) :
    s.previousReset = { s with
      previousThread := none
      refs := Function.update s.refs p 0 } := by
  have hfinished := h.previous p hprevious
  have hne : t ≠ p := by
    rintro rfl
    rw [(h.only t).mpr rfl] at hfinished
    cases hfinished
  have hcounted := h.counted p
  rw [hfinished, h.running, hprevious, pointer_of_ne hne, pointer_self] at hcounted
  have hone : s.refs p = 1 := hcounted
  have hdrop : State.drop p { s with previousThread := none } =
      { s with
        previousThread := none
        refs := Function.update s.refs p (s.refs p - 1) } :=
    drop_eq (.inr ⟨hone, h.toCore.no_joiners hfinished⟩)
  rw [State.previousReset, hprevious, State.dropOld, hdrop, hone]

theorem Switched.previousReset (h : Switched place t s) :
    Working place t s.previousReset := by
  cases hprevious : s.previousThread with
  | none =>
      have hsame : s.previousReset = s := by
        cases s
        cases hprevious
        rfl
      rw [hsame]
      exact ⟨h, hprevious⟩
  | some p =>
      have hfinished := h.previous p hprevious
      rw [h.previousReset_eq hprevious]
      refine ⟨⟨⟨h.toPlaced.of_same rfl rfl fun _ => Iff.rfl,
        ⟨h.holds_iff, h.owner_ne, h.born, h.free, h.waiting⟩, ?_, h.hostContext⟩,
        h.running, h.only, nofun, h.joined⟩, rfl⟩
      intro v
      have hcounted := h.counted v
      change Function.update s.refs p 0 v =
        (place v).refs + pointer s.runningThread v + pointer none v
      by_cases hv : v = p
      · subst hv
        have hother : pointer s.runningThread v = 0 := by
          rw [h.running]
          refine pointer_of_ne fun heq => ?_
          rw [(h.only v).mpr heq.symm] at hfinished
          cases hfinished
        rw [Function.update_self, hfinished, hother]
        rfl
      · rw [Function.update_of_ne hv]
        rw [hprevious, pointer_of_ne fun heq => hv heq.symm] at hcounted
        exact hcounted

theorem Switched.previousReset_same (h : Switched place t s) :
    s.previousReset.queues = s.queues ∧ s.previousReset.log = s.log := by
  cases hprevious : s.previousThread with
  | none =>
      have hsame : s.previousReset = { s with previousThread := none } := by
        rw [State.previousReset, hprevious]
        rfl
      rw [hsame]
      exact ⟨rfl, rfl⟩
  | some p =>
      rw [h.previousReset_eq hprevious]
      exact ⟨rfl, rfl⟩

/-- The thread that has been switched to drops `previous_thread`. -/
theorem safe_previousReset
    {next : Unit → ThreadCode Outcome} (h : Switched place t s)
    (hnext : ∀ s', Working place t s' → threadView (.thread t) s' =
      threadView (.thread t) s → assertions.Safe (.thread t) (next ()) false s') :
    assertions.Safe (.thread t) (.call (.access .previousReset) next) false s := by
  obtain ⟨hqueues, hlog⟩ := h.previousReset_same
  refine safe_access rfl trivial rfl (.of_log hlog) h.previousReset.kept
    (.of_queues fun _ => by rw [hqueues]) (hnext _ h.previousReset ?_)
  simp only [threadView, hlog]

theorem Joined.cons
    {event : Event} {log : List Event} (h : Joined log)
    (hevent : ∀ t u, event ≠ .pop t (.joinQueue u)) : Joined (event :: log) := by
  intro v u hmem
  rcases List.mem_cons.mp hmem with heq | hold
  · exact absurd heq.symm (hevent v u)
  · exact List.mem_cons_of_mem _ (h v u hold)

theorem Core.switched
    {n : ℕ} (h : Core place s) (hready : s.queues .ready = n :: rest)
    (hdispatch : s.CanDispatch n) (hnone : ∀ u, place u ≠ .running)
    (hprevious : ∀ p, s.previousThread = some p → place p = .finished)
    (hjoined : Joined s.log) :
    Switched (Function.update place n .running) n (s.dispatched n rest) where
  toCore := h.dispatched hready hdispatch
  running := rfl
  only u := by
    by_cases hu : u = n
    · rw [hu, Function.update_self]
      exact iff_of_true rfl rfl
    · rw [Function.update_of_ne hu]
      exact iff_of_false (hnone u) hu
  previous p hp := by
    have hfinished := hprevious p hp
    have hne : p ≠ n := by
      rintro rfl
      rw [(h.front hready).1] at hfinished
      cases hfinished
    rw [Function.update_of_ne hne]
    exact hfinished
  joined := hjoined.cons nofun

/-- The first ready thread becomes the running one. -/
theorem safe_dispatch
    {n : ℕ} {next : ℕ → ThreadCode Outcome} (h : Core place s) (hkept : Kept self s)
    (hready : s.queues .ready = n :: rest)
    (hold : ∀ t, s.runningThread = some t → t ≠ n ∧ 2 ≤ s.refs t)
    (hnext : s.CanDispatch n →
      assertions.Safe self (next n) false (s.dispatched n rest)) :
    assertions.Safe self
      (.call (.access .runningFront) fun _ =>
        .call (.access (.pop .ready)) fun _ => .call (.access .running) next)
      false s := by
  have hmem : n ∈ s.queues .ready := by
    rw [hready]
    exact List.mem_cons_self
  have hdispatch : s.CanDispatch n :=
    ⟨h.refs_ne_zero hmem, fun t ht => ⟨(hold t ht).1, .inl (hold t ht).2⟩⟩
  have hfront := runningFront_eq hdispatch
  have hqueues : (s.runningFront n).queues = s.queues := by rw [hfront]
  have hlog : (s.runningFront n).log = s.log := by rw [hfront]
  have hrefs : ∀ v, s.refs v ≠ 0 → (s.runningFront n).refs v ≠ 0 ∧
      (s.dispatched n rest).refs v ≠ 0 := by
    intro v hv
    rw [hfront]
    simp only [State.dispatched]
    cases hrunning : s.runningThread with
    | none =>
        refine ⟨?_, hv⟩
        by_cases hvn : v = n <;> simp [hvn, hv]
    | some t =>
        obtain ⟨hne, htwo⟩ := hold t hrunning
        change Function.update (Function.update s.refs n (s.refs n + 1)) t
          (s.refs t - 1) v ≠ 0 ∧ Function.update s.refs t (s.refs t - 1) v ≠ 0
        by_cases hvt : v = t
        · subst hvt
          simp only [Function.update_self]
          omega
        · rw [Function.update_of_ne hvt, Function.update_of_ne hvt]
          refine ⟨?_, hv⟩
          by_cases hvn : v = n <;> simp [hvn, hv]
  have hcore := h.dispatched hready hdispatch
  have hexecFront : State.exec .runningFront s = [((), s.runningFront n)] := by
    simp only [State.exec, hready]
  have hexecPop : State.exec (.pop .ready) (s.runningFront n) =
      [((), s.dispatched n rest)] := by
    rw [← runningFront_pop_eq hdispatch]
    simp only [State.exec, hqueues, hready]
  refine safe_access hexecFront trivial rfl (.of_log hlog) ?_
    (.of_queues fun _ => by rw [hqueues]) ?_
  · refine ⟨fun q v hv => (hrefs v ?_).1, fun v hv => (hrefs v (hkept.2 v hv)).1⟩
    rw [hqueues] at hv
    exact hkept.1 q v hv
  refine safe_access hexecPop trivial rfl
    (.of_event (.pop n .ready) (by rw [hlog]; rfl) trivial)
    (hcore.kept fun v hv => (hrefs v (hkept.2 v hv)).2)
    (.of_queues fun t => by rw [hqueues, dispatched_queues, if_neg (by simp)]) ?_
  refine safe_read rfl trivial rfl
    (hcore.kept fun v hv => (hrefs v (hkept.2 v hv)).2) (hnext hdispatch)

theorem Parked.refs_eq (h : Parked place t s) (hplace : place t = .queued q) :
    s.refs t = 2 := by
  have hcounted := h.counted t
  rw [hplace, h.running, pointer_self, h.noPrevious] at hcounted
  exact hcounted

/-- The thread, which has joined a queue, gives up the processor until it is
switched to again. -/
theorem safe_swapHelper
    {next : Unit → ThreadCode Outcome} (h : Parked place t s)
    (hplace : place t = .queued q) (hfront : ∀ rest, s.queues .ready ≠ t :: rest)
    (hnext : ∀ place s', Working place t s' → threadView (.thread t) s' =
      threadView (.thread t) s → assertions.Safe (.thread t) (next ()) false s') :
    assertions.Safe (.thread t) (swapHelper >>= next) false s := by
  have hrefs := h.refs_eq hplace
  have halive : ∀ {s' : State}, s'.refs t ≠ 0 →
      machine.alive (.thread t) s' = true := fun hne => bne_iff_ne.mpr hne
  cases hready : s.queues .ready with
  | nil =>
      have hexec : State.exec (.empty .ready) s = [(true, s)] := by
        simp [State.exec, State.hasQueue, hready]
      refine safe_read hexec trivial rfl h.kept ?_
      have hself : State.exec .running s = [(t, s)] := by
        simp only [State.exec, h.running]
      refine safe_read hself trivial rfl h.kept ?_
      refine ⟨rfl, nofun, halive (by omega), h.hostContext, ?_, ?_, ?_⟩
      · exact ⟨hready, place, h.toCore, h.noRunning, h.noPrevious, .inr hready,
          h.joined⟩
      · exact h.toCore.kept nofun
      · rintro s' ⟨place', hswitched⟩ hview
        exact safe_previousReset hswitched fun s'' hworking hsame =>
          hnext place' s'' hworking (hsame.trans hview)
  | cons n rest =>
      have hne : t ≠ n := by
        rintro rfl
        exact hfront rest hready
      have hexec : State.exec (.empty .ready) s = [(false, s)] := by
        simp [State.exec, State.hasQueue, hready]
      refine safe_read hexec trivial rfl h.kept ?_
      have hself : State.exec .running s = [(t, s)] := by
        simp only [State.exec, h.running]
      refine safe_read hself trivial rfl h.kept ?_
      refine safe_dispatch h.toCore h.kept hready (fun v hv => ?_) fun hdispatch => ?_
      · rw [h.running] at hv
        cases hv
        exact ⟨hne, by omega⟩
      have hswitched := h.toCore.switched hready hdispatch h.noRunning
        (fun p hp => by rw [h.noPrevious] at hp; cases hp) h.joined
      have hself' : (s.dispatched n rest).refs t ≠ 0 := by
        simp only [State.dispatched, h.running, Function.update_self]
        omega
      refine ⟨rfl, ?_, halive hself', ?_, ⟨_, hswitched⟩, hswitched.kept, ?_⟩
      · intro heq
        cases heq
        exact hne rfl
      · exact bne_iff_ne.mpr (hswitched.kept.2 n rfl)
      · rintro s' ⟨place', hswitched'⟩ hview
        have hsame : threadView (.thread t) (s.dispatched n rest) =
            threadView (.thread t) s := by
          simp [threadView, State.dispatched, waitingFor]
        exact safe_previousReset hswitched' fun s'' hworking hview' =>
          hnext place' s'' hworking (hview'.trans (hview.trans hsame))

end Threads
end Eecs482
