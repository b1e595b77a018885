import Eecs482.UniprocessorGuards
import Eecs482.ThreadMutexes
import Eecs482.ThreadQueues

/-!
# Where the statements of the library are called

What is known at a statement does not follow from the statement: a thread is
taken from the queue of a mutex only after it has been handed the mutex, a mutex
is given up by `wait` only when the caller waits for a signal already, and so
on.  The functions are read a second time for these facts.
-/

namespace Eecs482
namespace Threads

open Uniprocessor

/-- The mutex that `t` has given up to wait, until `wait` returns. -/
def inWait (t : ℕ) : List Event → Option ℕ
  | [] => none
  | .waitCalled u m :: log => if u = t then some m else inWait t log
  | .returned u _ :: log => if u = t then none else inWait t log
  | _ :: log => inWait t log

/-- No mutex is being handed over, and threads yet to be created do not wait. -/
structure Orderly (s : State) : Prop where
  clean : ∀ n m log, s.log ≠ .handed n m :: log
  unborn : ∀ t, s.created ≤ t → inWait t s.log = none

/-- When `t`, running `code`, notes an event. -/
inductive Notes (t : ℕ) (code : ThreadCode Outcome) (s : State) : Event → Prop
  | finished : Notes t code s (.finished t)
  | unlocked (m : ℕ) : Notes t code s (.unlocked t m)
  /-- The caller of `wait` is at the back of the queue, and owns the mutex. -/
  | waitCalled {cv m : ℕ} {front : List ℕ} {log : List Event}
      (hcode : (wait cv m).Rest code) (hlog : s.log = .push t (.cvQueue cv) :: log)
      (hqueue : s.queues (.cvQueue cv) = front ++ [t]) (howner : s.owner m = some t)
      (hborn : t < s.created) : Notes t code s (.waitCalled t m)
  /-- The caller of `lock` or `wait` owns the mutex, and is in no queue. -/
  | returned {m : ℕ}
      (hholds : Holds t m s.log ∨
        (∀ u, ¬Holds u m s.log) ∧ s.queues (.mutexQueue m) = [])
      (howner : s.owner m = some t) (hout : ∀ q, t ∉ s.queues q)
      (hwait : inWait t s.log = none ∨ inWait t s.log = some m) :
      Notes t code s (.returned t m)

/-- When `self`, running `code`, calls a statement. -/
def CalledWhere (self : ContextRef) (code : ThreadCode Outcome) (s : State) :
    ThreadOp → Prop
  | .push q => ∃ t, self = .thread t ∧ s.runningThread = some t ∧
      (∀ r, t ∉ s.queues r) ∧ ∀ cv, q = .cvQueue cv →
        inWait t s.log = none ∧ ∃ m, (wait cv m).Rest code
  | .readyPushFront q => ∀ t rest, s.queues q = t :: rest → t ∉ s.queues .ready
  | .readyPushTcb t => t ∉ s.queues .ready
  | .pop .ready => ∃ t rest, s.queues .ready = t :: rest ∧ s.runningThread = some t
  | .pop (.mutexQueue m) => ∃ t rest log, s.queues (.mutexQueue m) = t :: rest ∧
      s.log = .handed t m :: log
  | .pop (.cvQueue cv) => (signal cv).Rest code
  | .pop (.joinQueue _) => False
  | .wakeAll q => q ≠ .ready ∧ (∀ m, q ≠ .mutexQueue m) ∧
      (s.queues .ready ++ s.queues q).Nodup ∧
        ∀ cv, q = .cvQueue cv → (broadcast cv).Rest code
  | .makeTcb => inWait s.created s.log = none
  | .occupyFront m => ∀ u, ¬Holds u m s.log
  | .note event => ∃ t, self = .thread t ∧ s.runningThread = some t ∧
      Notes t code s (event t)
  | _ => True

/-- Nothing is done between handing over a mutex and taking its new owner from
the queue but making the owner ready. -/
def HandsOver (s : State) (op : ThreadOp) : Prop :=
  ∀ n m log, s.log = .handed n m :: log →
    op = .readyPushFront (.mutexQueue m) ∨ op = .pop (.mutexQueue m)

abbrev calls : Reading machine where
  Local := Option ℕ
  view
    | .host, _ => none
    | .thread t, s => inWait t s.log
  fresh := none
  Settled self s := Orderly s ∧ ∀ t, self = .thread t → inWait t s.log = none
  Switching := Orderly
  Guard self code s := ∀ op next, code = .call (.access op) next →
    HandsOver s op ∧ CalledWhere self code s op

abbrev Guarded := Reading.Guarded assertions calls

variable {place : ℕ → Place} {s s' : State} {t u m : ℕ} {q : Queue} {rest : List ℕ}
  {self : ContextRef} {op : ThreadOp}

theorem Orderly.of_becomes
    {events : List Event} {queues : Queue → List ℕ} (h : Orderly s)
    (hbecomes : Becomes events queues s s')
    (hclean : ∀ n m log, events ≠ .handed n m :: log)
    (hwaits : ∀ t m, .waitCalled t m ∈ events → t < s.created) : Orderly s' := by
  have hunborn : ∀ t, s.created ≤ t → inWait t (events ++ s.log) = none := by
    intro t ht
    clear hbecomes hclean
    induction events with
    | nil => exact h.unborn t ht
    | cons event events ih =>
        have hrest := ih fun t m hmem => hwaits t m (List.mem_cons_of_mem _ hmem)
        cases event with
        | waitCalled u m =>
            have hborn := hwaits u m List.mem_cons_self
            rw [List.cons_append, inWait, if_neg (by omega)]
            exact hrest
        | returned u m =>
            rw [List.cons_append, inWait, hrest]
            exact ite_self none
        | push u q => exact hrest
        | pop u q => exact hrest
        | handed u m => exact hrest
        | unlocked u m => exact hrest
        | finished u => exact hrest
  constructor
  case clean =>
      intro n m log hlog
      rw [hbecomes.log] at hlog
      cases events with
      | nil => exact h.clean n m log hlog
      | cons event events =>
          rw [List.cons_append, List.cons.injEq] at hlog
          exact hclean n m events (by rw [hlog.1])
  case unborn =>
      intro t ht
      rw [hbecomes.log]
      exact hunborn t (Nat.le_trans hbecomes.created ht)

/-- A statement that notes nothing. -/
theorem Orderly.still
    {queues : Queue → List ℕ} (h : Orderly s) (hbecomes : Becomes [] queues s s') :
    Orderly s' :=
  h.of_becomes hbecomes nofun nofun

/-- A statement that notes one event. -/
theorem Orderly.event
    {event : Event} (h : Orderly s) (hlog : s'.log = event :: s.log)
    (hcreated : s'.created = s.created) (hclean : ∀ n m, event ≠ .handed n m)
    (hwaits : ∀ t m, event = .waitCalled t m → t < s.created) : Orderly s' := by
  have hbecomes : Becomes [event] s'.queues s s' :=
    ⟨hlog, fun _ _ => rfl, Nat.le_of_eq hcreated.symm⟩
  apply h.of_becomes hbecomes
  · intro n m log heq
    cases heq
    exact hclean n m rfl
  · intro t m hmem
    exact hwaits t m (List.mem_singleton.mp hmem).symm

theorem Orderly.setMutex (h : Orderly s) (mutex : Mutex) :
    Orderly (s.setMutex m mutex) :=
  ⟨h.clean, h.unborn⟩

theorem inWait_popped (threads : List ℕ) (log : List Event) :
    inWait t ((threads.map (Event.pop · q)).reverse ++ log) = inWait t log := by
  induction threads generalizing log with
  | nil => rfl
  | cons u threads ih =>
      rw [List.map_cons, List.reverse_cons, List.append_assoc]
      exact ih (.pop u q :: log)

/-! ## Rules -/

section Rules

variable {next : threadInterface.Answer op → ThreadCode Outcome}
  {answer : threadInterface.Answer op}

theorem guarded_call
    (h : Orderly s) (hwhere : CalledWhere self (.call (.access op) next) s op)
    (hnext : ∀ answer s', (answer, s') ∈ State.exec op s →
      Guarded self (next answer) false s') :
    Guarded self (.call (.access op) next) false s := by
  refine ⟨fun op' next' hcode => ?_, hnext⟩
  cases hcode
  exact ⟨fun n m log hlog => absurd hlog (h.clean n m log), hwhere⟩

theorem guarded_step
    (h : Orderly s) (hwhere : CalledWhere self (.call (.access op) next) s op)
    (hexec : State.exec op s = [(answer, s')])
    (hnext : Guarded self (next answer) false s') :
    Guarded self (.call (.access op) next) false s := by
  refine guarded_call h hwhere fun answer' t hmem => ?_
  rw [hexec, List.mem_singleton] at hmem
  cases hmem
  exact hnext

/-- A statement between handing over a mutex and taking its owner from the queue. -/
theorem guarded_handing
    {n : ℕ} {log : List Event} (hlog : s.log = .handed n m :: log)
    (hop : op = .readyPushFront (.mutexQueue m) ∨ op = .pop (.mutexQueue m))
    (hwhere : CalledWhere self (.call (.access op) next) s op)
    (hexec : State.exec op s = [(answer, s')])
    (hnext : Guarded self (next answer) false s') :
    Guarded self (.call (.access op) next) false s := by
  refine Reading.Guarded.access (fun op' next' hcode => ?_) hexec hnext
  cases hcode
  refine ⟨fun n' m' log' hlog' => ?_, hwhere⟩
  rw [hlog] at hlog'
  cases hlog'
  exact hop

end Rules

theorem mem_exec_running {answer : ℕ} (hmem : (answer, s') ∈ State.exec .running s) :
    s' = s := by
  simp only [State.exec] at hmem
  cases hrunning : s.runningThread with
  | none =>
      rw [hrunning] at hmem
      cases hmem
  | some t =>
      rw [hrunning] at hmem
      cases List.mem_singleton.mp hmem
      rfl

/-- The first ready thread becomes the running one. -/
theorem guarded_dispatch
    {next : ℕ → ThreadCode Outcome} (h : Orderly s)
    (hnext : ∀ n s', Orderly s' → s'.log = .pop n .ready :: s.log →
      ∀ running, Guarded self (next running) false s') :
    Guarded self
      (.call (.access .runningFront) fun _ =>
        .call (.access (.pop .ready)) fun _ => .call (.access .running) next)
      false s := by
  cases hready : s.queues .ready with
  | nil =>
      refine guarded_call h trivial fun _ s' hmem => ?_
      simp only [State.exec, hready] at hmem
      cases hmem
  | cons n rest =>
      have hlasting : Queue.ready.Lasting := fun _ => by simp
      have hexec : State.exec .runningFront s = [((), s.runningFront n)] := by
        simp only [State.exec, hready]
      have hfront := h.still (becomes_runningFront (t := n))
      have hqueue : (s.runningFront n).queues .ready = n :: rest := by
        rw [becomes_runningFront.queues .ready hlasting, hready]
      have hrunning : (s.runningFront n).runningThread = some n :=
        (unmoved_dropOld s.runningThread).runningThread
      refine guarded_step h trivial hexec ?_
      have hexec' : State.exec (.pop .ready) (s.runningFront n) =
          [((), (s.runningFront n).pop n .ready rest)] := by
        simp only [State.exec, hqueue]
      have hlog : ((s.runningFront n).pop n .ready rest).log = .pop n .ready :: s.log := by
        rw [becomes_pop.log, becomes_runningFront.log]
        rfl
      have hpop : Orderly ((s.runningFront n).pop n .ready rest) :=
        hfront.of_becomes becomes_pop (by simp) (by simp)
      refine guarded_step hfront ⟨n, rest, hqueue, hrunning⟩ hexec' ?_
      refine guarded_call hpop trivial fun running s' hmem => ?_
      rw [mem_exec_running hmem]
      exact hnext n _ hpop hlog running

/-- Others run until the thread is switched to again. -/
theorem guarded_swapHelper
    {next : Unit → ThreadCode Outcome} (h : Orderly s)
    (hnext : ∀ place s', Working place t s' → Orderly s' →
      threadView (.thread t) s' = threadView (.thread t) s →
      inWait t s'.log = inWait t s.log → Guarded (.thread t) (next ()) false s') :
    Guarded (.thread t) (swapHelper >>= next) false s := by
  have hback : ∀ s₁ s', threadView (.thread t) s₁ = threadView (.thread t) s →
      inWait t s₁.log = inWait t s.log → assertions.Resumed (.thread t) s' →
      Orderly s' → threadView (.thread t) s' = threadView (.thread t) s₁ →
      inWait t s'.log = inWait t s₁.log →
      Guarded (.thread t) (.call (.access .previousReset) next) false s' := by
    rintro s₁ s' hview₁ hwait₁ ⟨place, hswitched⟩ horderly hview hwait
    obtain ⟨_, hlog⟩ := hswitched.previousReset_same
    refine guarded_step horderly trivial rfl ?_
    apply hnext place _ hswitched.previousReset (horderly.still becomes_previousReset)
    · simp only [threadView, hlog]
      exact hview.trans hview₁
    · rw [hlog]
      exact hwait.trans hwait₁
  refine guarded_call h trivial fun empty s₁ hmem => ?_
  cases List.mem_singleton.mp hmem
  cases (s.queues .ready).isEmpty with
  | true =>
      refine guarded_call h trivial fun running s₁ hmem => ?_
      rw [mem_exec_running hmem]
      refine ⟨h, fun s' hresumed horderly hview hwait => ?_⟩
      exact hback s s' rfl rfl hresumed horderly hview hwait
  | false =>
      refine guarded_call h trivial fun running s₁ hmem => ?_
      rw [mem_exec_running hmem]
      refine guarded_dispatch h fun n s₁ horderly₁ hlog running' => ?_
      refine ⟨horderly₁, fun s' hresumed horderly hview hwait => ?_⟩
      refine hback s₁ s' ?_ ?_ hresumed horderly hview hwait
      · simp [threadView, hlog, waitingFor]
      · rw [hlog]
        rfl

/-- A running thread returns to user code. -/
theorem guarded_return
    {threw : Bool} (h : Orderly s) (hwait : inWait t s.log = none) :
    Guarded (.thread t) (.call .interruptEnable fun _ => .ret (.user threw)) false s := by
  refine ⟨⟨h, fun u hu => ?_⟩, trivial⟩
  cases hu
  exact hwait

theorem Working.created_gt (h : Working place t s) : t < s.created := by
  rw [← Nat.not_le, ← h.unborn_iff, (h.only t).mpr rfl]
  exact nofun

theorem Working.out (h : Working place t s) (q : Queue) : t ∉ s.queues q :=
  h.notMem ((h.only t).mpr rfl)

/-- The running thread joins a queue. -/
theorem guarded_push
    {next : Unit → ThreadCode Outcome} (h : Orderly s) (hworking : Working place t s)
    (hcv : ∀ cv, q = .cvQueue cv → inWait t s.log = none ∧
      ∃ m, (wait cv m).Rest (.call (.access (.push q)) next))
    (hnext : Orderly (s.pushed t q) → Guarded (.thread t) (next ()) false (s.pushed t q)) :
    Guarded (.thread t) (.call (.access (.push q)) next) false s := by
  refine guarded_call h ⟨t, rfl, hworking.running, hworking.out, hcv⟩ ?_
  intro _ s' hmem
  simp only [State.exec, hworking.running] at hmem
  split at hmem
  · cases List.mem_singleton.mp hmem
    exact hnext (h.event rfl rfl (by simp) (by simp))
  · cases hmem

/-- The thread joins a queue and gives up the processor. -/
theorem guarded_block
    {next : Unit → ThreadCode Outcome} (h : Orderly s) (hworking : Working place t s)
    (hq : ∀ cv, q ≠ .cvQueue cv)
    (hnext : ∀ place s', Working place t s' → Orderly s' →
      waitingFor t s'.log = waitingFor t (.push t q :: s.log) →
        inWait t s'.log = inWait t s.log → Guarded (.thread t) (next ()) false s') :
    Guarded (.thread t)
      (.call (.access (.push q)) fun _ => swapHelper >>= next) false s := by
  refine guarded_push h hworking (fun cv hcv => absurd hcv (hq cv)) fun hpushed => ?_
  refine guarded_swapHelper hpushed fun place' s' hworking' horderly hview hwait => ?_
  apply hnext place' s' hworking' horderly _ hwait
  simp only [threadView, Option.some.injEq, Prod.mk.injEq] at hview
  exact hview.2

/-! ## Threads -/

theorem guarded_yield
    {code : ThreadCode Outcome} (hcode : Guarded (.thread t) code true s) :
    Guarded (.thread t) (yield >>= fun _ => code) true s := by
  rintro s₁ ⟨_, place, hworking⟩ ⟨horderly, hwait⟩ hview hview'
  refine guarded_call horderly trivial fun empty s₂ hmem => ?_
  cases List.mem_singleton.mp hmem
  cases (s₁.queues .ready).isEmpty with
  | true => exact ⟨⟨horderly, hwait⟩, hcode.of_view hview hview'⟩
  | false =>
      refine guarded_push horderly hworking nofun fun hpushed => ?_
      change Guarded (.thread t)
        (swapHelper >>= (fun _ => interruptEnable) >>= fun _ => code) false _
      rw [Prog.bind_assoc]
      refine guarded_swapHelper hpushed fun place' s' _ horderly' hsame hsame' => ?_
      have hpush : threadView (.thread t) (s₁.pushed t .ready) =
          threadView (.thread t) s₁ := by
        simp [threadView, State.pushed, State.note, State.push, State.setQueue,
          State.retain, waitingFor]
      refine ⟨⟨horderly', fun u hu => ?_⟩, ?_⟩
      · cases hu
        exact hsame'.trans (hwait t rfl)
      · exact hcode.of_view ((hsame.trans hpush).trans hview) (hsame'.trans hview')

theorem guarded_join : Guarded (.thread t) (join u) true s := by
  rintro s₁ ⟨_, place, hworking⟩ ⟨horderly, hwait⟩ _ _
  refine guarded_call horderly trivial fun expired s₂ hmem => ?_
  cases List.mem_singleton.mp hmem
  cases s₁.refs u == 0 with
  | true => exact guarded_return horderly (hwait t rfl)
  | false =>
      refine guarded_block horderly hworking nofun ?_
      intro place' s' _ horderly' _ hsame
      exact guarded_return horderly' (hsame.trans (hwait t rfl))

theorem guarded_threadCreate : Guarded (.thread t) threadCreate true s := by
  rintro s₁ ⟨_, place, hworking⟩ ⟨horderly, hwait⟩ _ _
  refine guarded_call horderly (horderly.unborn _ (Nat.le_refl _)) ?_
  intro answer s₂ hmem
  rcases List.mem_pair.mp hmem with heq | heq
  · cases heq
    exact guarded_return horderly (hwait t rfl)
  · cases heq
    have hmade : Orderly { s₁ with
        created := s₁.created + 1
        refs := Function.update s₁.refs s₁.created 1 } :=
      ⟨horderly.clean, fun u hu => horderly.unborn u (Nat.le_of_succ_le hu)⟩
    refine guarded_step hmade hworking.unborn_notMem rfl ?_
    have hpush := hmade.still (becomes_push (t := s₁.created) (q := .ready))
    refine guarded_step hpush trivial rfl ?_
    refine guarded_return (hpush.still becomes_tcbReset) ?_
    rw [becomes_tcbReset.log]
    exact hwait t rfl

theorem guarded_starter
    (h : Orderly s) (hfresh : inWait t s.log = none) :
    Guarded (.thread t) starter false s := by
  refine guarded_step h trivial rfl (guarded_return (h.still becomes_previousReset) ?_)
  rw [becomes_previousReset.log]
  exact hfresh

/-- The threads of a queue are made ready. -/
theorem guarded_wakeAll
    {next : Unit → ThreadCode Outcome} (h : Orderly s) (hplaced : Placed place s)
    (hq : q ≠ .ready) (hmutex : ∀ m, q ≠ .mutexQueue m)
    (hcv : ∀ cv, q = .cvQueue cv →
      (broadcast cv).Rest (.call (.access (.wakeAll q)) next))
    (hnext : Orderly (s.wakeAll q) → Guarded self (next ()) false (s.wakeAll q)) :
    Guarded self (.call (.access (.wakeAll q)) next) false s := by
  have hnodup : (s.queues .ready ++ s.queues q).Nodup := by
    refine List.nodup_append.mpr ⟨hplaced.nodup _, hplaced.nodup q, ?_⟩
    rintro u hu _ hu' rfl
    rw [hplaced.mem_iff] at hu hu'
    rw [hu, Place.queued.injEq] at hu'
    exact hq hu'.symm
  refine guarded_call h ⟨hq, hmutex, hnodup, hcv⟩ fun _ s' hmem => ?_
  simp only [State.exec] at hmem
  split at hmem
  · cases List.mem_singleton.mp hmem
    apply hnext
    apply h.of_becomes (becomes_wakeAll hq)
    · intro n m log heq
      have hmem : Event.handed n m ∈ ((s.queues q).map (Event.pop · q)).reverse := by
        rw [heq]
        exact List.mem_cons_self
      simp at hmem
    · simp
  · cases hmem

theorem guarded_starterExit : Guarded (.thread t) starterExit true s := by
  rintro s₁ ⟨_, place, hworking⟩ ⟨horderly, _⟩ _ _
  have hself : State.exec .running s₁ = [(t, s₁)] := by
    simp only [State.exec, hworking.running]
  refine guarded_step horderly trivial hself ?_
  refine guarded_wakeAll horderly hworking.toPlaced (by simp) (by simp) (by simp) fun hwoken => ?_
  obtain ⟨_, hexited⟩ := hworking.exited
  have hrunning : (s₁.wakeAll (.joinQueue t)).runningThread = some t := hexited.running
  refine guarded_step hwoken ⟨t, rfl, hrunning, .finished⟩ (exec_note hrunning) ?_
  have hfinished : Orderly ((s₁.wakeAll (.joinQueue t)).note (.finished t)) :=
    hwoken.event rfl rfl (by simp) (by simp)
  refine guarded_call hfinished trivial fun empty s₂ hmem => ?_
  cases List.mem_singleton.mp hmem
  cases (State.queues ((s₁.wakeAll (.joinQueue t)).note (.finished t)) .ready).isEmpty with
  | true => exact hfinished
  | false =>
      have hprevious := hfinished.still becomes_previousRunning
      refine guarded_step hfinished trivial rfl ?_
      refine guarded_step hprevious trivial rfl ?_
      refine guarded_dispatch (hprevious.still becomes_runningReset) ?_
      exact fun n s' horderly' _ running => horderly'

/-! ## The host -/

theorem guarded_cpuBoot : Guarded .host cpuBoot false {} := by
  have hstart : Orderly {} := ⟨fun n m log => nofun, fun _ _ => rfl⟩
  refine guarded_call hstart rfl fun answer s₂ hmem => ?_
  rcases List.mem_pair.mp hmem with heq | heq
  · cases heq
    exact ⟨⟨hstart, nofun⟩, trivial⟩
  · cases heq
    have hmade : Orderly { ({} : State) with
        created := 1
        refs := Function.update (fun _ => 0) 0 1 } :=
      ⟨fun n m log => nofun, fun _ _ => rfl⟩
    refine guarded_step hmade List.not_mem_nil rfl ?_
    have hpush := hmade.still (becomes_push (t := 0) (q := .ready))
    refine guarded_step hpush trivial rfl ?_
    have hreset := hpush.still (becomes_tcbReset (t := 0))
    refine guarded_step hreset trivial rfl ?_
    exact ⟨hreset.clean, hreset.unborn⟩

theorem guarded_cpuLoop (h : Orderly s) : Guarded .host cpuLoop false s := by
  refine guarded_call h trivial fun empty s₁ hmem => ?_
  cases List.mem_singleton.mp hmem
  cases (s.queues .ready).isEmpty with
  | false =>
      refine guarded_dispatch h fun n s₁ horderly _ running => ?_
      refine ⟨horderly, fun s' _ horderly' _ _ => ?_⟩
      refine guarded_step horderly' trivial rfl ?_
      exact horderly'.still becomes_previousReset
  | true =>
      refine guarded_step h trivial rfl ?_
      have hdelete : Orderly { s with hostContext := false } := ⟨h.clean, h.unborn⟩
      refine guarded_step hdelete trivial rfl ?_
      have hreset := hdelete.still becomes_runningReset
      exact guarded_step hreset trivial rfl trivial

end Threads
end Eecs482
