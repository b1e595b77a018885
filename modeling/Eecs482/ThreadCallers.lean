import Eecs482.ThreadCalls

/-!
# Mutexes and condition variables call with care

`unlock` and `wait` hand a mutex over in different orders.  Either way nothing
comes between its transfer to the front of the queue and the removal of the
front, and nobody holds the mutex when it is transferred.
-/

namespace Eecs482
namespace Threads

open Uniprocessor

variable {place : ℕ → Place} {s s' : State} {t u m : ℕ} {q : Queue} {rest : List ℕ}
  {self : ContextRef} {op : ThreadOp}

/-! ## Mutexes -/

theorem inWait_returned (log : List Event) : inWait t (.returned t m :: log) = none :=
  if_pos rfl

/-- The end of `lock` and `wait`. -/
theorem guarded_returned
    (h : Orderly s) (hrunning : s.runningThread = some t)
    (hnotes : ∀ code, Notes t code s (.returned t m)) :
    Guarded (.thread t)
      (.call (.access (.note (.returned · m))) fun _ =>
        .call .interruptEnable fun _ => .ret (.user false)) false s := by
  refine guarded_step h ⟨t, rfl, hrunning, hnotes _⟩ (exec_note hrunning) ?_
  exact guarded_return (h.event rfl rfl nofun nofun) (inWait_returned s.log)

/-- The mutex has been handed to the caller. -/
theorem guarded_held
    (h : Orderly s) (hworking : Working place t s) (hheld : Holds t m s.log)
    (hwait : inWait t s.log = none ∨ inWait t s.log = some m) :
    Guarded (.thread t)
      (.call (.access (.note (.returned · m))) fun _ =>
        .call .interruptEnable fun _ => .ret (.user false)) false s := by
  apply guarded_returned h hworking.running
  intro code
  exact .returned (.inl hheld) ((hworking.holds_iff t m).mp hheld) hworking.out hwait

/-- The mutex was free, and the caller has taken it. -/
theorem guarded_acquired
    (h : Orderly s) (hworking : Working place t s)
    (hfree : (s.mutexes m).status = false)
    (hwait : inWait t s.log = none ∨ inWait t s.log = some m)
    (hs' : s' = s.setMutex m { status := true, occupyThread := some t }) :
    Guarded (.thread t)
      (.call (.access (.note (.returned · m))) fun _ =>
        .call .interruptEnable fun _ => .ret (.user false)) false s' := by
  subst hs'
  apply guarded_returned (h.setMutex _) hworking.running
  intro code
  have hnobody : ∀ u, ¬Holds u m s.log := by
    intro u hu
    rw [hworking.holds_iff, State.owner, hfree] at hu
    cases hu
  refine Notes.returned (s := s.setMutex m _)
    (.inr ⟨hnobody, hworking.free m hfree⟩) ?_ hworking.out hwait
  rw [owner_setMutex, if_pos rfl, if_pos rfl]

/-- The thread waits for the mutex, and returns with it. -/
theorem guarded_mutexQueue
    (h : Orderly s) (hworking : Working place t s)
    (hwait : inWait t s.log = none ∨ inWait t s.log = some m) :
    Guarded (.thread t)
      (.call (.access (.push (.mutexQueue m))) fun _ => swapHelper >>= fun _ =>
        .call (.access (.note (.returned · m))) fun _ =>
          .call .interruptEnable fun _ => .ret (.user false)) false s := by
  refine guarded_block h hworking nofun ?_
  intro place' s' hworking' horderly hsame hsame'
  have hheld : Holds t m s'.log := hworking'.holds (hsame.trans (if_pos rfl))
  apply guarded_held horderly hworking' hheld
  rw [hsame']
  exact hwait

theorem guarded_lock : Guarded (.thread t) (lock m) true s := by
  rintro s₁ ⟨_, place, hworking⟩ ⟨horderly, hwait⟩ _ _
  refine guarded_call horderly trivial fun status s₂ hmem => ?_
  cases List.mem_singleton.mp hmem
  cases hstatus : (s₁.mutexes m).status with
  | true => exact guarded_mutexQueue horderly hworking (.inl (hwait t rfl))
  | false =>
      refine guarded_step horderly trivial rfl ?_
      refine guarded_step (horderly.setMutex _) trivial rfl ?_
      apply guarded_acquired horderly hworking hstatus (.inl (hwait t rfl))
      simp only [State.setMutex, hworking.running, Function.update_self,
        Function.update_idem]

/-- The first thread that waits for a mutex is not ready. -/
theorem Placed.not_ready
    (h : Placed place s) (hqueue : s.queues q = u :: rest) (hq : q ≠ .ready) :
    u ∉ s.queues .ready := by
  intro hmem
  have hplace := (h.front hqueue).1
  rw [(h.mem_iff .ready u).mp hmem, Place.queued.injEq] at hplace
  exact hq hplace.symm

/-- The owner gives up the mutex, and nobody holds it. -/
theorem Working.nobody_holds
    {event : Event} (h : Working place t s) (hevent : Releases t m event)
    (howned : s.checkOwnership m = true) (u : ℕ) : ¬Holds u m (event :: s.log) := by
  rw [hevent.holds, h.holder_unique (h.checkOwnership_iff.mp howned)]
  rintro ⟨hne, rfl⟩
  exact hne ⟨rfl, rfl⟩

theorem exec_empty_nil (hqueue : s.queues (.mutexQueue m) = []) :
    State.exec (.empty (.mutexQueue m)) s = [(true, s)] := by
  simp [State.exec, State.hasQueue, hqueue]

theorem exec_empty_cons (hqueue : s.queues (.mutexQueue m) = u :: rest) :
    State.exec (.empty (.mutexQueue m)) s = [(false, s)] := by
  simp [State.exec, State.hasQueue, hqueue]

theorem exec_readyPushFront (hqueue : s.queues q = u :: rest) :
    State.exec (.readyPushFront q) s = [((), s.push u .ready)] := by
  simp only [State.exec, hqueue]

theorem exec_pop (hqueue : s.queues q = u :: rest) :
    State.exec (.pop q) s = [((), s.pop u q rest)] := by
  simp only [State.exec, hqueue]

theorem front_eq {v : ℕ} {rest' : List ℕ} (hqueue : s.queues q = u :: rest)
    (hqueue' : s.queues q = v :: rest') : v = u := by
  rw [hqueue] at hqueue'
  cases hqueue'
  rfl

/-- The front of the queue of a mutex, which has been handed the mutex, is taken
from the queue. -/
theorem guarded_popHanded
    {n : ℕ} {log : List Event} {next : Unit → ThreadCode Outcome} (events : List Event)
    (horderly : Orderly s) (hlog : s'.log = .handed n m :: log)
    (hevents : s'.log = .handed n m :: events ++ s.log)
    (hcreated : s'.created = s.created)
    (hwaits : ∀ t k, .waitCalled t k ∈ events → t < s.created)
    (hqueue : s'.queues (.mutexQueue m) = n :: rest)
    (hnext : Orderly (s'.pop n (.mutexQueue m) rest) →
      (s'.pop n (.mutexQueue m) rest).log =
        .pop n (.mutexQueue m) :: .handed n m :: events ++ s.log →
      Guarded self (next ()) false (s'.pop n (.mutexQueue m) rest)) :
    Guarded self (.call (.access (.pop (.mutexQueue m))) next) false s' := by
  have hlog' : (s'.pop n (.mutexQueue m) rest).log =
      .pop n (.mutexQueue m) :: .handed n m :: events ++ s.log := by
    rw [becomes_pop.log, hevents]
    rfl
  have hbecomes : Becomes (.pop n (.mutexQueue m) :: .handed n m :: events)
      (Function.update s'.queues (.mutexQueue m) rest) s
      (s'.pop n (.mutexQueue m) rest) := by
    refine ⟨hlog', becomes_pop.queues, ?_⟩
    rw [← hcreated]
    exact becomes_pop.created
  refine guarded_handing hlog (.inr rfl) ⟨n, rest, log, hqueue, hlog⟩ (exec_pop hqueue) ?_
  apply hnext _ hlog'
  apply horderly.of_becomes hbecomes nofun
  intro t k hmem
  exact hwaits t k (by simpa using hmem)

theorem guarded_unlock : Guarded (.thread t) (unlock m) true s := by
  rintro s₁ ⟨_, place, hworking⟩ ⟨horderly, hwait⟩ _ _
  refine guarded_call horderly trivial fun owned s₂ hmem => ?_
  cases List.mem_singleton.mp hmem
  cases howned : s₁.checkOwnership m with
  | false => exact guarded_return horderly (hwait t rfl)
  | true =>
      have hnobody := hworking.nobody_holds (.inl rfl) howned
      have hunlocked : Orderly (s₁.note (.unlocked t m)) :=
        horderly.event rfl rfl nofun nofun
      refine guarded_step horderly ⟨t, rfl, hworking.running, .unlocked m⟩
        (exec_note hworking.running) ?_
      refine guarded_step hunlocked trivial rfl ?_
      cases hqueue : s₁.queues (.mutexQueue m) with
      | nil =>
          refine guarded_step (hunlocked.setMutex _) trivial (exec_empty_nil hqueue) ?_
          exact guarded_return (hunlocked.setMutex _) (hwait t rfl)
      | cons n rest =>
          refine guarded_step (hunlocked.setMutex _) trivial (exec_empty_cons hqueue) ?_
          refine guarded_step (hunlocked.setMutex _) hnobody (exec_occupyFront hqueue) ?_
          refine guarded_handing rfl (.inl rfl) ?_ (exec_readyPushFront hqueue) ?_
          · intro u rest' hfront
            rw [front_eq hqueue hfront]
            exact hworking.toPlaced.not_ready hqueue nofun
          refine guarded_popHanded [.unlocked t m] horderly rfl rfl rfl (by simp) hqueue ?_
          intro hpop hlog
          refine guarded_step hpop trivial rfl ?_
          refine guarded_return (hpop.setMutex _) ?_
          exact (congrArg (inWait t) hlog).trans (hwait t rfl)

/-! ## Condition variables -/

theorem guarded_signal {cv : ℕ} : Guarded (.thread t) (signal cv) true s := by
  rintro s₁ ⟨_, place, hworking⟩ ⟨horderly, hwait⟩ _ _
  refine guarded_call horderly trivial fun empty s₂ hmem => ?_
  cases List.mem_singleton.mp hmem
  cases hqueue : s₁.queues (.cvQueue cv) with
  | nil => exact guarded_return horderly (hwait t rfl)
  | cons n rest =>
      refine guarded_step horderly ?_ (exec_readyPushFront hqueue) ?_
      · intro u rest' hfront
        rw [front_eq hqueue hfront]
        exact hworking.toPlaced.not_ready hqueue nofun
      have hpush := horderly.still (becomes_push (t := n) (q := .ready))
      refine guarded_step hpush (.after () (.after false (.after () .here)))
        (exec_pop hqueue) ?_
      refine guarded_return (hpush.of_becomes becomes_pop nofun (by simp)) ?_
      rw [becomes_pop.log]
      exact hwait t rfl

theorem guarded_broadcast {cv : ℕ} : Guarded (.thread t) (broadcast cv) true s := by
  rintro s₁ ⟨_, place, hworking⟩ ⟨horderly, hwait⟩ _ _
  refine guarded_wakeAll horderly hworking.toPlaced nofun nofun ?_ fun hwoken => ?_
  · intro k hk
    cases hk
    exact .after () .here
  · refine guarded_return hwoken ?_
    have hcv : Queue.cvQueue cv ≠ .ready := nofun
    rw [(becomes_wakeAll hcv).log, inWait_popped]
    exact hwait t rfl

/-- `wait` takes the mutex again. -/
theorem guarded_waitAgain
    (h : Orderly s) (hworking : Working place t s) (hwait : inWait t s.log = some m) :
    Guarded (.thread t) (do
      if !(← access (.status m)) then
        access (.occupyRunning m)
        access (.setStatus m true)
      else
        access (.push (.mutexQueue m))
        swapHelper
      access (.note (.returned · m))
      interruptEnable
      return .user false) false s := by
  refine guarded_call h trivial fun status s₂ hmem => ?_
  cases List.mem_singleton.mp hmem
  cases hstatus : (s.mutexes m).status with
  | true => exact guarded_mutexQueue h hworking (.inr hwait)
  | false =>
      refine guarded_step h trivial rfl ?_
      refine guarded_step (h.setMutex _) trivial rfl ?_
      apply guarded_acquired h hworking hstatus (.inr hwait)
      simp only [State.setMutex, hworking.running, Function.update_self,
        Function.update_idem]

/-- The caller of `wait`, which has given up the mutex, waits for a signal. -/
theorem guarded_waitSwitch (h : Orderly s) (hwait : inWait t s.log = some m) :
    Guarded (.thread t) (do
      swapHelper
      if !(← access (.status m)) then
        access (.occupyRunning m)
        access (.setStatus m true)
      else
        access (.push (.mutexQueue m))
        swapHelper
      access (.note (.returned · m))
      interruptEnable
      return .user false) false s := by
  refine guarded_swapHelper h fun place s' hworking horderly _ hsame => ?_
  exact guarded_waitAgain horderly hworking (hsame.trans hwait)

/-- `wait` gives up the mutex. -/
theorem guarded_waitRelease
    {cv : ℕ} (h : Orderly s) (hrunning : s.runningThread = some t) (hborn : t < s.created)
    (hnotes : ∀ code, (wait cv m).Rest code → Notes t code s (.waitCalled t m))
    (hnobody : ∀ u, ¬Holds u m (.waitCalled t m :: s.log))
    (hready : ∀ n rest, s.queues (.mutexQueue m) = n :: rest → n ∉ s.queues .ready) :
    Guarded (.thread t) (do
      access (.note (.waitCalled · m))
      access (.setStatus m false)
      if !(← access (.empty (.mutexQueue m))) then
        access (.readyPushFront (.mutexQueue m))
        access (.setStatus m true)
        access (.occupyFront m)
        access (.pop (.mutexQueue m))
      swapHelper
      if !(← access (.status m)) then
        access (.occupyRunning m)
        access (.setStatus m true)
      else
        access (.push (.mutexQueue m))
        swapHelper
      access (.note (.returned · m))
      interruptEnable
      return .user false) false s := by
  have hcalled : Orderly (s.note (.waitCalled t m)) := by
    have hlog : (s.note (.waitCalled t m)).log = .waitCalled t m :: s.log := rfl
    refine h.event hlog rfl nofun fun u k heq => ?_
    cases heq
    exact hborn
  refine guarded_step h
    ⟨t, rfl, hrunning, hnotes _ (.after () (.after true (.after () .here)))⟩
    (exec_note hrunning) ?_
  refine guarded_step hcalled trivial rfl ?_
  cases hqueue : s.queues (.mutexQueue m) with
  | nil =>
      refine guarded_step (hcalled.setMutex _) trivial (exec_empty_nil hqueue) ?_
      exact guarded_waitSwitch (hcalled.setMutex _) (if_pos rfl)
  | cons n rest =>
      refine guarded_step (hcalled.setMutex _) trivial (exec_empty_cons hqueue) ?_
      refine guarded_step (hcalled.setMutex _) ?_ (exec_readyPushFront hqueue) ?_
      · intro u rest' hfront
        rw [front_eq hqueue hfront]
        exact hready n rest hqueue
      have hpush := (hcalled.setMutex (m := m)
        { s.mutexes m with status := false }).still (becomes_push (t := n) (q := .ready))
      refine guarded_step hpush trivial rfl ?_
      have hfront : ∀ s' : State, s'.queues = (s.push n .ready).queues →
          s'.queues (.mutexQueue m) = n :: rest := by
        intro s' hs'
        rw [hs', push_queues, if_neg (by simp), hqueue]
      refine guarded_step (hpush.setMutex _) hnobody (exec_occupyFront (hfront _ rfl)) ?_
      refine guarded_popHanded [.waitCalled t m] h rfl rfl rfl ?_ (hfront _ rfl) ?_
      · intro u k hmem
        cases List.mem_singleton.mp hmem
        exact hborn
      · intro hpop hlog
        refine guarded_waitSwitch hpop ?_
        rw [hlog]
        exact if_pos rfl

theorem guarded_wait {cv : ℕ} : Guarded (.thread t) (wait cv m) true s := by
  rintro s₁ ⟨_, place, hworking⟩ ⟨horderly, hwait⟩ _ _
  refine guarded_call horderly trivial fun owned s₂ hmem => ?_
  cases List.mem_singleton.mp hmem
  cases howned : s₁.checkOwnership m with
  | false => exact guarded_return horderly (hwait t rfl)
  | true =>
      have howner : s₁.owner m = some t :=
        (hworking.holds_iff t m).mp (hworking.checkOwnership_iff.mp howned)
      refine guarded_push horderly hworking ?_ fun hpushed => ?_
      · intro k hk
        cases hk
        exact ⟨hwait t rfl, m, .after () (.after true .here)⟩
      have hqueue : (s₁.pushed t (.cvQueue cv)).queues (.cvQueue cv) =
          s₁.queues (.cvQueue cv) ++ [t] := by
        rw [pushed_queues, if_pos rfl]
      have hnotes : ∀ code, (wait cv m).Rest code →
          Notes t code (s₁.pushed t (.cvQueue cv)) (.waitCalled t m) :=
        fun code hcode => .waitCalled hcode rfl hqueue howner hworking.created_gt
      have hnobody := hworking.nobody_holds (.inr rfl) howned
      refine guarded_waitRelease hpushed hworking.running hworking.created_gt hnotes
        hnobody ?_
      intro n rest hfront
      rw [pushed_queues, if_neg (by simp)] at hfront ⊢
      exact hworking.toPlaced.not_ready hfront nofun

end Threads
end Eecs482
