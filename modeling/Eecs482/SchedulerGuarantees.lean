import Eecs482.SchedulerRuns
import Mathlib.Algebra.BigOperators.Group.Finset.Basic
import Mathlib.Algebra.Order.BigOperators.Group.Finset

/-!
# What the disk scheduler guarantees

The server services a request only when the queue is as full as it can get.  All
runs end, and they end with all functions having returned if and only if no file
is empty.
-/

namespace Eecs482
namespace Scheduler

open Monitor

variable {n : ℕ} {maxDiskQueue : ℕ} {files : Fin n → List UInt32} {s t : State n}
  {i j : Fin n} {k : Thread n}

/-! ## Two requesters -/

/-- Two requesters with a track each. -/
def twoFiles : Fin 2 → List UInt32
  | 0 => [53]
  | 1 => [3]

/-- The server sleeps, the first request fills a queue of length 1, and the second
requester sleeps. -/
def filling : List (Thread 2 × Thread 2) :=
  List.replicate 3 (.server, .server) ++ List.replicate 5 (.requester 0, .server) ++
    List.replicate 3 (.requester 1, .server)

/-- The server wakes up and services the request. -/
def serving : List (Thread 2 × Thread 2) :=
  filling ++ List.replicate 5 (.server, .server)

/-- Both requests are put into a queue of length 2, and the server is about to make a
service. -/
def choosing : List (Thread 2 × Thread 2) :=
  List.replicate 5 (.requester 0, .server) ++ List.replicate 5 (.requester 1, .server) ++
    List.replicate 2 (.server, .server)

/-! ## The queue is served when it is full -/

/-- Whenever the mutex is free, the queue has at most one entry per requester,
`requester_done` marks those without one, `requester_num` counts the outstanding
requesters, and `disk_queue_full` says whether the queue has reached its bound.
Every service takes place with a full queue, and `requester_num` never grows. -/
theorem servedWhenFull_of_reachable
    (hmax : 0 < maxDiskQueue) (hn : 0 < n)
    (hreach : (scheduler n).system.Reachable (initial maxDiskQueue files) s) :
    (s.owner = none → s.shared.maxDiskQueue = maxDiskQueue ∧ s.shared.queued.Nodup ∧
      (∀ i, s.shared.requesterDone i = 1 ↔ i ∉ s.shared.queued) ∧
      s.shared.requesterNum =
        (Finset.univ.filter (Outstanding files s.shared.printed)).card ∧
      s.shared.diskQueue.length ≤ min s.shared.requesterNum maxDiskQueue ∧
      (s.shared.diskQueueFull = true ↔
        s.shared.diskQueue.length = min s.shared.requesterNum maxDiskQueue)) ∧
    ∀ k t, (scheduler n).Step s k t →
      (∀ i track, t.shared.printed = .service i track :: s.shared.printed →
        s.shared.diskQueue ≠ [] ∧
          s.shared.diskQueue.length = min s.shared.requesterNum maxDiskQueue) ∧
      t.shared.requesterNum ≤ s.shared.requesterNum := by
  have h := invariant_of_reachable hmax hn hreach
  have hmaxEq := h.data.max_eq
  have hfull := h.data.full_iff
  have hbound := h.data.bound
  rw [hmaxEq] at hfull hbound
  refine ⟨fun _ => ⟨hmaxEq, h.data.nodup, fun i => h.data.done_eq_one, h.data.num_eq,
    hbound, hfull⟩, fun k t hstep => ?_⟩
  rcases step_cases hstep with ⟨hsame, _⟩ | ⟨_, hthread, hserve, _⟩ |
    ⟨i, track, tracks, _, _, hrequest, _⟩
  · rw [hsame]
    exact ⟨fun i track hprinted => absurd hprinted.symm (List.cons_ne_self _ _),
      Nat.le_refl _⟩
  · have hserver := h.server
    rw [hthread] at hserver
    obtain ⟨hqueue, _, hle⟩ := h.data.serve hmax hserver.2 hserver.1
    rw [hserve]
    exact ⟨fun _ _ _ => ⟨hqueue, hfull.mp hserver.2⟩, hle⟩
  · rw [hrequest]
    refine ⟨fun j track' hprinted => ?_, Nat.le_refl _⟩
    have hhead := (List.cons_eq_cons.mp hprinted).1
    cases hhead

theorem servedWhenFull_filling :
    ∃ s, (scheduler 2).play filling (initial 1 twoFiles) = some s ∧
      s.shared.diskQueue = [(0, 53)] ∧
      s.shared.requesterNum =
        (Finset.univ.filter (Outstanding twoFiles s.shared.printed)).card ∧
      (s.shared.diskQueueFull = true ↔
        s.shared.diskQueue.length = min s.shared.requesterNum 1) ∧
      ∀ k t, (scheduler 2).Step s k t → t.shared.requesterNum ≤ s.shared.requesterNum := by
  obtain ⟨s, hplay, hfree, hqueue⟩ :
      ∃ s, (scheduler 2).play filling (initial 1 twoFiles) = some s ∧ s.owner = none ∧
        s.shared.diskQueue = [(0, 53)] := ⟨_, rfl, rfl, rfl⟩
  obtain ⟨hidle, hsteps⟩ := servedWhenFull_of_reachable Nat.one_pos Nat.two_pos
    (reachable_of_play hplay .refl)
  obtain ⟨_, _, _, hnum, _, hfull⟩ := hidle hfree
  exact ⟨s, hplay, hqueue, hnum, hfull, fun k t hstep => (hsteps k t hstep).2⟩

/-! ## Nobody misses a signal -/

/-- Whenever the mutex is free, the server does not sleep while the queue is full,
and no requester that could put its next request into the queue sleeps. -/
theorem awake_of_reachable
    (hmax : 0 < maxDiskQueue)
    (hreach : (scheduler n).system.Reachable (initial maxDiskQueue files) s)
    (hfree : s.owner = none) :
    (s.shared.diskQueueFull = true → ∀ loc, s.thread .server ≠ .asleep .serverCv loc) ∧
    (s.shared.diskQueueFull = false → ∀ i, s.shared.requesterDone i ≠ 0 →
      ∀ loc, s.thread (.requester i) ≠ .asleep .requesterCv loc) := by
  rcases Nat.eq_zero_or_pos n with rfl | hn
  · refine ⟨fun hfull => ?_, fun _ i => i.elim0⟩
    rw [(idle_of_reachable hreach).shared] at hfull
    cases hfull
  have h := invariant_of_reachable hmax hn hreach
  have houtside : ∀ k, ¬Inside (inside k) (s.thread k) := by
    intro k hin
    rw [← h.exclusive.owner_iff, hfree] at hin
    cases hin
  refine ⟨fun hfull loc hasleep => ?_, fun hroom i hdone loc hasleep => ?_⟩
  · rcases h.serverAsleep _ loc hasleep with hroom | ⟨i, tracks, hsignal⟩
    · rw [hfull] at hroom
      cases hroom
    · refine houtside (.requester i) ?_
      rw [hsignal]
      rfl
  · rcases h.requesterAsleep i _ loc hasleep with hfull | hzero | hbroadcast
    · rw [hroom] at hfull
      cases hfull
    · exact hdone hzero
    · refine houtside .server ?_
      rw [hbroadcast]
      rfl

theorem awake_serving :
    (∃ s loc, (scheduler 2).play filling (initial 1 twoFiles) = some s ∧
      s.shared.diskQueueFull = true ∧
      s.thread (.requester 1) = .asleep .requesterCv loc ∧
      ∀ loc, s.thread .server ≠ .asleep .serverCv loc) ∧
    ∃ s, (scheduler 2).play serving (initial 1 twoFiles) = some s ∧
      s.shared.diskQueueFull = false ∧
      ∀ loc, s.thread (.requester 1) ≠ .asleep .requesterCv loc := by
  constructor
  · obtain ⟨s, hplay, hfree, hfull, loc, hasleep⟩ :
        ∃ s, (scheduler 2).play filling (initial 1 twoFiles) = some s ∧ s.owner = none ∧
          s.shared.diskQueueFull = true ∧
          ∃ loc, s.thread (.requester 1) = .asleep .requesterCv loc :=
      ⟨_, rfl, rfl, rfl, _, rfl⟩
    exact ⟨s, loc, hplay, hfull, hasleep, (awake_of_reachable Nat.one_pos
      (reachable_of_play hplay .refl) hfree).1 hfull⟩
  · obtain ⟨s, hplay, hfree, hroom, hdone⟩ :
        ∃ s, (scheduler 2).play serving (initial 1 twoFiles) = some s ∧ s.owner = none ∧
          s.shared.diskQueueFull = false ∧ s.shared.requesterDone 1 = 1 :=
      ⟨_, rfl, rfl, rfl, rfl⟩
    exact ⟨s, hplay, hroom, (awake_of_reachable Nat.one_pos
      (reachable_of_play hplay .refl) hfree).2 hroom 1 (by rw [hdone]; decide)⟩

/-! ## All runs end -/

/-- How many steps the server can take by itself, waking the requesters included. -/
def serverRank (n : ℕ) : MonitorThread Cv ServerLoc → ℕ
  | .running .lock => 3
  | .running .test => 2
  | .running .wait => 1
  | .running .serve => 1
  | .running .broadcast => 3 * n + 6
  | .running .unlock => 5
  | .running .check => 4
  | .running .returned => 0
  | .asleep _ _ => 0
  | .woken _ => 3

/-- How many steps a requester can take by itself, waking the server included. -/
def requesterRank : MonitorThread Cv RequesterLoc → ℕ
  | .running (.loop []) => 0
  | .running (.loop (_ :: _)) => 3
  | .running (.test _ _) => 2
  | .running (.wait _ _) => 1
  | .running (.request _ _) => 1
  | .running (.signal _) => 8
  | .running (.unlock _) => 4
  | .asleep _ _ => 0
  | .woken _ => 3

/-- The steps that come with the tracks a requester has left. -/
def tracksRank (n : ℕ) (thread : MonitorThread Cv RequesterLoc) : ℕ :=
  (3 * n + 14) * thread.loc.left.length + requesterRank thread

/-- A bound on the length of the rest of a run. -/
def State.rank (s : State n) : ℕ :=
  (3 * n + 6) * s.shared.diskQueue.length + serverRank n (s.thread .server) +
    ∑ i, tracksRank n (s.thread (.requester i))

/-- One requester moves. -/
theorem sum_update (thread : ∀ k : Thread n, MonitorThread Cv (Loc k))
    (new : MonitorThread Cv RequesterLoc) :
    ∑ j, tracksRank n (Function.update thread (.requester i) new (.requester j)) +
        tracksRank n (thread (.requester i)) =
      ∑ j, tracksRank n (thread (.requester j)) + tracksRank n new := by
  have hothers : ∑ j ∈ Finset.univ.erase i,
        tracksRank n (Function.update thread (.requester i) new (.requester j)) =
      ∑ j ∈ Finset.univ.erase i, tracksRank n (thread (.requester j)) := by
    refine Finset.sum_congr rfl fun j hj => ?_
    have hne : Thread.requester j ≠ .requester i := by
      simpa using Finset.ne_of_mem_erase hj
    rw [Function.update_of_ne hne]
  rw [← Finset.sum_erase_add _ _ (Finset.mem_univ i), hothers, Function.update_self,
    ← Finset.sum_erase_add (a := i) Finset.univ
      (fun j => tracksRank n (thread (.requester j))) (Finset.mem_univ i)]
  omega

theorem wake_rank (thread : MonitorThread Cv RequesterLoc) :
    tracksRank n (thread.wake .requesterCv) ≤ tracksRank n thread + 3 := by
  cases thread with
  | running loc => exact Nat.le_add_right _ _
  | woken loc => exact Nat.le_add_right _ _
  | asleep cv loc =>
      rw [MonitorThread.wake]
      split
      · simp only [tracksRank, requesterRank, MonitorThread.loc]
        omega
      · exact Nat.le_add_right _ _

theorem rank_server_moves
    {new : MonitorThread Cv ServerLoc} {owner : Option (Thread n)}
    (hlower : serverRank n new < serverRank n (s.thread .server)) :
    State.rank ⟨s.shared, owner, Function.update s.thread .server new⟩ < s.rank := by
  have hself : Function.update s.thread .server new .server = new :=
    Function.update_self ..
  change _ + serverRank n (Function.update s.thread .server new .server) +
    ∑ i, tracksRank n (s.thread (.requester i)) < _ + _ +
      ∑ i, tracksRank n (s.thread (.requester i))
  rw [hself]
  exact Nat.add_lt_add_right (Nat.add_lt_add_left hlower _) _

theorem rank_requester_moves
    {new : MonitorThread Cv RequesterLoc} {owner : Option (Thread n)}
    (hlower : tracksRank n new < tracksRank n (s.thread (.requester i))) :
    State.rank ⟨s.shared, owner, Function.update s.thread (.requester i) new⟩ <
      s.rank := by
  have hsum := sum_update (i := i) s.thread new
  change _ + serverRank n (s.thread .server) + ∑ j, tracksRank n
    (Function.update s.thread (.requester i) new (.requester j)) < _ + _ + _
  refine Nat.add_lt_add_left ?_ _
  omega

/-- Every step of the server lowers the rank. -/
theorem server_rank
    (h : Invariant maxDiskQueue files s) (hmax : 0 < maxDiskQueue)
    (hstep : (scheduler n).Step s .server t) : t.rank < s.rank := by
  have hserver := h.server
  cases hstep with
  | @lock loc next hthread haction hfree =>
      cases loc <;> cases haction
      exact rank_server_moves (by rw [hthread]; exact Nat.lt_succ_self _)
  | @unlock loc next hthread haction howner =>
      cases loc <;> cases haction
      exact rank_server_moves (by rw [hthread]; exact Nat.lt_succ_self _)
  | @wait loc next cv hthread haction howner =>
      cases loc <;> cases haction
      exact rank_server_moves (by rw [hthread]; exact Nat.lt_succ_self _)
  | @signal j loc next cv loc' hthread haction hasleep => cases loc <;> cases haction
  | @signalNobody loc next cv hthread haction hnobody => cases loc <;> cases haction
  | @broadcast loc next cv hthread haction =>
      cases loc <;> cases haction
      have hself : Function.update (fun j => (s.thread j).wake .requesterCv) .server
          (.running .unlock) .server = .running .unlock :=
        Function.update_self ..
      have hwoken : ∑ i, tracksRank n ((s.thread (.requester i)).wake .requesterCv) ≤
          ∑ i, tracksRank n (s.thread (.requester i)) + 3 * n := by
        refine (Finset.sum_le_sum fun i _ => wake_rank _).trans ?_
        have hthree : ∑ _i : Fin n, 3 = n * 3 := by
          rw [Finset.sum_const_nat fun _ _ => rfl, Finset.card_univ, Fintype.card_fin]
        rw [Finset.sum_add_distrib, hthree, Nat.mul_comm]
      change _ + serverRank n (Function.update
          (fun j => (s.thread j).wake .requesterCv) .server (.running .unlock) .server) +
        ∑ i, tracksRank n ((s.thread (.requester i)).wake .requesterCv) < s.rank
      rw [hself, State.rank, hthread]
      simp only [serverRank]
      omega
  | @run loc effect hthread haction =>
      cases loc with
      | test =>
          cases haction
          refine rank_server_moves ?_
          rw [hthread]
          change serverRank n
            (.running (if s.shared.diskQueueFull then .serve else .wait)) < 2
          split <;> exact Nat.lt_succ_self _
      | check =>
          cases haction
          refine rank_server_moves ?_
          rw [hthread]
          change serverRank n
            (.running (if s.shared.requesterNum = 0 then .returned else .lock)) < 4
          split
          · exact Nat.succ_pos _
          · exact Nat.lt_succ_self _
      | serve =>
          cases haction
          rw [hthread] at hserver
          obtain ⟨hqueue, _⟩ := h.data.serve hmax hserver.2 hserver.1
          obtain ⟨i, track, htarget⟩ := exists_target hqueue
          have hlength : s.shared.serve.diskQueue.length + 1 =
              s.shared.diskQueue.length := by
            rw [serve_diskQueue htarget, List.length_eraseIdx_of_lt
              (targetIndex_lt hqueue)]
            have hpos := List.length_pos_iff.mpr hqueue
            omega
          have hself : Function.update s.thread .server (.running .broadcast) .server =
              .running .broadcast :=
            Function.update_self ..
          change (3 * n + 6) * s.shared.serve.diskQueue.length + serverRank n
            (Function.update s.thread .server (.running .broadcast) .server) +
            ∑ i, tracksRank n (s.thread (.requester i)) < s.rank
          rw [hself, State.rank, hthread, ← hlength, Nat.mul_succ]
          simp only [serverRank]
          omega
      | lock => cases haction
      | wait => cases haction
      | broadcast => cases haction
      | unlock => cases haction
      | returned => cases haction
  | @wake loc hthread hfree =>
      rw [hthread] at hserver
      obtain ⟨rfl, _⟩ := hserver
      exact rank_server_moves (by rw [hthread]; exact Nat.lt_succ_self _)

/-- Every step of a requester lowers the rank. -/
theorem requester_rank
    (h : Invariant maxDiskQueue files s)
    (hstep : (scheduler n).Step s (.requester i) t) : t.rank < s.rank := by
  have hrequester := h.requester i
  cases hstep with
  | @lock loc next hthread haction hfree =>
      rcases loc with (_ | _) | _ | _ | _ | _ | _ <;> cases haction
      refine rank_requester_moves ?_
      rw [hthread]
      exact Nat.add_lt_add_left (by simp [requesterRank]) _
  | @unlock loc next hthread haction howner =>
      rcases loc with (_ | _) | _ | _ | _ | _ | tracks <;> cases haction
      refine rank_requester_moves ?_
      rw [hthread]
      refine Nat.add_lt_add_left ?_ _
      cases tracks <;> simp [requesterRank]
  | @wait loc next cv hthread haction howner =>
      rcases loc with (_ | _) | _ | _ | _ | _ | _ <;> cases haction
      refine rank_requester_moves ?_
      rw [hthread]
      exact Nat.add_lt_add_left (by simp [requesterRank]) _
  | @signal j loc next cv loc' hthread haction hasleep =>
      rcases loc with (_ | _) | _ | _ | _ | tracks | _ <;> cases haction
      cases j with
      | requester j =>
          have hother := h.requester j
          rw [hasleep] at hother
          cases hother.1
      | server =>
          have hsum := sum_update (i := i) s.thread (.running (.unlock tracks))
          have hself : Function.update (Function.update s.thread .server (.woken loc'))
              (.requester i) (.running (.unlock tracks)) .server = .woken loc' :=
            Function.update_self (Thread.server : Thread n) _ s.thread
          change _ + serverRank n (Function.update (Function.update s.thread .server
              (.woken loc')) (.requester i) (.running (.unlock tracks)) .server) +
            ∑ j, tracksRank n (Function.update s.thread (.requester i)
              (.running (.unlock tracks)) (.requester j)) < s.rank
          rw [hself, State.rank, hasleep]
          rw [hthread] at hsum
          simp only [tracksRank, MonitorThread.loc, RequesterLoc.left, requesterRank,
            serverRank] at hsum ⊢
          omega
  | @signalNobody loc next cv hthread haction hnobody =>
      rcases loc with (_ | _) | _ | _ | _ | _ | _ <;> cases haction
      refine rank_requester_moves ?_
      rw [hthread]
      exact Nat.add_lt_add_left (by simp [requesterRank]) _
  | @broadcast loc next cv hthread haction =>
      rcases loc with (_ | _) | _ | _ | _ | _ | _ <;> cases haction
  | @run loc effect hthread haction =>
      rcases loc with (_ | _) | ⟨track, tracks⟩ | _ | ⟨track, tracks⟩ | _ | _ <;>
        cases haction
      case run.test.refl =>
          refine rank_requester_moves ?_
          rw [hthread]
          change tracksRank n (.running
            (if s.shared.diskQueueFull || s.shared.requesterDone i == 0 then
              .wait track tracks else .request track tracks)) < _
          split <;> exact Nat.add_lt_add_left (by simp [requesterRank]) _
      case run.request.refl =>
          have hsum := sum_update (i := i) s.thread (.running (.signal tracks))
          change (3 * n + 6) * (s.shared.diskQueue ++ [(i, track)]).length +
            serverRank n (s.thread .server) + ∑ j, tracksRank n (Function.update s.thread
              (.requester i) (.running (.signal tracks)) (.requester j)) < s.rank
          rw [hthread] at hsum
          rw [State.rank, List.length_append, Nat.mul_add]
          simp only [tracksRank, MonitorThread.loc, RequesterLoc.left, requesterRank,
            List.length_cons, List.length_nil, Nat.mul_succ] at hsum ⊢
          omega
  | @wake loc hthread hfree =>
      rw [hthread] at hrequester
      obtain ⟨track, tracks, rfl⟩ := hrequester
      refine rank_requester_moves ?_
      rw [hthread]
      exact Nat.add_lt_add_left (by simp [requesterRank]) _

/-- Every step lowers the rank, so every run ends. -/
theorem rank_of_step
    (hmax : 0 < maxDiskQueue) (hn : 0 < n)
    (hreach : (scheduler n).system.Reachable (initial maxDiskQueue files) s)
    (hstep : (scheduler n).Step s k t) : t.rank < s.rank := by
  have h := invariant_of_reachable hmax hn hreach
  cases k with
  | server => exact server_rank h hmax hstep
  | requester i => exact requester_rank h hstep

/-! ## Deadlocks -/

/-- A requester with an empty file counts for ever. -/
theorem Invariant.server_not_returned
    (h : Invariant maxDiskQueue files s) (hempty : files i = []) :
    ¬(scheduler n).Returned .server s := by
  rintro ⟨loc, hthread, hstop⟩
  have hserver := h.server
  rw [hthread] at hserver
  cases loc <;> cases hstop
  have hzero : s.shared.requesterNum = 0 := hserver
  rw [h.data.num_eq, Finset.card_eq_zero, Finset.filter_eq_empty_iff] at hzero
  exact hzero (Finset.mem_univ i) (.inl hempty)

/-- With an empty file every run leads to a deadlock. -/
theorem exists_deadlock
    (hmax : 0 < maxDiskQueue) (hn : 0 < n) (hempty : files i = []) :
    ∃ s, (scheduler n).system.Reachable (initial maxDiskQueue files) s ∧
      ¬AllReturned s ∧ ¬(scheduler n).CanStep s := by
  obtain ⟨s, hreach, hstuck⟩ := EventSystem.Reachable.exists_stuck State.rank
    (fun s k t hreach hstep => rank_of_step hmax hn hreach hstep) (.refl)
  have h := invariant_of_reachable hmax hn hreach
  refine ⟨s, hreach, fun hall => h.server_not_returned hempty (hall .server), ?_⟩
  rintro ⟨k, t, hstep⟩
  exact hstuck k t hstep

theorem Invariant.returned_left
    (h : (scheduler n).Returned (.requester i) s) : s.left i = [] := by
  obtain ⟨loc, hthread, hstop⟩ := h
  rcases loc with (_ | _) | _ | _ | _ | _ | _ <;> cases hstop
  rw [State.left, hthread]
  rfl

/-- Without empty files nobody waits for ever. -/
theorem Invariant.allReturned
    (h : Invariant maxDiskQueue files s) (hfiles : ∀ i, files i ≠ [])
    (hstuck : ¬(scheduler n).CanStep s) : AllReturned s := by
  obtain ⟨_, hthreads⟩ := h.exclusive.stuck bracketed hstuck
  have hserver : (scheduler n).Returned .server s := by
    rcases hthreads .server with hreturned | ⟨cv, loc, hasleep⟩
    · exact hreturned
    exfalso
    have hroom : s.shared.diskQueueFull = false := by
      rcases h.serverAsleep cv loc hasleep with hroom | ⟨i, tracks, hsignal⟩
      · exact hroom
      · rcases hthreads (.requester i) with ⟨loc', hthread, hstop⟩ | ⟨cv', loc', hthread⟩
        · rw [hsignal] at hthread
          cases hthread
          cases hstop
        · rw [hsignal] at hthread
          cases hthread
    have hless : s.shared.queued.toFinset.card <
        (Finset.univ.filter (Outstanding files s.shared.printed)).card := by
      have hlength := h.data.full_iff
      have hbound := h.data.bound
      rw [List.toFinset_card_of_nodup h.data.nodup, Shared.queued, List.length_map,
        ← h.data.num_eq]
      have hne : s.shared.diskQueue.length ≠
          min s.shared.requesterNum s.shared.maxDiskQueue := by
        rw [ne_eq, ← hlength, hroom]
        simp
      omega
    obtain ⟨i, hmem, hnot⟩ := Finset.exists_mem_notMem_of_card_lt_card hless
    rw [List.mem_toFinset] at hnot
    have houtstanding := (Finset.mem_filter.mp hmem).2
    have hleft : s.left i ≠ [] := by
      rcases h.data.outstanding_iff.mp houtstanding with hempty | hqueued | hleft
      · exact absurd hempty (hfiles i)
      · exact absurd hqueued hnot
      · exact hleft
    rcases hthreads (.requester i) with hreturned | ⟨cv', loc', hthread⟩
    · exact hleft (Invariant.returned_left hreturned)
    · rcases h.requesterAsleep i cv' loc' hthread with hfull | hzero | hbroadcast
      · exact absurd (hroom.symm.trans hfull) (by simp)
      · rw [h.data.done_eq, if_neg hnot] at hzero
        cases hzero
      · rw [hasleep] at hbroadcast
        cases hbroadcast
  intro k
  cases k with
  | server => exact hserver
  | requester i =>
      rcases hthreads (.requester i) with hreturned | ⟨cv, loc, hasleep⟩
      · exact hreturned
      exfalso
      have hrequester := h.requester i
      rw [hasleep] at hrequester
      obtain ⟨_, track, tracks, rfl⟩ := hrequester
      have hleft : s.left i ≠ [] := by
        rw [State.left, hasleep]
        exact List.cons_ne_nil _ _
      obtain ⟨loc, hthread, hstop⟩ := hserver
      have hzero := h.server
      rw [hthread] at hzero
      cases loc <;> cases hstop
      have hnum : s.shared.requesterNum = 0 := hzero
      rw [h.data.num_eq, Finset.card_eq_zero, Finset.filter_eq_empty_iff] at hnum
      exact hnum (Finset.mem_univ i) (h.data.outstanding_iff.mpr (.inr (.inr hleft)))

/-- The scheduler cannot get stuck before all functions have returned if and only
if no file is empty. -/
theorem deadlockFree_iff (hmax : 0 < maxDiskQueue) (hn : 0 < n) :
    (∀ s, (scheduler n).system.Reachable (initial maxDiskQueue files) s →
      AllReturned s ∨ (scheduler n).CanStep s) ↔ ∀ i, files i ≠ [] := by
  constructor
  · intro hfree i hempty
    obtain ⟨s, hreach, hall, hstuck⟩ := exists_deadlock hmax hn hempty
    rcases hfree s hreach with hreturned | hstep
    · exact hall hreturned
    · exact hstuck hstep
  · intro hfiles s hreach
    by_cases hstep : (scheduler n).CanStep s
    · exact .inr hstep
    · exact .inl ((invariant_of_reachable hmax hn hreach).allReturned hfiles hstep)

theorem deadlockFree_filling :
    ∃ s, (scheduler 2).play filling (initial 1 twoFiles) = some s ∧
      (AllReturned s ∨ (scheduler 2).CanStep s) := by
  obtain ⟨s, hplay⟩ :
      ∃ s, (scheduler 2).play filling (initial 1 twoFiles) = some s := ⟨_, rfl⟩
  have hfiles : ∀ i, twoFiles i ≠ [] := by decide
  exact ⟨s, hplay, (deadlockFree_iff Nat.one_pos Nat.two_pos).mpr hfiles s
    (reachable_of_play hplay .refl)⟩

/-- With one requester and an empty file the server waits for ever. -/
theorem not_deadlockFree_empty :
    ¬∀ s, (scheduler 1).system.Reachable (initial 1 fun _ => []) s →
      AllReturned s ∨ (scheduler 1).CanStep s := by
  intro hfree
  obtain ⟨s, hreach, hall, hstuck⟩ :=
    @exists_deadlock 1 1 (fun _ => []) 0 Nat.one_pos Nat.one_pos rfl
  rcases hfree s hreach with hreturned | hstep
  · exact hall hreturned
  · exact hstuck hstep

end Scheduler
end Eecs482
