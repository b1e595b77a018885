import Eecs482.SchedulerGuarantees
import Eecs482.SchedulerServices

/-!
# When the scheduler completes

With room in the queue and something to read for each of its requesters the
scheduler services all requests and ends, whatever the schedule.  In all other
cases it never ends.
-/

namespace Eecs482
namespace Scheduler

open Monitor

variable {n : ℕ} {maxDiskQueue : ℕ} {files : Fin n → List UInt32} {s t : State n}

/-- All requests have been serviced and all functions have returned. -/
structure Complete (files : Fin n → List UInt32) (s : State n) : Prop where
  returned : AllReturned s
  emptied : s.shared.diskQueue = []
  serviced : ∀ i, history i s.shared.printed = exchanges i (files i)

theorem server_returned (hreturned : (scheduler n).Returned .server s) :
    s.thread .server = .running .returned := by
  obtain ⟨loc, hthread, hstop⟩ := hreturned
  cases loc <;> cases hstop
  exact hthread

theorem complete_of_stuck
    (hmax : 0 < maxDiskQueue) (hn : 0 < n) (hfiles : ∀ i, files i ≠ [])
    (hreach : (scheduler n).system.Reachable (initial maxDiskQueue files) s)
    (hstuck : ¬(scheduler n).CanStep s) : Complete files s := by
  have hall := (invariant_of_reachable hmax hn hreach).allReturned hfiles hstuck
  have h := invariant_of_reachable hmax hn hreach
  have htraced := traced_of_reachable hmax hn hreach
  have hserver := h.server
  rw [server_returned (hall .server)] at hserver
  have hzero : s.shared.requesterNum = 0 := hserver
  rw [h.data.num_eq, Finset.card_eq_zero, Finset.filter_eq_empty_iff] at hzero
  have hdone : ∀ i, i ∉ s.shared.queued ∧ s.left i = [] := by
    intro i
    have hnot := hzero (Finset.mem_univ i)
    rw [h.data.outstanding_iff, not_or, not_or, not_not] at hnot
    exact hnot.2
  constructor
  case returned => exact hall
  case emptied =>
      rw [List.eq_nil_iff_forall_not_mem]
      exact fun entry hentry => (hdone entry.1).1 (List.mem_map_of_mem hentry)
  case serviced =>
      intro i
      rw [← htraced i, pending_eq_nil (hdone i).1, (hdone i).2]
      simp [exchanges]

/-! ## The length of a run -/

/-- A bound on the number of steps. -/
def stepBound (files : Fin n → List UInt32) : ℕ :=
  3 + ∑ i, ((3 * n + 14) * (files i).length + 3)

theorem rank_initial : (initial maxDiskQueue files).rank ≤ stepBound files := by
  have hrequesters : ∑ i, tracksRank n ((initial maxDiskQueue files).thread
      (.requester i)) ≤ ∑ i, ((3 * n + 14) * (files i).length + 3) := by
    apply Finset.sum_le_sum
    intro i _
    change (3 * n + 14) * (files i).length + requesterRank (.running (.loop (files i))) ≤ _
    have hrank : requesterRank (.running (.loop (files i))) ≤ 3 := by
      cases files i <;> simp [requesterRank]
    omega
  unfold State.rank stepBound
  change (3 * n + 6) * 0 + 3 + _ ≤ _
  omega

theorem length_le_stepBound
    {trace : List (Thread n)} (hmax : 0 < maxDiskQueue) (hn : 0 < n)
    (hrun : (scheduler n).system.Run (initial maxDiskQueue files) trace s) :
    trace.length ≤ stepBound files := by
  have hlength := hrun.length_le State.rank fun s k t hreach hstep =>
    rank_of_step hmax hn hreach hstep
  exact hlength.trans rank_initial

/-! ## Without room in the queue -/

/-- The queue is never full, and the server waits for it. -/
structure Starved (s : State n) : Prop where
  max_eq : s.shared.maxDiskQueue = 0
  room : s.shared.diskQueueFull = false
  server : (s.thread .server).loc ∈ [ServerLoc.lock, .test, .wait]

/-- The server goes around its inner loop. -/
theorem Starved.server_loc
    (h : Starved s) (hstep : (scheduler n).Step s .server t) :
    (t.thread .server).loc ∈ [ServerLoc.lock, .test, .wait] := by
  have hserver := h.server
  have hself : ∀ (thread : ∀ k : Thread n, MonitorThread Cv (Loc k))
      (new : MonitorThread Cv ServerLoc),
      Function.update thread .server new .server = new :=
    fun thread new => Function.update_self Thread.server new thread
  have hmoves : ∀ {new : MonitorThread Cv ServerLoc}, t.thread .server = new →
      new.loc ∈ [ServerLoc.lock, .test, .wait] →
      (t.thread .server).loc ∈ [ServerLoc.lock, .test, .wait] := by
    intro new hnew hloc
    rw [hnew]
    exact hloc
  cases hstep with
  | @lock loc next hthread haction =>
      cases loc <;> cases haction
      exact hmoves (hself s.thread _) (by simp [MonitorThread.loc])
  | @unlock loc next hthread haction =>
      cases loc <;> cases haction
      rw [hthread] at hserver
      simp [MonitorThread.loc] at hserver
  | @wait loc next cv hthread haction =>
      cases loc <;> cases haction
      exact hmoves (hself s.thread _) (by simp [MonitorThread.loc])
  | @signal j loc next cv loc' hthread haction => cases loc <;> cases haction
  | @signalNobody loc next cv hthread haction => cases loc <;> cases haction
  | @broadcast loc next cv hthread haction =>
      cases loc <;> cases haction
      rw [hthread] at hserver
      simp [MonitorThread.loc] at hserver
  | @run loc effect hthread haction =>
      rw [hthread] at hserver
      cases loc <;> cases haction
      case run.test.refl =>
          apply hmoves (hself s.thread _)
          simp [MonitorThread.loc, h.room]
      case run.serve.refl => simp [MonitorThread.loc] at hserver
      case run.check.refl => simp [MonitorThread.loc] at hserver
  | @wake loc hthread =>
      rw [hthread] at hserver
      exact hmoves (hself s.thread _) hserver

theorem Starved.step
    {k : Thread n} (h : Starved s) (hstep : (scheduler n).Step s k t) : Starved t := by
  have hserver : (t.thread .server).loc ∈ [ServerLoc.lock, .test, .wait] := by
    cases k with
    | server => exact h.server_loc hstep
    | requester i =>
        have hsame := hstep.loc_of_ne (j := .server) (by simp)
        rw [hsame]
        exact h.server
  rcases step_cases hstep with ⟨hshared, _⟩ | ⟨_, hthread, _⟩ |
    ⟨i, track, tracks, _, _, hshared, _⟩
  · exact ⟨hshared ▸ h.max_eq, hshared ▸ h.room, hserver⟩
  · have hloc := h.server
    rw [hthread] at hloc
    simp [MonitorThread.loc] at hloc
  · refine ⟨?_, ?_, hserver⟩
    · rw [hshared]
      exact h.max_eq
    · rw [hshared]
      simp [Shared.request, Shared.full, h.max_eq, h.room]

theorem starved_of_reachable
    (hreach : (scheduler n).system.Reachable (initial 0 files) s) : Starved s :=
  hreach.invariant Starved ⟨rfl, rfl, List.mem_cons_self⟩
    fun _ _ _ h hstep => h.step hstep

/-! ## The condition -/

/-- Otherwise the server does not return. -/
theorem condition_of_returned
    (hreach : (scheduler n).system.Reachable (initial maxDiskQueue files) s)
    (hreturned : (scheduler n).Returned .server s) :
    0 < maxDiskQueue ∧ 0 < n ∧ ∀ i, files i ≠ [] := by
  have hthread := server_returned hreturned
  have hmax : 0 < maxDiskQueue := by
    rw [Nat.pos_iff_ne_zero]
    rintro rfl
    have hloc := (starved_of_reachable hreach).server
    rw [hthread] at hloc
    simp [MonitorThread.loc] at hloc
  have hn : 0 < n := by
    rw [Nat.pos_iff_ne_zero]
    rintro rfl
    have hloc := (idle_of_reachable hreach).server
    rw [hthread] at hloc
    simp [MonitorThread.loc] at hloc
  refine ⟨hmax, hn, fun i hempty => ?_⟩
  exact (invariant_of_reachable hmax hn hreach).server_not_returned hempty hreturned

/-- Whatever the schedule, the scheduler ends within `stepBound` steps with all
requests serviced, if and only if the queue has room for a request, there are
files, and none of them is empty. -/
theorem completes_iff (maxDiskQueue : ℕ) (files : Fin n → List UInt32) :
    (∀ trace s, (scheduler n).system.Run (initial maxDiskQueue files) trace s →
      trace.length ≤ stepBound files ∧
        ((scheduler n).CanStep s ∨ Complete files s)) ↔
      0 < maxDiskQueue ∧ 0 < n ∧ ∀ i, files i ≠ [] := by
  constructor
  · intro hruns
    obtain ⟨s, hreach, hstuck⟩ := EventSystem.exists_stuck_of_length_le
      fun trace s hrun => (hruns trace s hrun).1
    have hreach' := hreach
    obtain ⟨trace, hrun⟩ := hreach'
    rcases (hruns trace s hrun).2 with hstep | hcomplete
    · obtain ⟨k, t, hstep⟩ := hstep
      exact absurd hstep (hstuck k t)
    · exact condition_of_returned hreach (hcomplete.returned .server)
  · rintro ⟨hmax, hn, hfiles⟩ trace s hrun
    refine ⟨length_le_stepBound hmax hn hrun, ?_⟩
    by_cases hstep : (scheduler n).CanStep s
    · exact .inl hstep
    · exact .inr (complete_of_stuck hmax hn hfiles ⟨trace, hrun⟩ hstep)

end Scheduler
end Eecs482
