import Eecs482.SchedulerCompletion
import Eecs482.ThreadSuspensions

/-!
# The disk scheduler on the thread library

`schedule` is the main thread.  It creates the requesters and the server, joins them all
and returns.  What has been said about the scheduler over any monitor holds of it over
the thread library.
-/

namespace Eecs482
namespace Scheduler

open Threads (Implements OutOfMemory GoesOn ProgramEvent runCost timerCost)

variable {n maxDiskQueue : ℕ} {files : Fin n → List UInt32} {s : State n}

/-- The order in which `schedule` creates the threads. -/
def created : Thread n → Fin (n + 1)
  | .requester i => i.castSucc
  | .server => Fin.last n

def ofCreated : Fin (n + 1) → Thread n :=
  Fin.lastCases .server .requester

theorem ofCreated_created (thread : Thread n) : ofCreated (created thread) = thread := by
  cases thread with
  | server => exact Fin.lastCases_last
  | requester i => exact Fin.lastCases_castSucc ..

theorem created_ofCreated (t : Fin (n + 1)) : created (ofCreated t) = t := by
  induction t using Fin.lastCases with
  | last =>
      rw [ofCreated, Fin.lastCases_last]
      rfl
  | cast i =>
      rw [ofCreated, Fin.lastCases_castSucc]
      rfl

def order (n : ℕ) : Thread n ≃ Fin (n + 1) where
  toFun := created
  invFun := ofCreated
  left_inv := ofCreated_created
  right_inv := created_ofCreated

/-- `requester_cv` and `server_cv`. -/
def Cv.number : Cv → ℕ
  | .requesterCv => 0
  | .serverCv => 1

theorem number_injective : Function.Injective Cv.number := by
  intro cv cv' h
  cases cv <;> cases cv' <;> first | rfl | cases h

def numbering (n : ℕ) : Threads.Numbering (Thread n) Cv (n + 1) where
  index := order n
  cv := Cv.number
  cv_injective := number_injective

abbrev Program (n : ℕ) := Threads.ProgramState (Thread n) (Shared n) Loc

/-- Before `cpu::boot(schedule, nullptr, 0)` starts the main thread. -/
def booted (maxDiskQueue : ℕ) (files : Fin n → List UInt32) : Program n :=
  Threads.programStart (initial maxDiskQueue files).shared fun i =>
    ((initial maxDiskQueue files).thread i).loc

/-- The scheduler on the thread library. -/
def schedule (n : ℕ) : EventSystem (Program n) Threads.ProgramEvent :=
  Threads.program (numbering n) (scheduler n)

variable {p : Program n}

/-- All requests have been serviced, and all threads have finished. -/
structure Ended (files : Fin n → List UInt32) (p : Program n) : Prop where
  emptied : p.shared.diskQueue = []
  serviced : ∀ i, history i p.shared.printed = exchanges i (files i)
  finished : ∀ t, t ≤ n + 1 → Threads.Event.finished t ∈ p.cpu.state.log

theorem entry_outside (maxDiskQueue : ℕ) (files : Fin n → List UInt32) (i : Thread n) :
    inside i ((initial maxDiskQueue files).thread i).loc = false := by
  cases i <;> rfl

/-- The program is where a run of the scheduler over a monitor is. -/
theorem implements_scheduler
    (hreach : (schedule n).Reachable (booted maxDiskQueue files) p) :
    ∃ s, (scheduler n).system.Reachable (initial maxDiskQueue files) s ∧
      Implements (numbering n) (scheduler n) p s := by
  have hsimulates := Threads.tracks_stutterSimulates (N := numbering n) (bracketed (n := n))
  have houtside := entry_outside maxDiskQueue files
  obtain ⟨s, hs, htracks⟩ :=
    hsimulates.reachable (Threads.tracks_start bracketed houtside) hreach
  exact ⟨s, hs, htracks.implements bracketed⟩

/-- Once the processor is suspended, all requests have been serviced if and only if the
queue has room for a request, there are files, and none of them is empty. -/
theorem ended_iff_of_suspended
    (hs : (scheduler n).system.Reachable (initial maxDiskQueue files) s)
    (himplements : Implements (numbering n) (scheduler n) p s)
    (hsuspended : p.cpu.suspended = true) :
    Ended files p ↔ 0 < maxDiskQueue ∧ 0 < n ∧ ∀ i, files i ≠ [] := by
  constructor
  · intro hended
    have hserver := hended.finished _ ((numbering n).thread_le .server)
    exact condition_of_returned hs (himplements.returned _ hserver)
  · rintro ⟨hmax, hn, hfiles⟩
    have hcomplete := complete_of_stuck hmax hn hfiles hs (himplements.stuck hsuspended)
    constructor
    · rw [← himplements.shared]
      exact hcomplete.emptied
    · rw [← himplements.shared]
      exact hcomplete.serviced
    · exact himplements.finished hsuspended hcomplete.returned

/-! ## The end of a run -/

theorem forward : (numbering n).Forward (scheduler n) := by
  intro i l call next haction
  cases i with
  | server => cases l <;> cases haction <;> simp
  | requester i =>
      cases l with
      | loop tracks =>
          cases tracks with
          | nil => cases haction
          | cons track tracks =>
              cases haction
              simp
      | _ => cases haction <;> simp

theorem runCost_mono {rank rank' : ℕ} (total : ℕ) (hle : rank ≤ rank') :
    runCost total rank ≤ runCost total rank' := by
  unfold runCost
  have hmul := Nat.mul_le_mul_left Threads.price hle
  simp only [Nat.mul_add]
  omega

/-- With room in the queue and something to read for each requester, the program ends with
all requests serviced, unless there is no memory for a thread: it goes on until then, and
takes a bounded number of steps, but for the interrupts of the timer. -/
theorem schedule_completes
    {trace : List ProgramEvent} (hmax : 0 < maxDiskQueue) (hn : 0 < n)
    (hfiles : ∀ i, files i ≠ [])
    (hrun : (schedule n).Run (booted maxDiskQueue files) trace p) :
    trace.length ≤ runCost (n + 1) (stepBound files) +
        (timerCost + 1) * trace.countP ProgramEvent.isTimer ∧
      (Ended files p ∨ OutOfMemory p.cpu ∨ GoesOn (numbering n) (scheduler n) p) := by
  have houtside := entry_outside maxDiskQueue files
  constructor
  · have hlength := Threads.length_le_of_rank bracketed houtside forward State.rank
      (fun s k t hreach hstep => rank_of_step hmax hn hreach hstep) hrun
    have hrank : runCost (n + 1) (initial maxDiskQueue files).rank ≤
        runCost (n + 1) (stepBound files) := runCost_mono (n + 1) rank_initial
    exact hlength.trans (Nat.add_le_add_right hrank _)
  · rcases Threads.goesOn_of_reachable bracketed houtside ⟨trace, hrun⟩ with hsuspended | hgoesOn
    · obtain ⟨s, hs, himplements⟩ := implements_scheduler ⟨trace, hrun⟩
      exact .inl ((ended_iff_of_suspended hs himplements hsuspended).mpr ⟨hmax, hn, hfiles⟩)
    · exact .inr hgoesOn

/-- One file with one track: a run to its end. -/
theorem exists_suspended_seven :
    ∃ trace p, (schedule 1).Run (booted 1 fun _ => [7]) trace p ∧ p.cpu.suspended = true := by
  have hbound : ∀ trace p, (schedule 1).Run (booted 1 fun _ => [7]) trace p →
      trace.length ≤ runCost 2 (stepBound fun _ : Fin 1 => [7]) +
        (timerCost + 1) * trace.countP ProgramEvent.isTimer :=
    fun trace p hrun => (schedule_completes (by decide) (by decide) (by simp) hrun).1
  obtain ⟨p, ⟨trace, hrun⟩, hsuspended, _⟩ := Threads.exists_suspended_of_length_le bracketed
    (entry_outside 1 fun _ => [7]) hbound
  exact ⟨trace, p, hrun, hsuspended⟩

theorem implements_seven :
    ∃ p s, p.cpu.suspended = true ∧
      (scheduler 1).system.Reachable (initial 1 fun _ => [7]) s ∧
      Implements (numbering 1) (scheduler 1) p s := by
  obtain ⟨trace, p, hrun, hsuspended⟩ := exists_suspended_seven
  obtain ⟨s, hs, himplements⟩ := Threads.implements_of_reachable bracketed
    (entry_outside 1 fun _ => [7]) ⟨trace, hrun⟩
  exact ⟨p, s, hsuspended, hs, himplements⟩

theorem goesOn_and_ends_seven :
    ∃ trace p, (schedule 1).Run (booted 1 fun _ => [7]) trace p ∧ p.cpu.suspended = true ∧
      trace.length ≤ runCost 2 (initial 1 fun _ : Fin 1 => [7]).rank +
        (timerCost + 1) * trace.countP ProgramEvent.isTimer := by
  obtain ⟨trace, p, hrun, hsuspended⟩ := exists_suspended_seven
  have hends := Threads.goesOn_and_ends bracketed (entry_outside 1 fun _ => [7]) hrun
  exact ⟨trace, p, hrun, hsuspended, hends.2 State.rank forward fun s k t hreach hstep =>
    rank_of_step (by decide) (by decide) hreach hstep⟩

/-- At every point of every run the program is where a run of the scheduler over a monitor
is, and it ends as that does. -/
theorem schedule_ends
    (hreach : (schedule n).Reachable (booted maxDiskQueue files) p) :
    ∃ s, (scheduler n).system.Reachable (initial maxDiskQueue files) s ∧
      Implements (numbering n) (scheduler n) p s ∧
      (p.cpu.suspended = true →
        (Ended files p ↔ 0 < maxDiskQueue ∧ 0 < n ∧ ∀ i, files i ≠ [])) := by
  obtain ⟨s, hs, himplements⟩ := implements_scheduler hreach
  exact ⟨s, hs, himplements, ended_iff_of_suspended hs himplements⟩

theorem schedule_ends_seven :
    ∃ p, (schedule 1).Reachable (booted 1 fun _ => [7]) p ∧ p.cpu.suspended = true ∧
      Ended (fun _ => [7]) p := by
  obtain ⟨trace, p, hrun, hsuspended⟩ := exists_suspended_seven
  obtain ⟨s, _, _, hended⟩ := schedule_ends ⟨trace, hrun⟩
  exact ⟨p, ⟨trace, hrun⟩, hsuspended, (hended hsuspended).mpr (by simp)⟩

/-- Whatever the schedule, the program goes on until all requests are serviced or there is
no memory for a thread, and takes a bounded number of steps but for the interrupts of the
timer, if and only if the queue has room for a request, there are files, and none of them
is empty. -/
theorem schedule_completes_iff (maxDiskQueue : ℕ) (files : Fin n → List UInt32) :
    (∀ trace p, (schedule n).Run (booted maxDiskQueue files) trace p →
      trace.length ≤ runCost (n + 1) (stepBound files) +
          (timerCost + 1) * trace.countP ProgramEvent.isTimer ∧
        (Ended files p ∨ OutOfMemory p.cpu ∨ GoesOn (numbering n) (scheduler n) p)) ↔
      0 < maxDiskQueue ∧ 0 < n ∧ ∀ i, files i ≠ [] := by
  constructor
  · intro hruns
    obtain ⟨p, hreach, hsuspended, hmemory⟩ := Threads.exists_suspended_of_length_le bracketed
      (entry_outside maxDiskQueue files) fun trace p hrun => (hruns trace p hrun).1
    have hreach' := hreach
    obtain ⟨trace, hrun⟩ := hreach'
    rcases (hruns trace p hrun).2 with hended | hthrew | hgoesOn
    · obtain ⟨s, hs, himplements⟩ := implements_scheduler hreach
      exact (ended_iff_of_suspended hs himplements hsuspended).mp hended
    · exact absurd hthrew hmemory
    · exact absurd hgoesOn (Threads.not_goesOn hsuspended)
  · rintro ⟨hmax, hn, hfiles⟩ trace p hrun
    exact schedule_completes hmax hn hfiles hrun

end Scheduler
end Eecs482
