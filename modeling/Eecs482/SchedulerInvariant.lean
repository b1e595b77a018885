import Eecs482.SchedulerMachine
import Mathlib.Data.Fintype.Card
import Mathlib.Data.Fintype.Fin

/-!
# The invariant of the disk scheduler

`Data` relates the shared variables to the tracks that the requesters still have
and to what has been printed.  Only `serve` and `request` change the variables,
and each of them keeps it.
-/

namespace Eecs482
namespace Scheduler

variable {n : ℕ} {maxDiskQueue : ℕ} {files left : Fin n → List UInt32}
  {i j : Fin n} {track : UInt32} {tracks : List UInt32}

/-- The requesters with an entry in the queue. -/
def Shared.queued (s : Shared n) : List (Fin n) :=
  s.diskQueue.map Prod.fst

/-- The shared variables agree with the tracks that are left and with what has
been printed. -/
structure Data (maxDiskQueue : ℕ) (files left : Fin n → List UInt32) (s : Shared n) :
    Prop where
  max_eq : s.maxDiskQueue = maxDiskQueue
  nodup : s.queued.Nodup
  done_eq : ∀ i, s.requesterDone i =
    if i ∈ s.queued then (if left i = [] then -1 else 0) else 1
  count : ∀ i, services i s.printed + (if i ∈ s.queued then 1 else 0) +
    (left i).length = (files i).length
  num_eq : s.requesterNum =
    (Finset.univ.filter (Outstanding files s.printed)).card
  bound : s.diskQueue.length ≤ min s.requesterNum s.maxDiskQueue
  full_iff : s.diskQueueFull = true ↔
    s.diskQueue.length = min s.requesterNum s.maxDiskQueue

theorem data_initial (hmax : 0 < maxDiskQueue) (hn : 0 < n) :
    Data maxDiskQueue files files { maxDiskQueue := maxDiskQueue, requesterNum := n } where
  max_eq := rfl
  nodup := List.nodup_nil
  done_eq _ := rfl
  count _ := by simp [services, Shared.queued]
  num_eq := by
    have hall : ∀ i, Outstanding files [] i := by
      intro i
      rw [Outstanding, services, List.length_pos_iff]
      exact Decidable.em _
    simp [hall]
  bound := Nat.zero_le _
  full_iff := iff_of_false nofun fun heq => by
    change 0 = min n maxDiskQueue at heq
    omega

variable {s : Shared n}

theorem Data.done_eq_one (h : Data maxDiskQueue files left s) :
    s.requesterDone i = 1 ↔ i ∉ s.queued := by
  rw [h.done_eq]
  split
  case isTrue hmem =>
      refine iff_of_false ?_ fun hnot => hnot hmem
      split <;> decide
  case isFalse hmem => exact iff_of_true rfl hmem

/-- A requester that has tracks left and no request in the queue is outstanding. -/
theorem Data.outstanding_iff (h : Data maxDiskQueue files left s) :
    Outstanding files s.printed i ↔ files i = [] ∨ i ∈ s.queued ∨ left i ≠ [] := by
  have hcount := h.count i
  rw [Outstanding, ← List.length_pos_iff]
  refine or_congr_right ?_
  by_cases hmem : i ∈ s.queued
  · rw [if_pos hmem] at hcount
    exact iff_of_true (by omega) (.inl hmem)
  · rw [if_neg hmem] at hcount
    simp only [hmem, false_or]
    omega

/-! ## A request -/

/-- A requester with tracks left that may go on has no request in the queue. -/
theorem Data.not_queued
    (h : Data maxDiskQueue files left s) (hleft : left i = track :: tracks)
    (hdone : s.requesterDone i ≠ 0) : i ∉ s.queued := by
  intro hmem
  have heq := h.done_eq i
  rw [if_pos hmem, hleft, if_neg (by simp)] at heq
  exact hdone heq

theorem request_queued (last : Bool) :
    (s.request i track last).queued = s.queued ++ [i] := by
  simp [Shared.queued, Shared.request]

/-- A requester that finds room adds its next request. -/
theorem Data.request
    (h : Data maxDiskQueue files left s) (hleft : left i = track :: tracks)
    (hroom : s.diskQueueFull = false) (hdone : s.requesterDone i ≠ 0) :
    Data maxDiskQueue files (Function.update left i tracks)
      (s.request i track tracks.isEmpty) := by
  have hnot := h.not_queued hleft hdone
  have hlength : s.diskQueue.length ≠ min s.requesterNum s.maxDiskQueue := by
    rw [ne_eq, ← h.full_iff, hroom]
    exact nofun
  have hbound := h.bound
  have hadded : (s.request i track tracks.isEmpty).diskQueue.length =
      s.diskQueue.length + 1 := by
    simp [Shared.request]
  constructor
  case max_eq => exact h.max_eq
  case nodup =>
      rw [request_queued]
      refine List.nodup_append.mpr ⟨h.nodup, by simp, ?_⟩
      rintro j hj _ hmem rfl
      rw [List.mem_singleton] at hmem
      exact hnot (hmem ▸ hj)
  case done_eq =>
      intro j
      rw [request_queued]
      change Function.update s.requesterDone i (if tracks.isEmpty then -1 else 0) j = _
      by_cases hj : j = i
      · subst hj
        simp
      · simp only [Function.update_of_ne hj, List.mem_append, List.mem_singleton, hj,
          or_false]
        exact h.done_eq j
  case count =>
      intro j
      have hcount := h.count j
      rw [request_queued]
      change services j s.printed + _ + _ = _
      by_cases hj : j = i
      · subst hj
        rw [if_neg hnot, hleft, List.length_cons] at hcount
        simp only [Function.update_self, List.mem_append, List.mem_singleton, or_true,
          if_true]
        omega
      · simp only [Function.update_of_ne hj, List.mem_append, List.mem_singleton, hj,
          or_false]
        exact hcount
  case num_eq => exact h.num_eq
  case bound =>
      rw [hadded]
      change s.diskQueue.length + 1 ≤ min s.requesterNum s.maxDiskQueue
      omega
  case full_iff =>
      rw [hadded]
      simp [Shared.request, Shared.full, hroom]

/-! ## A service -/

theorem targetIndex_lt (hqueue : s.diskQueue ≠ []) :
    s.targetIndex < s.diskQueue.length := by
  have hfold : ∀ (entries : List ((Fin n × UInt32) × ℕ)) (start : ℕ × Int32),
      (∀ entry ∈ entries, entry.2 < s.diskQueue.length) →
      start.1 < s.diskQueue.length →
      (entries.foldl (fun target entry =>
        if s.distance entry.1.2 < target.2 then (entry.2, s.distance entry.1.2)
        else target) start).1 < s.diskQueue.length := by
    intro entries
    induction entries with
    | nil => exact fun _ _ hstart => hstart
    | cons entry entries ih =>
        intro start hentries hstart
        refine ih _ (fun entry' hmem => hentries entry' (List.mem_cons_of_mem _ hmem)) ?_
        change (if _ then (entry.2, _) else start).1 < s.diskQueue.length
        split
        · exact hentries entry List.mem_cons_self
        · exact hstart
  refine hfold _ _ (fun entry hmem => ?_) (List.length_pos_iff.mpr hqueue)
  simpa using List.snd_lt_of_mem_zipIdx hmem

/-- The request that is serviced next. -/
theorem exists_target (hqueue : s.diskQueue ≠ []) :
    ∃ i track, s.diskQueue[s.targetIndex]? = some (i, track) :=
  ⟨_, _, List.getElem?_eq_getElem (targetIndex_lt hqueue)⟩

theorem serve_diskQueue (htarget : s.diskQueue[s.targetIndex]? = some (i, track)) :
    s.serve.diskQueue = s.diskQueue.eraseIdx s.targetIndex := by
  simp only [Shared.serve, htarget]

theorem serve_queued
    (htarget : s.diskQueue[s.targetIndex]? = some (i, track)) (hnodup : s.queued.Nodup) :
    i ∈ s.queued ∧ ∀ j, j ∈ s.serve.queued ↔ j ≠ i ∧ j ∈ s.queued := by
  obtain ⟨hlt, heq⟩ := List.getElem?_eq_some_iff.mp htarget
  have hlt' : s.targetIndex < s.queued.length := by
    rw [Shared.queued, List.length_map]
    exact hlt
  have hi : s.queued[s.targetIndex] = i := by
    simp [Shared.queued, heq]
  refine ⟨hi ▸ List.getElem_mem hlt', fun j => ?_⟩
  have herase : s.serve.queued = s.queued.erase i := by
    rw [← hi, hnodup.erase_getElem _ hlt', Shared.queued, serve_diskQueue htarget,
      ← List.eraseIdx_map]
    rfl
  rw [herase, hnodup.mem_erase_iff]

/-- What a service does to the requesters that are outstanding. -/
theorem Data.serve_outstanding
    (h : Data maxDiskQueue files left s)
    (htarget : s.diskQueue[s.targetIndex]? = some (i, track)) :
    Outstanding files s.serve.printed j ↔
      Outstanding files s.printed j ∧ ¬(j = i ∧ left i = []) := by
  obtain ⟨hmem, _⟩ := serve_queued htarget h.nodup
  have hcount := h.count j
  have hprinted : services j s.serve.printed =
      services j s.printed + if i = j then 1 else 0 := by
    simp only [Shared.serve, htarget, services]
  simp only [Outstanding, hprinted]
  by_cases hj : j = i
  · subst hj
    rw [if_pos hmem] at hcount
    have hfile : files j ≠ [] := List.ne_nil_of_length_pos (by omega)
    simp only [hfile, false_or, true_and, if_true, ← List.length_eq_zero_iff]
    omega
  · have hij : i ≠ j := fun heq => hj heq.symm
    simp [hj, hij]

/-- The server services a request of a full queue. -/
theorem Data.serve
    (h : Data maxDiskQueue files left s) (hmax : 0 < maxDiskQueue)
    (hfull : s.diskQueueFull = true) (hnum : s.requesterNum ≠ 0) :
    s.diskQueue ≠ [] ∧ Data maxDiskQueue files left s.serve ∧
      s.serve.requesterNum ≤ s.requesterNum := by
  have hlength := h.full_iff.mp hfull
  have hmaxEq := h.max_eq
  have hqueue : s.diskQueue ≠ [] := List.ne_nil_of_length_pos (by omega)
  obtain ⟨i, track, htarget⟩ := exists_target hqueue
  obtain ⟨hmem, hqueued⟩ := serve_queued htarget h.nodup
  have hdone : s.requesterDone i = -1 ↔ left i = [] := by
    rw [h.done_eq, if_pos hmem]
    split <;> simp [*]
  have hserve : s.serve.requesterNum =
      if left i = [] then s.requesterNum - 1 else s.requesterNum := by
    simp only [Shared.serve, htarget, hdone]
    split
    · cases hcase : s.requesterNum with
      | zero => exact absurd hcase hnum
      | succ k => rfl
    · rfl
  have herased : s.serve.diskQueue.length = s.diskQueue.length - 1 := by
    rw [serve_diskQueue htarget, List.length_eraseIdx_of_lt (targetIndex_lt hqueue)]
  have hmax' : s.serve.maxDiskQueue = s.maxDiskQueue := by
    simp only [Shared.serve, htarget]
  have hle : s.serve.requesterNum ≤ s.requesterNum := by
    rw [hserve]
    split <;> omega
  refine ⟨hqueue, ?_, hle⟩
  constructor
  case max_eq => rw [hmax', hmaxEq]
  case nodup =>
      rw [Shared.queued, serve_diskQueue htarget, ← List.eraseIdx_map]
      exact h.nodup.eraseIdx _
  case done_eq =>
      intro j
      have hdoneServe : s.serve.requesterDone = Function.update s.requesterDone i 1 := by
        simp only [Shared.serve, htarget]
      rw [hdoneServe]
      by_cases hj : j = i
      · subst hj
        simp [hqueued]
      · simp only [Function.update_of_ne hj, hqueued, hj, ne_eq, not_false_iff, true_and]
        exact h.done_eq j
  case count =>
      intro j
      have hcount := h.count j
      have hprinted : services j s.serve.printed =
          services j s.printed + if i = j then 1 else 0 := by
        simp only [Shared.serve, htarget, services]
      rw [hprinted]
      by_cases hj : j = i
      · subst hj
        simp only [hqueued, ne_eq, not_true, false_and, if_false, if_true]
        rw [if_pos hmem] at hcount
        omega
      · have hij : i ≠ j := fun heq => hj heq.symm
        simp only [hqueued, hj, hij, ne_eq, not_false_iff, true_and, if_false]
        omega
  case num_eq =>
      have hfilter : Finset.univ.filter (Outstanding files s.serve.printed) =
          if left i = [] then (Finset.univ.filter (Outstanding files s.printed)).erase i
          else Finset.univ.filter (Outstanding files s.printed) := by
        ext j
        simp only [Finset.mem_filter, Finset.mem_univ, true_and,
          h.serve_outstanding htarget]
        by_cases hleft : left i = []
        · rw [if_pos hleft, Finset.mem_erase, Finset.mem_filter]
          simp [hleft, and_comm]
        · rw [if_neg hleft, Finset.mem_filter]
          simp [hleft]
      have hin : i ∈ Finset.univ.filter (Outstanding files s.printed) := by
        rw [Finset.mem_filter]
        exact ⟨Finset.mem_univ i, h.outstanding_iff.mpr (.inr (.inl hmem))⟩
      rw [hserve, hfilter, h.num_eq]
      split
      · rw [Finset.card_erase_of_mem hin]
      · rfl
  case bound =>
      rw [herased, hmax', hserve]
      split <;> omega
  case full_iff =>
      have hflag : s.serve.diskQueueFull =
          (s.serve.diskQueue.length == min s.serve.requesterNum s.serve.maxDiskQueue) := by
        simp only [Shared.serve, htarget, Shared.full]
      rw [hflag, beq_iff_eq]

end Scheduler
end Eecs482
