import Eecs482.SchedulerGuarantees
import Mathlib.Data.List.Basic

/-!
# The services of the disk scheduler

Which request the server takes from the queue, and what gets printed for each
requester.  `Traced` compares what has been printed, the queue and the tracks
that are left with the files.
-/

namespace Eecs482
namespace Scheduler

/-! ## The nearest request -/

/-- A loop that keeps the index of the smallest distance finds the first entry
with that distance. -/
theorem foldl_zipIdx_nearest
    {α : Type} {distance : α → Int32} {keep : ℕ × Int32 → α × ℕ → ℕ × Int32}
    (hkeep : ∀ target diff entry i, keep (target, diff) (entry, i) =
      if distance entry < diff then (i, distance entry) else (target, diff))
    {bound : Int32} {entries : List α} (hbound : ∀ entry ∈ entries, distance entry < bound)
    (hne : entries ≠ []) :
    ∃ front entry back, entries = front ++ entry :: back ∧
      entries.zipIdx.foldl keep (0, bound) = (front.length, distance entry) ∧
      (∀ e ∈ front, distance entry < distance e) ∧
      ∀ e ∈ back, distance entry ≤ distance e := by
  induction entries using List.reverseRecOn with
  | nil => exact absurd rfl hne
  | append_singleton entries last ih =>
      have hlast := hbound last (List.mem_append_right _ List.mem_cons_self)
      rw [List.zipIdx_append, List.foldl_append]
      rcases entries.eq_nil_or_concat with rfl | hconcat
      · refine ⟨[], last, [], rfl, ?_, nofun, nofun⟩
        simp [hkeep, hlast]
      · have hnonempty : entries ≠ [] := by
          rintro rfl
          simp at hconcat
        obtain ⟨front, entry, back, heq, hfold, hfront, hback⟩ := ih
          (fun e he => hbound e (List.mem_append_left _ he)) hnonempty
        rw [hfold]
        simp only [List.zipIdx_cons, List.zipIdx_nil, List.foldl_cons, List.foldl_nil,
          Nat.zero_add, hkeep]
        have hnearest : ∀ e ∈ entries, distance entry ≤ distance e := by
          intro e he
          rw [heq, List.mem_append, List.mem_cons] at he
          rcases he with he | rfl | he
          · exact Int32.le_of_lt (hfront e he)
          · exact Int32.le_refl _
          · exact hback e he
        split
        case isTrue hcloser =>
            refine ⟨entries, last, [], rfl, rfl, fun e he => ?_, nofun⟩
            exact Int32.lt_of_lt_of_le hcloser (hnearest e he)
        case isFalse hfarther =>
            refine ⟨front, entry, back ++ [last], by rw [heq]; simp, rfl, hfront, ?_⟩
            intro e he
            rcases List.mem_append.mp he with he | he
            · exact hback e he
            · rw [List.mem_singleton.mp he]
              exact Int32.not_lt.mp hfarther

variable {n : ℕ} {maxDiskQueue : ℕ} {files left : Fin n → List UInt32}
  {i j : Fin n} {track : UInt32} {tracks : List UInt32}

section Nearest

variable {s t : Shared n}

/-- The distance of a track from `cur_track`. -/
def Shared.seek (s : Shared n) (track : UInt32) : ℕ :=
  ((track.toNat : ℤ) - s.curTrack.toInt).natAbs

theorem toInt_toInt32 (htrack : track.toNat ≤ 999) :
    track.toInt32.toInt = track.toNat := by
  change track.toBitVec.toInt = track.toNat
  rw [BitVec.toInt_eq_toNat_cond, UInt32.toNat_toBitVec, if_pos (by omega)]

/-- Between tracks in range nothing wraps around. -/
theorem toInt_distance
    (hcur : 0 ≤ s.curTrack.toInt ∧ s.curTrack.toInt ≤ 999) (htrack : track.toNat ≤ 999) :
    (s.distance track).toInt = s.seek track := by
  have hsub : (s.curTrack - track.toInt32).toInt = s.curTrack.toInt - track.toNat := by
    rw [Int32.toInt_sub, toInt_toInt32 htrack]
    apply Int.bmod_eq_of_le <;> omega
  have hmin : (s.curTrack - track.toInt32).toBitVec ≠ .intMin 32 := by
    intro heq
    have hvalue := congrArg BitVec.toInt heq
    change (s.curTrack - track.toInt32).toInt = _ at hvalue
    rw [hsub] at hvalue
    change s.curTrack.toInt - track.toNat = -2147483648 at hvalue
    omega
  change (s.curTrack - track.toInt32).toBitVec.abs.toInt = _
  rw [BitVec.toInt_abs_eq_natAbs_of_ne_intMin hmin]
  change ((s.curTrack - track.toInt32).toInt.natAbs : ℤ) = _
  rw [hsub, Shared.seek]
  omega

/-- The entry `(i, track)` between `front` and `back` has been taken from the
queue and serviced. -/
structure Services
    (i : Fin n) (track : UInt32) (front back : List (Fin n × UInt32)) (s t : Shared n) :
    Prop where
  printed : t.printed = .service i track :: s.printed
  curTrack : t.curTrack = track.toInt32
  before : s.diskQueue = front ++ (i, track) :: back
  after : t.diskQueue = front ++ back

/-- The track is nearest to `cur_track`, and of those that are it comes first in
the queue. -/
def Nearest (track : UInt32) (front back : List (Fin n × UInt32)) (s : Shared n) : Prop :=
  (∀ entry ∈ front, s.seek track < s.seek entry.2) ∧
    ∀ entry ∈ back, s.seek track ≤ s.seek entry.2

/-- The entry `(i, track)` has been put at the back of the queue. -/
structure Queues (i : Fin n) (track : UInt32) (s t : Shared n) : Prop where
  printed : t.printed = .request i track :: s.printed
  curTrack : t.curTrack = s.curTrack
  diskQueue : t.diskQueue = s.diskQueue ++ [(i, track)]

/-- Nothing has been printed, and the queue is as before. -/
structure Rests (s t : Shared n) : Prop where
  printed : t.printed = s.printed
  curTrack : t.curTrack = s.curTrack
  diskQueue : t.diskQueue = s.diskQueue

theorem queues_request (last : Bool) : Queues i track s (s.request i track last) :=
  ⟨rfl, rfl, rfl⟩

/-- The body of the loop that looks for the request closest to `cur_track`. -/
def Shared.keep (s : Shared n) : ℕ × Int32 → (Fin n × UInt32) × ℕ → ℕ × Int32 :=
  fun (target, diff) (request, i) =>
    if s.distance request.2 < diff then (i, s.distance request.2) else (target, diff)

theorem keep_eq
    (s : Shared n) (target : ℕ) (diff : Int32) (entry : Fin n × UInt32) (i : ℕ) :
    s.keep (target, diff) (entry, i) =
      if s.distance entry.2 < diff then (i, s.distance entry.2) else (target, diff) :=
  rfl

theorem services_serve (hqueue : s.diskQueue ≠ []) :
    ∃ i track front back, front.length = s.targetIndex ∧
      Services i track front back s s.serve := by
  obtain ⟨i, track, htarget⟩ := exists_target hqueue
  obtain ⟨hlt, hentry⟩ := List.getElem?_eq_some_iff.mp htarget
  refine ⟨i, track, s.diskQueue.take s.targetIndex, s.diskQueue.drop (s.targetIndex + 1),
    List.length_take_of_le (Nat.le_of_lt hlt), ?_, ?_, ?_, ?_⟩
  · simp only [Shared.serve, htarget, UInt32.toUInt32_toInt32]
  · simp only [Shared.serve, htarget]
  · rw [← hentry, List.getElem_cons_drop, List.take_append_drop]
  · rw [serve_diskQueue htarget, List.eraseIdx_eq_take_drop_succ]

/-- With all tracks in range the loop finds the nearest request. -/
theorem nearest_serve
    {front back : List (Fin n × UInt32)} (hlength : front.length = s.targetIndex)
    (hservices : Services i track front back s s.serve)
    (hcur : 0 ≤ s.curTrack.toInt ∧ s.curTrack.toInt ≤ 999)
    (htracks : ∀ entry ∈ s.diskQueue, entry.2.toNat ≤ 999) :
    Nearest track front back s := by
  have hdistance : ∀ entry ∈ s.diskQueue, (s.distance entry.2).toInt = s.seek entry.2 :=
    fun entry hentry => toInt_distance hcur (htracks entry hentry)
  have hbound : ∀ entry ∈ s.diskQueue, s.distance entry.2 < 1000 := by
    intro entry hentry
    have htrack := htracks entry hentry
    rw [Int32.lt_iff_toInt_lt, hdistance entry hentry, Shared.seek]
    change _ < (1000 : ℤ)
    omega
  have hqueue := hservices.before
  obtain ⟨front', entry, back', heq, hfold, hfront, hback⟩ :=
    foldl_zipIdx_nearest (keep_eq s) hbound (by rw [hqueue]; simp)
  have htarget : s.targetIndex = front'.length := congrArg Prod.fst hfold
  obtain ⟨rfl, hrest⟩ := List.append_inj (hqueue.symm.trans heq) (hlength.trans htarget)
  obtain ⟨rfl, rfl⟩ := List.cons.inj hrest
  have hnear := hdistance (i, track) (by rw [hqueue]; simp)
  refine ⟨fun entry hmem => ?_, fun entry hmem => ?_⟩
  · have hless := Int32.lt_iff_toInt_lt.mp (hfront entry hmem)
    rw [hnear, hdistance entry (by rw [hqueue]; simp [hmem])] at hless
    exact Int.ofNat_lt.mp hless
  · have hle := Int32.le_iff_toInt_le.mp (hback entry hmem)
    rw [hnear, hdistance entry (by rw [hqueue]; simp [hmem])] at hle
    exact Int.ofNat_le.mp hle

end Nearest

/-! ## What is printed for a requester -/

def PrintEvent.requester : PrintEvent n → Fin n
  | .request i _ => i
  | .service i _ => i

def PrintEvent.servicedTrack : PrintEvent n → Option UInt32
  | .request _ _ => none
  | .service _ track => some track

/-- What has been printed for a requester, in order. -/
def history (i : Fin n) (printed : List (PrintEvent n)) : List (PrintEvent n) :=
  (printed.filter fun event => event.requester = i).reverse

/-- Each track is requested and then serviced. -/
def exchanges (i : Fin n) (tracks : List UInt32) : List (PrintEvent n) :=
  tracks.flatMap fun track => [.request i track, .service i track]

/-- The services that the entries of the queue wait for. -/
def pending (i : Fin n) (diskQueue : List (Fin n × UInt32)) : List (PrintEvent n) :=
  (diskQueue.filter fun entry => entry.1 = i).map fun entry => .service i entry.2

/-- The tracks of a requester that have been serviced, in order. -/
def serviced (i : Fin n) (printed : List (PrintEvent n)) : List UInt32 :=
  (history i printed).filterMap PrintEvent.servicedTrack

/-- The track of the last service, at first 0. -/
def lastServiced : List (PrintEvent n) → ℕ
  | [] => 0
  | .request _ _ :: printed => lastServiced printed
  | .service _ track :: _ => track.toNat

/-- What has been printed for each requester, what it waits for and what it will
do are what its file asks for. -/
def Traced (files left : Fin n → List UInt32) (s : Shared n) : Prop :=
  ∀ i, history i s.printed ++ pending i s.diskQueue ++ exchanges i (left i) =
    exchanges i (files i)

section Traced

variable {s t : Shared n}

theorem history_cons (event : PrintEvent n) (printed : List (PrintEvent n)) :
    history i (event :: printed) =
      history i printed ++ if event.requester = i then [event] else [] := by
  rw [history, List.filter_cons]
  by_cases hi : event.requester = i <;> simp [hi, history]

theorem pending_append (front back : List (Fin n × UInt32)) :
    pending i (front ++ back) = pending i front ++ pending i back := by
  simp [pending]

theorem pending_cons (entry : Fin n × UInt32) (back : List (Fin n × UInt32)) :
    pending i (entry :: back) =
      (if entry.1 = i then [.service i entry.2] else []) ++ pending i back := by
  by_cases hi : entry.1 = i <;> simp [pending, hi]

theorem pending_eq_nil {diskQueue : List (Fin n × UInt32)}
    (hnot : i ∉ diskQueue.map Prod.fst) : pending i diskQueue = [] := by
  rw [pending, List.map_eq_nil_iff, List.filter_eq_nil_iff]
  intro entry hentry heq
  exact hnot (List.mem_map.mpr ⟨entry, hentry, of_decide_eq_true heq⟩)

theorem Traced.request
    (h : Traced files left s) (hqueues : Queues i track s t) (hnot : i ∉ s.queued)
    (hleft : left i = track :: tracks) :
    Traced files (Function.update left i tracks) t := by
  intro j
  have hj := h j
  rw [hqueues.printed, hqueues.diskQueue, history_cons, pending_append, pending_cons]
  by_cases hji : j = i
  · subst hji
    rw [hleft, pending_eq_nil hnot] at hj
    rw [Function.update_self, pending_eq_nil hnot, ← hj]
    simp [PrintEvent.requester, exchanges, pending]
  · have hij : i ≠ j := fun heq => hji heq.symm
    rw [Function.update_of_ne hji]
    simpa [PrintEvent.requester, hij, pending] using hj

theorem Traced.serve
    {front back : List (Fin n × UInt32)} (h : Traced files left s)
    (hservices : Services i track front back s t) (hnodup : s.queued.Nodup) :
    Traced files left t := by
  intro j
  have hj := h j
  rw [hservices.before, pending_append, pending_cons] at hj
  rw [hservices.printed, hservices.after, history_cons, pending_append]
  by_cases hij : i = j
  · subst hij
    rw [Shared.queued, hservices.before, List.map_append, List.map_cons] at hnodup
    have hnot : i ∉ front.map Prod.fst ∧ i ∉ back.map Prod.fst := by
      obtain ⟨_, hback, hdisjoint⟩ := List.nodup_append.mp hnodup
      exact ⟨fun hmem => hdisjoint i hmem i List.mem_cons_self rfl,
        (List.nodup_cons.mp hback).1⟩
    rw [pending_eq_nil hnot.1, pending_eq_nil hnot.2] at hj ⊢
    simpa [PrintEvent.requester] using hj
  · simpa [PrintEvent.requester, hij] using hj

theorem Traced.mem_files (h : Traced files left s)
    (hentry : (i, track) ∈ s.diskQueue) : track ∈ files i := by
  have hservice : PrintEvent.service i track ∈ exchanges i (files i) := by
    rw [← h i]
    refine List.mem_append_left _ (List.mem_append_right _ ?_)
    exact List.mem_map.mpr ⟨(i, track), List.mem_filter.mpr ⟨hentry, by simp⟩, rfl⟩
  simpa [exchanges] using hservice

end Traced

/-! ## Every run -/

variable {s t : State n} {k : Thread n}

theorem Invariant.serves
    (h : Invariant maxDiskQueue files s) (hmax : 0 < maxDiskQueue)
    (hthread : s.thread .server = .running .serve) : s.shared.diskQueue ≠ [] := by
  have hserver := h.server
  rw [hthread] at hserver
  exact (h.data.serve hmax hserver.2 hserver.1).1

theorem traced_of_reachable
    (hmax : 0 < maxDiskQueue) (hn : 0 < n)
    (hreach : (scheduler n).system.Reachable (initial maxDiskQueue files) s) :
    Traced files s.left s.shared := by
  obtain ⟨trace, hrun⟩ := hreach
  induction hrun with
  | nil =>
      intro i
      rfl
  | snoc hrun hstep ih =>
      have h := invariant_of_reachable hmax hn ⟨_, hrun⟩
      rcases step_cases hstep with ⟨hshared, hleft⟩ | ⟨_, hthread, hshared, hleft⟩ |
        ⟨i, track, tracks, _, hthread, hshared, hi, hleft⟩
      · rw [hshared, hleft]
        exact ih
      · obtain ⟨i, track, front, back, _, hservices⟩ :=
          services_serve (h.serves hmax hthread)
        rw [hshared, hleft]
        exact ih.serve hservices h.data.nodup
      · have hrequester := h.requester i
        rw [hthread] at hrequester
        rw [hshared, hleft]
        exact ih.request (queues_request _) (h.data.not_queued hi hrequester.2) hi

theorem curTrack_of_reachable
    (hmax : 0 < maxDiskQueue) (hn : 0 < n)
    (htracks : ∀ i, ∀ track ∈ files i, track.toNat ≤ 999)
    (hreach : (scheduler n).system.Reachable (initial maxDiskQueue files) s) :
    s.shared.curTrack.toInt = lastServiced s.shared.printed ∧
      lastServiced s.shared.printed ≤ 999 := by
  obtain ⟨trace, hrun⟩ := hreach
  induction hrun with
  | nil => exact ⟨rfl, Nat.zero_le _⟩
  | snoc hrun hstep ih =>
      have h := invariant_of_reachable hmax hn ⟨_, hrun⟩
      rcases step_cases hstep with ⟨hshared, _⟩ | ⟨_, hthread, hshared, _⟩ |
        ⟨i, track, tracks, _, _, hshared, _⟩
      · rw [hshared]
        exact ih
      · obtain ⟨i, track, front, back, _, hservices⟩ :=
          services_serve (h.serves hmax hthread)
        have hentry := (traced_of_reachable hmax hn ⟨_, hrun⟩).mem_files
          (show (i, track) ∈ _ by rw [hservices.before]; simp)
        have htrack := htracks i track hentry
        rw [hshared, hservices.printed, hservices.curTrack, lastServiced]
        exact ⟨toInt_toInt32 htrack, htrack⟩
      · rw [hshared]
        exact ih

/-- `cur_track` is the track of the last service, at first 0.  Every service is
of the nearest request in the queue, the first one of those, and takes only this
one away.  A request goes to the back of the queue, and nothing else changes it. -/
theorem nearest_of_reachable
    (hmax : 0 < maxDiskQueue) (htracks : ∀ i, ∀ track ∈ files i, track.toNat ≤ 999)
    (hreach : (scheduler n).system.Reachable (initial maxDiskQueue files) s) :
    s.shared.curTrack.toInt = lastServiced s.shared.printed ∧
    (∀ t, s.thread .server = .running .serve → (scheduler n).Step s .server t →
      ∃ i track front back, Services i track front back s.shared t.shared ∧
        Nearest track front back s.shared) ∧
    ∀ k t, (scheduler n).Step s k t →
      Rests s.shared t.shared ∨
      (∃ i track, k = .requester i ∧ Queues i track s.shared t.shared) ∨
      k = .server ∧ ∃ i track front back, Services i track front back s.shared t.shared ∧
        Nearest track front back s.shared := by
  rcases Nat.eq_zero_or_pos n with rfl | hn
  · have hidle := idle_of_reachable hreach
    have hserve : s.thread .server ≠ .running .serve := by
      intro hthread
      have hserver := hidle.server
      rw [hthread] at hserver
      simp [MonitorThread.loc] at hserver
    refine ⟨by rw [hidle.shared]; rfl, fun t hthread => absurd hthread hserve,
      fun k t hstep => .inl ?_⟩
    rcases step_cases hstep with ⟨hshared, _⟩ | ⟨_, hthread, _⟩ | ⟨i, _⟩
    · rw [hshared]
      exact ⟨rfl, rfl, rfl⟩
    · exact absurd hthread hserve
    · exact i.elim0
  have h := invariant_of_reachable hmax hn hreach
  obtain ⟨hcur, hlast⟩ := curTrack_of_reachable hmax hn htracks hreach
  have hserve : s.thread .server = .running .serve → ∃ i track front back,
      Services i track front back s.shared s.shared.serve ∧
        Nearest track front back s.shared := by
    intro hthread
    obtain ⟨i, track, front, back, hlength, hservices⟩ :=
      services_serve (h.serves hmax hthread)
    refine ⟨i, track, front, back, hservices, nearest_serve hlength hservices
      (by rw [hcur]; omega) fun entry hentry => ?_⟩
    exact htracks _ _ ((traced_of_reachable hmax hn hreach).mem_files hentry)
  refine ⟨hcur, fun t hthread hstep => ?_, fun k t hstep => ?_⟩
  · rw [hstep.shared_of_run hthread rfl]
    exact hserve hthread
  · rcases step_cases hstep with ⟨hshared, _⟩ | ⟨rfl, hthread, hshared, _⟩ |
      ⟨i, track, tracks, rfl, _, hshared, _⟩
    · rw [hshared]
      exact .inl ⟨rfl, rfl, rfl⟩
    · rw [hshared]
      exact .inr (.inr ⟨rfl, hserve hthread⟩)
    · rw [hshared]
      exact .inr (.inl ⟨i, track, rfl, queues_request _⟩)

theorem nearest_choosing :
    ∃ s t, (scheduler 2).play choosing (initial 2 twoFiles) = some s ∧
      (scheduler 2).Step s .server t ∧ s.shared.diskQueue = [(0, 53), (1, 3)] ∧
      t.shared.diskQueue = [(0, 53)] ∧
      ∃ i track front back, Services i track front back s.shared t.shared ∧
        Nearest track front back s.shared := by
  obtain ⟨s, t, hplay, hserve, hexec, hbefore, hafter⟩ :
      ∃ s t, (scheduler 2).play choosing (initial 2 twoFiles) = some s ∧
        s.thread .server = .running .serve ∧
        (scheduler 2).exec .server .server s = some t ∧
        s.shared.diskQueue = [(0, 53), (1, 3)] ∧ t.shared.diskQueue = [(0, 53)] :=
    ⟨_, _, rfl, rfl, rfl, rfl, rfl⟩
  have htracks : ∀ i, ∀ track ∈ twoFiles i, track.toNat ≤ 999 := by
    simp [Fin.forall_fin_two, twoFiles]
  have hstep := Monitor.step_of_exec hexec
  exact ⟨s, t, hplay, hstep, hbefore, hafter, (nearest_of_reachable Nat.two_pos htracks
    (Monitor.reachable_of_play hplay .refl)).2.1 t hserve hstep⟩

/-! ## Complete runs -/

theorem serviced_exchanges (tracks : List UInt32) :
    (exchanges i tracks).filterMap PrintEvent.servicedTrack = tracks := by
  induction tracks with
  | nil => rfl
  | cons track tracks ih => exact congrArg (track :: ·) ih

/-- What is printed for a requester is part of the exchanges its file asks for:
each track is requested, and serviced before the next one is requested. -/
theorem Traced.isPrefix {s : Shared n} (h : Traced files left s) (i : Fin n) :
    history i s.printed <+: exchanges i (files i) := by
  rw [← h i, List.append_assoc]
  exact List.prefix_append _ _

/-- The requests of each requester are printed in the order of its file, each one
before its service and after the service of the one before.  When the server has
left its loop all of them have been serviced, and the queue is empty. -/
theorem servicedOnce_of_reachable
    (hmax : 0 < maxDiskQueue) (hn : 0 < n)
    (hreach : (scheduler n).system.Reachable (initial maxDiskQueue files) s) :
    (∀ i, serviced i s.shared.printed <+: files i ∧
      history i s.shared.printed <+: exchanges i (files i)) ∧
    (s.thread .server = .running .returned → s.shared.diskQueue = [] ∧
      ∀ i, history i s.shared.printed = exchanges i (files i)) := by
  have h := invariant_of_reachable hmax hn hreach
  have htraced := traced_of_reachable hmax hn hreach
  refine ⟨fun i => ⟨?_, htraced.isPrefix i⟩, fun hreturned => ?_⟩
  · have hserviced := (htraced.isPrefix i).filterMap PrintEvent.servicedTrack
    rwa [serviced_exchanges] at hserviced
  · have hserver := h.server
    rw [hreturned] at hserver
    have hzero : s.shared.requesterNum = 0 := hserver
    rw [h.data.num_eq, Finset.card_eq_zero, Finset.filter_eq_empty_iff] at hzero
    have hdone : ∀ i, i ∉ s.shared.queued ∧ s.left i = [] := by
      intro i
      have hnot := hzero (Finset.mem_univ i)
      rw [h.data.outstanding_iff, not_or, not_or, not_not] at hnot
      exact hnot.2
    refine ⟨?_, fun i => ?_⟩
    · rw [List.eq_nil_iff_forall_not_mem]
      exact fun entry hentry => (hdone entry.1).1 (List.mem_map_of_mem hentry)
    · rw [← htraced i, pending_eq_nil (hdone i).1, (hdone i).2]
      simp [exchanges]

/-- The server makes both services and returns. -/
def completing : List (Thread 2 × Thread 2) :=
  choosing ++ List.replicate 10 (.server, .server)

theorem servicedOnce_completing :
    ∃ s, (scheduler 2).play completing (initial 2 twoFiles) = some s ∧
      s.thread .server = .running .returned ∧ s.shared.diskQueue = [] ∧
      ∀ i, history i s.shared.printed = exchanges i (twoFiles i) := by
  obtain ⟨s, hplay, hreturned⟩ :
      ∃ s, (scheduler 2).play completing (initial 2 twoFiles) = some s ∧
        s.thread .server = .running .returned := ⟨_, rfl, rfl⟩
  obtain ⟨_, hend⟩ := servicedOnce_of_reachable Nat.two_pos Nat.two_pos
    (Monitor.reachable_of_play hplay .refl)
  exact ⟨s, hplay, hreturned, hend hreturned⟩

end Scheduler
end Eecs482
