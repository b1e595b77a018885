import Eecs482.ThreadState

/-!
# Where the threads are

Every thread is in one place: it runs, it is in one queue, or it has finished.
`Core` says so, and that the data of the mutexes and the reference counts agree
with the places and with what has happened.  It holds whenever contexts are
switched or interrupts are enabled, and each step between two such points keeps
it with the places moved along.
-/

namespace Eecs482
namespace Threads

/-- Where a thread is. -/
inductive Place
  | unborn
  | running
  | queued (q : Queue)
  | finished
deriving DecidableEq

/-- The shared pointers to a thread that come from its place. -/
def Place.refs : Place → ℕ
  | .queued _ => 1
  | _ => 0

/-- The queues hold the threads that are placed in them, once each. -/
structure Placed (place : ℕ → Place) (s : State) : Prop where
  nodup : ∀ q, (s.queues q).Nodup
  mem_iff : ∀ q t, t ∈ s.queues q ↔ place t = .queued q
  unborn_iff : ∀ t, place t = .unborn ↔ s.created ≤ t
  finished_iff : ∀ t, place t = .finished ↔ Event.finished t ∈ s.log
  joining : ∀ t u, place t = .queued (.joinQueue u) →
    place u ≠ .unborn ∧ place u ≠ .finished

/-- The mutexes are owned by those who hold them. -/
structure Owned (place : ℕ → Place) (s : State) : Prop where
  holds_iff : ∀ t m, Holds t m s.log ↔ s.owner m = some t
  owner_ne : ∀ m, (s.mutexes m).status = true → (s.mutexes m).occupyThread ≠ none
  born : ∀ t m, Holds t m s.log → place t ≠ .unborn
  free : ∀ m, (s.mutexes m).status = false → s.queues (.mutexQueue m) = []
  waiting : ∀ t m, waitingFor t s.log = some m →
    place t = .queued (.mutexQueue m) ∨ Holds t m s.log

/-- How often a shared pointer points to `t`. -/
def pointer (old : Option ℕ) (t : ℕ) : ℕ :=
  if old = some t then 1 else 0

/-- The reference counts. -/
def Counted (place : ℕ → Place) (s : State) : Prop :=
  ∀ t, s.refs t =
    (place t).refs + pointer s.runningThread t + pointer s.previousThread t

structure Core (place : ℕ → Place) (s : State) : Prop extends
    Placed place s, Owned place s where
  counted : Counted place s
  hostContext : s.hostContext = true

variable {place : ℕ → Place} {s : State} {t u m : ℕ} {q : Queue} {rest : List ℕ}

/-! ## Reference counts -/

@[simp] theorem pointer_none : pointer none t = 0 := rfl

@[simp] theorem pointer_self : pointer (some t) t = 1 :=
  if_pos rfl

theorem pointer_of_ne (hne : u ≠ t) : pointer (some u) t = 0 :=
  if_neg fun heq => hne (Option.some.inj heq)

/-- A shared pointer to `t` is gone, and `t` is not destroyed or has no joiners. -/
theorem drop_eq
    (h : 2 ≤ s.refs t ∨ s.refs t = 1 ∧ s.queues (.joinQueue t) = []) :
    s.drop t = { s with refs := Function.update s.refs t (s.refs t - 1) } := by
  rw [State.drop, State.release]
  rcases h with htwo | ⟨hone, hjoin⟩
  · rw [if_neg (by omega)]
  · rw [if_pos hone, hjoin, hone, List.foldl_nil, ← hjoin, Function.update_eq_self]

/-- The state after the front of a queue has been made ready. -/
def State.woken (t : ℕ) (q : Queue) (rest : List ℕ) (s : State) : State :=
  { s with
    queues := Function.update
      (Function.update s.queues .ready (s.queues .ready ++ [t])) q rest
    log := .pop t q :: s.log }

/-- Moving a shared pointer from one queue to another changes no count. -/
theorem push_pop_eq (hrefs : s.refs t ≠ 0) :
    (s.push t .ready).pop t q rest = s.woken t q rest := by
  have htwo : 2 ≤ (((s.push t .ready).setQueue q rest).note (.pop t q)).refs t := by
    change 2 ≤ Function.update s.refs t (s.refs t + 1) t
    rw [Function.update_self]
    omega
  rw [State.pop, drop_eq (.inl htwo)]
  simp [State.woken, State.push, State.retain, State.setQueue, State.note]

theorem Core.refs_ne_zero (h : Core place s) (hmem : t ∈ s.queues q) :
    s.refs t ≠ 0 := by
  have hcounted := h.counted t
  rw [(h.mem_iff q t).mp hmem] at hcounted
  simp only [Place.refs] at hcounted
  omega

/-! ## Threads are woken -/

theorem woken_queues (r : Queue) :
    (s.woken t q rest).queues r =
      if r = q then rest
      else if r = .ready then s.queues .ready ++ [t] else s.queues r := by
  simp only [State.woken, Function.update_apply]

theorem Placed.front
    (h : Placed place s) (hqueue : s.queues q = t :: rest) :
    place t = .queued q ∧ t ∉ rest ∧ rest.Nodup := by
  have hnodup := h.nodup q
  rw [hqueue, List.nodup_cons] at hnodup
  refine ⟨(h.mem_iff q t).mp ?_, hnodup⟩
  rw [hqueue]
  exact List.mem_cons_self

/-- One thread goes to another place, and everybody else stays. -/
theorem Placed.moved
    {s' : State} {p : Place} (h : Placed place s) (hborn : place t ≠ .unborn)
    (hlive : place t ≠ .finished) (hp : p ≠ .unborn)
    (hmem : ∀ r v, v ∈ s'.queues r ↔ if v = t then p = .queued r else v ∈ s.queues r)
    (hnodup : ∀ r, (s'.queues r).Nodup) (hcreated : s'.created = s.created)
    (hlog : ∀ v, Event.finished v ∈ s'.log ↔
      v = t ∧ p = .finished ∨ Event.finished v ∈ s.log)
    (hjoin : ∀ u, p = .queued (.joinQueue u) → place u ≠ .unborn ∧ place u ≠ .finished)
    (hjoiners : p = .finished → s.queues (.joinQueue t) = []) :
    Placed (Function.update place t p) s' := by
  constructor
  case nodup => exact hnodup
  case mem_iff =>
      intro r v
      rw [hmem]
      by_cases hv : v = t
      · rw [if_pos hv, hv, Function.update_self]
      · rw [if_neg hv, Function.update_of_ne hv]
        exact h.mem_iff r v
  case unborn_iff =>
      intro v
      rw [hcreated, ← h.unborn_iff v]
      by_cases hv : v = t
      · rw [hv, Function.update_self]
        exact iff_of_false hp hborn
      · rw [Function.update_of_ne hv]
  case finished_iff =>
      intro v
      rw [hlog, ← h.finished_iff v]
      by_cases hv : v = t
      · simp [hv, hlive]
      · simp [hv]
  case joining =>
      intro v u hjoining
      have hold : place u ≠ .unborn ∧ place u ≠ .finished := by
        by_cases hv : v = t
        · rw [hv, Function.update_self] at hjoining
          exact hjoin u hjoining
        · rw [Function.update_of_ne hv] at hjoining
          exact h.joining v u hjoining
      by_cases hu : u = t
      · subst hu
        rw [Function.update_self]
        refine ⟨hp, fun hfinished => ?_⟩
        have hempty := hjoiners hfinished
        have hv : v ≠ u := by
          rintro rfl
          rw [Function.update_self, hfinished] at hjoining
          cases hjoining
        rw [Function.update_of_ne hv, ← h.mem_iff, hempty] at hjoining
        cases hjoining
      · rw [Function.update_of_ne hu]
        exact hold

theorem Placed.woken
    (h : Placed place s) (hqueue : s.queues q = t :: rest) (hq : q ≠ .ready) :
    Placed (Function.update place t (.queued .ready)) (s.woken t q rest) := by
  obtain ⟨hplace, hrest, hnodup⟩ := h.front hqueue
  have hnot : ∀ r, t ∈ s.queues r ↔ r = q := by
    intro r
    rw [h.mem_iff, hplace, Place.queued.injEq, eq_comm]
  refine h.moved (by rw [hplace]; exact nofun) (by rw [hplace]; exact nofun) nofun ?_ ?_
    rfl ?_ nofun nofun
  · intro r v
    rw [woken_queues]
    by_cases hv : v = t
    · subst hv
      rw [if_pos rfl, Place.queued.injEq]
      by_cases hr : r = q
      · rw [if_pos hr]
        exact iff_of_false hrest fun heq => hq (hr.symm.trans heq.symm)
      · rw [if_neg hr]
        by_cases hready : r = .ready
        · simp [hready]
        · rw [if_neg hready, hnot]
          exact iff_of_false hr fun heq => hready heq.symm
    · rw [if_neg hv]
      by_cases hr : r = q
      · rw [if_pos hr, hr, hqueue, List.mem_cons]
        simp [hv]
      · rw [if_neg hr]
        by_cases hready : r = .ready
        · simp [hready, hv]
        · rw [if_neg hready]
  · intro r
    rw [woken_queues]
    split
    · exact hnodup
    · split
      · refine List.nodup_append.mpr ⟨h.nodup _, by simp, ?_⟩
        rintro v hv _ hw rfl
        rw [List.mem_singleton] at hw
        exact hq ((hnot .ready).mp (hw ▸ hv)).symm
      · exact h.nodup r
  · intro v
    simp [State.woken]

theorem Counted.woken
    (h : Counted place s) (hplace : place t = .queued q) :
    Counted (Function.update place t (.queued .ready)) (s.woken t q rest) := by
  intro v
  have hold := h v
  by_cases hv : v = t
  · subst hv
    rw [hplace] at hold
    rw [Function.update_self]
    exact hold
  · rw [Function.update_of_ne hv]
    exact hold

theorem Owned.woken
    (h : Owned place s) (hplaced : Placed place s) (hqueue : s.queues q = t :: rest)
    (hq : q ≠ .ready) (hholds : ∀ m, q = .mutexQueue m → Holds t m s.log) :
    Owned (Function.update place t (.queued .ready)) (s.woken t q rest) := by
  obtain ⟨hplace, _⟩ := hplaced.front hqueue
  constructor
  case holds_iff => exact h.holds_iff
  case owner_ne => exact h.owner_ne
  case born =>
      intro v m hheld
      by_cases hv : v = t
      · rw [hv, Function.update_self]
        exact nofun
      · rw [Function.update_of_ne hv]
        exact h.born v m hheld
  case free =>
      intro m hfree
      have hempty := h.free m hfree
      rw [woken_queues]
      split
      case isTrue heq =>
          rw [heq, hqueue] at hempty
          cases hempty
      case isFalse => exact hempty
  case waiting =>
      intro v m hwaiting
      rcases h.waiting v m hwaiting with hqueued | hheld
      · by_cases hv : v = t
        · subst hv
          rw [hplace] at hqueued
          exact .inr (hholds m (by cases hqueued; rfl))
        · rw [Function.update_of_ne hv]
          exact .inl hqueued
      · exact .inr hheld

/-- The front of a queue becomes ready; of the queue of a mutex, its owner. -/
theorem Core.woken
    (h : Core place s) (hqueue : s.queues q = t :: rest) (hq : q ≠ .ready)
    (hholds : ∀ m, q = .mutexQueue m → Holds t m s.log) :
    Core (Function.update place t (.queued .ready)) (s.woken t q rest) where
  toPlaced := h.toPlaced.woken hqueue hq
  toOwned := h.toOwned.woken h.toPlaced hqueue hq hholds
  counted := h.counted.woken (h.front hqueue).1
  hostContext := h.hostContext

/-- The places after a whole queue has been made ready. -/
def wokenPlace (place : ℕ → Place) (threads : List ℕ) (t : ℕ) : Place :=
  if t ∈ threads then .queued .ready else place t

theorem wakeAll_cons (hqueue : s.queues q = t :: rest) (hrefs : s.refs t ≠ 0) :
    s.wakeAll q = (s.woken t q rest).wakeAll q := by
  have hrest : (s.woken t q rest).queues q = rest := by
    rw [woken_queues, if_pos rfl]
  have htail : (s.queues q).tail = rest := by
    rw [hqueue, List.tail_cons]
  rw [State.wakeAll, hqueue, List.foldl_cons, htail, push_pop_eq hrefs, State.wakeAll,
    hrest]

/-- `wakeAll` makes the threads of the queue ready, in order. -/
theorem Core.wakeAll
    (h : Core place s) (hq : q ≠ .ready) (hmutex : ∀ m, q ≠ .mutexQueue m) :
    Core (wokenPlace place (s.queues q)) (s.wakeAll q) ∧
      (s.wakeAll q).queues q = [] ∧
      (s.wakeAll q).queues .ready = s.queues .ready ++ s.queues q ∧
      (s.wakeAll q).runningThread = s.runningThread ∧
      (s.wakeAll q).previousThread = s.previousThread ∧
      (s.wakeAll q).refs = s.refs ∧
      (s.wakeAll q).created = s.created ∧
      (s.wakeAll q).mutexes = s.mutexes ∧
      (∀ r, r ≠ q → r ≠ .ready → (s.wakeAll q).queues r = s.queues r) ∧
      ∃ popped, (s.wakeAll q).log = popped ++ s.log ∧
        ∀ event ∈ popped, ∃ t, event = .pop t q := by
  generalize hthreads : s.queues q = threads
  induction threads generalizing s place with
  | nil =>
      have hsame : s.wakeAll q = s := by
        rw [State.wakeAll, hthreads, List.foldl_nil]
      rw [hsame]
      refine ⟨?_, hthreads, (List.append_nil _).symm, rfl, rfl, rfl, rfl, rfl,
        fun _ _ _ => rfl, [], rfl, nofun⟩
      have hplace : wokenPlace place [] = place := by
        funext t
        simp [wokenPlace]
      rw [hplace]
      exact h
  | cons t rest ih =>
      have hmem : t ∈ s.queues q := by
        rw [hthreads]
        exact List.mem_cons_self
      rw [wakeAll_cons hthreads (h.refs_ne_zero hmem)]
      obtain ⟨hcore, hempty, hready, hrunning, hprevious, hrefs, hcreated, hmutexes,
        hother, popped, hlog, hpopped⟩ :=
        ih (h.woken hthreads hq fun m hm => absurd hm (hmutex m))
          (by rw [woken_queues, if_pos rfl])
      refine ⟨?_, hempty, ?_, hrunning, hprevious, hrefs, hcreated, hmutexes, ?_,
        popped ++ [.pop t q], ?_, ?_⟩
      · have hplace : wokenPlace place (t :: rest) =
            wokenPlace (Function.update place t (.queued .ready)) rest := by
          funext v
          simp only [wokenPlace, List.mem_cons, Function.update_apply]
          by_cases hv : v = t <;> simp [hv]
        rw [hplace]
        exact hcore
      · rw [hready, woken_queues, if_neg hq.symm, if_pos rfl, List.append_assoc,
          List.singleton_append]
      · intro r hr hne
        rw [hother r hr hne, woken_queues, if_neg hr, if_neg hne]
      · rw [hlog, List.append_assoc]
        rfl
      · intro event hevent
        rcases List.mem_append.mp hevent with hold | hnew
        · exact hpopped event hold
        · exact ⟨t, List.mem_singleton.mp hnew⟩

/-! ## Threads join queues -/

/-- The state after the thread `t` has joined a queue. -/
def State.pushed (t : ℕ) (q : Queue) (s : State) : State :=
  (s.push t q).note (.push t q)

theorem push_queues (r : Queue) :
    (s.push t q).queues r = if r = q then s.queues q ++ [t] else s.queues r := by
  simp only [State.push, State.setQueue, State.retain, Function.update_apply]

theorem pushed_queues (r : Queue) :
    (s.pushed t q).queues r = if r = q then s.queues q ++ [t] else s.queues r :=
  push_queues r

theorem Placed.notMem (h : Placed place s) (hplace : place t = .running) :
    t ∉ s.queues q := by
  rw [h.mem_iff, hplace]
  exact nofun

theorem Placed.pushed
    (h : Placed place s) (hplace : place t = .running)
    (hjoin : ∀ u, q = .joinQueue u → place u ≠ .unborn ∧ place u ≠ .finished) :
    Placed (Function.update place t (.queued q)) (s.pushed t q) := by
  refine h.moved (by rw [hplace]; exact nofun) (by rw [hplace]; exact nofun) nofun ?_ ?_
    rfl ?_ (fun u hu => hjoin u (by cases hu; rfl)) nofun
  · intro r v
    rw [pushed_queues]
    by_cases hv : v = t
    · subst hv
      rw [if_pos rfl, Place.queued.injEq]
      by_cases hr : r = q
      · simp [hr]
      · rw [if_neg hr]
        exact iff_of_false (h.notMem hplace) fun heq => hr heq.symm
    · rw [if_neg hv]
      by_cases hr : r = q
      · simp [hr, hv]
      · rw [if_neg hr]
  · intro r
    rw [pushed_queues]
    split
    · refine List.nodup_append.mpr ⟨h.nodup q, by simp, ?_⟩
      rintro v hv _ hw rfl
      rw [List.mem_singleton] at hw
      exact h.notMem hplace (hw ▸ hv)
    · exact h.nodup r
  · intro v
    simp [State.pushed, State.note, State.push, State.setQueue, State.retain]

theorem waitingFor_push (v : ℕ) (log : List Event) :
    waitingFor v (.push t q :: log) =
      if t = v then (match q with | .mutexQueue m => some m | _ => waitingFor v log)
      else waitingFor v log := by
  cases q <;> simp [waitingFor]

theorem Owned.pushed
    (h : Owned place s) (hplace : place t = .running)
    (hstatus : ∀ m, q = .mutexQueue m → (s.mutexes m).status = true) :
    Owned (Function.update place t (.queued q)) (s.pushed t q) := by
  constructor
  case holds_iff => exact h.holds_iff
  case owner_ne => exact h.owner_ne
  case born =>
      intro v m hheld
      by_cases hv : v = t
      · rw [hv, Function.update_self]
        exact nofun
      · rw [Function.update_of_ne hv]
        exact h.born v m hheld
  case free =>
      intro m hfree
      rw [pushed_queues]
      split
      case isTrue heq =>
          have htaken := hstatus m heq.symm
          rw [show (s.mutexes m).status = false from hfree] at htaken
          cases htaken
      case isFalse => exact h.free m hfree
  case waiting =>
      intro v m hwaiting
      change waitingFor v (.push t q :: s.log) = some m at hwaiting
      rw [waitingFor_push] at hwaiting
      have hold : waitingFor v s.log = some m →
          Function.update place t (.queued q) v = .queued (.mutexQueue m) ∨
            Holds v m s.log := by
        intro hwaiting
        rcases h.waiting v m hwaiting with hqueued | hheld
        · have hv : v ≠ t := by
            rintro rfl
            rw [hplace] at hqueued
            cases hqueued
          rw [Function.update_of_ne hv]
          exact .inl hqueued
        · exact .inr hheld
      split at hwaiting
      case isTrue heq =>
          subst heq
          cases q with
          | mutexQueue k =>
              cases hwaiting
              rw [Function.update_self]
              exact .inl rfl
          | ready => exact hold hwaiting
          | cvQueue cv => exact hold hwaiting
          | joinQueue u => exact hold hwaiting
      case isFalse => exact hold hwaiting

theorem Counted.pushed (h : Counted place s) (hplace : place t = .running) :
    Counted (Function.update place t (.queued q)) (s.pushed t q) := by
  intro v
  have hold := h v
  by_cases hv : v = t
  · subst hv
    rw [hplace] at hold
    change Function.update s.refs v (s.refs v + 1) v = _
    rw [Function.update_self, Function.update_self, hold]
    simp only [Place.refs]
    exact Nat.add_comm _ 1 |>.trans (by rw [Nat.zero_add, ← Nat.add_assoc]; rfl)
  · change Function.update s.refs t (s.refs t + 1) v = _
    rw [Function.update_of_ne hv, Function.update_of_ne hv]
    exact hold

/-- The running thread joins a queue. -/
theorem Core.pushed
    (h : Core place s) (hplace : place t = .running)
    (hjoin : ∀ u, q = .joinQueue u → place u ≠ .unborn ∧ place u ≠ .finished)
    (hstatus : ∀ m, q = .mutexQueue m → (s.mutexes m).status = true) :
    Core (Function.update place t (.queued q)) (s.pushed t q) where
  toPlaced := h.toPlaced.pushed hplace hjoin
  toOwned := h.toOwned.pushed hplace hstatus
  counted := h.counted.pushed hplace
  hostContext := h.hostContext

/-! ## The next thread runs -/

/-- The state after the first ready thread has been made the running one. -/
def State.dispatched (n : ℕ) (rest : List ℕ) (s : State) : State :=
  { s with
    runningThread := some n
    queues := Function.update s.queues .ready rest
    refs :=
      match s.runningThread with
      | none => s.refs
      | some t => Function.update s.refs t (s.refs t - 1)
    log := .pop n .ready :: s.log }

/-- The old running thread is referred to from elsewhere. -/
def State.CanDispatch (n : ℕ) (s : State) : Prop :=
  s.refs n ≠ 0 ∧ ∀ t, s.runningThread = some t → t ≠ n ∧
    (2 ≤ s.refs t ∨ s.refs t = 1 ∧ s.queues (.joinQueue t) = [])

theorem runningFront_eq {n : ℕ} (h : s.CanDispatch n) :
    s.runningFront n = { s with
      runningThread := some n
      refs :=
        match s.runningThread with
        | none => Function.update s.refs n (s.refs n + 1)
        | some t => Function.update (Function.update s.refs n (s.refs n + 1)) t
            (s.refs t - 1) } := by
  obtain ⟨_, hold⟩ := h
  rw [State.runningFront]
  cases hrunning : s.runningThread with
  | none => rfl
  | some t =>
      obtain ⟨hne, hrefs⟩ := hold t hrunning
      have hsame : ({ s.retain n with runningThread := some n } : State).refs t =
          s.refs t :=
        Function.update_of_ne hne _ _
      rw [State.dropOld, drop_eq (by rw [hsame]; exact hrefs), hsame]
      rfl

theorem runningFront_pop_eq {n : ℕ} (h : s.CanDispatch n) :
    (s.runningFront n).pop n .ready rest = s.dispatched n rest := by
  have hfront := runningFront_eq h
  obtain ⟨hrefs, hold⟩ := h
  cases hrunning : s.runningThread with
  | none =>
      simp only [hrunning] at hfront
      have htwo : 2 ≤ (((s.runningFront n).setQueue .ready rest).note
          (.pop n .ready)).refs n := by
        rw [hfront]
        change 2 ≤ Function.update s.refs n (s.refs n + 1) n
        rw [Function.update_self]
        omega
      rw [State.pop, drop_eq (.inl htwo), hfront]
      simp [State.dispatched, State.setQueue, State.note, hrunning]
  | some t =>
      simp only [hrunning] at hfront
      have hne := (hold t hrunning).1
      have htwo : 2 ≤ (((s.runningFront n).setQueue .ready rest).note
          (.pop n .ready)).refs n := by
        rw [hfront]
        change 2 ≤ Function.update (Function.update s.refs n (s.refs n + 1)) t
          (s.refs t - 1) n
        rw [Function.update_of_ne hne.symm, Function.update_self]
        omega
      rw [State.pop, drop_eq (.inl htwo), hfront]
      simp only [State.dispatched, State.setQueue, State.note, hrunning]
      congr 1
      funext v
      by_cases hv : v = n
      · subst hv
        simp [Function.update_of_ne hne.symm]
      · simp [Function.update_apply, hv]

theorem dispatched_queues {n : ℕ} (r : Queue) :
    (s.dispatched n rest).queues r = if r = .ready then rest else s.queues r := by
  simp only [State.dispatched, Function.update_apply]

theorem Placed.dispatched
    {n : ℕ} (h : Placed place s) (hready : s.queues .ready = n :: rest) :
    Placed (Function.update place n .running) (s.dispatched n rest) := by
  obtain ⟨hplace, hrest, hnodup⟩ := h.front hready
  refine h.moved (by rw [hplace]; exact nofun) (by rw [hplace]; exact nofun) nofun ?_ ?_
    rfl ?_ nofun nofun
  · intro r v
    rw [dispatched_queues]
    by_cases hv : v = n
    · subst hv
      rw [if_pos rfl]
      refine iff_of_false ?_ nofun
      by_cases hr : r = .ready
      · rw [if_pos hr]
        exact hrest
      · rw [if_neg hr, h.mem_iff, hplace]
        exact fun heq => hr (by cases heq; rfl)
    · rw [if_neg hv]
      by_cases hr : r = .ready
      · rw [if_pos hr, hr, hready, List.mem_cons]
        simp [hv]
      · rw [if_neg hr]
  · intro r
    rw [dispatched_queues]
    split
    · exact hnodup
    · exact h.nodup r
  · intro v
    simp [State.dispatched]

theorem Owned.dispatched
    {n : ℕ} (h : Owned place s) (hplaced : Placed place s)
    (hready : s.queues .ready = n :: rest) :
    Owned (Function.update place n .running) (s.dispatched n rest) := by
  obtain ⟨hplace, _⟩ := hplaced.front hready
  constructor
  case holds_iff => exact h.holds_iff
  case owner_ne => exact h.owner_ne
  case born =>
      intro v m hheld
      by_cases hv : v = n
      · rw [hv, Function.update_self]
        exact nofun
      · rw [Function.update_of_ne hv]
        exact h.born v m hheld
  case free =>
      intro m hfree
      rw [dispatched_queues, if_neg nofun]
      exact h.free m hfree
  case waiting =>
      intro v m hwaiting
      rcases h.waiting v m hwaiting with hqueued | hheld
      · have hv : v ≠ n := by
          rintro rfl
          rw [hplace] at hqueued
          cases hqueued
        rw [Function.update_of_ne hv]
        exact .inl hqueued
      · exact .inr hheld

theorem Counted.dispatched
    {n : ℕ} (h : Counted place s) (hplace : place n = .queued .ready)
    (hdispatch : s.CanDispatch n) :
    Counted (Function.update place n .running) (s.dispatched n rest) := by
  obtain ⟨_, hold⟩ := hdispatch
  intro v
  have hv := h v
  have hself : s.runningThread ≠ some n := fun hrunning => (hold n hrunning).1 rfl
  change (s.dispatched n rest).refs v =
    (Function.update place n .running v).refs + pointer (some n) v +
      pointer s.previousThread v
  simp only [State.dispatched]
  by_cases hvn : v = n
  · subst hvn
    have hpointer : pointer s.runningThread v = 0 := if_neg hself
    rw [hplace, hpointer] at hv
    rw [Function.update_self, pointer_self]
    cases hrunning : s.runningThread with
    | none => exact hv
    | some t =>
        change Function.update s.refs t (s.refs t - 1) v = _
        rw [Function.update_of_ne (hold t hrunning).1.symm]
        exact hv
  · rw [Function.update_of_ne hvn, pointer_of_ne fun heq => hvn heq.symm]
    cases hrunning : s.runningThread with
    | none =>
        rw [hrunning] at hv
        exact hv
    | some t =>
        rw [hrunning] at hv
        change Function.update s.refs t (s.refs t - 1) v = _
        by_cases hvt : v = t
        · subst hvt
          rw [pointer_self] at hv
          rw [Function.update_self]
          omega
        · rw [pointer_of_ne fun heq => hvt heq.symm] at hv
          rw [Function.update_of_ne hvt]
          exact hv

/-- The first ready thread runs. -/
theorem Core.dispatched
    {n : ℕ} (h : Core place s) (hready : s.queues .ready = n :: rest)
    (hdispatch : s.CanDispatch n) :
    Core (Function.update place n .running) (s.dispatched n rest) where
  toPlaced := h.toPlaced.dispatched hready
  toOwned := h.toOwned.dispatched h.toPlaced hready
  counted := h.counted.dispatched (h.front hready).1 hdispatch
  hostContext := h.hostContext

/-! ## Mutexes change hands -/

theorem Placed.of_same
    {s' : State} (h : Placed place s) (hqueues : s'.queues = s.queues)
    (hcreated : s'.created = s.created)
    (hlog : ∀ v, Event.finished v ∈ s'.log ↔ Event.finished v ∈ s.log) :
    Placed place s' where
  nodup := by
    rw [hqueues]
    exact h.nodup
  mem_iff := by
    rw [hqueues]
    exact h.mem_iff
  unborn_iff := by
    rw [hcreated]
    exact h.unborn_iff
  finished_iff v := by
    rw [hlog]
    exact h.finished_iff v
  joining := h.joining

theorem owner_setMutex (mutex : Mutex) (k : ℕ) :
    (s.setMutex m mutex).owner k =
      if k = m then (if mutex.status then mutex.occupyThread else none)
      else s.owner k := by
  simp only [State.owner, State.setMutex, Function.update_apply]
  split <;> rfl

theorem setMutex_mutexes (mutex : Mutex) (k : ℕ) :
    (s.setMutex m mutex).mutexes k = if k = m then mutex else s.mutexes k :=
  Function.update_apply ..

/-- A free mutex is taken by the thread `t`, and `lock` or `wait` returns. -/
def State.acquired (t m : ℕ) (s : State) : State :=
  (s.setMutex m { status := true, occupyThread := some t }).note (.returned t m)

theorem Core.acquired
    (h : Core place s) (hborn : place t ≠ .unborn)
    (hfree : (s.mutexes m).status = false) : Core place (s.acquired t m) := by
  have howner : ∀ k, (s.acquired t m).owner k = if k = m then some t else s.owner k :=
    owner_setMutex _
  have hnone : s.owner m = none := by
    rw [State.owner, hfree]
    rfl
  refine ⟨h.toPlaced.of_same rfl rfl (by simp [State.acquired, State.note,
    State.setMutex]), ⟨?_, ?_, ?_, ?_, ?_⟩, h.counted, h.hostContext⟩
  case refine_1 =>
      intro v k
      rw [howner]
      change (t = v ∧ m = k) ∨ Holds v k s.log ↔ _
      rw [h.holds_iff]
      by_cases hk : k = m
      · subst hk
        simp [hnone]
      · have hmk : ¬m = k := fun heq => hk heq.symm
        simp [hk, hmk]
  case refine_2 =>
      intro k
      change (Mutex.status ((s.setMutex m _).mutexes k)) = true →
        Mutex.occupyThread ((s.setMutex m _).mutexes k) ≠ none
      rw [setMutex_mutexes]
      split
      · exact fun _ => nofun
      · exact h.owner_ne k
  case refine_3 =>
      intro v k hheld
      change (t = v ∧ m = k) ∨ Holds v k s.log at hheld
      rcases hheld with ⟨rfl, _⟩ | hheld
      · exact hborn
      · exact h.born v k hheld
  case refine_4 =>
      intro k
      change (Mutex.status ((s.setMutex m _).mutexes k)) = false → _
      rw [setMutex_mutexes]
      split
      · exact nofun
      · exact h.free k
  case refine_5 =>
      intro v k hwaiting
      change (if t = v then none else waitingFor v s.log) = some k at hwaiting
      split at hwaiting
      · cases hwaiting
      · rcases h.waiting v k hwaiting with hqueued | hheld
        · exact .inl hqueued
        · exact .inr (.inr hheld)

/-- `lock` or `wait` returns to a thread that was handed the mutex. -/
theorem Core.returned (h : Core place s) (hheld : Holds t m s.log) :
    Core place (s.note (.returned t m)) := by
  refine ⟨h.toPlaced.of_same rfl rfl (by simp [State.note]), ⟨?_, h.owner_ne, ?_,
    h.free, ?_⟩, h.counted, h.hostContext⟩
  case refine_1 =>
      intro v k
      change (t = v ∧ m = k) ∨ Holds v k s.log ↔ s.owner k = some v
      rw [← h.holds_iff]
      refine ⟨?_, .inr⟩
      rintro (⟨rfl, rfl⟩ | hold)
      · exact hheld
      · exact hold
  case refine_2 =>
      intro v k hv
      change (t = v ∧ m = k) ∨ Holds v k s.log at hv
      rcases hv with ⟨rfl, rfl⟩ | hold
      · exact h.born t m hheld
      · exact h.born v k hold
  case refine_3 =>
      intro v k hwaiting
      change (if t = v then none else waitingFor v s.log) = some k at hwaiting
      split at hwaiting
      · cases hwaiting
      · rcases h.waiting v k hwaiting with hqueued | hheld'
        · exact .inl hqueued
        · exact .inr (.inr hheld')

/-- The events with which `t` gives up `m`. -/
def Releases (t m : ℕ) (event : Event) : Prop :=
  event = .unlocked t m ∨ event = .waitCalled t m

section Releases

variable {event : Event}

theorem Releases.holds (h : Releases t m event) (v k : ℕ) (log : List Event) :
    Holds v k (event :: log) ↔ ¬(t = v ∧ m = k) ∧ Holds v k log := by
  rcases h with rfl | rfl <;> rfl

theorem Releases.waitingFor
    (h : Releases t m event) (v : ℕ) (log : List Event) :
    Threads.waitingFor v (event :: log) = Threads.waitingFor v log := by
  rcases h with rfl | rfl <;> rfl

theorem Releases.ne_finished (h : Releases t m event) (v : ℕ) :
    Event.finished v ≠ event := by
  rcases h with rfl | rfl <;> exact nofun

/-- The owner of `m` and nobody else holds it. -/
theorem Owned.holder_unique (h : Owned place s) (hheld : Holds t m s.log) :
    Holds u m s.log ↔ u = t := by
  have howner := (h.holds_iff t m).mp hheld
  rw [h.holds_iff, howner, Option.some.injEq, eq_comm]

/-- A mutex that nobody waits for is released. -/
theorem Core.released
    (h : Core place s) (hevent : Releases t m event) (hheld : Holds t m s.log)
    (hrunning : waitingFor t s.log = none) (hempty : s.queues (.mutexQueue m) = []) :
    Core place
      ((s.setMutex m { s.mutexes m with status := false }).note event) := by
  have howner : ∀ k, ((s.setMutex m { s.mutexes m with status := false }).note
      event).owner k = if k = m then none else s.owner k :=
    owner_setMutex _
  refine ⟨h.toPlaced.of_same rfl rfl fun v => ?_, ⟨?_, ?_, ?_, ?_, ?_⟩, h.counted,
    h.hostContext⟩
  case refine_1 =>
      change Event.finished v ∈ event :: s.log ↔ _
      rw [List.mem_cons]
      exact or_iff_right (hevent.ne_finished v)
  case refine_2 =>
      intro v k
      rw [howner]
      change Holds v k (event :: s.log) ↔ _
      rw [hevent.holds]
      by_cases hk : k = m
      · subst hk
        rw [if_pos rfl, h.holder_unique hheld]
        exact iff_of_false (fun hv => hv.1 ⟨hv.2.symm, rfl⟩) nofun
      · rw [if_neg hk, ← h.holds_iff]
        exact and_iff_right fun heq => hk heq.2.symm
  case refine_3 =>
      intro k
      change (Mutex.status ((s.setMutex m _).mutexes k)) = true →
        Mutex.occupyThread ((s.setMutex m _).mutexes k) ≠ none
      rw [setMutex_mutexes]
      split
      · exact nofun
      · exact h.owner_ne k
  case refine_4 =>
      intro v k hv
      exact h.born v k ((hevent.holds v k s.log).mp hv).2
  case refine_5 =>
      intro k
      change (Mutex.status ((s.setMutex m _).mutexes k)) = false → _
      rw [setMutex_mutexes]
      split
      case isTrue heq =>
          intro _
          rw [heq]
          exact hempty
      case isFalse => exact h.free k
  case refine_6 =>
      intro v k hwaiting
      change Threads.waitingFor v (event :: s.log) = some k at hwaiting
      rw [hevent.waitingFor] at hwaiting
      rcases h.waiting v k hwaiting with hqueued | hheld'
      · exact .inl hqueued
      · refine .inr ((hevent.holds v k s.log).mpr ⟨?_, hheld'⟩)
        rintro ⟨rfl, _⟩
        rw [hrunning] at hwaiting
        cases hwaiting

/-- The state after the mutex has been given to the thread `n`. -/
def State.handedOver (n m : ℕ) (event : Event) (s : State) : State :=
  ((s.setMutex m { status := true, occupyThread := some n }).note event).note
    (.handed n m)

/-- A mutex goes from its owner to another thread. -/
theorem Core.handedOver
    {n : ℕ} (h : Core place s) (hevent : Releases t m event)
    (hheld : Holds t m s.log) (hrunning : waitingFor t s.log = none)
    (hborn : place n ≠ .unborn) : Core place (s.handedOver n m event) := by
  have howner : ∀ k, (s.handedOver n m event).owner k =
      if k = m then some n else s.owner k :=
    owner_setMutex _
  have hholds : ∀ v k, Holds v k (s.handedOver n m event).log ↔
      (n = v ∧ m = k) ∨ ¬(t = v ∧ m = k) ∧ Holds v k s.log := by
    intro v k
    change (n = v ∧ m = k) ∨ Holds v k (event :: s.log) ↔ _
    rw [hevent.holds]
  refine ⟨h.toPlaced.of_same rfl rfl fun v => ?_, ⟨?_, ?_, ?_, ?_, ?_⟩, h.counted,
    h.hostContext⟩
  case refine_1 =>
      change Event.finished v ∈ .handed n m :: event :: s.log ↔ _
      rw [List.mem_cons, List.mem_cons]
      exact (or_iff_right nofun).trans (or_iff_right (hevent.ne_finished v))
  case refine_2 =>
      intro v k
      rw [howner, hholds]
      by_cases hk : k = m
      · subst hk
        rw [if_pos rfl, h.holder_unique hheld]
        simp only [and_true, Option.some.injEq]
        refine or_iff_left ?_
        rintro ⟨hne, rfl⟩
        exact hne rfl
      · have hmk : ¬m = k := fun heq => hk heq.symm
        simp only [hk, hmk, and_false, false_or, not_false_iff, true_and, if_false]
        exact h.holds_iff v k
  case refine_3 =>
      intro k
      change (Mutex.status ((s.setMutex m _).mutexes k)) = true →
        Mutex.occupyThread ((s.setMutex m _).mutexes k) ≠ none
      rw [setMutex_mutexes]
      split
      · exact fun _ => nofun
      · exact h.owner_ne k
  case refine_4 =>
      intro v k hv
      rcases (hholds v k).mp hv with ⟨rfl, _⟩ | ⟨_, hold⟩
      · exact hborn
      · exact h.born v k hold
  case refine_5 =>
      intro k
      change (Mutex.status ((s.setMutex m _).mutexes k)) = false → _
      rw [setMutex_mutexes]
      split
      · exact nofun
      · exact h.free k
  case refine_6 =>
      intro v k hwaiting
      change Threads.waitingFor v (event :: s.log) = some k at hwaiting
      rw [hevent.waitingFor] at hwaiting
      rcases h.waiting v k hwaiting with hqueued | hheld'
      · exact .inl hqueued
      · refine .inr ((hholds v k).mpr (.inr ⟨?_, hheld'⟩))
        rintro ⟨rfl, _⟩
        rw [hrunning] at hwaiting
        cases hwaiting

end Releases

/-! ## Threads end and begin -/

/-- The running thread, which nobody waits for, has finished. -/
theorem Core.finished
    (h : Core place s) (hplace : place t = .running)
    (hjoin : s.queues (.joinQueue t) = []) :
    Core (Function.update place t .finished) (s.note (.finished t)) := by
  refine ⟨h.toPlaced.moved (by rw [hplace]; exact nofun) (by rw [hplace]; exact nofun)
    nofun ?_ h.nodup rfl ?_ nofun fun _ => hjoin,
    ⟨h.holds_iff, h.owner_ne, ?_, h.free, ?_⟩, ?_, h.hostContext⟩
  case refine_1 =>
      intro r v
      by_cases hv : v = t
      · rw [if_pos hv, hv]
        exact iff_of_false (h.notMem hplace) nofun
      · rw [if_neg hv]
        rfl
  case refine_2 =>
      intro v
      change Event.finished v ∈ .finished t :: s.log ↔ _
      rw [List.mem_cons, Event.finished.injEq]
      simp
  case refine_3 =>
      intro v m hheld
      by_cases hv : v = t
      · rw [hv, Function.update_self]
        exact nofun
      · rw [Function.update_of_ne hv]
        exact h.born v m hheld
  case refine_4 =>
      intro v m hwaiting
      rcases h.waiting v m hwaiting with hqueued | hheld
      · have hv : v ≠ t := by
          rintro rfl
          rw [hplace] at hqueued
          cases hqueued
        rw [Function.update_of_ne hv]
        exact .inl hqueued
      · exact .inr hheld
  case refine_5 =>
      intro v
      have hold := h.counted v
      by_cases hv : v = t
      · subst hv
        rw [hplace] at hold
        rw [Function.update_self]
        exact hold
      · rw [Function.update_of_ne hv]
        exact hold

/-- The state after a thread has been created. -/
def State.spawned (s : State) : State :=
  { s with
    created := s.created + 1
    queues := Function.update s.queues .ready (s.queues .ready ++ [s.created])
    refs := Function.update s.refs s.created 1 }

theorem Placed.unborn_notMem (h : Placed place s) : s.created ∉ s.queues q := by
  rw [h.mem_iff, (h.unborn_iff s.created).mpr (Nat.le_refl _)]
  exact nofun

theorem Placed.spawned (h : Placed place s) :
    Placed (Function.update place s.created (.queued .ready)) s.spawned := by
  have hunborn := (h.unborn_iff s.created).mpr (Nat.le_refl _)
  have hqueues : ∀ r, s.spawned.queues r =
      if r = .ready then s.queues .ready ++ [s.created] else s.queues r := by
    intro r
    simp only [State.spawned, Function.update_apply]
  constructor
  case nodup =>
      intro r
      rw [hqueues]
      split
      · refine List.nodup_append.mpr ⟨h.nodup _, by simp, ?_⟩
        rintro v hv _ hw rfl
        rw [List.mem_singleton] at hw
        exact h.unborn_notMem (hw ▸ hv)
      · exact h.nodup r
  case mem_iff =>
      intro r v
      rw [hqueues]
      by_cases hv : v = s.created
      · subst hv
        rw [Function.update_self, Place.queued.injEq]
        by_cases hr : r = .ready
        · simp [hr]
        · rw [if_neg hr]
          exact iff_of_false h.unborn_notMem fun heq => hr heq.symm
      · rw [Function.update_of_ne hv, ← h.mem_iff r v]
        by_cases hr : r = .ready
        · simp [hr, hv]
        · rw [if_neg hr]
  case unborn_iff =>
      intro v
      change _ ↔ s.created + 1 ≤ v
      by_cases hv : v = s.created
      · rw [hv, Function.update_self]
        exact iff_of_false nofun (by omega)
      · rw [Function.update_of_ne hv, h.unborn_iff]
        omega
  case finished_iff =>
      intro v
      by_cases hv : v = s.created
      · subst hv
        rw [Function.update_self]
        refine iff_of_false nofun fun hfinished => ?_
        have hplace := (h.finished_iff s.created).mpr hfinished
        rw [hunborn] at hplace
        cases hplace
      · rw [Function.update_of_ne hv]
        exact h.finished_iff v
  case joining =>
      intro v u hjoining
      have hv : v ≠ s.created := by
        rintro rfl
        rw [Function.update_self] at hjoining
        cases hjoining
      rw [Function.update_of_ne hv] at hjoining
      obtain ⟨hborn, hlive⟩ := h.joining v u hjoining
      have hu : u ≠ s.created := by
        rintro rfl
        exact hborn hunborn
      rw [Function.update_of_ne hu]
      exact ⟨hborn, hlive⟩

/-- A new thread is ready. -/
theorem Core.spawned (h : Core place s) (hrefs : s.refs s.created = 0) :
    Core (Function.update place s.created (.queued .ready)) s.spawned := by
  have hunborn := (h.unborn_iff s.created).mpr (Nat.le_refl _)
  refine ⟨h.toPlaced.spawned, ⟨h.holds_iff, h.owner_ne, ?_, ?_, ?_⟩, ?_, h.hostContext⟩
  case refine_1 =>
      intro v m hheld
      by_cases hv : v = s.created
      · rw [hv, Function.update_self]
        exact nofun
      · rw [Function.update_of_ne hv]
        exact h.born v m hheld
  case refine_2 =>
      intro m hfree
      change Function.update s.queues .ready (s.queues .ready ++ [s.created])
        (.mutexQueue m) = []
      rw [Function.update_of_ne (show Queue.mutexQueue m ≠ .ready from nofun)]
      exact h.free m hfree
  case refine_3 =>
      intro v m hwaiting
      rcases h.waiting v m hwaiting with hqueued | hheld
      · have hv : v ≠ s.created := by
          rintro rfl
          rw [hunborn] at hqueued
          cases hqueued
        rw [Function.update_of_ne hv]
        exact .inl hqueued
      · exact .inr hheld
  case refine_4 =>
      intro v
      have hold := h.counted v
      change Function.update s.refs s.created 1 v =
        (Function.update place s.created (.queued .ready) v).refs +
          pointer s.runningThread v + pointer s.previousThread v
      by_cases hv : v = s.created
      · subst hv
        rw [hrefs, hunborn] at hold
        rw [Function.update_self, Function.update_self]
        simp only [Place.refs] at hold ⊢
        omega
      · rw [Function.update_of_ne hv, Function.update_of_ne hv]
        exact hold

theorem Core.waitingFor_unborn (h : Core place s) : waitingFor s.created s.log = none := by
  have hunborn := (h.unborn_iff s.created).mpr (Nat.le_refl _)
  cases hwaiting : waitingFor s.created s.log with
  | none => rfl
  | some m =>
      rcases h.waiting s.created m hwaiting with hqueued | hheld
      · rw [hunborn] at hqueued
        cases hqueued
      · exact absurd hunborn (h.born s.created m hheld)

end Threads
end Eecs482
