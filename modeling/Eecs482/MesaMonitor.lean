import Eecs482.TraceRefinement
import Mathlib.Data.Fintype.Defs
import Mathlib.Logic.Function.Basic

/-!
# Threads around a monitor

Threads share a mutex and condition variables.  A thread that is woken has to
take the mutex again before it goes on (Mesa semantics).  The code of a thread
is a graph of locations, with one action at each.

`Bracketed` is read off the code alone: each thread keeps to the order of `lock`
and `unlock`.  In a system of such threads no step is possible only when every
thread sleeps or has stopped.

`exec` computes the step of a thread, so that a run can be given by its schedule.
-/

namespace Eecs482

/-- What a thread does at a location of its code. -/
inductive MonitorAction (κ σ Loc : Type)
  | lock (next : Loc)
  | unlock (next : Loc)
  | wait (cv : κ) (next : Loc)
  | signal (cv : κ) (next : Loc)
  | broadcast (cv : κ) (next : Loc)
  /-- Statements on the shared state that do not block. -/
  | run (effect : σ → σ × Loc)
  | stop

/-- Where a thread is. -/
inductive MonitorThread (κ Loc : Type)
  | running (loc : Loc)
  /-- In the queue of a condition variable. -/
  | asleep (cv : κ) (loc : Loc)
  /-- Woken, and waiting for the mutex. -/
  | woken (loc : Loc)

/-- Where the thread goes on. -/
def MonitorThread.loc {κ Loc : Type} : MonitorThread κ Loc → Loc
  | .running loc => loc
  | .asleep _ loc => loc
  | .woken loc => loc

/-- The thread after a broadcast. -/
def MonitorThread.wake {κ Loc : Type} [DecidableEq κ] (cv : κ) :
    MonitorThread κ Loc → MonitorThread κ Loc
  | .asleep cv' loc => if cv' = cv then .woken loc else .asleep cv' loc
  | thread => thread

/-- Whether the thread is in the queue of the condition variable. -/
def MonitorThread.sleepsAt {κ Loc : Type} [DecidableEq κ] (cv : κ) :
    MonitorThread κ Loc → Bool
  | .asleep cv' _ => cv' = cv
  | _ => false

/-- The code of all threads. -/
structure Monitor (ι κ σ : Type) (Loc : ι → Type) where
  action : ∀ i, Loc i → MonitorAction κ σ (Loc i)

/-- The shared state, the mutex and the threads. -/
structure MonitorState (ι κ σ : Type) (Loc : ι → Type) where
  shared : σ
  owner : Option ι
  thread : ∀ i, MonitorThread κ (Loc i)

namespace Monitor

variable {ι κ σ : Type} {Loc : ι → Type} (M : Monitor ι κ σ Loc)

section Steps

variable [DecidableEq ι] [DecidableEq κ]

/-- A step of thread `i`. -/
inductive Step : MonitorState ι κ σ Loc → ι → MonitorState ι κ σ Loc → Prop
  | lock {s : MonitorState ι κ σ Loc} {i : ι} {loc next : Loc i}
      (hthread : s.thread i = .running loc) (haction : M.action i loc = .lock next)
      (hfree : s.owner = none) :
      Step s i { s with
        owner := some i
        thread := Function.update s.thread i (.running next) }
  | unlock {s : MonitorState ι κ σ Loc} {i : ι} {loc next : Loc i}
      (hthread : s.thread i = .running loc) (haction : M.action i loc = .unlock next)
      (howner : s.owner = some i) :
      Step s i { s with
        owner := none
        thread := Function.update s.thread i (.running next) }
  | wait {s : MonitorState ι κ σ Loc} {i : ι} {loc next : Loc i} {cv : κ}
      (hthread : s.thread i = .running loc) (haction : M.action i loc = .wait cv next)
      (howner : s.owner = some i) :
      Step s i { s with
        owner := none
        thread := Function.update s.thread i (.asleep cv next) }
  | signal {s : MonitorState ι κ σ Loc} {i j : ι} {loc next : Loc i} {cv : κ}
      {loc' : Loc j} (hthread : s.thread i = .running loc)
      (haction : M.action i loc = .signal cv next)
      (hasleep : s.thread j = .asleep cv loc') :
      Step s i { s with
        thread := Function.update (Function.update s.thread j (.woken loc')) i
          (.running next) }
  | signalNobody {s : MonitorState ι κ σ Loc} {i : ι} {loc next : Loc i} {cv : κ}
      (hthread : s.thread i = .running loc) (haction : M.action i loc = .signal cv next)
      (hnobody : ∀ j loc', s.thread j ≠ .asleep cv loc') :
      Step s i { s with thread := Function.update s.thread i (.running next) }
  | broadcast {s : MonitorState ι κ σ Loc} {i : ι} {loc next : Loc i} {cv : κ}
      (hthread : s.thread i = .running loc)
      (haction : M.action i loc = .broadcast cv next) :
      Step s i { s with
        thread := Function.update (fun j => (s.thread j).wake cv) i (.running next) }
  | run {s : MonitorState ι κ σ Loc} {i : ι} {loc : Loc i} {effect : σ → σ × Loc i}
      (hthread : s.thread i = .running loc) (haction : M.action i loc = .run effect) :
      Step s i { s with
        shared := (effect s.shared).1
        thread := Function.update s.thread i (.running (effect s.shared).2) }
  | wake {s : MonitorState ι κ σ Loc} {i : ι} {loc : Loc i}
      (hthread : s.thread i = .woken loc) (hfree : s.owner = none) :
      Step s i { s with
        owner := some i
        thread := Function.update s.thread i (.running loc) }

theorem loc_wake (cv : κ) {Loc : Type} (thread : MonitorThread κ Loc) :
    (thread.wake cv).loc = thread.loc := by
  cases thread with
  | running loc => rfl
  | woken loc => rfl
  | asleep cv' loc =>
      rw [MonitorThread.wake]
      split <;> rfl

variable {M} in
/-- A thread stays where it is while another one moves. -/
theorem Step.loc_of_ne
    {s t : MonitorState ι κ σ Loc} {i j : ι} (hstep : M.Step s i t) (hj : j ≠ i) :
    (t.thread j).loc = (s.thread j).loc := by
  cases hstep with
  | lock => exact congrArg _ (Function.update_of_ne hj _ _)
  | unlock => exact congrArg _ (Function.update_of_ne hj _ _)
  | wait => exact congrArg _ (Function.update_of_ne hj _ _)
  | @signal k loc next cv loc' hthread haction hasleep =>
      refine (congrArg _ (Function.update_of_ne hj _ _)).trans ?_
      by_cases hk : j = k
      · subst hk
        rw [Function.update_self, hasleep]
        rfl
      · rw [Function.update_of_ne hk]
  | signalNobody => exact congrArg _ (Function.update_of_ne hj _ _)
  | @broadcast loc next cv =>
      have hwake := loc_wake cv (s.thread j)
      rwa [← Function.update_of_ne hj (.running next) fun j => (s.thread j).wake cv]
        at hwake
  | run => exact congrArg _ (Function.update_of_ne hj _ _)
  | wake => exact congrArg _ (Function.update_of_ne hj _ _)

theorem running_of_wake
    {cv : κ} {Loc : Type} {thread : MonitorThread κ Loc} {loc : Loc}
    (h : thread.wake cv = .running loc) : thread = .running loc := by
  cases thread with
  | running loc' => exact h
  | woken loc' => cases h
  | asleep cv' loc' =>
      rw [MonitorThread.wake] at h
      split at h <;> cases h

variable {M} in
/-- No other thread is made to run. -/
theorem Step.running_of_ne
    {s t : MonitorState ι κ σ Loc} {i j : ι} {loc : Loc j} (hstep : M.Step s i t) (hj : j ≠ i)
    (hrunning : t.thread j = .running loc) : s.thread j = .running loc := by
  cases hstep with
  | lock => exact (Function.update_of_ne hj _ _).symm.trans hrunning
  | unlock => exact (Function.update_of_ne hj _ _).symm.trans hrunning
  | wait => exact (Function.update_of_ne hj _ _).symm.trans hrunning
  | @signal k loc' next cv woken hthread haction hasleep =>
      have hother := (Function.update_of_ne hj _ _).symm.trans hrunning
      by_cases hk : j = k
      · subst hk
        rw [Function.update_self] at hother
        cases hother
      · exact (Function.update_of_ne hk _ _).symm.trans hother
  | signalNobody => exact (Function.update_of_ne hj _ _).symm.trans hrunning
  | @broadcast loc' next cv =>
      have hother := Function.update_of_ne hj (.running next) fun j => (s.thread j).wake cv
      exact running_of_wake (hother.symm.trans hrunning)
  | run => exact (Function.update_of_ne hj _ _).symm.trans hrunning
  | wake => exact (Function.update_of_ne hj _ _).symm.trans hrunning

variable {M} in
/-- A thread at statements that do not block executes them. -/
theorem Step.shared_of_run
    {s t : MonitorState ι κ σ Loc} {i : ι} {loc : Loc i} {effect : σ → σ × Loc i}
    (hstep : M.Step s i t) (hthread : s.thread i = .running loc)
    (haction : M.action i loc = .run effect) : t.shared = (effect s.shared).1 := by
  cases hstep <;> simp_all

/-- The threads as a system of steps. -/
def system : EventSystem (MonitorState ι κ σ Loc) ι where
  Step := M.Step

/-- Some thread can take a step. -/
def CanStep (s : MonitorState ι κ σ Loc) : Prop :=
  ∃ i t, M.Step s i t

end Steps

/-- The threads start with the mutex free. -/
def start (shared : σ) (entry : ∀ i, Loc i) : MonitorState ι κ σ Loc where
  shared := shared
  owner := none
  thread i := .running (entry i)

/-- Thread `i` has reached the end of its code. -/
def Returned (i : ι) (s : MonitorState ι κ σ Loc) : Prop :=
  ∃ loc, s.thread i = .running loc ∧ M.action i loc = .stop

/-! ## Bracketed code -/

/-- The action leads from a location inside the brackets of `lock` and `unlock`,
or outside, to one on the right side. -/
def BracketedAt {Loc : Type} (inside : Loc → Bool) (loc : Loc) :
    MonitorAction κ σ Loc → Prop
  | .lock next => inside loc = false ∧ inside next = true
  | .unlock next => inside loc = true ∧ inside next = false
  | .wait _ next => inside loc = true ∧ inside next = true
  | .signal _ next => inside next = inside loc
  | .broadcast _ next => inside next = inside loc
  | .run effect => ∀ s, inside (effect s).2 = inside loc
  | .stop => inside loc = false

def Bracketed (inside : ∀ i, Loc i → Bool) : Prop :=
  ∀ i loc, BracketedAt (inside i) loc (M.action i loc)

/-- A thread runs inside the brackets. -/
def Inside {Loc : Type} (inside : Loc → Bool) : MonitorThread κ Loc → Prop
  | .running loc => inside loc = true
  | _ => False

/-- A thread that sleeps or waits for the mutex goes on inside the brackets. -/
def Comeback {Loc : Type} (inside : Loc → Bool) : MonitorThread κ Loc → Prop
  | .running _ => True
  | .asleep _ loc => inside loc = true
  | .woken loc => inside loc = true

/-- The owner of the mutex is the one thread inside the brackets. -/
structure Exclusive (inside : ∀ i, Loc i → Bool) (s : MonitorState ι κ σ Loc) :
    Prop where
  owner_iff : ∀ i, s.owner = some i ↔ Inside (inside i) (s.thread i)
  comeback : ∀ i, Comeback (inside i) (s.thread i)

variable {M} {inside : ∀ i, Loc i → Bool} {s t : MonitorState ι κ σ Loc} {i j : ι}
  {loc : Loc i}

theorem inside_wake [DecidableEq κ] (cv : κ) (thread : MonitorThread κ (Loc i)) :
    Inside (inside i) (thread.wake cv) ↔ Inside (inside i) thread := by
  cases thread with
  | running loc => rfl
  | woken loc => rfl
  | asleep cv' loc =>
      rw [MonitorThread.wake]
      split <;> rfl

theorem comeback_wake
    [DecidableEq κ] (cv : κ) {thread : MonitorThread κ (Loc i)}
    (h : Comeback (inside i) thread) : Comeback (inside i) (thread.wake cv) := by
  cases thread with
  | running loc => trivial
  | woken loc => exact h
  | asleep cv' loc =>
      rw [MonitorThread.wake]
      split <;> exact h

/-- Thread `i` moves, and the others stay inside or outside. -/
theorem Exclusive.move
    [DecidableEq ι] (h : Exclusive inside s) {owner : Option ι} {shared : σ}
    {thread : ∀ j, MonitorThread κ (Loc j)}
    (hself : owner = some i ↔ Inside (inside i) (thread i))
    (hcomeback : Comeback (inside i) (thread i))
    (howner : ∀ j, j ≠ i → (owner = some j ↔ s.owner = some j))
    (hothers : ∀ j, j ≠ i → (Inside (inside j) (thread j) ↔
      Inside (inside j) (s.thread j)) ∧ Comeback (inside j) (thread j)) :
    Exclusive inside ⟨shared, owner, thread⟩ := by
  constructor
  case owner_iff =>
      intro j
      by_cases hj : j = i
      · subst hj
        exact hself
      · exact (howner j hj).trans ((h.owner_iff j).trans (hothers j hj).1.symm)
  case comeback =>
      intro j
      by_cases hj : j = i
      · subst hj
        exact hcomeback
      · exact (hothers j hj).2

/-- Only thread `i` moves. -/
theorem Exclusive.update
    [DecidableEq ι] (h : Exclusive inside s) {owner : Option ι} {shared : σ}
    {moved : MonitorThread κ (Loc i)}
    (hself : owner = some i ↔ Inside (inside i) moved)
    (hcomeback : Comeback (inside i) moved)
    (howner : ∀ j, j ≠ i → (owner = some j ↔ s.owner = some j)) :
    Exclusive inside ⟨shared, owner, Function.update s.thread i moved⟩ := by
  refine h.move (i := i) ?_ ?_ howner fun j hj => ?_
  · rw [Function.update_self]
    exact hself
  · rw [Function.update_self]
    exact hcomeback
  · rw [Function.update_of_ne hj]
    exact ⟨Iff.rfl, h.comeback j⟩

theorem Exclusive.running_iff
    (h : Exclusive inside s) (hthread : s.thread i = .running loc) :
    s.owner = some i ↔ inside i loc = true := by
  rw [h.owner_iff, hthread]
  rfl

variable [DecidableEq ι] [DecidableEq κ]

theorem Exclusive.step
    (hbracketed : M.Bracketed inside) (h : Exclusive inside s)
    (hstep : M.Step s i t) : Exclusive inside t := by
  have hnone : s.owner = none → ∀ j, j ≠ i → (some i = some j ↔ s.owner = some j) := by
    intro hfree j hj
    rw [hfree]
    exact iff_of_false (fun heq => hj (Option.some.inj heq).symm) nofun
  have hgone : s.owner = some i → ∀ j, j ≠ i → (none = some j ↔ s.owner = some j) := by
    intro howner j hj
    rw [howner]
    exact iff_of_false nofun fun heq => hj (Option.some.inj heq).symm
  cases hstep with
  | @lock loc next hthread haction hfree =>
      have hcode := hbracketed i loc
      rw [haction] at hcode
      exact h.update (iff_of_true rfl hcode.2) trivial (hnone hfree)
  | @unlock loc next hthread haction howner =>
      have hcode := hbracketed i loc
      rw [haction] at hcode
      refine h.update (iff_of_false nofun fun hinside => ?_) trivial (hgone howner)
      rw [Inside, hcode.2] at hinside
      cases hinside
  | @wait loc next cv hthread haction howner =>
      have hcode := hbracketed i loc
      rw [haction] at hcode
      exact h.update (iff_of_false nofun id) hcode.2 (hgone howner)
  | @signal j loc next cv loc' hthread haction hasleep =>
      have hcode := hbracketed i loc
      rw [haction] at hcode
      have hback := h.comeback j
      rw [hasleep] at hback
      refine h.move (i := i) ?_ ?_ (fun _ _ => Iff.rfl) fun k hk => ?_
      · rw [h.running_iff hthread, Function.update_self, Inside, hcode]
      · rw [Function.update_self]
        trivial
      · rw [Function.update_of_ne hk]
        by_cases hkj : k = j
        · subst hkj
          rw [Function.update_self, hasleep]
          exact ⟨Iff.rfl, hback⟩
        · rw [Function.update_of_ne hkj]
          exact ⟨Iff.rfl, h.comeback k⟩
  | @signalNobody loc next cv hthread haction hnobody =>
      have hcode := hbracketed i loc
      rw [haction] at hcode
      refine h.update ?_ trivial fun _ _ => Iff.rfl
      rw [h.running_iff hthread, Inside, hcode]
  | @broadcast loc next cv hthread haction =>
      have hcode := hbracketed i loc
      rw [haction] at hcode
      refine h.move (i := i) ?_ ?_ (fun _ _ => Iff.rfl) fun j hj => ?_
      · rw [h.running_iff hthread, Function.update_self, Inside, hcode]
      · rw [Function.update_self]
        trivial
      · rw [Function.update_of_ne hj]
        exact ⟨inside_wake cv _, comeback_wake cv (h.comeback j)⟩
  | @run loc effect hthread haction =>
      have hcode := hbracketed i loc
      rw [haction] at hcode
      refine h.update ?_ trivial fun _ _ => Iff.rfl
      rw [h.running_iff hthread, Inside, hcode s.shared]
  | @wake loc hthread hfree =>
      have hback := h.comeback i
      rw [hthread] at hback
      exact h.update (iff_of_true rfl hback) trivial (hnone hfree)

theorem exclusive_of_reachable
    {shared : σ} {entry : ∀ i, Loc i} (hbracketed : M.Bracketed inside)
    (hentry : ∀ i, inside i (entry i) = false)
    (hreach : M.system.Reachable (start shared entry) s) : Exclusive inside s := by
  have hrunning : ∀ i, @Comeback κ (Loc i) (inside i) (.running (entry i)) :=
    fun _ => trivial
  refine hreach.invariant (Exclusive inside) ⟨fun i => ?_, hrunning⟩
    fun _ _ _ h hstep => h.step hbracketed hstep
  refine iff_of_false nofun fun hinside => ?_
  change inside i (entry i) = true at hinside
  rw [hentry i] at hinside
  cases hinside

/-! ## Deadlocks -/

/-- A thread that runs inside the brackets can take a step, and so can any thread
that neither sleeps nor has stopped when the mutex is free. -/
theorem Exclusive.stuck
    (hbracketed : M.Bracketed inside) (h : Exclusive inside s) (hstuck : ¬M.CanStep s) :
    s.owner = none ∧
      ∀ i, M.Returned i s ∨ ∃ cv loc, s.thread i = .asleep cv loc := by
  classical
  have hmoves : ∀ i loc, s.thread i = .running loc →
      M.Returned i s ∨ (∃ next, M.action i loc = .lock next) ∧ s.owner ≠ none := by
    intro i loc hthread
    have hcode := hbracketed i loc
    cases haction : M.action i loc with
    | lock next =>
        refine .inr ⟨⟨next, rfl⟩, fun hfree => ?_⟩
        exact hstuck ⟨i, _, .lock hthread haction hfree⟩
    | unlock next =>
        rw [haction] at hcode
        exact absurd ⟨i, _, .unlock hthread haction
          ((h.running_iff hthread).mpr hcode.1)⟩ hstuck
    | wait cv next =>
        rw [haction] at hcode
        exact absurd ⟨i, _, .wait hthread haction
          ((h.running_iff hthread).mpr hcode.1)⟩ hstuck
    | signal cv next =>
        by_cases hasleep : ∃ j loc', s.thread j = .asleep cv loc'
        · obtain ⟨j, loc', hasleep⟩ := hasleep
          exact absurd ⟨i, _, .signal hthread haction hasleep⟩ hstuck
        · refine absurd ⟨i, _, .signalNobody hthread haction fun j loc' hj => ?_⟩ hstuck
          exact hasleep ⟨j, loc', hj⟩
    | broadcast cv next => exact absurd ⟨i, _, .broadcast hthread haction⟩ hstuck
    | run effect => exact absurd ⟨i, _, .run hthread haction⟩ hstuck
    | stop => exact .inl ⟨loc, hthread, haction⟩
  have hfree : s.owner = none := by
    cases howner : s.owner with
    | none => rfl
    | some i =>
        have hinside := (h.owner_iff i).mp howner
        cases hthread : s.thread i with
        | running loc =>
            rw [hthread] at hinside
            have hcode := hbracketed i loc
            rcases hmoves i loc hthread with ⟨loc', hthread', hstop⟩ | ⟨⟨next, hlock⟩, _⟩
            · rw [hthread] at hthread'
              cases hthread'
              rw [hstop] at hcode
              exact absurd (hcode.symm.trans hinside) nofun
            · rw [hlock] at hcode
              exact absurd (hcode.1.symm.trans hinside) nofun
        | asleep cv loc =>
            rw [hthread] at hinside
            exact hinside.elim
        | woken loc =>
            rw [hthread] at hinside
            exact hinside.elim
  refine ⟨hfree, fun i => ?_⟩
  cases hthread : s.thread i with
  | running loc =>
      rcases hmoves i loc hthread with hreturned | ⟨_, howner⟩
      · exact .inl hreturned
      · exact absurd hfree howner
  | asleep cv loc => exact .inr ⟨cv, loc, rfl⟩
  | woken loc => exact absurd ⟨i, _, .wake hthread hfree⟩ hstuck

/-- Threads that sleep or have stopped take no step. -/
theorem not_canStep
    (h : ∀ i, M.Returned i s ∨ ∃ cv loc, s.thread i = .asleep cv loc) : ¬M.CanStep s := by
  rintro ⟨i, t, hstep⟩
  rcases h i with ⟨loc, hthread, hstop⟩ | ⟨cv, loc, hasleep⟩
  · cases hstep <;> simp_all
  · cases hstep <;> simp_all

/-! ## Schedules -/

theorem exists_of_sleepsAt
    {Loc : Type} {cv : κ} {thread : MonitorThread κ Loc} (h : thread.sleepsAt cv = true) :
    ∃ loc, thread = .asleep cv loc ∧ thread.wake cv = .woken loc := by
  cases thread with
  | asleep cv' loc =>
      obtain rfl : cv' = cv := by simpa [MonitorThread.sleepsAt] using h
      exact ⟨loc, rfl, by simp [MonitorThread.wake]⟩
  | running loc => cases h
  | woken loc => cases h

variable [Fintype ι]

variable (M) in
/-- Execute a step of thread `i`; `none` when it cannot take one.  A signal wakes
thread `j` if that sleeps at the condition variable. -/
def exec (i j : ι) (s : MonitorState ι κ σ Loc) : Option (MonitorState ι κ σ Loc) :=
  match s.thread i with
  | .asleep _ _ => none
  | .woken loc =>
      if s.owner = none then
        some { s with
          owner := some i
          thread := Function.update s.thread i (.running loc) }
      else none
  | .running loc =>
      match M.action i loc with
      | .lock next =>
          if s.owner = none then
            some { s with
              owner := some i
              thread := Function.update s.thread i (.running next) }
          else none
      | .unlock next =>
          if s.owner = some i then
            some { s with
              owner := none
              thread := Function.update s.thread i (.running next) }
          else none
      | .wait cv next =>
          if s.owner = some i then
            some { s with
              owner := none
              thread := Function.update s.thread i (.asleep cv next) }
          else none
      | .signal cv next =>
          if (s.thread j).sleepsAt cv then
            some { s with
              thread := Function.update
                (Function.update s.thread j ((s.thread j).wake cv)) i (.running next) }
          else if ∀ k, (s.thread k).sleepsAt cv = false then
            some { s with thread := Function.update s.thread i (.running next) }
          else none
      | .broadcast cv next =>
          some { s with
            thread := Function.update (fun k => (s.thread k).wake cv) i (.running next) }
      | .run effect =>
          some { s with
            shared := (effect s.shared).1
            thread := Function.update s.thread i (.running (effect s.shared).2) }
      | .stop => none

theorem step_of_exec (hexec : M.exec i j s = some t) : M.Step s i t := by
  rw [exec] at hexec
  cases hthread : s.thread i with
  | asleep cv loc => simp [hthread] at hexec
  | woken loc =>
      simp only [hthread, Option.ite_none_right_eq_some, Option.some.injEq] at hexec
      obtain ⟨hfree, rfl⟩ := hexec
      exact .wake hthread hfree
  | running loc =>
      simp only [hthread] at hexec
      cases haction : M.action i loc with
      | lock next =>
          simp only [haction, Option.ite_none_right_eq_some, Option.some.injEq] at hexec
          obtain ⟨hfree, rfl⟩ := hexec
          exact .lock hthread haction hfree
      | unlock next =>
          simp only [haction, Option.ite_none_right_eq_some, Option.some.injEq] at hexec
          obtain ⟨howner, rfl⟩ := hexec
          exact .unlock hthread haction howner
      | wait cv next =>
          simp only [haction, Option.ite_none_right_eq_some, Option.some.injEq] at hexec
          obtain ⟨howner, rfl⟩ := hexec
          exact .wait hthread haction howner
      | signal cv next =>
          simp only [haction] at hexec
          split at hexec
          case isTrue hsleeps =>
              obtain ⟨loc', hasleep, hwake⟩ := exists_of_sleepsAt hsleeps
              rw [hwake, Option.some.injEq] at hexec
              rw [← hexec]
              exact .signal hthread haction hasleep
          case isFalse =>
              rw [Option.ite_none_right_eq_some, Option.some.injEq] at hexec
              obtain ⟨hnobody, rfl⟩ := hexec
              refine .signalNobody hthread haction fun k loc' hasleep => ?_
              have hawake := hnobody k
              simp [hasleep, MonitorThread.sleepsAt] at hawake
      | broadcast cv next =>
          simp only [haction, Option.some.injEq] at hexec
          rw [← hexec]
          exact .broadcast hthread haction
      | run effect =>
          simp only [haction, Option.some.injEq] at hexec
          rw [← hexec]
          exact .run hthread haction
      | stop => simp [haction] at hexec

variable (M) in
/-- Take the steps of a schedule, each given with the thread to wake. -/
def play (schedule : List (ι × ι)) (s : MonitorState ι κ σ Loc) :
    Option (MonitorState ι κ σ Loc) :=
  schedule.foldlM (fun s step => M.exec step.1 step.2 s) s

theorem reachable_of_play
    {start : MonitorState ι κ σ Loc} {schedule : List (ι × ι)}
    (hplay : M.play schedule s = some t) (hreach : M.system.Reachable start s) :
    M.system.Reachable start t :=
  keeps_of_foldlM (fun _ _ _ hexec h => h.step (step_of_exec hexec)) hplay hreach

end Monitor
end Eecs482
