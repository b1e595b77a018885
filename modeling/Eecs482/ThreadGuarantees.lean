import Eecs482.ThreadMutexes

/-!
# What the thread library guarantees

User code sees every unfinished thread in exactly one place, at most one holder
of a mutex, and `join` blocking on unfinished threads only.  When the processor
suspends, the unfinished threads are blocked for a reason.
-/

namespace Eecs482
namespace Threads

open Uniprocessor

variable {c e : ThreadCpu} {t u m : ℕ}

/-! ## States that user code observes -/

theorem working_of_inUser
    (hreach : machine.system.Reachable boot c) (huser : InUser t c) :
    c.suspended = false ∧ c.interrupts = true ∧ ∃ place, Working place t c.state := by
  have h := invariant_of_reachable hreach
  obtain ⟨hexecuting, threw, hcurrent⟩ := huser
  have hrunning : c.suspended = false := by
    cases hsuspended : c.suspended with
    | false => rfl
    | true =>
        obtain ⟨hhost, _⟩ := h.idle hsuspended
        rw [hexecuting] at hhost
        cases hhost
  have hsafe := h.safe hrunning
  rw [hcurrent] at hsafe
  have henabled : c.interrupts = true := by
    cases hinterrupts : c.interrupts with
    | true => rfl
    | false =>
        rw [hinterrupts] at hsafe
        obtain ⟨hfalse, _⟩ := hsafe
        cases hfalse
  have hsettled := h.settled hrunning henabled
  rw [hexecuting] at hsettled
  exact ⟨hrunning, henabled, hsettled.2⟩

/-- `t` has been created and has not finished. -/
def State.Unfinished (t : ℕ) (s : State) : Prop :=
  t < s.created ∧ Event.finished t ∉ s.log

theorem Placed.unfinished_iff
    {place : ℕ → Place} {s : State} (h : Placed place s) :
    s.Unfinished t ↔ place t ≠ .unborn ∧ place t ≠ .finished := by
  rw [State.Unfinished, ne_eq, ne_eq, h.unborn_iff, h.finished_iff, Nat.not_le]

/-! ## No thread is lost or doubled -/

/-- How often `t` occurs as `running_thread`, or in a queue. -/
def State.occurrences (t : ℕ) (s : State) : Option Queue → ℕ
  | none => if s.runningThread = some t then 1 else 0
  | some q => (s.queues q).count t

/-- `running_thread`, and the queues of objects that are in use. -/
def State.InUse (s : State) : Option Queue → Prop
  | some (.joinQueue t) => s.Unfinished t
  | _ => True

/-- Where a thread with this place occurs, if anywhere. -/
def Place.slot : Place → Option (Option Queue)
  | .running => some none
  | .queued q => some (some q)
  | _ => none

theorem Working.occurrences_eq
    {place : ℕ → Place} {s : State} (h : Working place t s) (slot : Option Queue) :
    s.occurrences u slot = if (place u).slot = some slot then 1 else 0 := by
  cases slot with
  | none =>
      have hslot : (place u).slot = some none ↔ s.runningThread = some u := by
        rw [h.running, Option.some.injEq, eq_comm, @eq_comm _ t, ← h.only u]
        cases place u <;> simp [Place.slot]
      rw [State.occurrences]
      exact if_congr hslot.symm rfl rfl
  | some q =>
      have hslot : (place u).slot = some (some q) ↔ u ∈ s.queues q := by
        rw [h.mem_iff]
        cases place u <;> simp [Place.slot]
      rw [State.occurrences, (h.nodup q).count]
      exact if_congr hslot.symm rfl rfl

/-- Whenever user code runs, each unfinished thread occurs exactly once among
`running_thread` and the queues, and no finished thread occurs. -/
theorem occursOnce_of_reachable
    (hreach : machine.system.Reachable boot c) (huser : InUser t c) :
    (∀ u, c.state.Unfinished u → ∃ slot, c.state.InUse slot ∧
      c.state.occurrences u slot = 1 ∧
        ∀ other, other ≠ slot → c.state.occurrences u other = 0) ∧
      ∀ u, Event.finished u ∈ c.state.log → ∀ slot, c.state.occurrences u slot = 0 := by
  obtain ⟨_, _, place, h⟩ := working_of_inUser hreach huser
  refine ⟨fun u hunfinished => ?_, fun u hfinished slot => ?_⟩
  · obtain ⟨hborn, hlive⟩ := h.unfinished_iff.mp hunfinished
    obtain ⟨slot, hslot, huse⟩ :
        ∃ slot, (place u).slot = some slot ∧ c.state.InUse slot := by
      cases hplace : place u with
      | unborn => exact absurd hplace hborn
      | finished => exact absurd hplace hlive
      | running => exact ⟨none, rfl, trivial⟩
      | queued q =>
          refine ⟨some q, rfl, ?_⟩
          cases q with
          | joinQueue v => exact h.unfinished_iff.mpr (h.joining u v hplace)
          | ready => trivial
          | mutexQueue m => trivial
          | cvQueue cv => trivial
    refine ⟨slot, huse, ?_, fun other hother => ?_⟩
    · rw [h.occurrences_eq, if_pos hslot]
    · rw [h.occurrences_eq, hslot, if_neg]
      exact fun heq => hother (Option.some.inj heq).symm
  · rw [h.occurrences_eq, (h.finished_iff u).mpr hfinished]
    rfl

theorem occursOnce_of_contending :
    ∃ c, play contending firstUser = some c ∧ InUser 0 c ∧
      c.state.queues (.mutexQueue 0) = [1] ∧ ∃ slot, c.state.InUse slot ∧
        c.state.occurrences 1 slot = 1 ∧
          ∀ other, other ≠ slot → c.state.occurrences 1 other = 0 := by
  obtain ⟨c, hplay, huser, hwaits, hlive⟩ :
      ∃ c, play contending firstUser = some c ∧ InUser 0 c ∧
        c.state.queues (.mutexQueue 0) = [1] ∧ c.state.Unfinished 1 :=
    ⟨_, rfl, ⟨rfl, false, rfl⟩, rfl, by decide, by decide⟩
  have hreach := reachable_of_play hplay reachable_firstUser
  exact ⟨c, hplay, huser, hwaits, (occursOnce_of_reachable hreach huser).1 1 hlive⟩

/-! ## Mutual exclusion -/

/-- Undisturbed, `code` returns `outcome` and leaves everything as it is. -/
def ReturnsAtOnce (c : ThreadCpu) (code : ThreadCode Outcome) (outcome : Outcome) :
    Prop :=
  (∃ e, machine.Runs { c with current := code } e ∧ e.current = .ret outcome) ∧
    ∀ e value, machine.Runs { c with current := code } e → e.current = .ret value →
      value = outcome ∧ e.state = c.state ∧ e.executing = c.executing

/-- Undisturbed, `code` gets to a point from where it cannot throw any more, with
everything as it is. -/
def GoesAhead (c : ThreadCpu) (code : ThreadCode Outcome) : Prop :=
  ∃ rest : ThreadCode Outcome, rest.Returns (· = .user false) ∧
    ∀ e value, machine.Runs { c with current := code } e → e.current = .ret value →
      ∃ d, machine.Runs { c with current := code } d ∧ d.state = c.state ∧
        d.executing = c.executing ∧ d.current = rest ∧ machine.Runs d e

section Calls

variable {op : ThreadOp} {next : threadInterface.Answer op → ThreadCode Outcome}
  {answer : threadInterface.Answer op} {threw : Bool}

/-- A function that makes one test and returns. -/
theorem returnsAtOnce
    (hrunning : c.suspended = false)
    (hexec : State.exec op c.state = [(answer, c.state)])
    (hnext : next answer = .call .interruptEnable fun _ => .ret (.user threw)) :
    ReturnsAtOnce c (.call .interruptDisable fun _ => .call (.access op) next)
      (.user threw) := by
  constructor
  · have hmem : (answer, c.state) ∈ State.exec op c.state := by
      rw [hexec]
      exact List.mem_cons_self
    refine ⟨_, .step (Step.interruptDisable hrunning rfl)
      (.step (Step.access hrunning rfl hmem)
        (.step (Step.interruptEnable hrunning hnext) .refl)), rfl⟩
  · intro e value hrun hret
    obtain ⟨answer', state, hmem, hrun⟩ :=
      (hrun.interruptDisable rfl hret).access rfl hret
    have hresult : (answer', state) ∈ State.exec op c.state := hmem
    rw [hexec, List.mem_singleton] at hresult
    cases hresult
    have hend := (hrun.interruptEnable hnext hret).ret rfl
    rw [hend] at hret ⊢
    cases hret
    exact ⟨rfl, rfl, rfl⟩

/-- A function that makes one test and cannot throw after it. -/
theorem goesAhead
    (hrunning : c.suspended = false)
    (hexec : State.exec op c.state = [(answer, c.state)])
    (hnext : (next answer).Returns (· = .user false)) :
    GoesAhead c (.call .interruptDisable fun _ => .call (.access op) next) := by
  refine ⟨next answer, hnext, fun e value hrun hret => ?_⟩
  obtain ⟨answer', state, hmem, hrest⟩ :=
    (hrun.interruptDisable rfl hret).access rfl hret
  have hresult : (answer', state) ∈ State.exec op c.state := hmem
  rw [hexec, List.mem_singleton] at hresult
  cases hresult
  exact ⟨_, .step (Step.interruptDisable hrunning rfl)
    (.step (Step.access hrunning rfl hmem) .refl), rfl, rfl, rfl, hrest⟩

end Calls

theorem returns_waitHeld (cv m : ℕ) :
    (waitHeld cv m).Returns (· = .user false) := by
  have hagain : (do
      swapHelper
      if !(← access (.status m)) then
        access (.occupyRunning m)
        access (.setStatus m true)
      else
        access (.push (.mutexQueue m))
        swapHelper
      access (.note (.returned · m))
      interruptEnable
      return .user false : ThreadCode Outcome).Returns (· = .user false) := by
    refine Prog.Returns.bind fun _ status => ?_
    cases status with
    | false => exact fun _ _ _ _ => rfl
    | true =>
        intro _
        exact Prog.Returns.bind fun _ => Prog.Returns.bind fun _ _ _ => rfl
  intro _ _ _ empty
  cases empty with
  | true => exact hagain
  | false => exact fun _ _ _ _ => hagain

theorem returns_unlock (m : ℕ) : (do
    access (.note (.unlocked · m))
    access (.setStatus m false)
    if !(← access (.empty (.mutexQueue m))) then
      access (.occupyFront m)
      access (.readyPushFront (.mutexQueue m))
      access (.pop (.mutexQueue m))
      access (.setStatus m true)
    interruptEnable
    return .user false : ThreadCode Outcome).Returns (· = .user false) := by
  intro _ _ empty
  cases empty with
  | true => exact fun _ => rfl
  | false => exact fun _ _ _ _ _ => rfl

/-- Whenever user code runs, a mutex has at most one holder and is taken if and
only if it has one, `check_ownership` is right, `unlock` and `wait` throw if and
only if the caller does not hold the mutex and then change nothing, and nobody
waits for a free mutex. -/
theorem exclusion_of_reachable
    (hreach : machine.system.Reachable boot c) (huser : InUser t c) :
    (∀ m u v, Holds u m c.state.log → Holds v m c.state.log → u = v) ∧
      (∀ m, (c.state.mutexes m).status = true ↔ ∃ u, Holds u m c.state.log) ∧
      (∀ m, c.state.checkOwnership m = true ↔ Holds t m c.state.log) ∧
      (∀ m code, (code = unlock m ∨ ∃ cv, code = wait cv m) →
        (Holds t m c.state.log → GoesAhead c code) ∧
          (¬Holds t m c.state.log → ReturnsAtOnce c code (.user true))) ∧
      ∀ m, (c.state.mutexes m).status = false →
        c.state.queues (.mutexQueue m) = [] := by
  obtain ⟨hrunning, _, place, h⟩ := working_of_inUser hreach huser
  refine ⟨fun m u v hu hv => ?_, fun m => ?_, fun m => h.checkOwnership_iff, ?_, h.free⟩
  · exact (h.holder_unique hv).mp hu
  · simp only [h.holds_iff, State.owner]
    cases hstatus : (c.state.mutexes m).status with
    | false => simp
    | true => simpa using Option.ne_none_iff_exists'.mp (h.owner_ne m hstatus)
  · have hexec : ∀ m answer, c.state.checkOwnership m = answer →
        State.exec (.checkOwnership m) c.state = [(answer, c.state)] := by
      rintro m _ rfl
      rfl
    have hanswer : ∀ m, ¬Holds t m c.state.log → c.state.checkOwnership m = false :=
      fun m hfree => Bool.eq_false_iff.mpr fun howned =>
        hfree (h.checkOwnership_iff.mp howned)
    rintro m _ (rfl | ⟨cv, rfl⟩)
    · exact ⟨fun hheld => goesAhead hrunning
        (hexec m true (h.checkOwnership_iff.mpr hheld)) (returns_unlock m),
        fun hfree => returnsAtOnce hrunning (hexec m false (hanswer m hfree)) rfl⟩
    · exact ⟨fun hheld => goesAhead hrunning
        (hexec m true (h.checkOwnership_iff.mpr hheld)) (returns_waitHeld cv m),
        fun hfree => returnsAtOnce hrunning (hexec m false (hanswer m hfree)) rfl⟩

theorem exclusion_of_contending :
    ∃ c, play contending firstUser = some c ∧ InUser 0 c ∧
      c.state.queues (.mutexQueue 0) = [1] ∧ (∀ u, Holds u 0 c.state.log → u = 0) ∧
      (c.state.mutexes 0).status = true ∧ GoesAhead c (unlock 0) ∧
      GoesAhead c (wait 0 0) ∧ ReturnsAtOnce c (unlock 1) (.user true) := by
  obtain ⟨c, hplay, huser, hwaits, hheld, hfree⟩ :
      ∃ c, play contending firstUser = some c ∧ InUser 0 c ∧
        c.state.queues (.mutexQueue 0) = [1] ∧ Holds 0 0 c.state.log ∧
        ¬Holds 0 1 c.state.log :=
    ⟨_, rfl, ⟨rfl, false, rfl⟩, rfl, by decide, by decide⟩
  have hreach := reachable_of_play hplay reachable_firstUser
  obtain ⟨hunique, hstatus, _, hcalls, _⟩ := exclusion_of_reachable hreach huser
  exact ⟨c, hplay, huser, hwaits, fun u hu => hunique 0 u 0 hu hheld,
    (hstatus 0).mpr ⟨0, hheld⟩, (hcalls 0 _ (.inl rfl)).1 hheld,
    (hcalls 0 _ (.inr ⟨0, rfl⟩)).1 hheld, (hcalls 1 _ (.inl rfl)).2 hfree⟩

/-! ## Joins -/

/-- Thread `t` waits for the end of `u`: it is in the queue and about to switch. -/
def JoinsQueue (t u : ℕ) (c d : ThreadCpu) : Prop :=
  d.state = c.state.pushed t (.joinQueue u) ∧ d.executing = c.executing ∧
    ∃ next, d.current = swapHelper >>= next

/-- `join` of a thread that has not finished gives up the processor. -/
theorem join_blocks
    {place : ℕ → Place} (h : Working place t c.state)
    (hlive : c.state.Unfinished u) {value : Outcome}
    (hrun : machine.Runs { c with current := join u } e)
    (hret : e.current = .ret value) (hrunning : c.suspended = false) :
    ∃ d, machine.Runs { c with current := join u } d ∧ JoinsQueue t u c d ∧
      machine.Runs d e := by
  have hrefs : c.state.refs u ≠ 0 := h.refs_ne_zero_iff.mpr hlive
  have hexpired : (false, c.state) ∈ State.exec (.expired u) c.state := by
    simp [State.exec, hrefs]
  have hpush : State.exec (.push (.joinQueue u)) c.state =
      [((), c.state.pushed t (.joinQueue u))] := by
    have hqueue : c.state.hasQueue (.joinQueue u) = true := bne_iff_ne.mpr hrefs
    simp only [State.exec, h.running, hqueue, if_true]
    rfl
  obtain ⟨answer, state, hmem, hrest⟩ :=
    (hrun.interruptDisable rfl hret).access rfl hret
  rcases List.mem_singleton.mp hmem
  have hfalse : (c.state.refs u == 0) = false := by simpa using hrefs
  rw [hfalse] at hrest
  obtain ⟨answer, state, hmem, hrest⟩ := hrest.access rfl hret
  have hpushed : (answer, state) ∈ State.exec (.push (.joinQueue u)) c.state := hmem
  rw [hpush, List.mem_singleton] at hpushed
  cases hpushed
  exact ⟨_, .step (Step.interruptDisable hrunning rfl)
    (.step (Step.access hrunning rfl hexpired)
      (.step (Step.access hrunning rfl hmem) .refl)), ⟨rfl, rfl, _, rfl⟩, hrest⟩

/-- In every run a thread that executes or is in a queue has not been released,
and a thread leaves a `join_queue` only when the target wakes it, at its end.
Whenever user code runs, the pointer of a thread object is expired if and only if
the thread has finished, nobody waits for a finished thread, `join` of one
returns at once, and `join` of another thread blocks. -/
theorem joins_of_reachable
    (hreach : machine.system.Reachable boot c) :
    Kept c.executing c.state ∧
      (∀ event c', machine.Step c event c' → ∀ t u, u ∈ c.state.queues (.joinQueue t) →
        u ∈ c'.state.queues (.joinQueue t) ∨
          event = .call (.access (.wakeAll (.joinQueue t))) ∧ c.executing = .thread t ∧
            Event.finished t ∉ c.state.log ∧ u ∈ c'.state.queues .ready) ∧
      ∀ t, InUser t c →
        (∀ u, u < c.state.created →
          (c.state.refs u = 0 ↔ Event.finished u ∈ c.state.log)) ∧
        (∀ u v, u ∈ c.state.queues (.joinQueue v) → c.state.Unfinished v) ∧
        (∀ u v, Event.pop u (.joinQueue v) ∈ c.state.log →
          Event.finished v ∈ c.state.log) ∧
        ∀ u, u < c.state.created →
          (Event.finished u ∈ c.state.log → ReturnsAtOnce c (join u) (.user false)) ∧
          (Event.finished u ∉ c.state.log → ∀ e value,
            machine.Runs { c with current := join u } e → e.current = .ret value →
              ∃ d, machine.Runs { c with current := join u } d ∧ JoinsQueue t u c d ∧
                machine.Runs d e) := by
  have h := invariant_of_reachable hreach
  refine ⟨h.always, fun event c' hstep t u hmem => ?_, fun t huser => ?_⟩
  · cases hstep with
    | @access op _ answer state hrunning hcurrent hexec =>
        rcases (h.guard hrunning hcurrent).2 answer state hexec t u hmem with
          hstays | ⟨rfl, hself, hlive, hready⟩
        · exact .inl hstays
        · exact .inr ⟨rfl, hself, hlive, hready⟩
    | interruptDisable => exact .inl hmem
    | interruptEnable => exact .inl hmem
    | interruptEnableSuspend => exact .inl hmem
    | swapcontext => exact .inl hmem
    | setcontext => exact .inl hmem
    | follow => exact .inl hmem
    | timer => exact .inl hmem
  · obtain ⟨hrunning, _, place, hworking⟩ := working_of_inUser hreach huser
    have hexpired : ∀ u, u < c.state.created →
        (c.state.refs u = 0 ↔ Event.finished u ∈ c.state.log) := by
      intro u hcreated
      rw [← not_iff_not, ← ne_eq, hworking.refs_ne_zero_iff]
      exact and_iff_right hcreated
    refine ⟨hexpired, fun u v hmem => ?_, hworking.joined, fun u hcreated => ⟨?_, ?_⟩⟩
    · have hplace := (hworking.mem_iff _ u).mp hmem
      exact hworking.unfinished_iff.mpr (hworking.joining u v hplace)
    · intro hfinished
      have hexec : State.exec (.expired u) c.state = [(true, c.state)] := by
        simp [State.exec, (hexpired u hcreated).mpr hfinished]
      exact returnsAtOnce hrunning hexec rfl
    · intro hlive e value hrun hret
      exact join_blocks hworking ⟨hcreated, hlive⟩ hrun hret hrunning

/-- The first thread creates another one and joins it, which finishes then. -/
theorem joins_of_child :
    ∃ c d, play [some .create, some (.join 1)] firstUser = some c ∧
      play [some .exit] c = some d ∧ c.state.queues (.joinQueue 1) = [0] ∧
      c.state.Unfinished 1 ∧ InUser 0 d ∧ d.state.refs 1 = 0 ∧
      ReturnsAtOnce d (join 1) (.user false) := by
  obtain ⟨c, d, hplay, hexit, huser, hwaits, huser', hcreated, hfinished⟩ :
      ∃ c d, play [some .create, some (.join 1)] firstUser = some c ∧
        play [some .exit] c = some d ∧ InUser 1 c ∧
        c.state.queues (.joinQueue 1) = [0] ∧ InUser 0 d ∧ 1 < d.state.created ∧
        Event.finished 1 ∈ d.state.log :=
    ⟨_, _, rfl, rfl, ⟨rfl, false, rfl⟩, rfl, ⟨rfl, false, rfl⟩, by decide, by decide⟩
  have hreach := reachable_of_play hplay reachable_firstUser
  have hreach' := reachable_of_play hexit hreach
  obtain ⟨_, hwaiting, _, _⟩ := (joins_of_reachable hreach).2.2 1 huser
  obtain ⟨hexpired, _, _, hjoins⟩ := (joins_of_reachable hreach').2.2 0 huser'
  exact ⟨c, d, hplay, hexit, hwaits, hwaiting 0 1 (by rw [hwaits]; simp), huser',
    (hexpired 1 hcreated).mpr hfinished, (hjoins 1 hcreated).1 hfinished⟩

/-! ## The end of a run -/

/-- `t` waits for a mutex that is taken, for a signal, or for an unfinished
thread. -/
def State.Blocked (t : ℕ) (s : State) : Prop :=
  (∃ m, t ∈ s.queues (.mutexQueue m) ∧ (s.mutexes m).status = true) ∨
    (∃ cv, t ∈ s.queues (.cvQueue cv)) ∨
      ∃ u, t ∈ s.queues (.joinQueue u) ∧ s.Unfinished u

theorem Stopped.blocked
    {place : ℕ → Place} {s : State} (h : Stopped place s) (hlive : s.Unfinished t) :
    s.Blocked t := by
  obtain ⟨hborn, hunfinished⟩ := h.unfinished_iff.mp hlive
  cases hplace : place t with
  | unborn => exact absurd hplace hborn
  | finished => exact absurd hplace hunfinished
  | running => exact absurd hplace (h.noRunning t)
  | queued q =>
      have hmem := (h.mem_iff q t).mpr hplace
      cases q with
      | ready =>
          rw [h.ready] at hmem
          cases hmem
      | mutexQueue m =>
          refine .inl ⟨m, hmem, ?_⟩
          cases hstatus : (s.mutexes m).status with
          | true => rfl
          | false =>
              rw [h.free m hstatus] at hmem
              cases hmem
      | cvQueue cv => exact .inr (.inl ⟨cv, hmem⟩)
      | joinQueue u =>
          exact .inr (.inr ⟨u, hmem, h.unfinished_iff.mpr (h.joining t u hplace)⟩)

/-- Control goes from a thread to the host only when no thread is ready, and when
the processor has been suspended every unfinished thread is blocked. -/
theorem blocked_of_suspended
    (hreach : machine.system.Reachable boot c) :
    (∀ event c', machine.Step c event c' → c.executing ≠ .host →
      c'.executing = .host → c.state.queues .ready = []) ∧
      (c.suspended = true → ∀ t, c.state.Unfinished t → c.state.Blocked t) := by
  have h := invariant_of_reachable hreach
  constructor
  · intro event c' hstep hthread hhost
    cases hstep with
    | access => exact absurd hhost hthread
    | interruptDisable => exact absurd hhost hthread
    | interruptEnable => exact absurd hhost hthread
    | interruptEnableSuspend => exact absurd hhost hthread
    | follow => exact absurd hhost hthread
    | timer => exact absurd hhost hthread
    | swapcontext hrunning hcurrent =>
        have hsafe := h.safe hrunning
        rw [hcurrent] at hsafe
        rw [hsafe.disabled nofun] at hsafe
        obtain ⟨_, _, _, _, hresumed, _⟩ := hsafe
        cases hhost
        exact hresumed.1
    | setcontext hrunning hcurrent =>
        have hsafe := h.safe hrunning
        rw [hcurrent] at hsafe
        rw [hsafe.disabled nofun] at hsafe
        obtain ⟨_, _, hresumed, _⟩ := hsafe
        cases hhost
        exact hresumed.1
  · intro hsuspended t hlive
    obtain ⟨_, place, hstopped⟩ := h.idle hsuspended
    exact hstopped.blocked hlive

/-- The first thread joins itself, and the processor is suspended. -/
theorem blocked_of_selfJoin :
    ∃ c, machine.system.Reachable boot c ∧ c.suspended = true ∧ c.state.Blocked 0 := by
  obtain ⟨c, hplay, hsuspended, hlive⟩ :
      ∃ c, play [some (.join 0), none] firstUser = some c ∧ c.suspended = true ∧
        c.state.Unfinished 0 :=
    ⟨_, rfl, rfl, by decide, by decide⟩
  have hreach := reachable_of_play hplay reachable_firstUser
  exact ⟨c, hreach, hsuspended, (blocked_of_suspended hreach).2 hsuspended 0 hlive⟩

end Threads
end Eecs482
