import Eecs482.ThreadMonitors

/-!
# How a program and its monitor agree

The threads of the monitor are in the queues of their phases, each of them once, and
the main thread is done creating when it joins.  The holder of the mutex is in its
queue only while it is handed the mutex.
-/

namespace Eecs482
namespace Threads

variable {ι κ σ : Type} {Loc : ι → Type} {total : ℕ}

/-- The queues, but for the ready queue, that a thread of the monitor may be in. -/
def Phase.Fits (N : Numbering ι κ total) (phase : Phase κ) (q : Queue) : Prop :=
  q = .mutexQueue N.mutex ∧ (phase = .queued ∨ phase = .requeued) ∨
    ∃ cv, q = .cvQueue (N.cv cv) ∧ (phase = .waited cv ∨ phase = .entering cv)

/-- Thread `u` may be in `q`: a thread of the monitor for its phase, and the main
thread to join another one, once it has created them all. -/
def Belongs (N : Numbering ι κ total) (phase : ContextRef → Phase κ) (made u : ℕ)
    (q : Queue) : Prop :=
  (∃ i, N.thread i = u) ∧ (phase (.thread u)).Fits N q ∨
    u = 0 ∧ (∃ v, q = .joinQueue v ∧ 0 < v) ∧ total < made

/-- The queues and the log agree with the phases. -/
structure Seen (N : Numbering ι κ total) (phase : ContextRef → Phase κ) (made : ℕ)
    (s : State) : Prop where
  placed : ∀ q u, q ≠ .ready → u ∈ s.queues q → Belongs N phase made u q
  nodup : ∀ q, q ≠ .ready → (s.queues q).Nodup
  holder : ∀ u, Holds u N.mutex s.log → ∃ i, N.thread i = u
  finished : ∀ t, Event.finished t ∈ s.log ↔ phase (.thread t) = .finished

/-- The main thread is done creating. -/
def Phase.Waits : Phase κ → Prop
  | .joining t => 0 < t
  | .exiting => True
  | .finished => True
  | _ => False

/-- How many threads there are. -/
structure Started (total made created : ℕ) (host main : Phase κ) : Prop where
  booted : host = .hosting ∨ host = .booting ∧ created = 0 ∧ made = 0 ∧ main = .idle
  progress : host = .hosting →
    main = .idle ∧ created = min made total + 1 ∨
    main = .creating ∧ created = made ∧ 0 < made ∧ made ≤ total ∨
    main.Waits ∧ created = total + 1 ∧ total < made

/-- The holder of a mutex is in its queue only while it is handed the mutex. -/
def Handing (mutex : ℕ) (s : State) : Prop :=
  ∀ u, Holds u mutex s.log → u ∈ s.queues (.mutexQueue mutex) →
    ∃ log, s.log = .handed u mutex :: log

/-- Nobody is being handed a mutex. -/
def Clean (s : State) : Prop :=
  ∀ n m log, s.log ≠ .handed n m :: log

variable {N : Numbering ι κ total} {M : Monitor ι κ σ Loc} {phase : ContextRef → Phase κ}
  {loc : ∀ i, Loc i} {s s' : State} {m : MonitorState ι κ σ Loc} {made t u mutex : ℕ} {i : ι}
  {p : Phase κ} {q : Queue} {rest : List ℕ} {op : ThreadOp} {self : ContextRef}

/-! ## One context goes to another phase -/

theorem update_thread (hne : u ≠ t) :
    Function.update phase (.thread t) p (.thread u) = phase (.thread u) :=
  Function.update_of_ne (fun heq => hne (ContextRef.thread.inj heq)) _ _

theorem update_host : Function.update phase (.thread t) p .host = phase .host :=
  Function.update_of_ne (by simp) _ _

theorem update_client {j : ι} (hj : j ≠ i) :
    Function.update phase (.thread (N.thread i)) p (.thread (N.thread j)) =
      phase (.thread (N.thread j)) :=
  update_thread fun heq => hj (N.thread_injective heq)

theorem update_main : Function.update phase (.thread 0) p (.thread (N.thread i)) =
    phase (.thread (N.thread i)) :=
  update_thread (N.thread_ne_zero i)

/-! ## Execution -/

theorem mem_exec_push
    {answer : Unit} (hrunning : s.runningThread = some t)
    (hexec : (answer, s') ∈ State.exec (.push q) s) : s' = s.pushed t q := by
  simp only [State.exec, hrunning] at hexec
  split at hexec
  · cases List.mem_singleton.mp hexec
    rfl
  · cases hexec

theorem mem_exec_note
    {event : ℕ → Event} {answer : Unit} (hrunning : s.runningThread = some t)
    (hexec : (answer, s') ∈ State.exec (.note event) s) : s' = s.note (event t) := by
  simp only [State.exec, hrunning] at hexec
  cases List.mem_singleton.mp hexec
  rfl

theorem mem_exec_pop
    {answer : Unit} (hexec : (answer, s') ∈ State.exec (.pop q) s) :
    ∃ t rest, s.queues q = t :: rest ∧ s' = s.pop t q rest := by
  simp only [State.exec] at hexec
  split at hexec
  · cases hexec
  case h_2 t rest hqueue =>
      cases List.mem_singleton.mp hexec
      exact ⟨t, rest, hqueue, rfl⟩

theorem mem_exec_occupyFront
    {answer : Unit} (hexec : (answer, s') ∈ State.exec (.occupyFront mutex) s) :
    ∃ t rest, s.queues (.mutexQueue mutex) = t :: rest ∧ s'.queues = s.queues ∧
      s'.created = s.created ∧ s'.log = .handed t mutex :: s.log := by
  simp only [State.exec] at hexec
  split at hexec
  · cases hexec
  case h_2 t rest hqueue =>
      cases List.mem_singleton.mp hexec
      exact ⟨t, rest, hqueue, rfl, rfl, rfl⟩

/-! ## The handing over of the mutex -/

/-- No holder of the mutex waits for it. -/
def Apart (mutex : ℕ) (s : State) : Prop :=
  ∀ u, Holds u mutex s.log → u ∉ s.queues (.mutexQueue mutex)

theorem Apart.handing (h : Apart mutex s) : Handing mutex s :=
  fun u hheld hmem => absurd hmem (h u hheld)

theorem Handing.apart (h : Handing mutex s) (hclean : Clean s) : Apart mutex s := by
  intro u hheld hmem
  obtain ⟨log, hlog⟩ := h u hheld hmem
  exact hclean u mutex log hlog

theorem Handing.unseen
    {code : ThreadCode Outcome} {answer : threadInterface.Answer op} (h : Handing mutex s)
    (hnodup : (s.queues (.mutexQueue mutex)).Nodup) (hunseen : Unseen s s')
    (hhands : HandsOver s op) (hwhere : CalledWhere self code s op)
    (hexec : (answer, s') ∈ State.exec op s) : Handing mutex s' := by
  obtain ⟨events, hbesides, hmoves⟩ := hunseen
  intro u hheld hmem
  have hheld' : Holds u mutex s.log := by
    rwa [hbesides.log, holds_moves hmoves] at hheld
  have hsublist := hbesides.sublist (.mutexQueue mutex) nofun nofun
  obtain ⟨log, hlog⟩ := h u hheld' (hsublist.subset hmem)
  rcases hhands u mutex log hlog with rfl | rfl
  · simp only [State.exec] at hexec
    split at hexec
    · cases hexec
    · cases List.mem_singleton.mp hexec
      exact ⟨log, hlog⟩
  · obtain ⟨front, rest, log', hqueue, hlog'⟩ := hwhere
    rw [hlog] at hlog'
    cases hlog'
    obtain ⟨front', rest', hqueue', rfl⟩ := mem_exec_pop hexec
    rw [hqueue'] at hqueue
    cases hqueue
    have hlasting : (Queue.mutexQueue mutex).Lasting := fun _ => by simp
    rw [becomes_pop.queues _ hlasting, Function.update_self] at hmem
    rw [hqueue', List.nodup_cons] at hnodup
    exact absurd hmem hnodup.1

/-! ## Queues, log and phases -/

theorem Seen.unseen (h : Seen N phase made s) (hunseen : Unseen s s') :
    Seen N phase made s' := by
  obtain ⟨events, hbesides, hmoves⟩ := hunseen
  have hsublist := fun q hq => hbesides.sublist q hq hq
  constructor
  case placed => exact fun q u hq hmem => h.placed q u hq ((hsublist q hq).subset hmem)
  case nodup => exact fun q hq => (h.nodup q hq).sublist (hsublist q hq)
  case holder =>
      intro u hu
      rw [hbesides.log, holds_moves hmoves] at hu
      exact h.holder u hu
  case finished =>
      intro t
      rw [hbesides.log, finished_moves hmoves]
      exact h.finished t

/-- Thread `t` goes to another phase, and the others leave queues only. -/
theorem Seen.step
    (h : Seen N phase made s)
    (hothers : ∀ r u, r ≠ .ready → u ≠ t → u ∈ s'.queues r → u ∈ s.queues r)
    (hplaced : ∀ r, r ≠ .ready → t ∈ s'.queues r →
      Belongs N (Function.update phase (.thread t) p) made t r)
    (hnodup : ∀ r, r ≠ .ready → (s'.queues r).Nodup)
    (hholder : ∀ u, Holds u N.mutex s'.log → Holds u N.mutex s.log ∨ ∃ i, N.thread i = u)
    (hrest : ∀ u, u ≠ t → (Event.finished u ∈ s'.log ↔ Event.finished u ∈ s.log))
    (hself : Event.finished t ∈ s'.log ↔ p = .finished) :
    Seen N (Function.update phase (.thread t) p) made s' := by
  constructor
  case placed =>
      intro r u hr hmem
      by_cases hu : u = t
      · subst hu
        exact hplaced r hr hmem
      · rw [Belongs, update_thread hu]
        exact h.placed r u hr (hothers r u hr hu hmem)
  case nodup => exact hnodup
  case holder =>
      intro u hu
      rcases hholder u hu with hold | hnew
      · exact h.holder u hold
      · exact hnew
  case finished =>
      intro u
      by_cases hu : u = t
      · subst hu
        rw [Function.update_self]
        exact hself
      · rw [update_thread hu, hrest u hu]
        exact h.finished u

/-- Thread `t` has not finished, and nobody finishes. -/
theorem Seen.live
    (h : Seen N phase made s)
    (hlog : Event.finished t ∈ s'.log ↔ Event.finished t ∈ s.log)
    (hlive : phase (.thread t) ≠ .finished) (hp : p ≠ .finished) :
    Event.finished t ∈ s'.log ↔ p = .finished := by
  rw [hlog, h.finished]
  exact iff_of_false hlive hp

/-- Thread `t` joins a queue. -/
theorem Seen.push
    (h : Seen N phase made s) (hout : ∀ r, t ∉ s.queues r)
    (hbelongs : Belongs N (Function.update phase (.thread t) p) made t q)
    (hlive : phase (.thread t) ≠ .finished) (hp : p ≠ .finished) :
    Seen N (Function.update phase (.thread t) p) made (s.pushed t q) := by
  have hlog : ∀ u, Event.finished u ∈ (s.pushed t q).log ↔ Event.finished u ∈ s.log := by
    intro u
    exact (List.mem_cons.trans (or_iff_right (by simp)))
  apply h.step
  case hothers =>
      intro r u _ hu hmem
      rw [pushed_queues] at hmem
      split at hmem
      case isTrue heq =>
          rw [heq]
          rcases List.mem_append.mp hmem with hold | hnew
          · exact hold
          · exact absurd (List.mem_singleton.mp hnew) hu
      case isFalse => exact hmem
  case hplaced =>
      intro r _ hmem
      rw [pushed_queues] at hmem
      split at hmem
      case isTrue heq =>
          rw [heq]
          exact hbelongs
      case isFalse => exact absurd hmem (hout r)
  case hnodup =>
      intro r hr
      rw [pushed_queues]
      split
      case isTrue heq =>
          rw [← heq]
          refine List.nodup_append.mpr ⟨h.nodup r hr, by simp, ?_⟩
          intro u hu v hv heq
          rw [List.mem_singleton.mp hv] at heq
          rw [heq] at hu
          exact hout r hu
      case isFalse => exact h.nodup r hr
  case hholder => exact fun u hu => .inl hu
  case hrest => exact fun u _ => hlog u
  case hself => exact h.live (hlog t) hlive hp

/-- An event is noted, and nothing else is done. -/
structure Noted (event : Event) (s s' : State) : Prop where
  log : s'.log = event :: s.log
  queues : s'.queues = s.queues
  created : s'.created = s.created

theorem noted_note (event : Event) : Noted event s (s.note event) :=
  ⟨rfl, rfl, rfl⟩

theorem Noted.finished_iff
    {event : Event} (h : Noted event s s') (hne : Event.finished t ≠ event) :
    Event.finished t ∈ s'.log ↔ Event.finished t ∈ s.log := by
  rw [h.log, List.mem_cons, or_iff_right hne]

/-- Thread `t` notes an event. -/
theorem Seen.note
    {event : Event} (h : Seen N phase made s) (hnoted : Noted event s s')
    (hplaced : ∀ r, r ≠ .ready → t ∈ s.queues r →
      Belongs N (Function.update phase (.thread t) p) made t r)
    (hholder : ∀ u, Holds u N.mutex s'.log → Holds u N.mutex s.log ∨ ∃ i, N.thread i = u)
    (hrest : ∀ u, u ≠ t → event ≠ .finished u)
    (hself : Event.finished t ∈ s'.log ↔ p = .finished) :
    Seen N (Function.update phase (.thread t) p) made s' := by
  apply h.step _ _ _ hholder _ hself
  · intro r u _ _ hmem
    rwa [hnoted.queues] at hmem
  · rw [hnoted.queues]
    exact hplaced
  · rw [hnoted.queues]
    exact h.nodup
  · intro u hu
    exact hnoted.finished_iff (hrest u hu).symm

/-- Queues become shorter. -/
theorem Seen.shorten
    {events : List Event} (h : Seen N phase made s)
    (hsublist : ∀ r, r ≠ .ready → (s'.queues r).Sublist (s.queues r))
    (hlog : s'.log = events ++ s.log) (hmoves : ∀ event ∈ events, event.Moves)
    (hplaced : ∀ r, r ≠ .ready → t ∈ s.queues r →
      Belongs N (Function.update phase (.thread t) p) made t r)
    (hlive : phase (.thread t) ≠ .finished) (hp : p ≠ .finished) :
    Seen N (Function.update phase (.thread t) p) made s' := by
  have hfinished : ∀ u, Event.finished u ∈ s'.log ↔ Event.finished u ∈ s.log := by
    intro u
    rw [hlog, finished_moves hmoves]
  apply h.step
  case hothers => exact fun r u hr _ hmem => (hsublist r hr).subset hmem
  case hplaced => exact fun r hr hmem => hplaced r hr ((hsublist r hr).subset hmem)
  case hnodup => exact fun r hr => (h.nodup r hr).sublist (hsublist r hr)
  case hholder =>
      intro u hu
      rw [hlog, holds_moves hmoves] at hu
      exact .inl hu
  case hrest => exact fun u _ => hfinished u
  case hself => exact h.live (hfinished t) hlive hp

/-- The main thread is in the queues of those that it joins only. -/
theorem Seen.main
    {phase' : ContextRef → Phase κ} (h : Seen N phase made s) (hq : q ≠ .ready)
    (hmem : 0 ∈ s.queues q) : Belongs N phase' made 0 q := by
  rcases h.placed q 0 hq hmem with ⟨⟨i, hzero⟩, _⟩ | hmain
  · exact absurd hzero (N.thread_ne_zero i)
  · exact .inr hmain

theorem Seen.succ (h : Seen N phase made s) : Seen N phase (made + 1) s := by
  refine ⟨fun q u hq hmem => ?_, h.nodup, h.holder, h.finished⟩
  rcases h.placed q u hq hmem with hclient | ⟨hmain, hjoin, hmade⟩
  · exact .inl hclient
  · exact .inr ⟨hmain, hjoin, Nat.lt_succ_of_lt hmade⟩

/-! ## How many threads there are -/

section Started

variable {created : ℕ} {host main : Phase κ}

theorem Started.boot (h : Started total made created .booting main) :
    Started total made (created + 1) .hosting main := by
  obtain hhost | ⟨_, rfl, rfl, rfl⟩ := h.booted
  · cases hhost
  · exact ⟨.inl rfl, fun _ => .inl ⟨rfl, by simp⟩⟩

/-- The main thread runs only after it has been created. -/
theorem Started.hosting (h : Started total made created host main) (hmain : main ≠ .idle) :
    host = .hosting := by
  obtain hhost | ⟨_, _, _, hidle⟩ := h.booted
  · exact hhost
  · exact absurd hidle hmain

theorem Started.create (h : Started total made created host .creating) :
    Started total made (created + 1) host .idle := by
  have hhost := h.hosting (by simp)
  refine ⟨.inl hhost, fun _ => .inl ⟨rfl, ?_⟩⟩
  obtain ⟨hmain, _⟩ | ⟨_, hcreated, _, hmade⟩ | ⟨hwaits, _⟩ := h.progress hhost
  · cases hmain
  · rw [hcreated, Nat.min_eq_left hmade]
  · exact hwaits.elim

theorem Started.waits
    (h : Started total made created host main) (hidle : main ≠ .idle)
    (hcreating : main ≠ .creating) : main.Waits ∧ created = total + 1 ∧ total < made := by
  obtain ⟨hmain, _⟩ | ⟨hmain, _⟩ | hwaits := h.progress (h.hosting hidle)
  · exact absurd hmain hidle
  · exact absurd hmain hcreating
  · exact hwaits

theorem Started.join (h : Started total made created host (.joining t)) :
    Started total made created host .idle ∧ 0 < t ∧ total < made := by
  have hhost := h.hosting (by simp)
  obtain ⟨hpos, hcreated, hmade⟩ := h.waits (by simp) (by simp)
  refine ⟨⟨.inl hhost, fun _ => .inl ⟨rfl, ?_⟩⟩, hpos, hmade⟩
  rw [hcreated, Nat.min_eq_right (Nat.le_of_lt hmade)]

theorem Started.finish (h : Started total made created host .exiting) :
    Started total made created host .finished := by
  have hhost := h.hosting (by simp)
  obtain ⟨_, hcreated⟩ := h.waits (by simp) (by simp)
  exact ⟨.inl hhost, fun _ => .inr (.inr ⟨trivial, hcreated⟩)⟩

/-- The main thread makes its next call. -/
theorem Started.call
    (h : Started total made created host main) (hhost : host = .hosting)
    (hmain : main = .idle ∨ ∃ t, main = .joining t) :
    created = min made total + 1 ∧
      Started total (made + 1) created host (mainPhase total made) := by
  have hcreated : created = min made total + 1 := by
    obtain ⟨_, hcreated⟩ | ⟨hcreating, _⟩ | ⟨_, hcreated, hmade⟩ := h.progress hhost
    · exact hcreated
    · rcases hmain with rfl | ⟨t, rfl⟩ <;> cases hcreating
    · rw [hcreated, Nat.min_eq_right (Nat.le_of_lt hmade)]
  refine ⟨hcreated, .inl hhost, fun _ => ?_⟩
  unfold mainPhase
  split
  case isTrue hlt => exact .inr (.inl ⟨rfl, by omega, by omega, by omega⟩)
  case isFalse hle =>
      refine .inr (.inr ⟨?_, by omega, by omega⟩)
      split
      · exact Nat.succ_pos _
      · trivial

end Started

/-! ## All that is known of a state -/

/-- The program and the monitor agree on this state. -/
structure Sees (N : Numbering ι κ total) (M : Monitor ι κ σ Loc)
    (phase : ContextRef → Phase κ) (made : ℕ) (loc : ∀ i, Loc i) (s : State)
    (m : MonitorState ι κ σ Loc) : Prop where
  seen : Seen N phase made s
  started : Started total made s.created (phase .host) (phase (.thread 0))
  handing : Handing N.mutex s
  stages : Matches N M phase loc s m

/-- They agree after at most one step of the monitor. -/
def Reached [DecidableEq ι] [DecidableEq κ] (N : Numbering ι κ total)
    (M : Monitor ι κ σ Loc) (phase : ContextRef → Phase κ) (made : ℕ) (loc : ∀ i, Loc i)
    (s : State) (m : MonitorState ι κ σ Loc) : Prop :=
  ∃ m', (m' = m ∨ ∃ i, M.Step m i m') ∧ m'.shared = m.shared ∧
    Sees N M phase made loc s m'

theorem Sees.reached
    [DecidableEq ι] [DecidableEq κ] (h : Sees N M phase made loc s m) :
    Reached N M phase made loc s m :=
  ⟨m, .inl rfl, rfl, h⟩

theorem Tracked.reached
    [DecidableEq ι] [DecidableEq κ] (h : Tracked N M phase loc s m)
    (hseen : Seen N phase made s)
    (hstarted : Started total made s.created (phase .host) (phase (.thread 0)))
    (hhanding : Handing N.mutex s) : Reached N M phase made loc s m := by
  obtain ⟨m', hstep, hshared, hmatches⟩ := h
  exact ⟨m', hstep, hshared, hseen, hstarted, hhanding, hmatches⟩

/-- A thread of the monitor is neither the host nor the main thread. -/
theorem Started.client
    {created : ℕ} (h : Started total made created (phase .host) (phase (.thread 0))) (i : ι) :
    Started total made created
      (Function.update phase (.thread (N.thread i)) p .host)
      (Function.update phase (.thread (N.thread i)) p (.thread 0)) := by
  rw [update_host, update_thread (N.thread_ne_zero i).symm]
  exact h

theorem Sees.out
    (h : Sees N M phase made loc s m)
    (hfits : ∀ q, ¬(phase (.thread (N.thread i))).Fits N q) :
    ∀ r, r ≠ .ready → N.thread i ∉ s.queues r := by
  intro r hr hmem
  rcases h.seen.placed r _ hr hmem with ⟨_, hfit⟩ | ⟨hzero, _⟩
  · exact hfits r hfit
  · exact N.thread_ne_zero i hzero

end Threads
end Eecs482
