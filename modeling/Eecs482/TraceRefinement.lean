import Mathlib.Logic.Basic
import Mathlib.Tactic.Common

/-!
# Labelled transition systems and refinement of traces

A system moves from state to state and shows an event at each step.  An
invariant is proved for one step and holds after every run.  A simulation
matches each step of one system by a step of another which shows the same
event, so every trace of the first is a trace of the second.
-/

namespace Eecs482

/-- What each step of a computed run keeps, the run keeps. -/
theorem keeps_of_foldlM
    {σ α : Type*} {exec : σ → α → Option σ} {P : σ → Prop} {s t : σ} {moves : List α}
    (hkeeps : ∀ s move t, exec s move = some t → P s → P t)
    (hrun : moves.foldlM exec s = some t) (hs : P s) : P t := by
  induction moves generalizing s with
  | nil =>
      cases hrun
      exact hs
  | cons move moves ih =>
      rw [List.foldlM_cons] at hrun
      obtain ⟨u, hexec, hrest⟩ := Option.bind_eq_some_iff.mp hrun
      exact ih hrest (hkeeps s move u hexec hs)

/-- A transition relation whose steps show events of type `ε`. -/
structure EventSystem (σ ε : Type*) where
  Step : σ → ε → σ → Prop

namespace EventSystem

variable {σ τ ε : Type*}

/-- The runs of a system, each with the events it shows, oldest first. -/
inductive Run (system : EventSystem σ ε) (start : σ) : List ε → σ → Prop
  | nil : Run system start [] start
  | snoc {trace : List ε} {s t : σ} {event : ε} :
      Run system start trace s → system.Step s event t →
      Run system start (trace ++ [event]) t

/-- `s` occurs in some run from `start`. -/
def Reachable (system : EventSystem σ ε) (start s : σ) : Prop :=
  ∃ trace, system.Run start trace s

variable {system : EventSystem σ ε} {start s t : σ} {trace : List ε}

theorem Reachable.refl : system.Reachable start start :=
  ⟨[], .nil⟩

theorem Reachable.step
    {event : ε} (hreach : system.Reachable start s)
    (hstep : system.Step s event t) : system.Reachable start t := by
  obtain ⟨trace, hrun⟩ := hreach
  exact ⟨trace ++ [event], hrun.snoc hstep⟩

/-- What holds at the start and is kept by every step holds after every run. -/
theorem Run.invariant
    (Inv : σ → Prop) (hstart : Inv start)
    (hkeeps : ∀ s event t, Inv s → system.Step s event t → Inv t)
    (hrun : system.Run start trace s) : Inv s := by
  induction hrun with
  | nil => exact hstart
  | snoc _ hstep ih => exact hkeeps _ _ _ ih hstep

theorem Reachable.invariant
    (Inv : σ → Prop) (hstart : Inv start)
    (hkeeps : ∀ s event t, Inv s → system.Step s event t → Inv t)
    (hreach : system.Reachable start s) : Inv s := by
  obtain ⟨trace, hrun⟩ := hreach
  exact hrun.invariant Inv hstart hkeeps

theorem Reachable.trans
    (hreach : system.Reachable start s) (hrun : system.Reachable s t) :
    system.Reachable start t :=
  hrun.invariant (system.Reachable start) hreach fun _ _ _ h hstep => h.step hstep

/-- A quantity which only the events of `p` raise, by one each, is bounded by their
number. -/
theorem Run.le_add_countP
    (Inv : σ → Prop) {quantity : σ → ℕ} {p : ε → Bool} (hstart : Inv start)
    (hkeeps : ∀ s event t, Inv s → system.Step s event t → Inv t)
    (hraises : ∀ s event t, Inv s → system.Step s event t →
      quantity t ≤ quantity s + if p event then 1 else 0)
    (hrun : system.Run start trace s) :
    quantity s ≤ quantity start + trace.countP p := by
  induction hrun with
  | nil => simp
  | @snoc trace s t event hrun hstep ih =>
      have hraise := hraises _ _ _ (hrun.invariant Inv hstart hkeeps) hstep
      rw [List.countP_append, List.countP_singleton]
      omega

/-- When every step lowers a rank, some run gets stuck. -/
theorem Reachable.exists_stuck
    (rank : σ → ℕ)
    (hlowers : ∀ s event t, system.Reachable start s → system.Step s event t →
      rank t < rank s)
    (hreach : system.Reachable start s) :
    ∃ t, system.Reachable start t ∧ ∀ event u, ¬system.Step t event u := by
  induction hrank : rank s using Nat.strongRecOn generalizing s with
  | _ bound ih =>
      by_cases hstep : ∃ event t, system.Step s event t
      · obtain ⟨event, t, hstep⟩ := hstep
        have hlower := hlowers s event t hreach hstep
        exact ih (rank t) (hrank ▸ hlower) (hreach.step hstep) rfl
      · exact ⟨s, hreach, fun event t h => hstep ⟨event, t, h⟩⟩

/-- When every step lowers a rank, no run is longer than the rank it starts with. -/
theorem Run.length_le
    (rank : σ → ℕ)
    (hlowers : ∀ s event t, system.Reachable start s → system.Step s event t →
      rank t < rank s)
    (hrun : system.Run start trace s) : trace.length ≤ rank start := by
  suffices h : trace.length + rank s ≤ rank start from
    Nat.le_trans (Nat.le_add_right _ _) h
  induction hrun with
  | nil => simp
  | snoc hrun hstep ih =>
      have hlower := hlowers _ _ _ ⟨_, hrun⟩ hstep
      rw [List.length_append, List.length_singleton]
      omega

/-- Where the length of the runs is bounded, some run gets stuck. -/
theorem exists_stuck_of_length_le
    {bound : ℕ} (hbound : ∀ trace s, system.Run start trace s → trace.length ≤ bound) :
    ∃ t, system.Reachable start t ∧ ∀ event u, ¬system.Step t event u := by
  suffices h : ∀ left trace s, system.Run start trace s → bound ≤ trace.length + left →
      ∃ t, system.Reachable start t ∧ ∀ event u, ¬system.Step t event u from
    h bound [] start .nil (Nat.le_add_left _ _)
  intro left
  induction left with
  | zero =>
      intro trace s hrun hlong
      refine ⟨s, ⟨trace, hrun⟩, fun event u hstep => ?_⟩
      have hle := hbound _ _ (hrun.snoc hstep)
      rw [List.length_append, List.length_singleton] at hle
      omega
  | succ left ih =>
      intro trace s hrun hlong
      by_cases hstep : ∃ event t, system.Step s event t
      · obtain ⟨event, t, hstep⟩ := hstep
        refine ih _ t (hrun.snoc hstep) ?_
        rw [List.length_append, List.length_singleton]
        omega
      · exact ⟨s, ⟨trace, hrun⟩, fun event u h => hstep ⟨event, u, h⟩⟩

/-- The steps of `system` that `Allowed` lets pass where they are taken. -/
def restrict (system : EventSystem σ ε) (Allowed : σ → ε → Prop) :
    EventSystem σ ε where
  Step s event t := system.Step s event t ∧ Allowed s event

/-- A quantity that only disallowed steps lower is still `total` exactly after
the runs without such steps. -/
theorem Run.restrict_iff
    {Allowed : σ → ε → Prop} {quantity : σ → ℕ} {total : ℕ}
    (hstart : quantity start = total)
    (hkeeps : ∀ s event t, system.Reachable start s → system.Step s event t →
      quantity t ≤ quantity s ∧ (quantity t = quantity s ↔ Allowed s event))
    (hrun : system.Run start trace s) :
    quantity s = total ↔ (system.restrict Allowed).Run start trace s := by
  have hbound : ∀ {trace s}, system.Run start trace s → quantity s ≤ total := by
    intro trace s hrun
    induction hrun with
    | nil => exact Nat.le_of_eq hstart
    | snoc hrun hstep ih =>
        exact Nat.le_trans (hkeeps _ _ _ ⟨_, hrun⟩ hstep).1 ih
  constructor
  · intro htotal
    induction hrun with
    | nil => exact .nil
    | snoc hrun hstep ih =>
        obtain ⟨hle, hallowed⟩ := hkeeps _ _ _ ⟨_, hrun⟩ hstep
        have hbefore := hbound hrun
        exact (ih (by omega)).snoc ⟨hstep, hallowed.mp (by omega)⟩
  · intro hrestrict
    clear hrun
    suffices h : system.Run start trace s ∧ quantity s = total from h.2
    induction hrestrict with
    | nil => exact ⟨.nil, hstart⟩
    | snoc _ hstep ih =>
        obtain ⟨hrun, htotal⟩ := ih
        refine ⟨hrun.snoc hstep.1, ?_⟩
        exact ((hkeeps _ _ _ ⟨_, hrun⟩ hstep.1).2.mpr hstep.2).trans htotal

/-- Every step of `system` from a related pair of states is matched by a step
of `spec` which shows the same event and relates the states again. -/
def Simulates
    (system : EventSystem σ ε) (spec : EventSystem τ ε) (Rel : σ → τ → Prop) :
    Prop :=
  ∀ s event t abstract, Rel s abstract → system.Step s event t →
    ∃ abstract', spec.Step abstract event abstract' ∧ Rel t abstract'

/-- A simulation carries every run over, with the same trace. -/
theorem Simulates.run
    {spec : EventSystem τ ε} {Rel : σ → τ → Prop} {abstract : τ}
    (hsim : system.Simulates spec Rel) (hstart : Rel start abstract)
    (hrun : system.Run start trace s) :
    ∃ abstract', spec.Run abstract trace abstract' ∧ Rel s abstract' := by
  induction hrun with
  | nil => exact ⟨abstract, .nil, hstart⟩
  | snoc _ hstep ih =>
      obtain ⟨middle, hmiddle, hrel⟩ := ih
      obtain ⟨last, hlast, hrel'⟩ := hsim _ _ _ middle hrel hstep
      exact ⟨last, hmiddle.snoc hlast, hrel'⟩

/-- Every step of `system` from a related pair of states is matched by a step of
`spec`, or by none, and relates the states again. -/
def StutterSimulates
    {ε' : Type*} (system : EventSystem σ ε) (spec : EventSystem τ ε')
    (Rel : σ → τ → Prop) : Prop :=
  ∀ s event t abstract, Rel s abstract → system.Step s event t →
    ∃ abstract', (abstract' = abstract ∨ ∃ event', spec.Step abstract event' abstract') ∧
      Rel t abstract'

/-- A simulation with stutters carries reachable states over. -/
theorem StutterSimulates.reachable
    {ε' : Type*} {spec : EventSystem τ ε'} {Rel : σ → τ → Prop} {abstract : τ}
    (hsim : system.StutterSimulates spec Rel) (hstart : Rel start abstract)
    (hreach : system.Reachable start s) :
    ∃ abstract', spec.Reachable abstract abstract' ∧ Rel s abstract' := by
  obtain ⟨trace, hrun⟩ := hreach
  induction hrun with
  | nil => exact ⟨abstract, .refl, hstart⟩
  | snoc _ hstep ih =>
      obtain ⟨middle, hmiddle, hrel⟩ := ih
      obtain ⟨last, rfl | ⟨event', hlast⟩, hrel'⟩ := hsim _ _ _ middle hrel hstep
      · exact ⟨last, hmiddle, hrel'⟩
      · exact ⟨last, hmiddle.step hlast, hrel'⟩

end EventSystem
end Eecs482
