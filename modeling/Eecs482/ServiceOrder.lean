import Eecs482.TraceRefinement
import Mathlib.Data.List.Basic

/-!
# Service in order of arrival

Those who wait are served from the front of a queue, and newcomers join it at
the end.  Somebody may be served without waiting while nobody waits.
-/

namespace Eecs482

variable {α : Type*} {waiting served waiting' : List α}

/-- While those in `served` are served in this order, `waiting` becomes
`waiting'`.  Whoever waits at first is then still behind what is left of those
ahead of him, or exactly those ahead of him have been served before him. -/
def InTurn (waiting served waiting' : List α) : Prop :=
  ∀ before t after, waiting = before ++ t :: after →
    (∃ rest after', before = served ++ rest ∧ waiting' = rest ++ t :: after') ∨
      ∃ later, served = before ++ t :: later

namespace InTurn

/-- Newcomers join the queue. -/
theorem join (joined : List α) : InTurn waiting [] (waiting ++ joined) := by
  intro before t after hsplit
  left
  refine ⟨before, after ++ joined, rfl, ?_⟩
  rw [hsplit, List.append_assoc, List.cons_append]

theorem refl : InTurn waiting [] waiting := by
  intro before t after hsplit
  left
  exact ⟨before, after, rfl, hsplit⟩

/-- The first of the queue are served. -/
theorem serve (served : List α) : InTurn (served ++ waiting) served waiting := by
  intro before t after hsplit
  rcases List.append_eq_append_iff.mp hsplit with
    ⟨rest, hbefore, hwaiting⟩ | ⟨later, hserved, hlater⟩
  · left
    exact ⟨rest, after, hbefore, hwaiting⟩
  · cases later with
    | nil =>
        left
        rw [List.append_nil] at hserved
        rw [List.nil_append] at hlater
        exact ⟨[], after, by rw [hserved, List.append_nil], hlater.symm⟩
    | cons u later =>
        right
        rw [List.cons_append, List.cons.injEq] at hlater
        exact ⟨later, by rw [hserved, hlater.1]⟩

/-- Nobody waits. -/
theorem nobody : InTurn [] served waiting' := by
  intro before t after hsplit
  cases before <;> cases hsplit

theorem trans
    {served' waiting'' : List α} (h : InTurn waiting served waiting')
    (h' : InTurn waiting' served' waiting'') :
    InTurn waiting (served ++ served') waiting'' := by
  intro before t after hsplit
  rcases h before t after hsplit with ⟨rest, after', hbefore, hwaiting⟩ | ⟨later, hserved⟩
  · rcases h' rest t after' hwaiting with
      ⟨rest', after'', hrest, hwaiting'⟩ | ⟨later, hserved'⟩
    · left
      refine ⟨rest', after'', ?_, hwaiting'⟩
      rw [hbefore, hrest, List.append_assoc]
    · right
      refine ⟨later, ?_⟩
      rw [hserved', hbefore, List.append_assoc]
  · right
    refine ⟨later ++ served', ?_⟩
    rw [hserved, List.append_assoc, List.cons_append]

end InTurn

/-- When every step serves in turn, so does every run. -/
theorem EventSystem.Reachable.inTurn
    {σ ε : Type*} {system : EventSystem σ ε} {start s t : σ} (waits serves : σ → List α)
    (hsteps : ∀ s event t, system.Reachable start s → system.Step s event t →
      ∃ served, serves t = serves s ++ served ∧ InTurn (waits s) served (waits t))
    (hreach : system.Reachable start s) (hrun : system.Reachable s t) :
    ∃ served, serves t = serves s ++ served ∧ InTurn (waits s) served (waits t) := by
  have hboth := hrun.invariant
    (fun t => system.Reachable start t ∧
      ∃ served, serves t = serves s ++ served ∧ InTurn (waits s) served (waits t))
    ⟨hreach, [], (List.append_nil _).symm, .refl⟩ ?_
  · exact hboth.2
  · intro u event v hu hstep
    obtain ⟨hu, served, hserved, hturn⟩ := hu
    obtain ⟨served', hserved', hturn'⟩ := hsteps u event v hu hstep
    refine ⟨hu.step hstep, served ++ served', ?_, hturn.trans hturn'⟩
    rw [hserved', hserved, List.append_assoc]

end Eecs482
