import Eecs482.Prog
import Eecs482.TraceRefinement

/-!
# How long programs and runs are

`AtMost` bounds the calls of a program, whatever the answers are.  A run is bounded by
what its steps can be paid with: each step costs one, and some events bring a bonus.
-/

namespace Eecs482

namespace Prog

variable {I : Interface} {α β : Type}

/-- The program makes at most so many calls. -/
def AtMost : Prog I α → ℕ → Prop
  | .ret _, _ => True
  | .call _ _, 0 => False
  | .call _ next, bound + 1 => ∀ answer, (next answer).AtMost bound

theorem AtMost.mono {program : Prog I α} {m n : ℕ} (h : program.AtMost m) (hle : m ≤ n) :
    program.AtMost n := by
  induction program generalizing m n with
  | ret value => trivial
  | call op next ih =>
      cases m with
      | zero => exact h.elim
      | succ m =>
          cases n with
          | zero => omega
          | succ n => exact fun answer => ih answer (h answer) (by omega)

/-- The calls of two programs, one after the other. -/
theorem AtMost.bind
    {program : Prog I α} {f : α → Prog I β} {m n : ℕ} (h : program.AtMost m)
    (hf : ∀ value, (f value).AtMost n) : (program >>= f).AtMost (m + n) := by
  induction program generalizing m with
  | ret value => exact (hf value).mono (Nat.le_add_left n m)
  | call op next ih =>
      cases m with
      | zero => exact h.elim
      | succ m =>
          rw [call_bind, Nat.succ_add]
          exact fun answer => ih answer (h answer)

theorem AtMost.pos {op : I.Op} {next : I.Answer op → Prog I α} {n : ℕ}
    (h : (Prog.call op next).AtMost n) : 0 < n := by
  cases n with
  | zero => exact h.elim
  | succ n => exact Nat.succ_pos n

theorem AtMost.next
    {op : I.Op} {next : I.Answer op → Prog I α} {n : ℕ} (h : (Prog.call op next).AtMost n)
    (answer : I.Answer op) : (next answer).AtMost (n - 1) := by
  cases n with
  | zero => exact h.elim
  | succ n => exact h answer

end Prog

namespace EventSystem

variable {σ ε : Type*} {system : EventSystem σ ε} {start s : σ} {trace : List ε}

/-- When each step is paid for, and the events of `p` bring a bonus, a run is no longer
than the credit at its start and the bonuses. -/
theorem Run.length_le_of_credit
    {Credit : σ → ℕ → Prop} {p : ε → Bool} {bonus credit : ℕ}
    (hpays : ∀ s event t k, Credit s k → system.Step s event t →
      ∃ k', Credit t k' ∧ k' + 1 ≤ k + if p event then bonus else 0)
    (hstart : Credit start credit) (hrun : system.Run start trace s) :
    trace.length ≤ credit + bonus * trace.countP p := by
  suffices h : ∃ k, Credit s k ∧ trace.length + k ≤ credit + bonus * trace.countP p by
    obtain ⟨k, _, hle⟩ := h
    omega
  induction hrun with
  | nil => exact ⟨credit, hstart, by simp⟩
  | @snoc trace s t event hrun hstep ih =>
      obtain ⟨k, hcredit, hle⟩ := ih
      obtain ⟨k', hcredit', hpaid⟩ := hpays s event t k hcredit hstep
      refine ⟨k', hcredit', ?_⟩
      rw [List.length_append, List.length_singleton, List.countP_append,
        List.countP_singleton, Nat.mul_add]
      have hbonus : (bonus * if p event = true then 1 else 0) =
          if p event = true then bonus else 0 := by
        split <;> simp
      omega

end EventSystem
end Eecs482
