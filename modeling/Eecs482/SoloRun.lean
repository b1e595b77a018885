import Eecs482.RelyGuarantee

/-!
# One thread running without interruption

`alone` executes the operations of one program one after the other.  `Ends` is
the total correctness predicate for it: the run gets through and its result
satisfies the postcondition.  A run alone is one of the interleavings of the
machine, so what holds of all of them holds of it.
-/

namespace Eecs482
namespace Machine

variable {I : Interface} {σ : Type} (M : Machine I σ) {α β : Type}

/-- Execute a program of thread `i` from shared state `s`, with nobody else
running; `none` when an operation cannot proceed. -/
def alone (i : ℕ) : Prog I α → σ → Option (α × σ)
  | .ret value, s => some (value, s)
  | .call op next, s =>
      (M.exec i op s).bind fun result => alone i (next result.1) result.2

/-- The program runs through and ends as `Post` says. -/
def Ends (i : ℕ) (program : Prog I α) (s : σ) (Post : α → σ → Prop) : Prop :=
  ∃ value t, M.alone i program s = some (value, t) ∧ Post value t

variable {M} {i : ℕ} {s t : σ} {Post : α → σ → Prop}

theorem Ends.ret {value : α} (h : Post value s) :
    M.Ends i (.ret value) s Post :=
  ⟨value, s, rfl, h⟩

theorem Ends.call
    {op : I.Op} {next : I.Answer op → Prog I α} {answer : I.Answer op}
    (hexec : M.exec i op s = some (answer, t))
    (hnext : M.Ends i (next answer) t Post) :
    M.Ends i (.call op next) s Post := by
  obtain ⟨value, u, hrun, hpost⟩ := hnext
  refine ⟨value, u, ?_, hpost⟩
  rw [alone, hexec]
  exact hrun

theorem Ends.imp
    {Post' : α → σ → Prop} {program : Prog I α}
    (h : M.Ends i program s Post)
    (himp : ∀ value t, Post value t → Post' value t) :
    M.Ends i program s Post' := by
  obtain ⟨value, t, hrun, hpost⟩ := h
  exact ⟨value, t, hrun, himp value t hpost⟩

/-- There is only one way to run alone. -/
theorem Ends.post
    {program : Prog I α} (h : M.Ends i program s Post) {value : α}
    (hrun : M.alone i program s = some (value, t)) : Post value t := by
  obtain ⟨value', t', hrun', hpost⟩ := h
  rw [hrun, Option.some.injEq, Prod.mk.injEq] at hrun'
  obtain ⟨rfl, rfl⟩ := hrun'
  exact hpost

/-! ## The operations of a run -/

variable (M) in
/-- The operations that a run alone executes, in order. -/
def trace (i : ℕ) : Prog I α → σ → List I.Op
  | .ret _, _ => []
  | .call op next, s =>
      op :: match M.exec i op s with
        | none => []
        | some (answer, t) => trace i (next answer) t

/-- A run alone is one operation followed by a run alone. -/
theorem alone_call
    {op : I.Op} {next : I.Answer op → Prog I α} {value : α}
    (hrun : M.alone i (.call op next) s = some (value, t)) :
    ∃ answer u, M.exec i op s = some (answer, u) ∧
      M.alone i (next answer) u = some (value, t) ∧
      M.trace i (.call op next) s = op :: M.trace i (next answer) u := by
  obtain ⟨⟨answer, u⟩, hexec, hrest⟩ := Option.bind_eq_some_iff.mp hrun
  refine ⟨answer, u, hexec, hrest, ?_⟩
  rw [trace, hexec]

theorem alone_returns
    {Q : α → Prop} {program : Prog I α} (hreturns : program.Returns Q) {value : α}
    (hrun : M.alone i program s = some (value, t)) : Q value := by
  induction program generalizing s with
  | ret value' =>
      simp only [alone, Option.some.injEq, Prod.mk.injEq] at hrun
      exact hrun.1 ▸ hreturns
  | call op next ih =>
      obtain ⟨answer, u, _, hrest, _⟩ := alone_call hrun
      exact ih answer (hreturns answer) hrest

theorem trace_of_calls
    {P : I.Op → Prop} {program : Prog I α} (hcalls : program.Calls P) {value : α}
    (hrun : M.alone i program s = some (value, t)) :
    ∀ op ∈ M.trace i program s, P op := by
  induction program generalizing s with
  | ret value' =>
      intro op hop
      cases hop
  | call op next ih =>
      obtain ⟨answer, u, _, hrest, htrace⟩ := alone_call hrun
      intro op' hop'
      rw [htrace] at hop'
      rcases List.mem_cons.mp hop' with rfl | hop'
      · exact hcalls.1
      · exact ih answer (hcalls.2 answer) hrest op' hop'

/-- What no operation of the run changes is unchanged at the end. -/
theorem trace_keeps
    {P : I.Op → Prop} {γ : Type} (view : σ → γ)
    (hkeeps : ∀ op, P op → ∀ s answer t,
      M.exec i op s = some (answer, t) → view t = view s)
    {program : Prog I α} {value : α}
    (hrun : M.alone i program s = some (value, t))
    (htrace : ∀ op ∈ M.trace i program s, P op) : view t = view s := by
  induction program generalizing s with
  | ret value' =>
      simp only [alone, Option.some.injEq, Prod.mk.injEq] at hrun
      rw [hrun.2]
  | call op next ih =>
      obtain ⟨answer, u, hexec, hrest, hsplit⟩ := alone_call hrun
      rw [hsplit] at htrace
      exact (ih answer hrest fun op' hop' =>
        htrace op' (List.mem_cons_of_mem op hop')).trans
          (hkeeps op (htrace op List.mem_cons_self) s answer u hexec)

/-- What no call of the program changes is unchanged at the end. -/
theorem alone_keeps
    {P : I.Op → Prop} {γ : Type} (view : σ → γ)
    (hkeeps : ∀ op, P op → ∀ s answer t,
      M.exec i op s = some (answer, t) → view t = view s)
    {program : Prog I α} (hcalls : program.Calls P) {value : α}
    (hrun : M.alone i program s = some (value, t)) : view t = view s :=
  trace_keeps view hkeeps hrun (trace_of_calls hcalls hrun)

/-- What an operation of the run brings about and all keep holds at the end. -/
theorem trace_marks
    {R : I.Op → Prop} {Q : σ → Prop}
    (hmark : ∀ op s answer t, M.exec i op s = some (answer, t) →
      R op ∨ Q s → Q t)
    {program : Prog I α} {value : α}
    (hrun : M.alone i program s = some (value, t))
    (htrace : (∃ op ∈ M.trace i program s, R op) ∨ Q s) : Q t := by
  induction program generalizing s with
  | ret value' =>
      simp only [alone, Option.some.injEq, Prod.mk.injEq] at hrun
      rw [← hrun.2]
      apply htrace.resolve_left
      rintro ⟨op, hop, _⟩
      cases hop
  | call op next ih =>
      obtain ⟨answer, u, hexec, hrest, hsplit⟩ := alone_call hrun
      apply ih answer hrest
      rcases htrace with ⟨op', hop', hR⟩ | hQ
      · rw [hsplit] at hop'
        rcases List.mem_cons.mp hop' with rfl | hop'
        · exact Or.inr (hmark op' s answer u hexec (Or.inl hR))
        · exact Or.inl ⟨op', hop', hR⟩
      · exact Or.inr (hmark op s answer u hexec (Or.inr hQ))

theorem trace_surely
    {R : I.Op → Prop} {program : Prog I α} (hsurely : program.Surely R) {value : α}
    (hrun : M.alone i program s = some (value, t)) :
    ∃ op ∈ M.trace i program s, R op := by
  induction program generalizing s with
  | ret value' => exact hsurely.elim
  | call op next ih =>
      obtain ⟨answer, u, _, hrest, hsplit⟩ := alone_call hrun
      rw [hsplit]
      rcases hsurely with hop | hnext
      · exact ⟨op, List.mem_cons_self, hop⟩
      · obtain ⟨op', hop', hR⟩ := ih answer (hnext answer) hrest
        exact ⟨op', List.mem_cons_of_mem op hop', hR⟩

theorem trace_covered
    {W R : I.Op → Prop} {program : Prog I α} (hcovered : program.Covered W R)
    {value : α} (hrun : M.alone i program s = some (value, t))
    (hW : ∃ op ∈ M.trace i program s, W op) :
    ∃ op ∈ M.trace i program s, R op := by
  induction program generalizing s with
  | ret value' =>
      obtain ⟨op, hop, _⟩ := hW
      cases hop
  | call op next ih =>
      obtain ⟨answer, u, _, hrest, hsplit⟩ := alone_call hrun
      rw [hsplit] at hW ⊢
      have hlater : ∃ op' ∈ M.trace i (next answer) u, R op' := by
        obtain ⟨op', hop', hW⟩ := hW
        rcases List.mem_cons.mp hop' with rfl | hop'
        · exact trace_surely (hcovered.1 hW answer) hrest
        · exact ih answer (hcovered.2 answer) hrest ⟨op', hop', hW⟩
      obtain ⟨op', hop', hR⟩ := hlater
      exact ⟨op', List.mem_cons_of_mem op hop', hR⟩

/-- Where every operation accounts for what it takes and gives back, so does the
run. -/
theorem trace_balance
    {held : σ → ℕ} {takes gives : I.Op → Bool}
    (hexec : ∀ op s answer t, M.exec i op s = some (answer, t) →
      held t + (gives op).toNat = held s + (takes op).toNat)
    {program : Prog I α} {value : α}
    (hrun : M.alone i program s = some (value, t)) :
    held t + (M.trace i program s).countP gives =
      held s + (M.trace i program s).countP takes := by
  induction program generalizing s with
  | ret value' =>
      simp only [alone, Option.some.injEq, Prod.mk.injEq] at hrun
      rw [hrun.2]
      rfl
  | call op next ih =>
      obtain ⟨answer, u, hstep, hrest, hsplit⟩ := alone_call hrun
      have hhere := hexec op s answer u hstep
      have hlater := ih answer hrest
      have hcount : ∀ f : I.Op → Bool,
          (op :: M.trace i (next answer) u).countP f =
            (M.trace i (next answer) u).countP f + (f op).toNat := by
        intro f
        rw [List.countP_cons]
        cases f op <;> rfl
      rw [hsplit, hcount, hcount]
      omega

/-- A run alone is a run of the machine. -/
theorem Reachable.alone
    {initial : σ} {thread : ℕ → Option (Prog I Unit)} {program : Prog I Unit}
    (hreach : M.Reachable initial ⟨s, thread⟩)
    (hthread : thread i = some program)
    (hrun : M.alone i program s = some ((), t)) :
    M.Reachable initial ⟨t, Function.update thread i (some (.ret ()))⟩ := by
  induction program generalizing s thread with
  | ret value =>
      obtain rfl : s = t := by simpa [Machine.alone] using hrun
      rw [show Prog.ret value = Prog.ret () from rfl] at hthread
      rw [← hthread, Function.update_eq_self]
      exact hreach
  | call op next ih =>
      obtain ⟨⟨answer, u⟩, hexec, hrest⟩ := Option.bind_eq_some_iff.mp hrun
      have hstep := hreach.step (.exec i op next answer u hthread hexec)
      have hend := ih answer hstep (Function.update_self _ _ _) hrest
      rwa [Function.update_idem] at hend

/-- Where thread `i` can always go on as long as only it moves, its run gets
through. -/
theorem Reachable.exists_alone
    {initial : σ} {thread : ℕ → Option (Prog I Unit)} {program : Prog I Unit}
    (hprogress : ∀ c, M.Reachable initial c →
      (∀ j, j ≠ i → c.thread j = thread j) →
      ∀ op next, c.thread i = some (.call op next) →
        (M.exec i op c.shared).isSome)
    (hreach : M.Reachable initial ⟨s, thread⟩)
    (hthread : thread i = some program) :
    ∃ t, M.alone i program s = some ((), t) := by
  induction program generalizing s thread with
  | ret value => exact ⟨s, rfl⟩
  | call op next ih =>
      have hsome := hprogress _ hreach (fun _ _ => rfl) op next hthread
      obtain ⟨⟨answer, u⟩, hexec⟩ := Option.isSome_iff_exists.mp hsome
      have hstep := hreach.step (.exec i op next answer u hthread hexec)
      obtain ⟨t, ht⟩ := ih answer (fun c hc hsame => hprogress c hc fun j hj => by
        rw [hsame j hj, Function.update_of_ne hj]) hstep
        (Function.update_self _ _ _)
      exact ⟨t, by rw [Machine.alone, hexec]; exact ht⟩

end Machine
end Eecs482
