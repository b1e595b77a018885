import Mathlib.Tactic.Common

/-!
# Programs over an interface of operations

A program is a tree of calls to the operations of an interface: each node names
one operation and continues with its answer.  The tree is what a thread still
has to do, so the same object serves as source text, as program counter and as
saved context.
-/

namespace Eecs482

/-- The operations a program may call, each with the type of its answer. -/
structure Interface where
  Op : Type
  Answer : Op → Type

/-- A terminating program which calls operations of `I` and returns an `α`. -/
inductive Prog (I : Interface) (α : Type) : Type
  | ret (value : α)
  | call (op : I.Op) (next : I.Answer op → Prog I α)

namespace Prog

variable {I : Interface} {α β γ : Type}

/-- One operation, returning its answer. -/
def perform (op : I.Op) : Prog I (I.Answer op) :=
  .call op .ret

protected def bind : Prog I α → (α → Prog I β) → Prog I β
  | .ret value, f => f value
  | .call op next, f => .call op fun answer => (next answer).bind f

instance : Monad (Prog I) where
  pure := .ret
  bind := Prog.bind

@[simp] theorem pure_def (value : α) :
    (pure value : Prog I α) = .ret value := rfl

@[simp] theorem ret_bind (value : α) (f : α → Prog I β) :
    (Prog.ret value >>= f) = f value := rfl

@[simp] theorem call_bind
    (op : I.Op) (next : I.Answer op → Prog I α) (f : α → Prog I β) :
    (Prog.call op next >>= f) = .call op fun answer => next answer >>= f := rfl

@[simp] theorem perform_bind
    (op : I.Op) (f : I.Answer op → Prog I β) :
    (perform op >>= f) = .call op f := rfl

theorem bind_ret (program : Prog I α) :
    (program >>= Prog.ret) = program := by
  induction program with
  | ret value => rfl
  | call op next ih =>
      rw [call_bind]
      congr 1
      funext answer
      exact ih answer

theorem bind_assoc
    (program : Prog I α) (f : α → Prog I β) (g : β → Prog I γ) :
    (program >>= f >>= g) = program >>= fun value => f value >>= g := by
  induction program with
  | ret value => rfl
  | call op next ih =>
      simp only [call_bind]
      congr 1
      funext answer
      exact ih answer

instance : LawfulMonad (Prog I) :=
  LawfulMonad.mk' (Prog I)
    (fun program => bind_ret program)
    (fun _ _ => rfl)
    (fun program f g => bind_assoc program f g)

/-- Every call the program can make satisfies `P`. -/
def Calls (P : I.Op → Prop) : Prog I α → Prop
  | .ret _ => True
  | .call op next => P op ∧ ∀ answer, (next answer).Calls P

theorem Calls.bind
    {P : I.Op → Prop} {program : Prog I α} {f : α → Prog I β}
    (hprogram : program.Calls P) (hf : ∀ value, (f value).Calls P) :
    (program >>= f).Calls P := by
  induction program with
  | ret value => exact hf value
  | call op next ih => exact ⟨hprogram.1, fun answer => ih answer (hprogram.2 answer)⟩

theorem Calls.mono
    {P Q : I.Op → Prop} {program : Prog I α} (hcalls : program.Calls P)
    (hPQ : ∀ op, P op → Q op) : program.Calls Q := by
  induction program with
  | ret value => trivial
  | call op next ih => exact ⟨hPQ op hcalls.1, fun answer => ih answer (hcalls.2 answer)⟩

theorem calls_true (program : Prog I α) : program.Calls fun _ => True := by
  induction program with
  | ret value => trivial
  | call op next ih => exact ⟨trivial, ih⟩

theorem calls_perform {P : I.Op → Prop} {op : I.Op} (hop : P op) :
    (perform op).Calls P :=
  ⟨hop, fun _ => trivial⟩

/-- Every value the program can return satisfies `P`. -/
def Returns (P : α → Prop) : Prog I α → Prop
  | .ret value => P value
  | .call _ next => ∀ answer, (next answer).Returns P

theorem Returns.bind
    {P : β → Prop} {program : Prog I α} {f : α → Prog I β}
    (hf : ∀ value, (f value).Returns P) : (program >>= f).Returns P := by
  induction program with
  | ret value => exact hf value
  | call op next ih => exact ih

/-- `rest` is what the program has still to do after some of its calls. -/
inductive Rest : Prog I α → Prog I α → Prop
  | here {program : Prog I α} : Rest program program
  | after {op : I.Op} {next : I.Answer op → Prog I α} {rest : Prog I α}
      (answer : I.Answer op) (hrest : Rest (next answer) rest) :
      Rest (.call op next) rest

/-! ## What follows a call -/

/-- Every path through the program calls an operation of `R`. -/
def Surely (R : I.Op → Prop) : Prog I α → Prop
  | .ret _ => False
  | .call op next => R op ∨ ∀ answer, (next answer).Surely R

/-- Every path that calls an operation of `W` calls one of `R` after it. -/
def Covered (W R : I.Op → Prop) : Prog I α → Prop
  | .ret _ => True
  | .call op next =>
      (W op → ∀ answer, (next answer).Surely R) ∧
        ∀ answer, (next answer).Covered W R

/-- Every path that calls an operation of `W` returns a value of `Q`. -/
def Earns (W : I.Op → Prop) (Q : α → Prop) : Prog I α → Prop
  | .ret _ => True
  | .call op next =>
      (W op → ∀ answer, (next answer).Returns Q) ∧
        ∀ answer, (next answer).Earns W Q

variable {W R : I.Op → Prop}

theorem surely_perform {op : I.Op} (hop : R op) : (perform op).Surely R :=
  Or.inl hop

theorem Surely.bind
    {program : Prog I α} {f : α → Prog I β} (hf : ∀ value, (f value).Surely R) :
    (program >>= f).Surely R := by
  induction program with
  | ret value => exact hf value
  | call op next ih => exact Or.inr ih

theorem Surely.first
    {program : Prog I α} (hprogram : program.Surely R) (f : α → Prog I β) :
    (program >>= f).Surely R := by
  induction program with
  | ret value => exact hprogram.elim
  | call op next ih =>
      exact hprogram.imp_right fun hnext answer => ih answer (hnext answer)

/-- The path goes on with a value of `Q`. -/
theorem Returns.surely
    {Q : α → Prop} {program : Prog I α} {f : α → Prog I β}
    (hreturns : program.Returns Q) (hf : ∀ value, Q value → (f value).Surely R) :
    (program >>= f).Surely R := by
  induction program with
  | ret value => exact hf value hreturns
  | call op next ih => exact Or.inr fun answer => ih answer (hreturns answer)

theorem Earns.of_calls
    {Q : α → Prop} {program : Prog I α}
    (hcalls : program.Calls fun op => ¬W op) : program.Earns W Q := by
  induction program with
  | ret value => trivial
  | call op next ih =>
      exact ⟨fun hop => absurd hop hcalls.1, fun answer => ih answer (hcalls.2 answer)⟩

/-- Where all values are in `Q`, nothing has to be earned. -/
theorem Earns.of_returns
    {Q : α → Prop} {program : Prog I α} (hreturns : program.Returns Q) :
    program.Earns W Q := by
  induction program with
  | ret value => trivial
  | call op next ih =>
      exact ⟨fun _ => hreturns, fun answer => ih answer (hreturns answer)⟩

theorem Returns.value
    {P : α → Prop} {Q : β → Prop} {program : Prog I α} {f : α → Prog I β}
    (hreturns : program.Returns P) (hf : ∀ value, P value → (f value).Returns Q) :
    (program >>= f).Returns Q := by
  induction program with
  | ret value => exact hf value hreturns
  | call op next ih => exact fun answer => ih answer (hreturns answer)

theorem Earns.bind
    {P : α → Prop} {Q : β → Prop} {program : Prog I α} {f : α → Prog I β}
    (hprogram : program.Earns W P) (hvalue : ∀ value, P value → (f value).Returns Q)
    (hf : ∀ value, (f value).Earns W Q) : (program >>= f).Earns W Q := by
  induction program with
  | ret value => exact hf value
  | call op next ih =>
      constructor
      · intro hop answer
        exact (hprogram.1 hop answer).value hvalue
      · intro answer
        exact ih answer (hprogram.2 answer)

/-- A program that calls nothing of `W`, and what comes after it. -/
theorem Earns.after
    {Q : β → Prop} {program : Prog I α} {f : α → Prog I β}
    (hcalls : program.Calls fun op => ¬W op) (hf : ∀ value, (f value).Earns W Q) :
    (program >>= f).Earns W Q :=
  Earns.bind (P := fun _ => False) (.of_calls hcalls) (fun _ h => h.elim) hf

theorem Covered.of_calls
    {program : Prog I α} (hcalls : program.Calls fun op => ¬W op) :
    program.Covered W R := by
  induction program with
  | ret value => trivial
  | call op next ih =>
      exact ⟨fun hop => absurd hop hcalls.1, fun answer => ih answer (hcalls.2 answer)⟩

theorem Covered.bind
    {Q : α → Prop} {program : Prog I α} {f : α → Prog I β}
    (hprogram : program.Earns W Q) (hvalue : ∀ value, Q value → (f value).Surely R)
    (hf : ∀ value, (f value).Covered W R) : (program >>= f).Covered W R := by
  induction program with
  | ret value => exact hf value
  | call op next ih =>
      constructor
      · intro hop answer
        exact (hprogram.1 hop answer).surely hvalue
      · intro answer
        exact ih answer (hprogram.2 answer)

theorem Covered.after
    {program : Prog I α} {f : α → Prog I β}
    (hcalls : program.Calls fun op => ¬W op) (hf : ∀ value, (f value).Covered W R) :
    (program >>= f).Covered W R :=
  Covered.bind (Q := fun _ => False) (.of_calls hcalls) (fun _ h => h.elim) hf

/-- Nothing of `W` comes after the program. -/
theorem Covered.before
    {program : Prog I α} {f : α → Prog I β} (hprogram : program.Covered W R)
    (hcalls : ∀ value, (f value).Calls fun op => ¬W op) :
    (program >>= f).Covered W R := by
  induction program with
  | ret value => exact .of_calls (hcalls value)
  | call op next ih =>
      constructor
      · intro hop answer
        exact (hprogram.1 hop answer).first f
      · intro answer
        exact ih answer (hprogram.2 answer)

/-- Every call of `W` is followed by `rest`. -/
def FollowedBy (W : I.Op → Prop) (rest : Prog I α) : Prog I α → Prop
  | .ret _ => True
  | .call op next =>
      (W op → ∀ answer, next answer = rest) ∧
        ∀ answer, FollowedBy W rest (next answer)

theorem FollowedBy.after
    {program : Prog I α} {f : α → Prog I β} {rest : Prog I β}
    (hcalls : program.Calls fun op => ¬W op)
    (hf : ∀ value, FollowedBy W rest (f value)) :
    FollowedBy W rest (program >>= f) := by
  induction program with
  | ret value => exact hf value
  | call op next ih =>
      constructor
      · intro hop
        exact absurd hop hcalls.1
      · intro answer
        exact ih answer (hcalls.2 answer)

/-! ## The first call of a kind -/

/-- On every path the first call of `W` satisfies `Q`. -/
def Leads (W Q : I.Op → Prop) : Prog I α → Prop
  | .ret _ => True
  | .call op next =>
      (W op → Q op) ∧ (¬W op → ∀ answer, (next answer).Leads W Q)

/-- A path without calls of `W` returns `value`. -/
def May (W : I.Op → Prop) (value : α) : Prog I α → Prop
  | .ret result => result = value
  | .call op next => ¬W op ∧ ∃ answer, (next answer).May W value

theorem Leads.of_calls
    {Q : I.Op → Prop} {program : Prog I α}
    (hcalls : program.Calls fun op => ¬W op) : program.Leads W Q := by
  induction program with
  | ret value => trivial
  | call op next ih =>
      constructor
      · intro hop
        exact absurd hop hcalls.1
      · intro _ answer
        exact ih answer (hcalls.2 answer)

theorem Leads.bind
    {Q : I.Op → Prop} {program : Prog I α} {f : α → Prog I β}
    (hprogram : program.Leads W Q) (hf : ∀ value, (f value).Leads W Q) :
    (program >>= f).Leads W Q := by
  induction program with
  | ret value => exact hf value
  | call op next ih =>
      constructor
      · exact hprogram.1
      · intro hop answer
        exact ih answer (hprogram.2 hop answer)

theorem Leads.mono
    {Q Q' : I.Op → Prop} {program : Prog I α} (hleads : program.Leads W Q)
    (hQ : ∀ op, Q op → Q' op) : program.Leads W Q' := by
  induction program with
  | ret value => trivial
  | call op next ih =>
      constructor
      · intro hop
        exact hQ op (hleads.1 hop)
      · intro hop answer
        exact ih answer (hleads.2 hop answer)

theorem Leads.after
    {Q : I.Op → Prop} {program : Prog I α} {f : α → Prog I β}
    (hcalls : program.Calls fun op => ¬W op) (hf : ∀ value, (f value).Leads W Q) :
    (program >>= f).Leads W Q :=
  Leads.bind (.of_calls hcalls) hf

/-- What follows a path without calls of `W` is where its first call is. -/
theorem Leads.of_may
    {Q : I.Op → Prop} {program : Prog I α} {f : α → Prog I β} {value : α}
    (hleads : (program >>= f).Leads W Q) (hmay : program.May W value) :
    (f value).Leads W Q := by
  induction program with
  | ret result =>
      obtain rfl : result = value := hmay
      exact hleads
  | call op next ih =>
      obtain ⟨hop, answer, hmay⟩ := hmay
      exact ih answer (hleads.2 hop answer) hmay

theorem May.bind
    {program : Prog I α} {f : α → Prog I β} {value : α} {result : β}
    (hprogram : program.May W value) (hf : (f value).May W result) :
    (program >>= f).May W result := by
  induction program with
  | ret first =>
      obtain rfl : first = value := hprogram
      exact hf
  | call op next ih =>
      obtain ⟨hop, answer, hmay⟩ := hprogram
      exact ⟨hop, answer, ih answer hmay⟩

theorem may_perform {op : I.Op} (hop : ¬W op) (answer : I.Answer op) :
    (perform op).May W answer :=
  ⟨hop, answer, rfl⟩

end Prog

end Eecs482
