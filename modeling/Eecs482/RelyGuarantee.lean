import Eecs482.Prog
import Eecs482.TraceRefinement
import Mathlib.Logic.Function.Basic

/-!
# Interleaved threads and a rely/guarantee discipline

Any number of threads run programs over one shared state, one operation at a
time and in any order.  A discipline fixes an invariant of the shared state,
what each thread may rely on while the others run, and what must hold when an
operation is called.  `Safe` is the resulting correctness predicate of one
thread: it is checked against the program alone, and `sound` lifts it to every
interleaving.  `play` computes where a run given by its moves ends.
-/

namespace Eecs482

/-- The meaning of the operations on a shared state.  An operation which
cannot proceed there has no result. -/
structure Machine (I : Interface) (σ : Type) where
  Request : Type
  program : Request → Prog I Unit
  /-- The shared state after thread `i` has been started on a request. -/
  arrive : ℕ → Request → σ → σ
  exec : ℕ → (op : I.Op) → σ → Option (I.Answer op × σ)

/-- The shared state and what each thread still has to do; `none` is a thread
which has not been started. -/
structure Config (I : Interface) (σ : Type) where
  shared : σ
  thread : ℕ → Option (Prog I Unit)

namespace Machine

variable {I : Interface} {σ : Type} (M : Machine I σ)

/-- One step of the pool: a request arrives, or one thread executes its next
operation. -/
inductive Step : Config I σ → Config I σ → Prop
  | arrive {c : Config I σ} (i : ℕ) (request : M.Request)
      (hfresh : c.thread i = none) :
      Step c {
        shared := M.arrive i request c.shared
        thread := Function.update c.thread i (some (M.program request)) }
  | exec {c : Config I σ} (i : ℕ) (op : I.Op)
      (next : I.Answer op → Prog I Unit) (answer : I.Answer op) (shared : σ)
      (hthread : c.thread i = some (.call op next))
      (hexec : M.exec i op c.shared = some (answer, shared)) :
      Step c {
        shared := shared
        thread := Function.update c.thread i (some (next answer)) }

/-- The configurations some run reaches from shared state `initial`. -/
inductive Reachable (initial : σ) : Config I σ → Prop
  | start : Reachable initial ⟨initial, fun _ => none⟩
  | step {c c' : Config I σ} :
      Reachable initial c → M.Step c c' → Reachable initial c'

/-- A step, given by what happens in it. -/
inductive Move
  | arrive (i : ℕ) (request : M.Request)
  | exec (i : ℕ)

/-- Make a move; `none` where it is not possible. -/
def move (c : Config I σ) : M.Move → Option (Config I σ)
  | .arrive i request =>
      match c.thread i with
      | none => some {
          shared := M.arrive i request c.shared
          thread := Function.update c.thread i (some (M.program request)) }
      | some _ => none
  | .exec i =>
      match c.thread i with
      | some (.call op next) =>
          (M.exec i op c.shared).map fun result => {
            shared := result.2
            thread := Function.update c.thread i (some (next result.1)) }
      | _ => none

def play (moves : List M.Move) (c : Config I σ) : Option (Config I σ) :=
  moves.foldlM M.move c

variable {M}

theorem step_of_move
    {c c' : Config I σ} {m : M.Move} (hmove : M.move c m = some c') : M.Step c c' := by
  cases m with
  | arrive i request =>
      cases hthread : c.thread i with
      | some program => simp [move, hthread] at hmove
      | none =>
          simp only [move, hthread, Option.some.injEq] at hmove
          rw [← hmove]
          exact .arrive i request hthread
  | exec i =>
      cases hthread : c.thread i with
      | none => simp [move, hthread] at hmove
      | some program =>
          cases program with
          | ret value => simp [move, hthread] at hmove
          | call op next =>
              simp only [move, hthread] at hmove
              obtain ⟨⟨answer, shared⟩, hexec, rfl⟩ := Option.map_eq_some_iff.mp hmove
              exact .exec i op next answer shared hthread hexec

theorem reachable_of_play
    {initial : σ} {c c' : Config I σ} {moves : List M.Move}
    (hplay : M.play moves c = some c') (hreach : M.Reachable initial c) :
    M.Reachable initial c' :=
  keeps_of_foldlM (fun _ _ _ hmove h => .step h (step_of_move hmove)) hplay hreach

end Machine

/-- What the threads of a machine agree on. -/
structure Discipline {I : Interface} {σ : Type} (M : Machine I σ) where
  Inv : σ → Prop
  /-- What thread `i` may assume of any number of steps of the others. -/
  Rely : ℕ → σ → σ → Prop
  /-- What must hold when thread `i` calls an operation. -/
  Guard : ℕ → I.Op → σ → Prop
  /-- Thread `i` has not been started. -/
  Idle : ℕ → σ → Prop
  rely_refl : ∀ i s, Inv s → Rely i s s
  rely_trans : ∀ i s t u, Rely i s t → Rely i t u → Rely i s u
  rely_inv : ∀ i s t, Rely i s t → Inv t
  idle_rely : ∀ i s t, Idle i s → Rely i s t → Idle i t

namespace Discipline

variable {I : Interface} {σ : Type} {M : Machine I σ} (D : Discipline M)
variable {α β : Type}

/-- Thread `i` may run `program` from `s`: whatever the others have done in
the meantime, each operation it calls is called under its guard, keeps the
invariant and what every other thread relies on, and the results satisfy
`Post`. -/
def Safe (i : ℕ) (Post : α → σ → Prop) : Prog I α → σ → Prop
  | .ret value, s => ∀ t, D.Rely i s t → Post value t
  | .call op next, s => ∀ t, D.Rely i s t →
      D.Guard i op t ∧
      ∀ answer u, M.exec i op t = some (answer, u) →
        D.Inv u ∧ (∀ j, j ≠ i → D.Rely j t u) ∧
          Safe i Post (next answer) u

/-- An assertion of thread `i` which the other threads cannot falsify. -/
def Stable (i : ℕ) (A : σ → Prop) : Prop :=
  ∀ s t, A s → D.Rely i s t → A t

/-- From any state satisfying the precondition, thread `i` may run `program`
and ends in the postcondition. -/
def Triple
    (i : ℕ) (Pre : σ → Prop) (program : Prog I α) (Post : α → σ → Prop) :
    Prop :=
  ∀ s, D.Inv s → Pre s → D.Safe i Post program s

variable {D}

theorem Safe.rely
    {i : ℕ} {Post : α → σ → Prop} {program : Prog I α} {s t : σ}
    (hsafe : D.Safe i Post program s) (hrely : D.Rely i s t) :
    D.Safe i Post program t := by
  cases program with
  | ret value =>
      intro u htu
      exact hsafe u (D.rely_trans i s t u hrely htu)
  | call op next =>
      intro u htu
      exact hsafe u (D.rely_trans i s t u hrely htu)

theorem Safe.mono
    {i : ℕ} {Post Post' : α → σ → Prop} {program : Prog I α} {s : σ}
    (hsafe : D.Safe i Post program s)
    (himp : ∀ value t, D.Inv t → Post value t → Post' value t) :
    D.Safe i Post' program s := by
  induction program generalizing s with
  | ret value =>
      intro t ht
      exact himp value t (D.rely_inv i s t ht) (hsafe t ht)
  | call op next ih =>
      intro t ht
      obtain ⟨hguard, hnext⟩ := hsafe t ht
      refine ⟨hguard, fun answer u hexec => ?_⟩
      obtain ⟨hinv, hothers, hrest⟩ := hnext answer u hexec
      exact ⟨hinv, hothers, ih answer hrest⟩

theorem Safe.bind
    {i : ℕ} {Mid : α → σ → Prop} {Post : β → σ → Prop}
    {program : Prog I α} {f : α → Prog I β} {s : σ}
    (hinv : D.Inv s) (hsafe : D.Safe i Mid program s)
    (hrest : ∀ value, D.Triple i (Mid value) (f value) Post) :
    D.Safe i Post (program >>= f) s := by
  induction program generalizing s with
  | ret value =>
      exact hrest value s hinv (hsafe s (D.rely_refl i s hinv))
  | call op next ih =>
      intro t ht
      obtain ⟨hguard, hnext⟩ := hsafe t ht
      refine ⟨hguard, fun answer u hexec => ?_⟩
      obtain ⟨hinvu, hothers, hsafeu⟩ := hnext answer u hexec
      exact ⟨hinvu, hothers, ih answer hinvu hsafeu⟩

/-! ## Rules -/

theorem Triple.ret
    {i : ℕ} {Post : α → σ → Prop} {value : α}
    (hstable : D.Stable i (Post value)) :
    D.Triple i (Post value) (.ret value) Post := by
  intro s _ hpost t ht
  exact hstable s t hpost ht

theorem Triple.bind
    {i : ℕ} {Pre : σ → Prop} {Mid : α → σ → Prop} {Post : β → σ → Prop}
    {program : Prog I α} {f : α → Prog I β}
    (hfirst : D.Triple i Pre program Mid)
    (hrest : ∀ value, D.Triple i (Mid value) (f value) Post) :
    D.Triple i Pre (program >>= f) Post := by
  intro s hinv hpre
  exact Safe.bind hinv (hfirst s hinv hpre) hrest

/-- What has to be shown about one operation: its assertion is stable, its
guard holds, and its effect is within the guarantee. -/
structure Atomic
    (D : Discipline M) (i : ℕ) (Pre : σ → Prop) (op : I.Op)
    (Post : I.Answer op → σ → Prop) : Prop where
  stable : D.Stable i Pre
  guard : ∀ s, D.Inv s → Pre s → D.Guard i op s
  effect : ∀ s answer t, D.Inv s → Pre s → M.exec i op s = some (answer, t) →
    D.Inv t ∧ (∀ j, j ≠ i → D.Rely j s t) ∧ Post answer t

/-- The rule of one operation followed by the rest of the program. -/
theorem Triple.call
    {i : ℕ} {Pre : σ → Prop} {op : I.Op} (Mid : I.Answer op → σ → Prop)
    {next : I.Answer op → Prog I α} {Post : α → σ → Prop}
    (hop : Atomic D i Pre op Mid)
    (hrest : ∀ answer, D.Triple i (Mid answer) (next answer) Post) :
    D.Triple i Pre (.call op next) Post := by
  intro s hinv hpre t ht
  have hinvt := D.rely_inv i s t ht
  have hpret := hop.stable s t hpre ht
  refine ⟨hop.guard t hinvt hpret, fun answer u hexec => ?_⟩
  obtain ⟨hinvu, hothers, hmid⟩ := hop.effect t answer u hinvt hpret hexec
  exact ⟨hinvu, hothers, hrest answer u hinvu hmid⟩

/-! ## Soundness -/

/-- Every program a request can start is safe in an idle thread, and starting
it is within the guarantee. -/
structure Verified (D : Discipline M) (Done : ℕ → σ → Prop) : Prop where
  arrive : ∀ i request s, D.Inv s → D.Idle i s →
    D.Inv (M.arrive i request s) ∧
    (∀ j, j ≠ i → D.Rely j s (M.arrive i request s)) ∧
    D.Safe i (fun _ => Done i) (M.program request) (M.arrive i request s)

/-- The invariant of the pool. -/
structure PoolInvariant
    (D : Discipline M) (Done : ℕ → σ → Prop) (c : Config I σ) : Prop where
  inv : D.Inv c.shared
  idle : ∀ i, c.thread i = none → D.Idle i c.shared
  safe : ∀ i program, c.thread i = some program →
    D.Safe i (fun _ => Done i) program c.shared

theorem PoolInvariant.step
    {Done : ℕ → σ → Prop} (hverified : Verified D Done)
    {c c' : Config I σ} (hpool : PoolInvariant D Done c)
    (hstep : M.Step c c') :
    PoolInvariant D Done c' := by
  cases hstep with
  | arrive i request hfresh =>
      obtain ⟨hinv, hothers, hsafe⟩ :=
        hverified.arrive i request c.shared hpool.inv (hpool.idle i hfresh)
      refine ⟨hinv, fun j hj => ?_, fun j program hj => ?_⟩
      · by_cases hji : j = i
        · subst hji
          simp at hj
        · simp only [Function.update_of_ne hji] at hj
          exact D.idle_rely j _ _ (hpool.idle j hj) (hothers j hji)
      · by_cases hji : j = i
        · subst hji
          simp only [Function.update_self, Option.some.injEq] at hj
          subst hj
          exact hsafe
        · simp only [Function.update_of_ne hji] at hj
          exact (hpool.safe j program hj).rely (hothers j hji)
  | exec i op next answer shared hthread hexec =>
      obtain ⟨_, hnext⟩ := hpool.safe i _ hthread c.shared
        (D.rely_refl i c.shared hpool.inv)
      obtain ⟨hinv, hothers, hsafe⟩ := hnext answer shared hexec
      refine ⟨hinv, fun j hj => ?_, fun j program hj => ?_⟩
      · by_cases hji : j = i
        · subst hji
          simp at hj
        · simp only [Function.update_of_ne hji] at hj
          exact D.idle_rely j _ _ (hpool.idle j hj) (hothers j hji)
      · by_cases hji : j = i
        · subst hji
          simp only [Function.update_self, Option.some.injEq] at hj
          subst hj
          exact hsafe
        · simp only [Function.update_of_ne hji] at hj
          exact (hpool.safe j program hj).rely (hothers j hji)

/-- Thread-local verification is enough for every interleaving. -/
theorem sound
    {Done : ℕ → σ → Prop} (hverified : Verified D Done)
    {initial : σ} (hinv : D.Inv initial) (hidle : ∀ i, D.Idle i initial)
    {c : Config I σ} (hreach : M.Reachable initial c) :
    PoolInvariant D Done c := by
  induction hreach with
  | start => exact ⟨hinv, fun i _ => hidle i, fun i program h => by simp at h⟩
  | step _ hstep ih => exact ih.step hverified hstep

theorem PoolInvariant.guard
    {Done : ℕ → σ → Prop} {c : Config I σ} (hpool : PoolInvariant D Done c)
    {i : ℕ} {op : I.Op} {next : I.Answer op → Prog I Unit}
    (hthread : c.thread i = some (.call op next)) :
    D.Guard i op c.shared :=
  (hpool.safe i _ hthread c.shared (D.rely_refl i c.shared hpool.inv)).1

theorem PoolInvariant.done
    {Done : ℕ → σ → Prop} {c : Config I σ} (hpool : PoolInvariant D Done c)
    {i : ℕ} (hthread : c.thread i = some (.ret ())) :
    Done i c.shared :=
  hpool.safe i _ hthread c.shared (D.rely_refl i c.shared hpool.inv)

end Discipline

end Eecs482
