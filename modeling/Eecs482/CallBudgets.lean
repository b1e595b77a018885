import Eecs482.RelyGuarantee
import Mathlib.Algebra.BigOperators.Group.Finset.Basic
import Mathlib.Algebra.Order.BigOperators.Group.Finset
import Mathlib.Logic.Relation

/-!
# What the calls of a verified program are, and how many

A discipline that is verified says what a thread may rely on.  On that ground
more can be shown about its calls: that each is made under a further guard, and
that the thread makes only so many of them, whatever the others do.  A run of
any number of threads then has a bounded number of calls.
-/

namespace Eecs482
namespace Discipline

variable {I : Interface} {σ : Type} {M : Machine I σ} {D : Discipline M}
variable {α β : Type} {G : ℕ → I.Op → σ → Prop} {i m n : ℕ} {s t : σ}

/-- Thread `i` makes at most `n` calls in `program` from `s`, each under `G`. -/
def Within (D : Discipline M) (G : ℕ → I.Op → σ → Prop) (i : ℕ) :
    Prog I α → ℕ → σ → Prop
  | .ret _, _, _ => True
  | .call op next, n, s => 0 < n ∧ ∀ t, D.Rely i s t →
      G i op t ∧ ∀ answer u, M.exec i op t = some (answer, u) → D.Inv u →
        Within D G i (next answer) (n - 1) u

theorem Within.rely
    {program : Prog I α} (h : D.Within G i program n s) (hrely : D.Rely i s t) :
    D.Within G i program n t := by
  cases program with
  | ret value => trivial
  | call op next =>
      refine ⟨h.1, fun u htu => ?_⟩
      exact h.2 u (D.rely_trans i s t u hrely htu)

theorem Within.mono
    {program : Prog I α} (h : D.Within G i program m s) (hle : m ≤ n) :
    D.Within G i program n s := by
  induction program generalizing m n s with
  | ret value => trivial
  | call op next ih =>
      obtain ⟨hpos, hcalls⟩ := h
      refine ⟨hpos.trans_le hle, fun t ht => ?_⟩
      obtain ⟨hguard, hnext⟩ := hcalls t ht
      refine ⟨hguard, fun answer u hexec hinv => ?_⟩
      exact ih answer (hnext answer u hexec hinv) (Nat.sub_le_sub_right hle 1)

/-- The calls of two programs, one after the other. -/
theorem Within.bind
    {program : Prog I α} {f : α → Prog I β} {Mid : α → σ → Prop} (hinv : D.Inv s)
    (hfirst : D.Within G i program m s) (hsafe : D.Safe i Mid program s)
    (hrest : ∀ value t, D.Inv t → Mid value t → D.Within G i (f value) n t) :
    D.Within G i (program >>= f) (m + n) s := by
  induction program generalizing m s with
  | ret value =>
      have hmid := hsafe s (D.rely_refl i s hinv)
      exact (hrest value s hinv hmid).mono (Nat.le_add_left n m)
  | call op next ih =>
      obtain ⟨hpos, hcalls⟩ := hfirst
      refine ⟨Nat.add_pos_left hpos n, fun t ht => ?_⟩
      obtain ⟨hguard, hnext⟩ := hcalls t ht
      refine ⟨hguard, fun answer u hexec hinvu => ?_⟩
      have hsafeu := ((hsafe t ht).2 answer u hexec).2.2
      have hboth := ih answer hinvu (hnext answer u hexec hinvu) hsafeu
      have hsum : m + n - 1 = m - 1 + n := by omega
      rw [hsum]
      exact hboth

/-! ## Runs -/

end Discipline

namespace Machine

variable {I : Interface} {σ : Type} {M : Machine I σ}

/-- A run with its number of arrivals and its number of calls. -/
inductive Run (M : Machine I σ) (initial : σ) : ℕ → ℕ → Config I σ → Prop
  | start : Run M initial 0 0 ⟨initial, fun _ => none⟩
  | arrive {arrivals calls : ℕ} {c : Config I σ} (i : ℕ) (request : M.Request)
      (hrun : Run M initial arrivals calls c) (hfresh : c.thread i = none) :
      Run M initial (arrivals + 1) calls {
        shared := M.arrive i request c.shared
        thread := Function.update c.thread i (some (M.program request)) }
  | exec {arrivals calls : ℕ} {c : Config I σ} (i : ℕ) (op : I.Op)
      (next : I.Answer op → Prog I Unit) (answer : I.Answer op) (shared : σ)
      (hrun : Run M initial arrivals calls c)
      (hthread : c.thread i = some (.call op next))
      (hexec : M.exec i op c.shared = some (answer, shared)) :
      Run M initial arrivals (calls + 1) {
        shared := shared
        thread := Function.update c.thread i (some (next answer)) }

variable {initial : σ} {c : Config I σ} {arrivals calls : ℕ}

theorem Run.reachable (hrun : M.Run initial arrivals calls c) : M.Reachable initial c := by
  induction hrun with
  | start => exact .start
  | arrive i request _ hfresh ih => exact ih.step (.arrive i request hfresh)
  | exec i op next answer shared _ hthread hexec ih =>
      exact ih.step (.exec i op next answer shared hthread hexec)

theorem Reachable.exists_run (hreach : M.Reachable initial c) :
    ∃ arrivals calls, M.Run initial arrivals calls c := by
  induction hreach with
  | start => exact ⟨0, 0, .start⟩
  | step _ hstep ih =>
      obtain ⟨arrivals, calls, hrun⟩ := ih
      cases hstep with
      | arrive i request hfresh => exact ⟨_, _, hrun.arrive i request hfresh⟩
      | exec i op next answer shared hthread hexec =>
          exact ⟨_, _, hrun.exec i op next answer shared hthread hexec⟩

/-- One call of one of the threads. -/
inductive Exec (M : Machine I σ) : Config I σ → Config I σ → Prop
  | exec {c : Config I σ} (i : ℕ) (op : I.Op) (next : I.Answer op → Prog I Unit)
      (answer : I.Answer op) (shared : σ) (hthread : c.thread i = some (.call op next))
      (hexec : M.exec i op c.shared = some (answer, shared)) :
      Exec M c {
        shared := shared
        thread := Function.update c.thread i (some (next answer)) }

/-- No thread can go on. -/
def Rests (M : Machine I σ) (c : Config I σ) : Prop :=
  ∀ i op next, c.thread i = some (.call op next) → M.exec i op c.shared = none

theorem Run.exec_of_exec {c' : Config I σ} (hrun : M.Run initial arrivals calls c)
    (hexec : M.Exec c c') : M.Run initial arrivals (calls + 1) c' := by
  cases hexec with
  | exec i op next answer shared hthread hexec =>
      exact hrun.exec i op next answer shared hthread hexec

/-- A thread that has been started stays one. -/
theorem isSome_thread_of_exec
    {c' : Config I σ} {i : ℕ} (hcalls : Relation.ReflTransGen M.Exec c c')
    (hstarted : (c.thread i).isSome) : (c'.thread i).isSome := by
  induction hcalls with
  | refl => exact hstarted
  | tail _ hexec ih =>
      cases hexec with
      | exec j op next answer shared hthread hexec =>
          simp only [Function.update_apply]
          split
          · rfl
          · exact ih

/-- Where the calls are bounded, the threads can be run until none can go on. -/
theorem Run.exists_rests
    {bound : ℕ} (hbound : ∀ calls c, M.Run initial arrivals calls c → calls ≤ bound)
    (hrun : M.Run initial arrivals calls c) :
    ∃ c', Relation.ReflTransGen M.Exec c c' ∧ M.Rests c' := by
  induction hleft : bound - calls generalizing calls c with
  | zero =>
      refine ⟨c, .refl, fun i op next hthread => ?_⟩
      cases hexec : M.exec i op c.shared with
      | none => rfl
      | some result =>
          have hle := hbound _ _
            (hrun.exec i op next result.1 result.2 hthread hexec)
          omega
  | succ left ih =>
      by_cases hrests : M.Rests c
      · exact ⟨c, .refl, hrests⟩
      · unfold Rests at hrests
        push Not at hrests
        obtain ⟨i, op, next, hthread, hsome⟩ := hrests
        obtain ⟨result, hexec⟩ := Option.ne_none_iff_exists'.mp hsome
        have hstep := Exec.exec i op next result.1 result.2 hthread hexec
        obtain ⟨c', hcalls, hrests'⟩ := ih (hrun.exec_of_exec hstep) (by omega)
        exact ⟨c', .head hstep hcalls, hrests'⟩

theorem Run.exists_run_of_exec
    {c' : Config I σ} (hrun : M.Run initial arrivals calls c)
    (hcalls : Relation.ReflTransGen M.Exec c c') :
    ∃ calls', M.Run initial arrivals calls' c' := by
  induction hcalls with
  | refl => exact ⟨calls, hrun⟩
  | tail _ hstep ih =>
      obtain ⟨calls', hrun'⟩ := ih
      exact ⟨calls' + 1, hrun'.exec_of_exec hstep⟩

end Machine

namespace Discipline

variable {I : Interface} {σ : Type} {M : Machine I σ} {D : Discipline M}
variable {G : ℕ → I.Op → σ → Prop} {i : ℕ} {initial : σ} {c : Config I σ}
variable {arrivals calls : ℕ}

/-- The threads still have their calls ahead of them. -/
structure Ahead (D : Discipline M) (G : ℕ → I.Op → σ → Prop) (c : Config I σ)
    (started : Finset ℕ) (left : ℕ → ℕ) : Prop where
  started_of_thread : ∀ j program, c.thread j = some program → j ∈ started
  within : ∀ j program, c.thread j = some program →
    D.Within G j program (left j) c.shared

/-- Every request is served with at most `budget` calls, each under `G`. -/
def Budgeted (D : Discipline M) (G : ℕ → I.Op → σ → Prop) (budget : ℕ) : Prop :=
  ∀ i request s, D.Inv s → D.Idle i s → D.Inv (M.arrive i request s) →
    D.Within G i (M.program request) budget (M.arrive i request s)

variable {Done : ℕ → σ → Prop} {budget : ℕ} {started : Finset ℕ} {left : ℕ → ℕ}

theorem Ahead.arrive
    {request : M.Request} (hverified : Verified D Done) (hbudget : D.Budgeted G budget)
    (hpool : PoolInvariant D Done c) (hahead : D.Ahead G c started left)
    (hfresh : c.thread i = none) :
    D.Ahead G ⟨M.arrive i request c.shared,
      Function.update c.thread i (some (M.program request))⟩
      (insert i started) (Function.update left i budget) := by
  have hidle := hpool.idle i hfresh
  obtain ⟨hinv, hothers, _⟩ := hverified.arrive i request c.shared hpool.inv hidle
  constructor
  · intro j program hj
    by_cases hji : j = i
    · exact hji ▸ Finset.mem_insert_self i started
    · simp only [Function.update_of_ne hji] at hj
      exact Finset.mem_insert_of_mem (hahead.started_of_thread j program hj)
  · intro j program hj
    by_cases hji : j = i
    · subst hji
      simp only [Function.update_self, Option.some.injEq] at hj ⊢
      rw [← hj]
      exact hbudget j request c.shared hpool.inv hidle hinv
    · simp only [Function.update_of_ne hji] at hj ⊢
      exact (hahead.within j program hj).rely (hothers j hji)

theorem Ahead.exec
    {op : I.Op} {next : I.Answer op → Prog I Unit} {answer : I.Answer op} {shared : σ}
    (hpool : PoolInvariant D Done c) (hahead : D.Ahead G c started left)
    (hthread : c.thread i = some (.call op next))
    (hexec : M.exec i op c.shared = some (answer, shared)) :
    0 < left i ∧ D.Ahead G ⟨shared, Function.update c.thread i (some (next answer))⟩
      started (Function.update left i (left i - 1)) := by
  have hrefl := D.rely_refl i c.shared hpool.inv
  obtain ⟨hinv, hothers, _⟩ :=
    (hpool.safe i _ hthread c.shared hrefl).2 answer shared hexec
  obtain ⟨hpos, hcalls⟩ := hahead.within i _ hthread
  have hnext := (hcalls c.shared hrefl).2 answer shared hexec hinv
  refine ⟨hpos, fun j program hj => ?_, fun j program hj => ?_⟩
  · by_cases hji : j = i
    · exact hji ▸ hahead.started_of_thread i _ hthread
    · simp only [Function.update_of_ne hji] at hj
      exact hahead.started_of_thread j program hj
  · by_cases hji : j = i
    · subst hji
      simp only [Function.update_self, Option.some.injEq] at hj ⊢
      rw [← hj]
      exact hnext
    · simp only [Function.update_of_ne hji] at hj ⊢
      exact (hahead.within j program hj).rely (hothers j hji)

theorem sum_erase_update (started : Finset ℕ) (left : ℕ → ℕ) (i n : ℕ) :
    ∑ j ∈ started.erase i, Function.update left i n j = ∑ j ∈ started.erase i, left j := by
  apply Finset.sum_congr rfl
  intro j hj
  rw [Function.update_of_ne (Finset.ne_of_mem_erase hj)]

/-- What has been called and what may still be called is paid for by the
arrivals. -/
theorem ahead_of_run
    (hverified : Verified D Done) (hinitial : D.Inv initial)
    (hidle : ∀ i, D.Idle i initial) (hbudget : D.Budgeted G budget)
    (hrun : M.Run initial arrivals calls c) :
    ∃ started left, D.Ahead G c started left ∧
      calls + ∑ j ∈ started, left j ≤ arrivals * budget := by
  induction hrun with
  | start =>
      refine ⟨∅, fun _ => 0, ⟨?_, ?_⟩, by simp⟩
      · intro j program hj
        cases hj
      · intro j program hj
        cases hj
  | @arrive arrivals calls c i request hrun hfresh ih =>
      obtain ⟨started, left, hahead, hsum⟩ := ih
      have hpool := sound hverified hinitial hidle hrun.reachable
      refine ⟨_, _, hahead.arrive hverified hbudget hpool hfresh, ?_⟩
      have hle : ∑ j ∈ started.erase i, left j ≤ ∑ j ∈ started, left j :=
        Finset.sum_le_sum_of_subset (Finset.erase_subset i started)
      have hsplit : ∑ j ∈ insert i started, Function.update left i budget j =
          budget + ∑ j ∈ started.erase i, left j := by
        rw [← Finset.insert_erase (Finset.mem_insert_self i started),
          Finset.erase_insert_eq_erase, Finset.sum_insert (Finset.notMem_erase i started),
          Function.update_self, sum_erase_update]
      rw [hsplit, Nat.succ_mul]
      omega
  | @exec arrivals calls c i op next answer shared hrun hthread hexec ih =>
      obtain ⟨started, left, hahead, hsum⟩ := ih
      have hpool := sound hverified hinitial hidle hrun.reachable
      obtain ⟨hpos, hahead'⟩ := hahead.exec hpool hthread hexec
      refine ⟨_, _, hahead', ?_⟩
      have hmem := hahead.started_of_thread i _ hthread
      have hbefore := Finset.add_sum_erase started left hmem
      have hafter := Finset.add_sum_erase started (Function.update left i (left i - 1)) hmem
      rw [Function.update_self, sum_erase_update] at hafter
      omega

theorem calls_le_of_run
    (hverified : Verified D Done) (hinitial : D.Inv initial)
    (hidle : ∀ i, D.Idle i initial) (hbudget : D.Budgeted G budget)
    (hrun : M.Run initial arrivals calls c) : calls ≤ arrivals * budget := by
  obtain ⟨started, left, _, hsum⟩ := ahead_of_run hverified hinitial hidle hbudget hrun
  exact (Nat.le_add_right _ _).trans hsum

/-- In every run each call is made under `G`. -/
theorem Budgeted.guard
    (hverified : Verified D Done) (hinitial : D.Inv initial)
    (hidle : ∀ i, D.Idle i initial) (hbudget : D.Budgeted G budget)
    (hreach : M.Reachable initial c) {op : I.Op} {next : I.Answer op → Prog I Unit}
    (hthread : c.thread i = some (.call op next)) : G i op c.shared := by
  obtain ⟨arrivals, calls, hrun⟩ := hreach.exists_run
  obtain ⟨started, left, hahead, _⟩ := ahead_of_run hverified hinitial hidle hbudget hrun
  have hinv := (sound hverified hinitial hidle hreach).inv
  exact ((hahead.within i _ hthread).2 c.shared (D.rely_refl i _ hinv)).1

end Discipline
end Eecs482
