import Eecs482.RelyGuarantee

/-!
# Programs with notes

What a program does between two calls leaves no trace in a run.  A program with
notes makes it visible: a note is a step that changes nothing, and without its
notes the program is the one it comments on.  A ghost collects what the calls of
a thread let it know, and the notes may rest on that.
-/

namespace Eecs482

/-- An operation of `I`, or a note. -/
inductive NotedOp (I : Interface) (A : Type)
  | op (op : I.Op)
  | note (a : A)

/-- The interface `I` with notes of type `A`. -/
abbrev Interface.noted (I : Interface) (A : Type) : Interface where
  Op := NotedOp I A
  Answer
    | .op op => I.Answer op
    | .note _ => Unit

variable {I : Interface} {A : Type} {α β σ γ : Type}

namespace Prog

/-- The program without its notes. -/
def erase : Prog (I.noted A) α → Prog I α
  | .ret value => .ret value
  | .call (.op op) next => .call op fun answer => (next answer).erase
  | .call (.note _) next => (next ()).erase

/-- The program, with no notes in it. -/
def plain : Prog I α → Prog (I.noted A) α
  | .ret value => .ret value
  | .call op next => .call (I := I.noted A) (.op op) fun answer => (next answer).plain

def note (a : A) : Prog (I.noted A) Unit :=
  perform (I := I.noted A) (.note a)

/-- Several notes, one after the other. -/
def noteAll : List A → Prog (I.noted A) Unit
  | [] => .ret ()
  | a :: rest => .call (I := I.noted A) (.note a) fun _ => noteAll rest

@[simp] theorem erase_ret (value : α) :
    (Prog.ret value : Prog (I.noted A) α).erase = .ret value := rfl

@[simp] theorem erase_bind
    (program : Prog (I.noted A) α) (f : α → Prog (I.noted A) β) :
    (program >>= f).erase = program.erase >>= fun value => (f value).erase := by
  induction program with
  | ret value => rfl
  | call op next ih =>
      cases op with
      | op op =>
          simp only [call_bind, erase]
          congr 1
          funext answer
          exact ih answer
      | note a => exact ih ()

theorem erase_seq
    {p : Prog (I.noted A) α} {q : Prog I α} {f : α → Prog (I.noted A) β}
    {f' : α → Prog I β} (hp : p.erase = q) (hf : ∀ value, (f value).erase = f' value) :
    (p >>= f).erase = q >>= f' := by
  rw [erase_bind, hp]
  congr 1
  funext value
  exact hf value

/-- A part without calls leaves its value. -/
theorem erase_value
    {p : Prog (I.noted A) α} {value : α} {f : α → Prog (I.noted A) β} {q : Prog I β}
    (hp : p.erase = .ret value) (hf : (f value).erase = q) : (p >>= f).erase = q := by
  rw [erase_bind, hp]
  exact hf

theorem erase_ite
    {c : Prop} [Decidable c] {p p' : Prog (I.noted A) α} {q q' : Prog I α}
    (hthen : p.erase = q) (helse : p'.erase = q') :
    (if c then p else p').erase = if c then q else q' := by
  split
  · exact hthen
  · exact helse

@[simp] theorem erase_plain (program : Prog I α) :
    (program.plain : Prog (I.noted A) α).erase = program := by
  induction program with
  | ret value => rfl
  | call op next ih =>
      simp only [plain, erase]
      congr 1
      funext answer
      exact ih answer

@[simp] theorem erase_note (a : A) : (note a : Prog (I.noted A) Unit).erase = .ret () :=
  rfl

@[simp] theorem erase_noteAll (notes : List A) :
    (noteAll notes : Prog (I.noted A) Unit).erase = .ret () := by
  induction notes with
  | nil => rfl
  | cons a rest ih => exact ih

end Prog

/-! ## Runs -/

namespace Machine

variable {M : Machine I σ}

/-- The machine whose threads run programs with notes. -/
def noted (M : Machine I σ) (program : M.Request → Prog (I.noted A) Unit) :
    Machine (I.noted A) σ where
  Request := M.Request
  program := program
  arrive := M.arrive
  exec i
    | .op op, s => M.exec i op s
    | .note _, s => some ((), s)

end Machine

/-- The configuration with the notes left out. -/
def Config.erase (c : Config (I.noted A) σ) : Config I σ where
  shared := c.shared
  thread i := (c.thread i).map Prog.erase

theorem erase_thread (c : Config (I.noted A) σ) (i : ℕ) :
    c.erase.thread i = (c.thread i).map Prog.erase := rfl

theorem erase_update (c : Config (I.noted A) σ) (s : σ) (i : ℕ)
    (program : Prog (I.noted A) Unit) :
    Config.erase { shared := s, thread := Function.update c.thread i (some program) } =
      { shared := s
        thread := Function.update c.erase.thread i (some program.erase) } := by
  unfold Config.erase
  congr 1
  funext j
  by_cases hj : j = i
  · subst hj
    simp only [Function.update_self, Option.map_some]
  · simp only [Function.update_of_ne hj]

section Runs

variable {M : Machine I σ} {program : M.Request → Prog (I.noted A) Unit} {initial : σ}
variable {c c' : Config (I.noted A) σ} {plain plain' : Config I σ}

/-- A note is a step that only its own thread sees. -/
theorem Machine.Step.note
    {i : ℕ} {a : A} {next : Unit → Prog (I.noted A) Unit}
    (hthread : c.thread i = some (.call (.note a) next)) :
    (M.noted program).Step c
      { c with thread := Function.update c.thread i (some (next ())) } :=
  .exec (M := M.noted program) i (.note a) next () c.shared hthread rfl

/-- Running the notes in front of it, a thread gets to its next call. -/
theorem exists_call
    {i : ℕ} {op : I.Op} {next : I.Answer op → Prog I Unit} (p : Prog (I.noted A) Unit)
    (hthread : c.thread i = some p) (hp : p.erase = .call op next)
    (hreach : (M.noted program).Reachable initial c) :
    ∃ c' next', (M.noted program).Reachable initial c' ∧ c'.erase = c.erase ∧
      c'.thread i = some (.call (.op op) next') ∧
      ∀ answer, (next' answer).erase = next answer := by
  induction p generalizing c with
  | ret value => cases hp
  | call noted rest ih =>
      cases noted with
      | op op' =>
          simp only [Prog.erase, Prog.call.injEq] at hp
          obtain ⟨rfl, hnext⟩ := hp
          exact ⟨c, rest, hreach, rfl, hthread, fun answer =>
            congrFun (eq_of_heq hnext) answer⟩
      | note a =>
          have hstep : (M.noted program).Step c
              { c with thread := Function.update c.thread i (some (rest ())) } :=
            Machine.Step.note hthread
          have hsame : Config.erase
              { c with thread := Function.update c.thread i (some (rest ())) } =
              c.erase := by
            have herased : c.erase.thread i = some (rest ()).erase := by
              rw [erase_thread, hthread]
              rfl
            rw [erase_update, ← herased, Function.update_eq_self]
            rfl
          obtain ⟨c', next', hreach', herase', hcall⟩ :=
            ih () (Function.update_self _ _ _) hp (hreach.step hstep)
          exact ⟨c', next', hreach', herase'.trans hsame, hcall⟩

variable (herase : ∀ request, (program request).erase = M.program request)
include herase

/-- A step is one of the machine without notes, or a note. -/
theorem Machine.Step.erase (hstep : (M.noted program).Step c c') :
    M.Step c.erase c'.erase ∨ c'.erase = c.erase := by
  cases hstep with
  | arrive i request hfresh =>
      left
      have hprogram : ((M.noted program).program request).erase = M.program request :=
        herase request
      rw [erase_update, hprogram]
      refine .arrive (M := M) i request ?_
      rw [erase_thread, hfresh, Option.map_none]
  | exec i op next answer shared hthread hexec =>
      have hthread' : c.erase.thread i = some (Prog.call op next).erase := by
        rw [erase_thread, hthread, Option.map_some]
      rw [erase_update]
      cases op with
      | op op => exact .inl (.exec i op _ answer shared hthread' hexec)
      | note a =>
          right
          cases hexec
          have hsame : (Prog.call (I := I.noted A) (.note a) next).erase =
              (next ()).erase := rfl
          rw [hsame] at hthread'
          rw [← hthread', Function.update_eq_self]
          rfl

/-- Without its notes a run is a run of the machine. -/
theorem Machine.Reachable.erase (hreach : (M.noted program).Reachable initial c) :
    M.Reachable initial c.erase := by
  induction hreach with
  | start => exact .start
  | step _ hstep ih =>
      rcases hstep.erase herase with hstep | hsame
      · exact ih.step hstep
      · rw [hsame]
        exact ih

/-- Every run of the machine is one of the runs with notes. -/
theorem Machine.Reachable.exists_noted (hreach : M.Reachable initial plain) :
    ∃ c, (M.noted program).Reachable initial c ∧ c.erase = plain := by
  induction hreach with
  | start => exact ⟨_, .start, rfl⟩
  | step _ hstep ih =>
      obtain ⟨c, hreach, rfl⟩ := ih
      cases hstep with
      | arrive i request hfresh =>
          have hnone : c.thread i = none := Option.map_eq_none_iff.mp hfresh
          refine ⟨_, hreach.step (.arrive (M := M.noted program) i request hnone), ?_⟩
          have hprogram : ((M.noted program).program request).erase = M.program request :=
            herase request
          rw [erase_update, hprogram]
          rfl
      | exec i op next answer shared hthread hexec =>
          obtain ⟨p, hp, hcall⟩ := Option.map_eq_some_iff.mp hthread
          obtain ⟨c', next', hreach', hsame, hthread', hnext⟩ :=
            exists_call p hp hcall hreach
          have hshared : c'.erase.shared = c.erase.shared := by rw [hsame]
          have hexec' : M.exec i op c'.shared = some (answer, shared) := by
            rw [← hexec, ← hshared]
            rfl
          refine ⟨_, hreach'.step (.exec (M := M.noted program) i (.op op) next' answer
            shared hthread' hexec'), ?_⟩
          rw [erase_update, hnext, hsame]

end Runs

/-! ## What the notes may rest on -/

/-- What the calls of a thread let it know: a ghost that each call updates, that
is tied to the shared state, and that tells something about the answers. -/
structure Ghost (M : Machine I σ) (γ : Type) where
  Holds : ℕ → γ → σ → Prop
  after : γ → I.Op → γ
  Answers : γ → (op : I.Op) → I.Answer op → Prop

variable {M : Machine I σ}

/-- Every note of the program satisfies `P`, and the results `Q`, for all
answers the ghost allows. -/
def Ghost.Notes (G : Ghost M γ) (P : A → Prop) (Q : α → γ → Prop) :
    Prog (I.noted A) α → γ → Prop
  | .ret value, g => Q value g
  | .call (.op op) next, g =>
      ∀ answer, G.Answers g op answer → G.Notes P Q (next answer) (G.after g op)
  | .call (.note a) next, g => P a ∧ G.Notes P Q (next ()) g

/-- The ghosts stay true in the runs from `initial`: a thread starts with
`start`, and its calls and those of the others keep what it knows. -/
structure Ghost.Tracks (G : Ghost M γ) (initial : σ) (start : γ) : Prop where
  arrive : ∀ c i request, M.Reachable initial c → c.thread i = none →
    G.Holds i start (M.arrive i request c.shared) ∧
    ∀ j g, j ≠ i → G.Holds j g c.shared → G.Holds j g (M.arrive i request c.shared)
  exec : ∀ c i op next answer s, M.Reachable initial c →
    c.thread i = some (.call op next) → M.exec i op c.shared = some (answer, s) →
    (∀ g, G.Holds i g c.shared → G.Answers g op answer ∧ G.Holds i (G.after g op) s) ∧
    ∀ j g, j ≠ i → G.Holds j g c.shared → G.Holds j g s

namespace Ghost

variable {G : Ghost M γ} {P : A → Prop} {Q : α → γ → Prop} {R : β → γ → Prop} {g : γ}

theorem Notes.mono
    {Q' : α → γ → Prop} {p : Prog (I.noted A) α} (hnotes : G.Notes P Q p g)
    (himp : ∀ value g', Q value g' → Q' value g') : G.Notes P Q' p g := by
  induction p generalizing g with
  | ret value => exact himp value g hnotes
  | call op next ih =>
      cases op with
      | op op => exact fun answer hanswer => ih answer (hnotes answer hanswer)
      | note a => exact ⟨hnotes.1, ih () hnotes.2⟩

theorem Notes.bind
    {p : Prog (I.noted A) α} {f : α → Prog (I.noted A) β} (hnotes : G.Notes P Q p g)
    (hf : ∀ value g', Q value g' → G.Notes P R (f value) g') :
    G.Notes P R (p >>= f) g := by
  induction p generalizing g with
  | ret value => exact hf value g hnotes
  | call op next ih =>
      cases op with
      | op op => exact fun answer hanswer => ih answer (hnotes answer hanswer)
      | note a => exact ⟨hnotes.1, ih () hnotes.2⟩

theorem Notes.note
    {a : A} {f : Unit → Prog (I.noted A) β} (ha : P a) (hf : G.Notes P R (f ()) g) :
    G.Notes P R (Prog.note a >>= f) g :=
  ⟨ha, hf⟩

theorem Notes.noteAll
    {notes : List A} {f : Unit → Prog (I.noted A) β} (hnotes : ∀ a ∈ notes, P a)
    (hf : G.Notes P R (f ()) g) : G.Notes P R (Prog.noteAll notes >>= f) g := by
  induction notes with
  | nil => exact hf
  | cons a rest ih =>
      refine ⟨hnotes a List.mem_cons_self, ?_⟩
      exact ih fun b hb => hnotes b (List.mem_cons_of_mem a hb)

theorem notes_plain (p : Prog I α) (g : γ) :
    G.Notes P (fun _ _ => True) (p.plain : Prog (I.noted A) α) g := by
  induction p generalizing g with
  | ret value => trivial
  | call op next ih => exact fun answer _ => ih answer _

/-- Every thread has a ghost that is true, and its notes rest on it. -/
theorem Tracks.exists_ghost
    {program : M.Request → Prog (I.noted A) Unit} {initial : σ} {start : γ}
    {c : Config (I.noted A) σ} (htracks : G.Tracks initial start)
    (herase : ∀ request, (program request).erase = M.program request)
    (hnotes : ∀ request, G.Notes P (fun _ _ => True) (program request) start)
    (hreach : (M.noted program).Reachable initial c) :
    ∀ i p, c.thread i = some p →
      ∃ g, G.Holds i g c.shared ∧ G.Notes P (fun _ _ => True) p g := by
  induction hreach with
  | start => exact fun i p hp => nomatch hp
  | @step c c' hreach hstep ih =>
      have hplain := hreach.erase herase
      cases hstep with
      | arrive i request hfresh =>
          have hnone : c.erase.thread i = none := by
            rw [erase_thread, hfresh, Option.map_none]
          obtain ⟨hstart, hothers⟩ := htracks.arrive _ i request hplain hnone
          intro j p hj
          by_cases hji : j = i
          · subst hji
            simp only [Function.update_self, Option.some.injEq] at hj
            subst hj
            exact ⟨start, hstart, hnotes request⟩
          · simp only [Function.update_of_ne hji] at hj
            obtain ⟨g, hg, hp⟩ := ih j p hj
            exact ⟨g, hothers j g hji hg, hp⟩
      | exec i op next answer shared hthread hexec =>
          obtain ⟨g, hg, hp⟩ := ih i _ hthread
          cases op with
          | op op =>
              have hcall : c.erase.thread i =
                  some (.call op fun answer => (next answer).erase) := by
                rw [erase_thread, hthread]
                rfl
              obtain ⟨hmine, hothers⟩ :=
                htracks.exec _ i op _ answer shared hplain hcall hexec
              intro j q hj
              by_cases hji : j = i
              · subst hji
                simp only [Function.update_self, Option.some.injEq] at hj
                subst hj
                obtain ⟨hanswer, hafter⟩ := hmine g hg
                exact ⟨_, hafter, hp answer hanswer⟩
              · simp only [Function.update_of_ne hji] at hj
                obtain ⟨g', hg', hq⟩ := ih j q hj
                exact ⟨g', hothers j g' hji hg', hq⟩
          | note a =>
              cases hexec
              intro j q hj
              by_cases hji : j = i
              · subst hji
                simp only [Function.update_self, Option.some.injEq] at hj
                subst hj
                exact ⟨g, hg, hp.2⟩
              · simp only [Function.update_of_ne hji] at hj
                exact ih j q hj

/-- Every note a run comes to satisfies `P`. -/
theorem Tracks.note
    {program : M.Request → Prog (I.noted A) Unit} {initial : σ} {start : γ}
    {c : Config (I.noted A) σ} {i : ℕ} {a : A} {next : Unit → Prog (I.noted A) Unit}
    (htracks : G.Tracks initial start)
    (herase : ∀ request, (program request).erase = M.program request)
    (hnotes : ∀ request, G.Notes P (fun _ _ => True) (program request) start)
    (hreach : (M.noted program).Reachable initial c)
    (hthread : c.thread i = some (.call (.note a) next)) : P a := by
  obtain ⟨g, _, hp⟩ := htracks.exists_ghost herase hnotes hreach i _ hthread
  exact hp.1

end Ghost

end Eecs482
