import Eecs482.ThreadPrograms

/-!
# How far a thread is in a call

What matters about the code that a thread still has to run is which of the
statements that the monitor sees it will come to.  `Follows` reads this off the
code, one statement after the other; the functions of the library follow the
phases of their calls, with the timer at any point where it may run.
-/

namespace Eecs482
namespace Threads

open Uniprocessor

/-- What a context is doing. -/
inductive Phase (κ : Type)
  /-- It runs user code, or has no statement before it that the monitor sees. -/
  | idle
  | locking
  /-- It has joined the queue of the mutex, in `lock`. -/
  | queued
  | unlocking
  | waiting (cv : κ)
  /-- It has joined the queue of the condition variable, and holds the mutex. -/
  | entering (cv : κ)
  /-- It has given up the mutex. -/
  | waited (cv : κ)
  /-- It has joined the queue of the mutex, in `wait`. -/
  | requeued
  | signalling (cv : κ)
  | broadcasting (cv : κ)
  /-- `unlock` or `wait` throws. -/
  | throwing
  | exiting
  | finished
  /-- The host is going to create the main thread. -/
  | booting
  /-- The host is at its loop. -/
  | hosting
  /-- The main thread is going to create a thread, or to join one. -/
  | creating
  | joining (t : ℕ)
deriving DecidableEq

variable {ι κ : Type} {total : ℕ}

/-- The thread may be interrupted, and may switch to others. -/
def Phase.Calm (phase : Phase κ) : Prop :=
  ∀ cv, phase ≠ .entering cv

/-- The thread is going to give up the mutex, which it should hold. -/
def Phase.Releases : Phase κ → Prop
  | .unlocking => True
  | .waiting _ => True
  | _ => False

/-- A phase of the host. -/
def Phase.Hosts : Phase κ → Prop
  | .booting => True
  | .hosting => True
  | _ => False

/-- What code may return in a phase. -/
def Phase.Ends (phase : Phase κ) : Outcome → Prop
  | .user false => phase = .idle ∨ ∃ t, phase = .joining t
  | .user true => phase = .throwing ∨ phase = .creating
  | .loop => phase = .hosting
  | .bootFailed => phase = .booting
  | .suspended => phase = .hosting

/-- Statements that the monitor does not see. -/
def quiet : ThreadOp → Bool
  | .push .ready => true
  | .push _ => false
  | .pop (.cvQueue _) => false
  | .pop _ => true
  | .wakeAll (.joinQueue _) => true
  | .wakeAll _ => false
  | .makeTcb => false
  | .checkOwnership _ => false
  | .occupyFront _ => false
  | .note _ => false
  | _ => true

/-- A statement with its answer takes a context from phase to phase. -/
inductive Next (N : Numbering ι κ total) :
    Phase κ → (op : ThreadOp) → threadInterface.Answer op → Phase κ → Prop
  | quiet {phase : Phase κ} {op : ThreadOp} {answer : threadInterface.Answer op}
      (hcalm : phase.Calm) (hquiet : quiet op = true) : Next N phase op answer phase
  /-- The mutex is handed over, which is a step of the receiver. -/
  | hands {phase : Phase κ} (hcalm : phase.Calm) (hthread : ¬phase.Hosts) :
      Next N phase (.occupyFront N.mutex) () phase
  | queues : Next N .locking (.push (.mutexQueue N.mutex)) () .queued
  | requeues {cv : κ} : Next N (.waited cv) (.push (.mutexQueue N.mutex)) () .requeued
  | locked : Next N .locking (.note (.returned · N.mutex)) () .idle
  | granted : Next N .queued (.note (.returned · N.mutex)) () .idle
  | relocked {cv : κ} : Next N (.waited cv) (.note (.returned · N.mutex)) () .idle
  | regranted : Next N .requeued (.note (.returned · N.mutex)) () .idle
  | owned {phase : Phase κ} (hreleases : phase.Releases) :
      Next N phase (.checkOwnership N.mutex) true phase
  | disowned {phase : Phase κ} (hreleases : phase.Releases) :
      Next N phase (.checkOwnership N.mutex) false .throwing
  | unlocked : Next N .unlocking (.note (.unlocked · N.mutex)) () .idle
  | enters {cv : κ} : Next N (.waiting cv) (.push (.cvQueue (N.cv cv))) () (.entering cv)
  | waits {cv : κ} : Next N (.entering cv) (.note (.waitCalled · N.mutex)) () (.waited cv)
  /-- `signal` finds nobody to wake. -/
  | nobody {cv : κ} : Next N (.signalling cv) (.empty (.cvQueue (N.cv cv))) true .idle
  | signals {cv : κ} : Next N (.signalling cv) (.pop (.cvQueue (N.cv cv))) () .idle
  | broadcasts {cv : κ} : Next N (.broadcasting cv) (.wakeAll (.cvQueue (N.cv cv))) () .idle
  | finishes : Next N .exiting (.note .finished) () .finished
  | boots {t : ℕ} : Next N .booting .makeTcb (some t) .hosting
  | bootFails : Next N .booting .makeTcb none .booting
  | creates {t : ℕ} : Next N .creating .makeTcb (some t) .idle
  | createFails : Next N .creating .makeTcb none .creating
  | joins {t : ℕ} : Next N (.joining t) (.push (.joinQueue t)) () .idle

/-- The code, started in a phase, goes through phases as `Next` says. -/
def Follows (N : Numbering ι κ total) : ThreadCode Outcome → Phase κ → Prop
  | .ret value, phase => phase.Ends value
  | .call (.access op) next, phase =>
      ∀ answer, ∃ phase', Next N phase op answer phase' ∧ Follows N (next answer) phase'
  | .call .interruptDisable next, phase => phase.Calm ∧ Follows N (next ()) phase
  | .call .interruptEnable next, phase => phase.Calm ∧ Follows N (next ()) phase
  | .call .interruptEnableSuspend next, phase =>
      phase = .hosting ∧ Follows N (next ()) phase
  | .call (.swapcontext _ _) next, phase => phase.Calm ∧ Follows N (next ()) phase
  | .call (.setcontext _) _, phase => phase = .finished

/-- The phase of a thread that has made a call of a monitor. -/
def Phase.ofAction {σ L : Type} : MonitorAction κ σ L → Phase κ
  | .lock _ => .locking
  | .unlock _ => .unlocking
  | .wait cv _ => .waiting cv
  | .signal cv _ => .signalling cv
  | .broadcast cv _ => .broadcasting cv
  | .run _ => .idle
  | .stop => .exiting

/-- The phase of the main thread in its next call. -/
def mainPhase (total made : ℕ) : Phase κ :=
  if made < total then .creating
  else if made < 2 * total then .joining (made - total + 1)
  else .exiting

variable {N : Numbering ι κ total} {phase phase' : Phase κ} {op : ThreadOp}

/-! ## Rules -/

theorem follows_quiet
    {next : threadInterface.Answer op → ThreadCode Outcome} (hcalm : phase.Calm)
    (hquiet : quiet op = true) (h : ∀ answer, Follows N (next answer) phase) :
    Follows N (.call (.access op) next) phase :=
  fun answer => ⟨phase, .quiet hcalm hquiet, h answer⟩

theorem follows_return
    {threw : Bool} (hcalm : phase.Calm) (hends : phase.Ends (.user threw)) :
    Follows N (.call .interruptEnable fun _ => .ret (.user threw)) phase :=
  ⟨hcalm, hends⟩

theorem follows_hands
    {next : Unit → ThreadCode Outcome} (hcalm : phase.Calm) (hthread : ¬phase.Hosts)
    (h : Follows N (next ()) phase) :
    Follows N (.call (.access (.occupyFront N.mutex)) next) phase :=
  fun _ => ⟨phase, .hands hcalm hthread, h⟩

theorem follows_swapHelper
    {next : Unit → ThreadCode Outcome} (hcalm : phase.Calm)
    (h : Follows N (next ()) phase) : Follows N (swapHelper >>= next) phase := by
  have hreset : Follows N (.call (.access .previousReset) next) phase :=
    follows_quiet hcalm rfl fun _ => h
  refine follows_quiet hcalm rfl fun empty => ?_
  cases empty with
  | true => exact follows_quiet hcalm rfl fun _ => ⟨hcalm, hreset⟩
  | false =>
      refine follows_quiet hcalm rfl fun _ => ?_
      refine follows_quiet hcalm rfl fun _ => ?_
      refine follows_quiet hcalm rfl fun _ => ?_
      refine follows_quiet hcalm rfl fun _ => ?_
      exact ⟨hcalm, hreset⟩

/-- The timer changes no phase. -/
theorem follows_yield
    {code : ThreadCode Outcome} (hcalm : phase.Calm) (h : Follows N code phase) :
    Follows N (yield >>= fun _ => code) phase := by
  refine ⟨hcalm, follows_quiet hcalm rfl fun empty => ?_⟩
  cases empty with
  | true => exact ⟨hcalm, h⟩
  | false =>
      refine follows_quiet hcalm rfl fun _ => ?_
      change Follows N (swapHelper >>= (fun _ => interruptEnable) >>= fun _ => code) phase
      rw [Prog.bind_assoc]
      exact follows_swapHelper hcalm ⟨hcalm, h⟩

/-! ## The functions of the library -/

/-- The end of `lock` and `wait`. -/
theorem follows_returned
    (hnext : Next N phase (.note (.returned · N.mutex)) () .idle) :
    Follows N (.call (.access (.note (.returned · N.mutex))) fun _ =>
      .call .interruptEnable fun _ => .ret (.user false)) phase :=
  fun _ => ⟨.idle, hnext, nofun, .inl rfl⟩

theorem follows_lock : Follows N (lock N.mutex) .locking := by
  refine ⟨nofun, follows_quiet nofun rfl fun status => ?_⟩
  cases status with
  | true =>
      intro _
      exact ⟨.queued, .queues, follows_swapHelper nofun (follows_returned .granted)⟩
  | false =>
      refine follows_quiet nofun rfl fun _ => follows_quiet nofun rfl fun _ => ?_
      exact follows_returned .locked

theorem follows_unlock : Follows N (unlock N.mutex) .unlocking := by
  refine ⟨nofun, fun owned => ?_⟩
  cases owned with
  | false => exact ⟨.throwing, .disowned trivial, follows_return nofun (.inl rfl)⟩
  | true =>
      refine ⟨.unlocking, .owned trivial, fun _ => ⟨.idle, .unlocked, ?_⟩⟩
      refine follows_quiet nofun rfl fun _ => follows_quiet nofun rfl fun empty => ?_
      have hend : Follows N (.call .interruptEnable fun _ => .ret (.user false)) .idle :=
        follows_return nofun (.inl rfl)
      cases empty with
      | true => exact hend
      | false =>
          refine follows_hands nofun id ?_
          refine follows_quiet nofun rfl fun _ => follows_quiet nofun rfl fun _ => ?_
          exact follows_quiet nofun rfl fun _ => hend

theorem follows_wait {cv : κ} : Follows N (wait (N.cv cv) N.mutex) (.waiting cv) := by
  have hagain : Follows N (do
      if !(← access (.status N.mutex)) then
        access (.occupyRunning N.mutex)
        access (.setStatus N.mutex true)
      else
        access (.push (.mutexQueue N.mutex))
        swapHelper
      access (.note (.returned · N.mutex))
      interruptEnable
      return .user false) (.waited cv) := by
    refine follows_quiet nofun rfl fun status => ?_
    cases status with
    | false =>
        refine follows_quiet nofun rfl fun _ => follows_quiet nofun rfl fun _ => ?_
        exact follows_returned .relocked
    | true =>
        intro _
        exact ⟨.requeued, .requeues, follows_swapHelper nofun (follows_returned .regranted)⟩
  refine ⟨nofun, fun owned => ?_⟩
  cases owned with
  | false => exact ⟨.throwing, .disowned trivial, follows_return nofun (.inl rfl)⟩
  | true =>
      refine ⟨.waiting cv, .owned trivial, fun _ => ?_⟩
      refine ⟨.entering cv, .enters, fun _ => ⟨.waited cv, .waits, ?_⟩⟩
      refine follows_quiet nofun rfl fun _ => follows_quiet nofun rfl fun empty => ?_
      cases empty with
      | true => exact follows_swapHelper nofun hagain
      | false =>
          refine follows_quiet nofun rfl fun _ => follows_quiet nofun rfl fun _ => ?_
          refine follows_hands nofun id (follows_quiet nofun rfl fun _ => ?_)
          exact follows_swapHelper nofun hagain

theorem follows_signal {cv : κ} : Follows N (signal (N.cv cv)) (.signalling cv) := by
  refine ⟨nofun, fun empty => ?_⟩
  cases empty with
  | true => exact ⟨.idle, .nobody, nofun, .inl rfl⟩
  | false =>
      refine ⟨.signalling cv, .quiet nofun rfl, ?_⟩
      exact follows_quiet nofun rfl fun _ _ => ⟨.idle, .signals, nofun, .inl rfl⟩

theorem follows_broadcast {cv : κ} :
    Follows N (broadcast (N.cv cv)) (.broadcasting cv) :=
  ⟨nofun, fun _ => ⟨.idle, .broadcasts, nofun, .inl rfl⟩⟩

theorem follows_threadCreate : Follows N threadCreate .creating := by
  refine ⟨nofun, fun tcb => ?_⟩
  cases tcb with
  | none => exact ⟨.creating, .createFails, nofun, .inr rfl⟩
  | some t =>
      refine ⟨.idle, .creates, ?_⟩
      refine follows_quiet nofun rfl fun _ => follows_quiet nofun rfl fun _ => ?_
      exact follows_return nofun (.inl rfl)

theorem follows_join {t : ℕ} : Follows N (join t) (.joining t) := by
  refine ⟨nofun, follows_quiet nofun rfl fun expired => ?_⟩
  cases expired with
  | true => exact follows_return nofun (.inr ⟨t, rfl⟩)
  | false =>
      intro _
      refine ⟨.idle, .joins, follows_swapHelper nofun ?_⟩
      exact follows_return nofun (.inl rfl)

theorem follows_starter : Follows N starter .idle :=
  follows_quiet nofun rfl fun _ => follows_return nofun (.inl rfl)

theorem follows_starterExit : Follows N starterExit .exiting := by
  refine ⟨nofun, follows_quiet nofun rfl fun self => ?_⟩
  refine follows_quiet nofun rfl fun _ _ => ⟨.finished, .finishes, ?_⟩
  refine follows_quiet nofun rfl fun empty => ?_
  cases empty with
  | true => exact rfl
  | false =>
      refine follows_quiet nofun rfl fun _ => follows_quiet nofun rfl fun _ => ?_
      refine follows_quiet nofun rfl fun _ => follows_quiet nofun rfl fun _ => ?_
      exact follows_quiet nofun rfl fun _ => rfl

theorem follows_cpuBoot : Follows N cpuBoot .booting := by
  intro tcb
  cases tcb with
  | none => exact ⟨.booting, .bootFails, nofun, rfl⟩
  | some t =>
      refine ⟨.hosting, .boots, ?_⟩
      refine follows_quiet nofun rfl fun _ => follows_quiet nofun rfl fun _ => ?_
      exact follows_quiet nofun rfl fun _ => rfl

theorem follows_cpuLoop : Follows N cpuLoop .hosting := by
  refine follows_quiet nofun rfl fun empty => ?_
  cases empty with
  | false =>
      refine follows_quiet nofun rfl fun _ => follows_quiet nofun rfl fun _ => ?_
      refine follows_quiet nofun rfl fun _ => ⟨nofun, ?_⟩
      exact follows_quiet nofun rfl fun _ => rfl
  | true =>
      refine follows_quiet nofun rfl fun _ => follows_quiet nofun rfl fun _ => ?_
      exact follows_quiet nofun rfl fun _ => ⟨rfl, rfl⟩

/-- The call that an action stands for follows its phase. -/
theorem follows_call
    {σ L : Type} {action : MonitorAction κ σ L} {call : UserCall} {next : L}
    (haction : N.call action = some (call, next)) :
    Follows N call.code (Phase.ofAction action) := by
  cases action <;> cases haction
  case lock => exact follows_lock
  case unlock => exact follows_unlock
  case wait => exact follows_wait
  case signal => exact follows_signal
  case broadcast => exact follows_broadcast

theorem follows_mainCall (made : ℕ) :
    Follows N (mainCall total made).code (mainPhase total made) := by
  unfold mainCall mainPhase
  split
  case isTrue => exact follows_threadCreate
  case isFalse =>
      split
      case isTrue => exact follows_join
      case isFalse => exact follows_starterExit

end Threads
end Eecs482
