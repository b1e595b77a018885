import Eecs482.ThreadCallers

/-!
# What one step does to the queues

All that a step of a run can do to the log and the queues, with what is known
where it is done.  What is said about orders and about condition variables is
derived from these cases.
-/

namespace Eecs482
namespace Threads

open Uniprocessor

variable {place : ℕ → Place} {s s' : State} {t u m : ℕ} {q : Queue} {rest : List ℕ}
  {self : ContextRef} {op : ThreadOp}

/-! ## What a statement does -/

/-- What a statement, called by `self` in `code`, does to the log and the queues. -/
inductive Effect (self : ContextRef) (code : ThreadCode Outcome) (s s' : State) : Prop
  | still (h : Becomes [] s.queues s s')
  | readies {t : ℕ} (hnot : t ∉ s.queues .ready)
      (h : Becomes [] (appended t .ready s.queues) s s')
  | joins {t : ℕ} {q : Queue} (hclean : ∀ n m log, s.log ≠ .handed n m :: log)
      (hwhere : CalledWhere self code s (.push q)) (hrunning : s.runningThread = some t)
      (h : Becomes [.push t q] (appended t q s.queues) s s')
  | leaves {t : ℕ} {q : Queue} {rest : List ℕ} (hhands : HandsOver s (.pop q))
      (hwhere : CalledWhere self code s (.pop q)) (hqueue : s.queues q = t :: rest)
      (h : Becomes [.pop t q] (Function.update s.queues q rest) s s')
  | wakes {q : Queue} (hclean : ∀ n m log, s.log ≠ .handed n m :: log)
      (hwhere : CalledWhere self code s (.wakeAll q))
      (h : Becomes ((s.queues q).map (Event.pop · q)).reverse (emptied q s.queues) s s')
  | hands {n m : ℕ} {rest : List ℕ} (hclean : ∀ n m log, s.log ≠ .handed n m :: log)
      (hnobody : ∀ u, ¬Holds u m s.log)
      (hqueue : s.queues (.mutexQueue m) = n :: rest)
      (h : Becomes [.handed n m] s.queues s s')
  | notes {t : ℕ} {event : Event} (hclean : ∀ n m log, s.log ≠ .handed n m :: log)
      (hself : self = .thread t) (hnotes : Notes t code s event)
      (hs' : s' = s.note event) (h : Becomes [event] s.queues s s')

theorem HandsOver.clean
    (h : HandsOver s op) (hpush : ∀ q, op ≠ .readyPushFront q) (hpop : ∀ q, op ≠ .pop q) :
    ∀ n m log, s.log ≠ .handed n m :: log := by
  intro n m log hlog
  rcases h n m log hlog with hop | hop
  · exact hpush _ hop
  · exact hpop _ hop

theorem becomes_same (hlog : s'.log = s.log) (hqueues : s'.queues = s.queues)
    (hcreated : s.created ≤ s'.created) : Becomes [] s.queues s s' :=
  ⟨hlog, fun _ _ => by rw [hqueues], hcreated⟩

theorem effect_of_exec
    {code : ThreadCode Outcome} {answer : threadInterface.Answer op}
    (hhands : HandsOver s op) (hwhere : CalledWhere self code s op)
    (hexec : (answer, s') ∈ State.exec op s) : Effect self code s s' := by
  cases op with
  | previousReset =>
      cases List.mem_singleton.mp hexec
      exact .still becomes_previousReset
  | previousRunning =>
      cases List.mem_singleton.mp hexec
      exact .still becomes_previousRunning
  | runningReset =>
      cases List.mem_singleton.mp hexec
      exact .still becomes_runningReset
  | runningFront =>
      simp only [State.exec] at hexec
      split at hexec
      · cases hexec
      · cases List.mem_singleton.mp hexec
        exact .still becomes_runningFront
  | running =>
      rw [mem_exec_running hexec]
      exact .still (becomes_same rfl rfl (Nat.le_refl _))
  | empty q =>
      simp only [State.exec] at hexec
      split at hexec
      · cases List.mem_singleton.mp hexec
        exact .still (becomes_same rfl rfl (Nat.le_refl _))
      · cases hexec
  | push q =>
      have hclean := hhands.clean (by simp) (by simp)
      simp only [State.exec] at hexec
      split at hexec
      · cases hexec
      case h_2 t hrunning =>
        split at hexec
        · cases List.mem_singleton.mp hexec
          exact .joins hclean hwhere hrunning ⟨rfl, fun _ _ => rfl, Nat.le_refl _⟩
        · cases hexec
  | readyPushFront q =>
      simp only [State.exec] at hexec
      split at hexec
      · cases hexec
      case h_2 t rest hqueue =>
        cases List.mem_singleton.mp hexec
        exact .readies (hwhere t rest hqueue) becomes_push
  | pop q =>
      simp only [State.exec] at hexec
      split at hexec
      · cases hexec
      case h_2 t rest hqueue =>
        cases List.mem_singleton.mp hexec
        exact .leaves hhands hwhere hqueue becomes_pop
  | wakeAll q =>
      have hclean := hhands.clean (by simp) (by simp)
      simp only [State.exec] at hexec
      split at hexec
      · cases List.mem_singleton.mp hexec
        exact .wakes hclean hwhere (becomes_wakeAll hwhere.1)
      · cases hexec
  | makeTcb =>
      rcases List.mem_pair.mp hexec with heq | heq <;> cases heq
      · exact .still (becomes_same rfl rfl (Nat.le_refl _))
      · exact .still (becomes_same rfl rfl (Nat.le_succ _))
  | readyPushTcb t =>
      cases List.mem_singleton.mp hexec
      exact .readies hwhere becomes_push
  | tcbReset t =>
      cases List.mem_singleton.mp hexec
      exact .still becomes_tcbReset
  | expired t =>
      cases List.mem_singleton.mp hexec
      exact .still (becomes_same rfl rfl (Nat.le_refl _))
  | status m =>
      cases List.mem_singleton.mp hexec
      exact .still (becomes_same rfl rfl (Nat.le_refl _))
  | setStatus m status =>
      cases List.mem_singleton.mp hexec
      exact .still (becomes_same rfl rfl (Nat.le_refl _))
  | occupyRunning m =>
      cases List.mem_singleton.mp hexec
      exact .still (becomes_same rfl rfl (Nat.le_refl _))
  | occupyFront m =>
      have hclean := hhands.clean (by simp) (by simp)
      simp only [State.exec] at hexec
      split at hexec
      · cases hexec
      case h_2 n rest hqueue =>
        cases List.mem_singleton.mp hexec
        exact .hands hclean hwhere hqueue ⟨rfl, fun _ _ => rfl, Nat.le_refl _⟩
  | checkOwnership m =>
      cases List.mem_singleton.mp hexec
      exact .still (becomes_same rfl rfl (Nat.le_refl _))
  | newHostContext =>
      cases List.mem_singleton.mp hexec
      exact .still (becomes_same rfl rfl (Nat.le_refl _))
  | deleteHostContext =>
      cases List.mem_singleton.mp hexec
      exact .still (becomes_same rfl rfl (Nat.le_refl _))
  | note event =>
      have hclean := hhands.clean (by simp) (by simp)
      obtain ⟨t, hself, hrunning, hnotes⟩ := hwhere
      simp only [State.exec, hrunning] at hexec
      cases List.mem_singleton.mp hexec
      exact .notes hclean hself hnotes rfl ⟨rfl, fun _ _ => rfl, Nat.le_refl _⟩

/-- An event that is about no queue has been noted. -/
theorem Effect.noted
    {code : ThreadCode Outcome} {event : Event} (h : Effect self code s s')
    (hlog : s'.log = event :: s.log) (hpush : ∀ t q, event ≠ .push t q)
    (hpop : ∀ t q, event ≠ .pop t q) (hhanded : ∀ n m, event ≠ .handed n m) :
    s' = s.note event ∧ ∃ t, self = .thread t ∧ Notes t code s event := by
  have hone : ∀ events : List Event, s'.log = events ++ s.log → events = [event] := by
    intro events hevents
    rw [hevents, ← List.singleton_append] at hlog
    exact List.append_cancel_right hlog
  cases h with
  | still h => cases hone _ h.log
  | readies _ h => cases hone _ h.log
  | joins _ _ _ h =>
      cases hone _ h.log
      exact absurd rfl (hpush _ _)
  | leaves _ _ _ h =>
      cases hone _ h.log
      exact absurd rfl (hpop _ _)
  | @wakes q _ _ h =>
      have hmem : event ∈ ((s.queues q).map (Event.pop · q)).reverse := by
        rw [hone _ h.log]
        exact List.mem_cons_self
      rw [List.mem_reverse, List.mem_map] at hmem
      obtain ⟨t, _, heq⟩ := hmem
      exact absurd heq.symm (hpop t q)
  | hands _ _ _ h =>
      cases hone _ h.log
      exact absurd rfl (hhanded _ _)
  | @notes t event _ hself hnotes hs' h =>
      cases hone _ h.log
      exact ⟨hs', t, hself, hnotes⟩

/-- The waits of others are left alone. -/
theorem Effect.inWait_eq
    {code : ThreadCode Outcome} (h : Effect self code s s') (hself : self ≠ .thread t) :
    inWait t s'.log = inWait t s.log := by
  cases h with
  | still h => rw [h.log, List.nil_append]
  | readies _ h => rw [h.log, List.nil_append]
  | joins _ _ _ h =>
      rw [h.log]
      rfl
  | leaves _ _ _ h =>
      rw [h.log]
      rfl
  | wakes _ _ h => rw [h.log, inWait_popped]
  | hands _ _ _ h =>
      rw [h.log]
      rfl
  | notes _ hthread hnotes _ h =>
      have hother : ∀ u, self = .thread u → u ≠ t := by
        rintro u hu rfl
        exact hself hu
      rw [h.log]
      cases hnotes with
      | finished => rfl
      | unlocked m => rfl
      | waitCalled => exact if_neg (hother _ hthread)
      | returned => exact if_neg (hother _ hthread)

/-! ## All code that can be run -/

theorem kept_calls : Reading.Kept assertions calls where
  quiet := by
    intro self op next s answer s' hguard hexec ref hne _
    obtain ⟨hhands, hwhere⟩ := hguard op next rfl
    cases ref with
    | host => rfl
    | thread t => exact (effect_of_exec hhands hwhere hexec).inWait_eq hne.symm
  made := by
    intro self op next s answer s' ref hguard hexec hmakes
    obtain ⟨hhands, hwhere⟩ := hguard op next rfl
    cases op with
    | makeTcb =>
        rcases List.mem_pair.mp hexec with heq | heq
        · cases heq
          cases hmakes
        · cases heq
          cases hmakes
          exact hwhere
    | _ => cases hmakes
  entry := by
    intro ref s hresumed horderly hfresh hfresh'
    cases ref with
    | host => cases hfresh
    | thread t => exact guarded_starter horderly hfresh'
  timer := by
    intro self s code hsettled hcode
    cases self with
    | thread t => exact guarded_yield hcode
    | host =>
        intro s₁ hempty horderly hview hview'
        have hexec : State.exec (.empty .ready) s₁ = [(true, s₁)] := by
          simp [State.exec, State.hasQueue, show s₁.queues .ready = [] from hempty _]
        refine guarded_step horderly.1 trivial hexec ?_
        exact ⟨horderly, hcode.of_view hview hview'⟩
  settled := by
    intro self value s code hreturned _ _ hfollow
    cases hfollow with
    | loop =>
        obtain ⟨_, hfalse, _⟩ := hreturned
        cases hfalse
    | user call =>
        cases call with
        | create => exact guarded_threadCreate
        | join u => exact guarded_join
        | yield => exact guarded_yield trivial
        | lock m => exact guarded_lock
        | unlock m => exact guarded_unlock
        | wait cv m => exact guarded_wait
        | signal cv => exact guarded_signal
        | broadcast cv => exact guarded_broadcast
        | exit => exact guarded_starterExit
  switching := by
    intro self value s code hreturned horderly hfollow
    cases hfollow with
    | loop => exact guarded_cpuLoop horderly
    | user call =>
        obtain ⟨hfalse, _⟩ := hreturned
        cases hfalse

/-- What every step of every run does. -/
theorem effect_of_step
    {c c' : ThreadCpu} {event : CpuEvent threadInterface}
    (hreach : machine.system.Reachable boot c) (hstep : machine.Step c event c') :
    Effect c.executing c.current c.state c'.state := by
  have hsame : Becomes [] c.state.queues c.state c.state :=
    becomes_same rfl rfl (Nat.le_refl _)
  cases hstep with
  | access hrunning hcurrent hexec =>
      have hguard := Reading.guard_of_reachable verified kept_calls safe_cpuBoot
        ⟨nofun, nofun⟩ guarded_cpuBoot hreach hrunning hcurrent
      obtain ⟨hhands, hwhere⟩ := hguard _ _ hcurrent
      exact effect_of_exec hhands hwhere hexec
  | interruptDisable => exact .still hsame
  | interruptEnable => exact .still hsame
  | interruptEnableSuspend => exact .still hsame
  | swapcontext => exact .still hsame
  | setcontext => exact .still hsame
  | follow => exact .still hsame
  | timer => exact .still hsame

end Threads
end Eecs482
