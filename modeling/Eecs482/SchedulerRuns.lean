import Eecs482.SchedulerInvariant

/-!
# The runs of the disk scheduler

`Invariant` adds to `Data` what each thread knows where it is, and that nobody
sleeps whose condition holds, unless the signal is about to be given.
-/

namespace Eecs482
namespace Scheduler

open Monitor

variable {n : ℕ} {maxDiskQueue : ℕ} {files : Fin n → List UInt32} {s t : State n}
  {i j : Fin n}

/-- What the server knows. -/
def ServerAt (s : Shared n) : MonitorThread Cv ServerLoc → Prop
  | .running .lock => s.requesterNum ≠ 0
  | .running .test => s.requesterNum ≠ 0
  | .running .wait => s.requesterNum ≠ 0 ∧ s.diskQueueFull = false
  | .running .serve => s.requesterNum ≠ 0 ∧ s.diskQueueFull = true
  | .running .returned => s.requesterNum = 0
  | .running _ => True
  | .asleep cv loc => cv = .serverCv ∧ loc = .test ∧ s.requesterNum ≠ 0
  | .woken loc => loc = .test ∧ s.requesterNum ≠ 0

/-- What a requester knows. -/
def RequesterAt (i : Fin n) (s : Shared n) : MonitorThread Cv RequesterLoc → Prop
  | .running (.wait _ _) => s.diskQueueFull = true ∨ s.requesterDone i = 0
  | .running (.request _ _) => s.diskQueueFull = false ∧ s.requesterDone i ≠ 0
  | .running _ => True
  | .asleep cv loc => cv = .requesterCv ∧ ∃ track tracks, loc = .test track tracks
  | .woken loc => ∃ track tracks, loc = .test track tracks

/-- A requester without the mutex knows nothing about the variables. -/
theorem RequesterAt.of_outside
    {shared shared' : Shared n} {thread : MonitorThread Cv RequesterLoc}
    (h : RequesterAt i shared thread)
    (hnot : ¬@Inside Cv _ (inside (.requester i)) thread) :
    RequesterAt i shared' thread := by
  cases thread with
  | asleep cv loc => exact h
  | woken loc => exact h
  | running loc =>
      cases loc with
      | wait track tracks => exact absurd rfl hnot
      | request track tracks => exact absurd rfl hnot
      | test track tracks => trivial
      | loop tracks => trivial
      | signal tracks => trivial
      | unlock tracks => trivial

/-- A server without the mutex knows about `requester_num` only. -/
theorem ServerAt.of_outside
    {shared shared' : Shared n} {thread : MonitorThread Cv ServerLoc}
    (h : ServerAt shared thread)
    (hnot : ¬@Inside Cv _ (inside (Thread.server : Thread n)) thread)
    (hnum : shared'.requesterNum = shared.requesterNum) : ServerAt shared' thread := by
  cases thread with
  | asleep cv loc =>
      rw [ServerAt, hnum]
      exact h
  | woken loc =>
      rw [ServerAt, hnum]
      exact h
  | running loc =>
      cases loc with
      | wait => exact absurd rfl hnot
      | serve => exact absurd rfl hnot
      | test => exact absurd rfl hnot
      | lock =>
          rw [ServerAt, hnum]
          exact h
      | returned =>
          rw [ServerAt, hnum]
          exact h
      | broadcast => trivial
      | unlock => trivial
      | check => trivial

structure Invariant (maxDiskQueue : ℕ) (files : Fin n → List UInt32) (s : State n) :
    Prop where
  exclusive : Exclusive inside s
  data : Data maxDiskQueue files s.left s.shared
  server : ServerAt s.shared (s.thread .server)
  requester : ∀ i, RequesterAt i s.shared (s.thread (.requester i))
  requesterAsleep : ∀ i cv loc, s.thread (.requester i) = .asleep cv loc →
    s.shared.diskQueueFull = true ∨ s.shared.requesterDone i = 0 ∨
      s.thread .server = .running .broadcast
  serverAsleep : ∀ cv loc, s.thread .server = .asleep cv loc →
    s.shared.diskQueueFull = false ∨
      ∃ i tracks, s.thread (.requester i) = .running (.signal tracks)

/-! ## Steps that leave the variables alone -/

theorem Invariant.server_moves
    {new : MonitorThread Cv ServerLoc} {owner : Option (Thread n)}
    (h : Invariant maxDiskQueue files s)
    (hexclusive : Exclusive inside
      (⟨s.shared, owner, Function.update s.thread .server new⟩ : State n))
    (hnew : ServerAt s.shared new) (hleave : s.thread .server ≠ .running .broadcast)
    (hasleep : ∀ cv loc, new = .asleep cv loc → s.shared.diskQueueFull = false) :
    Invariant maxDiskQueue files
      ⟨s.shared, owner, Function.update s.thread .server new⟩ where
  exclusive := hexclusive
  data := h.data
  server := by
    change ServerAt s.shared (Function.update s.thread .server new .server)
    rw [Function.update_self]
    exact hnew
  requester := h.requester
  requesterAsleep i cv loc hthread := by
    rcases h.requesterAsleep i cv loc hthread with hfull | hdone | hbroadcast
    · exact .inl hfull
    · exact .inr (.inl hdone)
    · exact absurd hbroadcast hleave
  serverAsleep cv loc hthread := by
    change Function.update s.thread .server new .server = _ at hthread
    rw [Function.update_self] at hthread
    exact .inl (hasleep cv loc hthread)

theorem left_update
    {new : MonitorThread Cv RequesterLoc} {owner : Option (Thread n)}
    {shared : Shared n} (j : Fin n) :
    State.left ⟨shared, owner, Function.update s.thread (.requester i) new⟩ j =
      Function.update s.left i new.loc.left j := by
  by_cases hj : j = i
  · subst hj
    simp only [State.left, Function.update_self]
  · have hne : Thread.requester j ≠ .requester i := by simpa using hj
    simp only [State.left, Function.update_of_ne hj, Function.update_of_ne hne]

theorem Invariant.requester_moves
    {new : MonitorThread Cv RequesterLoc} {owner : Option (Thread n)}
    (h : Invariant maxDiskQueue files s)
    (hexclusive : Exclusive inside
      (⟨s.shared, owner, Function.update s.thread (.requester i) new⟩ : State n))
    (hleft : new.loc.left = s.left i) (hnew : RequesterAt i s.shared new)
    (hleave : ∀ tracks, s.thread (.requester i) = .running (.signal tracks) →
      ∀ cv loc, s.thread .server ≠ .asleep cv loc)
    (hasleep : ∀ cv loc, new = .asleep cv loc →
      s.shared.diskQueueFull = true ∨ s.shared.requesterDone i = 0) :
    Invariant maxDiskQueue files
      ⟨s.shared, owner, Function.update s.thread (.requester i) new⟩ where
  exclusive := hexclusive
  data := by
    have hsame : State.left
        ⟨s.shared, owner, Function.update s.thread (.requester i) new⟩ = s.left := by
      funext j
      rw [left_update, hleft, Function.update_eq_self]
    rw [hsame]
    exact h.data
  server := h.server
  requester j := by
    change RequesterAt j s.shared
      (Function.update s.thread (.requester i) new (.requester j))
    by_cases hj : j = i
    · subst hj
      rw [Function.update_self]
      exact hnew
    · rw [Function.update_of_ne (by simpa using hj)]
      exact h.requester j
  requesterAsleep j cv loc hthread := by
    change Function.update s.thread (.requester i) new (.requester j) = _ at hthread
    by_cases hj : j = i
    · subst hj
      rw [Function.update_self] at hthread
      rcases hasleep cv loc hthread with hfull | hdone
      · exact .inl hfull
      · exact .inr (.inl hdone)
    · rw [Function.update_of_ne (by simpa using hj)] at hthread
      exact h.requesterAsleep j cv loc hthread
  serverAsleep cv loc hthread := by
    rcases h.serverAsleep cv loc hthread with hroom | ⟨j, tracks, hj⟩
    · exact .inl hroom
    · by_cases hji : j = i
      · subst hji
        exact absurd hthread (hleave tracks hj cv loc)
      · refine .inr ⟨j, tracks, ?_⟩
        change Function.update s.thread (.requester i) new (.requester j) = _
        rw [Function.update_of_ne (by simpa using hji)]
        exact hj

/-! ## Steps that change the variables -/

theorem Invariant.only_inside
    {k l : Thread n} (h : Invariant maxDiskQueue files s)
    (hk : Inside (inside k) (s.thread k)) (hl : Inside (inside l) (s.thread l)) :
    k = l := by
  have howner := (h.exclusive.owner_iff k).mpr hk
  rw [(h.exclusive.owner_iff l).mpr hl] at howner
  exact (Option.some.inj howner).symm

theorem Invariant.request_step
    {track : UInt32} {tracks : List UInt32} (h : Invariant maxDiskQueue files s)
    (hthread : s.thread (.requester i) = .running (.request track tracks))
    (hexclusive : Exclusive inside (⟨s.shared.request i track tracks.isEmpty, s.owner,
      Function.update s.thread (.requester i) (.running (.signal tracks))⟩ : State n)) :
    Invariant maxDiskQueue files ⟨s.shared.request i track tracks.isEmpty, s.owner,
      Function.update s.thread (.requester i) (.running (.signal tracks))⟩ := by
  have hrequester := h.requester i
  rw [hthread] at hrequester
  obtain ⟨hroom, hdone⟩ := hrequester
  have hinside : Inside (inside (.requester i)) (s.thread (.requester i)) := by
    rw [hthread]
    rfl
  have hleft : s.left i = track :: tracks := by
    simp only [State.left, hthread]
    rfl
  have hself : ∀ new : MonitorThread Cv RequesterLoc,
      Function.update s.thread (.requester i) new (.requester i) = new :=
    fun new => Function.update_self ..
  constructor
  case exclusive => exact hexclusive
  case data =>
      have hdata := h.data.request hleft hroom hdone
      have hsame : State.left ⟨s.shared.request i track tracks.isEmpty, s.owner,
          Function.update s.thread (.requester i) (.running (.signal tracks))⟩ =
            Function.update s.left i tracks := by
        funext j
        rw [left_update]
        rfl
      rw [hsame]
      exact hdata
  case server =>
      refine ServerAt.of_outside h.server (fun hin => ?_) rfl
      exact absurd (h.only_inside hin hinside) nofun
  case requester =>
      intro j
      by_cases hj : j = i
      · subst hj
        change RequesterAt j _ (Function.update s.thread (.requester j) _ (.requester j))
        rw [hself]
        trivial
      · change RequesterAt j _
          (Function.update s.thread (.requester i) _ (.requester j))
        rw [Function.update_of_ne (by simpa using hj)]
        refine (h.requester j).of_outside fun hin => ?_
        have heq := h.only_inside hin hinside
        cases heq
        exact hj rfl
  case requesterAsleep =>
      intro j cv loc hasleep
      have hj : j ≠ i := by
        rintro rfl
        change Function.update s.thread (.requester j) _ (.requester j) = _ at hasleep
        rw [hself] at hasleep
        cases hasleep
      change Function.update s.thread (.requester i) _ (.requester j) = _ at hasleep
      rw [Function.update_of_ne (by simpa using hj)] at hasleep
      rcases h.requesterAsleep j cv loc hasleep with hfull | hzero | hbroadcast
      · exact absurd (hroom.symm.trans hfull) nofun
      · refine .inr (.inl ?_)
        change Function.update s.shared.requesterDone i _ j = 0
        rw [Function.update_of_ne hj]
        exact hzero
      · exact .inr (.inr hbroadcast)
  case serverAsleep =>
      intro cv loc _
      exact .inr ⟨i, tracks, hself _⟩

theorem Invariant.serve_step
    (h : Invariant maxDiskQueue files s) (hmax : 0 < maxDiskQueue)
    (hthread : s.thread .server = .running .serve)
    (hexclusive : Exclusive inside (⟨s.shared.serve, s.owner,
      Function.update s.thread .server (.running .broadcast)⟩ : State n)) :
    Invariant maxDiskQueue files ⟨s.shared.serve, s.owner,
      Function.update s.thread .server (.running .broadcast)⟩ := by
  have hserver := h.server
  rw [hthread] at hserver
  have hinside : Inside (inside .server) (s.thread .server) := by
    rw [hthread]
    rfl
  have hself : ∀ new : MonitorThread Cv ServerLoc,
      Function.update s.thread .server new .server = new :=
    fun new => Function.update_self ..
  constructor
  case exclusive => exact hexclusive
  case data => exact (h.data.serve hmax hserver.2 hserver.1).2.1
  case server =>
      change ServerAt _ (Function.update s.thread .server _ .server)
      rw [hself]
      trivial
  case requester =>
      intro j
      refine (h.requester j).of_outside fun hin => ?_
      exact absurd (h.only_inside hin hinside) nofun
  case requesterAsleep =>
      intro _ _ _ _
      exact .inr (.inr (hself _))
  case serverAsleep =>
      intro cv loc hasleep
      change Function.update s.thread .server _ .server = _ at hasleep
      rw [hself] at hasleep
      cases hasleep

theorem Invariant.broadcast_step
    (h : Invariant maxDiskQueue files s)
    (hexclusive : Exclusive inside (⟨s.shared, s.owner,
      Function.update (fun j => (s.thread j).wake .requesterCv) .server
        (.running .unlock)⟩ : State n)) :
    Invariant maxDiskQueue files ⟨s.shared, s.owner,
      Function.update (fun j => (s.thread j).wake .requesterCv) .server
        (.running .unlock)⟩ := by
  have hself : Function.update (fun j => (s.thread j).wake .requesterCv) .server
      (.running .unlock) .server = .running .unlock :=
    Function.update_self ..
  have hwake : ∀ i, RequesterAt i s.shared
      ((s.thread (.requester i)).wake .requesterCv) ∧
        ((s.thread (.requester i)).wake .requesterCv).loc =
          (s.thread (.requester i)).loc ∧
        ∀ cv loc, (s.thread (.requester i)).wake .requesterCv ≠ .asleep cv loc := by
    intro i
    have hold := h.requester i
    cases hthread : s.thread (.requester i) with
    | running loc =>
        rw [hthread] at hold
        exact ⟨hold, rfl, nofun⟩
    | woken loc =>
        rw [hthread] at hold
        exact ⟨hold, rfl, nofun⟩
    | asleep cv loc =>
        rw [hthread] at hold
        obtain ⟨rfl, hloc⟩ := hold
        exact ⟨hloc, rfl, nofun⟩
  constructor
  case exclusive => exact hexclusive
  case data =>
      have hsame : State.left ⟨s.shared, s.owner, Function.update
          (fun j => (s.thread j).wake .requesterCv) .server (.running .unlock)⟩ =
            s.left := by
        funext i
        change RequesterLoc.left ((s.thread (.requester i)).wake .requesterCv).loc = _
        rw [(hwake i).2.1]
        rfl
      rw [hsame]
      exact h.data
  case server =>
      change ServerAt s.shared (Function.update
        (fun j => (s.thread j).wake .requesterCv) .server (.running .unlock) .server)
      rw [hself]
      trivial
  case requester => exact fun i => (hwake i).1
  case requesterAsleep => exact fun i cv loc hasleep => absurd hasleep ((hwake i).2.2 cv loc)
  case serverAsleep =>
      intro cv loc hasleep
      exact absurd (hself.symm.trans hasleep) nofun

/-! ## Every step -/

/-- The variables change in two places only, and a request is taken from the
tracks that are left. -/
theorem step_cases {k : Thread n} (hstep : (scheduler n).Step s k t) :
    t.shared = s.shared ∧ t.left = s.left ∨
      k = .server ∧ s.thread .server = .running .serve ∧
        t.shared = s.shared.serve ∧ t.left = s.left ∨
      ∃ i track tracks, k = .requester i ∧
        s.thread (.requester i) = .running (.request track tracks) ∧
        t.shared = s.shared.request i track tracks.isEmpty ∧
        s.left i = track :: tracks ∧ t.left = Function.update s.left i tracks := by
  have hothers : ∀ j, Thread.requester j ≠ k → t.left j = s.left j :=
    fun j hj => congrArg RequesterLoc.left (hstep.loc_of_ne hj)
  cases k with
  | server =>
      have hleft : t.left = s.left := funext fun j => hothers j nofun
      cases hstep with
      | lock => exact .inl ⟨rfl, hleft⟩
      | unlock => exact .inl ⟨rfl, hleft⟩
      | wait => exact .inl ⟨rfl, hleft⟩
      | signal => exact .inl ⟨rfl, hleft⟩
      | signalNobody => exact .inl ⟨rfl, hleft⟩
      | broadcast => exact .inl ⟨rfl, hleft⟩
      | wake => exact .inl ⟨rfl, hleft⟩
      | @run loc effect hthread haction =>
          cases loc <;> cases haction
          case run.test.refl => exact .inl ⟨rfl, hleft⟩
          case run.serve.refl => exact .inr (.inl ⟨rfl, hthread, rfl, hleft⟩)
          case run.check.refl => exact .inl ⟨rfl, hleft⟩
  | requester i =>
      have hself : ∀ (thread : ∀ k : Thread n, MonitorThread Cv (Loc k))
          (new : MonitorThread Cv RequesterLoc),
          Function.update thread (.requester i) new (.requester i) = new :=
        fun thread new => Function.update_self (Thread.requester i) new thread
      have hstays : ∀ {new old : MonitorThread Cv RequesterLoc},
          t.thread (.requester i) = new → s.thread (.requester i) = old →
          new.loc.left = old.loc.left → t.left = s.left := by
        intro new old hnew hold hloc
        funext j
        by_cases hj : j = i
        · subst hj
          rw [State.left, State.left, hnew, hold, hloc]
        · exact hothers j (by simpa using hj)
      cases hstep with
      | @lock loc next hthread haction =>
          rcases loc with (_ | _) | _ | _ | _ | _ | _ <;> cases haction
          exact .inl ⟨rfl, hstays (hself _ _) hthread rfl⟩
      | @unlock loc next hthread haction =>
          rcases loc with (_ | _) | _ | _ | _ | _ | _ <;> cases haction
          exact .inl ⟨rfl, hstays (hself _ _) hthread rfl⟩
      | @wait loc next cv hthread haction =>
          rcases loc with (_ | _) | _ | _ | _ | _ | _ <;> cases haction
          exact .inl ⟨rfl, hstays (hself _ _) hthread rfl⟩
      | @signal j loc next cv loc' hthread haction =>
          rcases loc with (_ | _) | _ | _ | _ | _ | _ <;> cases haction
          exact .inl ⟨rfl, hstays (hself _ _) hthread rfl⟩
      | @signalNobody loc next cv hthread haction =>
          rcases loc with (_ | _) | _ | _ | _ | _ | _ <;> cases haction
          exact .inl ⟨rfl, hstays (hself _ _) hthread rfl⟩
      | @broadcast loc next cv hthread haction =>
          rcases loc with (_ | _) | _ | _ | _ | _ | _ <;> cases haction
      | @wake loc hthread => exact .inl ⟨rfl, hstays (hself _ _) hthread rfl⟩
      | @run loc effect hthread haction =>
          rcases loc with (_ | _) | ⟨track, tracks⟩ | _ | ⟨track, tracks⟩ | _ | _ <;>
            cases haction
          case run.test.refl =>
              refine .inl ⟨rfl, hstays (hself _ _) hthread ?_⟩
              change RequesterLoc.left (if _ then .wait track tracks
                else .request track tracks) = track :: tracks
              split <;> rfl
          case run.request.refl =>
              refine .inr (.inr ⟨i, track, tracks, rfl, hthread, rfl, ?_, ?_⟩)
              · rw [State.left, hthread]
                rfl
              · funext j
                rw [left_update]
                rfl

theorem Invariant.server_step
    (h : Invariant maxDiskQueue files s) (hmax : 0 < maxDiskQueue)
    (hstep : (scheduler n).Step s .server t) : Invariant maxDiskQueue files t := by
  have hexclusive := h.exclusive.step bracketed hstep
  have hserver := h.server
  cases hstep with
  | @lock loc next hthread haction hfree =>
      rw [hthread] at hserver
      cases loc <;> cases haction
      exact h.server_moves hexclusive hserver (by rw [hthread]; exact nofun) nofun
  | @unlock loc next hthread haction howner =>
      rw [hthread] at hserver
      cases loc <;> cases haction
      exact h.server_moves hexclusive trivial (by rw [hthread]; exact nofun) nofun
  | @wait loc next cv hthread haction howner =>
      rw [hthread] at hserver
      cases loc <;> cases haction
      exact h.server_moves hexclusive ⟨rfl, rfl, hserver.1⟩ (by rw [hthread]; exact nofun)
        fun _ _ _ => hserver.2
  | @signal j loc next cv loc' hthread haction hasleep => cases loc <;> cases haction
  | @signalNobody loc next cv hthread haction hnobody => cases loc <;> cases haction
  | @broadcast loc next cv hthread haction =>
      cases loc <;> cases haction
      exact h.broadcast_step hexclusive
  | @run loc effect hthread haction =>
      rw [hthread] at hserver
      cases loc with
      | test =>
          cases haction
          refine h.server_moves hexclusive ?_ (by rw [hthread]; exact nofun) ?_
          · change ServerAt s.shared
              (.running (if s.shared.diskQueueFull then .serve else .wait))
            cases hfull : s.shared.diskQueueFull with
            | true => exact ⟨hserver, hfull⟩
            | false => exact ⟨hserver, hfull⟩
          · exact nofun
      | check =>
          cases haction
          refine h.server_moves hexclusive ?_ (by rw [hthread]; exact nofun) nofun
          change ServerAt s.shared
            (.running (if s.shared.requesterNum = 0 then .returned else .lock))
          split
          case isTrue hzero => exact hzero
          case isFalse hnum => exact hnum
      | serve =>
          cases haction
          exact h.serve_step hmax hthread hexclusive
      | lock => cases haction
      | wait => cases haction
      | broadcast => cases haction
      | unlock => cases haction
      | returned => cases haction
  | @wake loc hthread hfree =>
      rw [hthread] at hserver
      obtain ⟨rfl, hnum⟩ := hserver
      exact h.server_moves hexclusive hnum (by rw [hthread]; exact nofun) nofun

theorem Invariant.requester_step
    (h : Invariant maxDiskQueue files s)
    (hstep : (scheduler n).Step s (.requester i) t) :
    Invariant maxDiskQueue files t := by
  have hexclusive := h.exclusive.step bracketed hstep
  have hrequester := h.requester i
  have hleft : ∀ {thread : MonitorThread Cv RequesterLoc},
      s.thread (.requester i) = thread → s.left i = thread.loc.left := by
    rintro _ rfl
    rfl
  cases hstep with
  | @lock loc next hthread haction hfree =>
      rcases loc with (_ | _) | _ | _ | _ | _ | _ <;> cases haction
      exact h.requester_moves hexclusive (hleft hthread).symm trivial
        (by rw [hthread]; exact nofun) nofun
  | @unlock loc next hthread haction howner =>
      rcases loc with (_ | _) | _ | _ | _ | _ | _ <;> cases haction
      exact h.requester_moves hexclusive (hleft hthread).symm trivial
        (by rw [hthread]; exact nofun) nofun
  | @wait loc next cv hthread haction howner =>
      rw [hthread] at hrequester
      rcases loc with (_ | _) | _ | _ | _ | _ | _ <;> cases haction
      exact h.requester_moves hexclusive (hleft hthread).symm ⟨rfl, _, _, rfl⟩
        (by rw [hthread]; exact nofun) fun _ _ _ => hrequester
  | @signal j loc next cv loc' hthread haction hasleep =>
      rcases loc with (_ | _) | _ | _ | _ | _ | _ <;> cases haction
      cases j with
      | requester j =>
          have hother := h.requester j
          rw [hasleep] at hother
          cases hother.1
      | server =>
          have hserver := h.server
          rw [hasleep] at hserver
          have hwoken : Exclusive inside (⟨s.shared, s.owner,
              Function.update s.thread .server (.woken loc')⟩ : State n) := by
            refine h.exclusive.update ?_ ?_ fun _ _ => Iff.rfl
            · rw [h.exclusive.owner_iff, hasleep]
              rfl
            · have hback := h.exclusive.comeback .server
              rw [hasleep] at hback
              exact hback
          have hmoved := h.server_moves hwoken hserver.2 (by rw [hasleep]; exact nofun)
            nofun
          refine hmoved.requester_moves hexclusive (hleft hthread).symm trivial ?_ nofun
          intro tracks _ cv loc hserver'
          change Function.update s.thread .server (.woken loc') .server = _ at hserver'
          rw [Function.update_self] at hserver'
          cases hserver'
  | @signalNobody loc next cv hthread haction hnobody =>
      rcases loc with (_ | _) | _ | _ | _ | _ | _ <;> cases haction
      refine h.requester_moves hexclusive (hleft hthread).symm trivial ?_ nofun
      intro tracks _ cv loc hasleep
      have hserver := h.server
      rw [hasleep] at hserver
      obtain ⟨rfl, _⟩ := hserver
      exact hnobody .server loc hasleep
  | @broadcast loc next cv hthread haction =>
      rcases loc with (_ | _) | _ | _ | _ | _ | _ <;> cases haction
  | @run loc effect hthread haction =>
      rcases loc with (_ | _) | ⟨track, tracks⟩ | _ | ⟨track, tracks⟩ | _ | _ <;>
        cases haction
      case run.test.refl =>
          have hloc : (if s.shared.diskQueueFull || s.shared.requesterDone i == 0 then
              RequesterLoc.wait track tracks else .request track tracks).left =
                track :: tracks := by
            split <;> rfl
          refine h.requester_moves hexclusive (hloc.trans (hleft hthread).symm) ?_
            (by rw [hthread]; exact nofun) nofun
          change RequesterAt i s.shared (.running
            (if s.shared.diskQueueFull || s.shared.requesterDone i == 0 then
              .wait track tracks else .request track tracks))
          split
          case isTrue hwait => simpa [RequesterAt] using hwait
          case isFalse hgo => simpa [RequesterAt] using hgo
      case run.request.refl => exact h.request_step hthread hexclusive
  | @wake loc hthread hfree =>
      rw [hthread] at hrequester
      obtain ⟨track, tracks, rfl⟩ := hrequester
      exact h.requester_moves hexclusive (hleft hthread).symm trivial
        (by rw [hthread]; exact nofun) nofun

theorem Invariant.step
    {k : Thread n} (h : Invariant maxDiskQueue files s) (hmax : 0 < maxDiskQueue)
    (hstep : (scheduler n).Step s k t) : Invariant maxDiskQueue files t := by
  cases k with
  | server => exact h.server_step hmax hstep
  | requester i => exact h.requester_step hstep

theorem invariant_of_reachable
    (hmax : 0 < maxDiskQueue) (hn : 0 < n)
    (hreach : (scheduler n).system.Reachable (initial maxDiskQueue files) s) :
    Invariant maxDiskQueue files s := by
  refine hreach.invariant (Invariant maxDiskQueue files) ?_
    fun _ _ _ h hstep => h.step hmax hstep
  exact ⟨exclusive_of_reachable .refl, data_initial hmax hn, Nat.ne_of_gt hn,
    fun _ => trivial, nofun, nofun⟩

/-! ## Without requesters -/

/-- The server waits for a queue that stays empty. -/
structure Idle (maxDiskQueue : ℕ) (s : State 0) : Prop where
  shared : s.shared = { maxDiskQueue := maxDiskQueue, requesterNum := 0 }
  server : (s.thread .server).loc ∈ [ServerLoc.lock, .test, .wait]

theorem Idle.step
    {s t : State 0} {k : Thread 0} (h : Idle maxDiskQueue s)
    (hstep : (scheduler 0).Step s k t) : Idle maxDiskQueue t := by
  obtain ⟨hshared, hserver⟩ := h
  cases k with
  | requester i => exact i.elim0
  | server =>
      have hself : ∀ (thread : ∀ k : Thread 0, MonitorThread Cv (Loc k))
          (new : MonitorThread Cv ServerLoc),
          Function.update thread .server new .server = new :=
        fun thread new => Function.update_self Thread.server new thread
      have hmoves : ∀ {new : MonitorThread Cv ServerLoc}, t.shared = s.shared →
          t.thread .server = new → new.loc ∈ [ServerLoc.lock, .test, .wait] →
          Idle maxDiskQueue t := by
        intro new hsame hnew hloc
        exact ⟨hsame.trans hshared, by rw [hnew]; exact hloc⟩
      cases hstep with
      | @lock loc next hthread haction =>
          cases loc <;> cases haction
          exact hmoves rfl (hself s.thread _) (by simp [MonitorThread.loc])
      | @unlock loc next hthread haction =>
          cases loc <;> cases haction
          rw [hthread] at hserver
          simp [MonitorThread.loc] at hserver
      | @wait loc next cv hthread haction =>
          cases loc <;> cases haction
          exact hmoves rfl (hself s.thread _) (by simp [MonitorThread.loc])
      | @signal j loc next cv loc' hthread haction => cases loc <;> cases haction
      | @signalNobody loc next cv hthread haction => cases loc <;> cases haction
      | @broadcast loc next cv hthread haction =>
          cases loc <;> cases haction
          rw [hthread] at hserver
          simp [MonitorThread.loc] at hserver
      | @run loc effect hthread haction =>
          rw [hthread] at hserver
          cases loc <;> cases haction
          case run.test.refl =>
              refine hmoves rfl (hself s.thread _) ?_
              rw [hshared]
              simp [MonitorThread.loc]
          case run.serve.refl => simp [MonitorThread.loc] at hserver
          case run.check.refl => simp [MonitorThread.loc] at hserver
      | @wake loc hthread =>
          rw [hthread] at hserver
          exact hmoves rfl (hself s.thread _) hserver

theorem idle_of_reachable
    {files : Fin 0 → List UInt32} {s : State 0}
    (hreach : (scheduler 0).system.Reachable (initial maxDiskQueue files) s) :
    Idle maxDiskQueue s :=
  hreach.invariant (Idle maxDiskQueue) ⟨rfl, List.mem_cons_self⟩
    fun _ _ _ h hstep => h.step hstep

end Scheduler
end Eecs482
