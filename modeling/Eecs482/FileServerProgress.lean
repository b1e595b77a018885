import Eecs482.FileServerRuns
import Mathlib.Data.Finset.Max
import Mathlib.Data.Finset.Range

/-!
# Deadlock freedom

A handler that waits for the lock of an inode holds at most the lock of the
parent of that inode.  Of all waiting handlers, take one whose inode is deepest
in the tree: whoever holds that lock would have to wait for a lock further
down.
-/

namespace Eecs482
namespace FileServer

open Discipline

/-- The call asks for a lock. -/
def FsCall.IsLock : FsCall → Prop
  | .lockShared _ | .lock _ | .lockFree => True
  | _ => False

/-- The lock can be granted, at the worst: a shared request may have to wait
for the exclusive holder and for any pending exclusive request. -/
def Grantable (c : Config fsInterface Server) : FsCall → Prop
  | .lockShared b =>
      (c.shared.diskLocks b).writer = none ∧
        ∀ j next, c.thread j ≠ some (.call (.lock b) next)
  | .lock b =>
      (c.shared.diskLocks b).writer = none ∧
        (c.shared.diskLocks b).readers = []
  | .lockFree => c.shared.freeBlockLock = none
  | _ => True

theorem exists_thread_bound
    {boot : Server} {c : Config fsInterface Server}
    (hreach : machine.Reachable boot c) :
    ∃ n, ∀ i, n ≤ i → c.thread i = none := by
  induction hreach with
  | start => exact ⟨0, fun _ _ => rfl⟩
  | step _ hstep ih =>
      obtain ⟨n, hn⟩ := ih
      cases hstep with
      | arrive i request hfresh =>
          refine ⟨max n (i + 1), fun j hj => ?_⟩
          have hji : j ≠ i := by omega
          simp only [Function.update_of_ne hji]
          exact hn j (by omega)
      | exec i op next answer shared hthread hexec =>
          refine ⟨max n (i + 1), fun j hj => ?_⟩
          have hji : j ≠ i := by omega
          simp only [Function.update_of_ne hji]
          exact hn j (by omega)

theorem Server.exec_isSome_of_guard
    {i : ℕ} {op : FsCall} {s : Server} (hguard : Guard i op s)
    (hlock : ¬op.IsLock) : (Server.exec i op s).isSome := by
  cases op with
  | lockShared b => exact absurd trivial hlock
  | lock b => exact absurd trivial hlock
  | lockFree => exact absurd trivial hlock
  | unlockShared b => simp [Server.exec, show i ∈ (s.diskLocks b).readers from hguard]
  | unlock b =>
      simp [Server.exec, show (s.diskLocks b).writer = some i from hguard]
  | unlockFree => simp [Server.exec, show s.freeBlockLock = some i from hguard]
  | freeEmpty => simp [Server.exec]
  | freeFront =>
      obtain ⟨_, hne⟩ := hguard
      cases hfree : s.freeBlocks with
      | nil => exact absurd hfree hne
      | cons b rest => simp [Server.exec, hfree]
  | freePop =>
      obtain ⟨_, hne⟩ := hguard
      cases hfree : s.freeBlocks with
      | nil => exact absurd hfree hne
      | cons b rest => simp [Server.exec, hfree]
  | freePush b => simp [Server.exec]
  | diskReadblock b mark => simp [Server.exec]
  | diskWriteblock b block mark => simp [Server.exec]
  | sendResponse message => simp [Server.exec]
  | close => simp [Server.exec]

theorem exec_isSome_of_grantable
    {c : Config fsInterface Server} {i : ℕ} {op : FsCall} (hlock : op.IsLock)
    (hgrant : Grantable c op) : (Server.exec i op c.shared).isSome := by
  cases op with
  | lockShared b => simp [Server.exec, hgrant.1]
  | lock b => simp [Server.exec, hgrant.1, hgrant.2]
  | lockFree =>
      simp [Server.exec, show c.shared.freeBlockLock = none from hgrant]
  | _ => exact absurd hlock (by simp [FsCall.IsLock])

section Stuck

variable {disk : Disk} {boot : Server} {c : Config fsInterface Server}

/-- Every handler that is not about to respond waits for a lock it may not get. -/
def Stuck (c : Config fsInterface Server) : Prop :=
  ∀ i op next, c.thread i = some (.call op next) → ¬op.Answers →
    op.IsLock ∧ ¬Grantable c op

/-- Where a running handler of a stuck server waits: for the inode at a path,
holding at most the lock of its parent. -/
structure WaitsAt
    (c : Config fsInterface Server) (i : ℕ) (path : Path) (b : BlockNo) :
    Prop where
  call : ∃ next, c.thread i = some (.call (.lock b) next) ∨
    c.thread i = some (.call (.lockShared b) next)
  resolved : resolve c.shared.disk path = some b
  holds : ∀ p, Locks i p c.shared →
    ∃ front name, path = front ++ [name] ∧
      resolve c.shared.disk front = some p

variable (hboot : Started disk boot)
variable (hreach : machine.Reachable boot c) (hstuck : Stuck c)
include hboot hreach hstuck

theorem Stuck.freeBlockLock : c.shared.freeBlockLock = none := by
  by_contra hheld
  obtain ⟨i, hi⟩ := Option.ne_none_iff_exists'.mp hheld
  obtain ⟨op, next, hthread, hsilent⟩ := working_of_freeLock hboot hreach hi
  have hguard := (run_invariant hboot hreach).guard hthread
  have hlock := (hstuck i op next hthread hsilent).1
  cases op with
  | lockShared b => exact hguard.1 hi
  | lock b => exact hguard.1 hi
  | lockFree => exact hguard hi
  | _ => exact hlock

theorem Stuck.waitsAt {i : ℕ} (hworking : Working c i) :
    ∃ path b, WaitsAt c i path b := by
  obtain ⟨op, next, hthread, hsilent⟩ := hworking
  have hguard := (run_invariant hboot hreach).guard hthread
  obtain ⟨hlock, hgrant⟩ := hstuck i op next hthread hsilent
  have hwaits : ∀ b, MayWait i b c.shared →
      (∃ next, c.thread i = some (.call (.lock b) next) ∨
        c.thread i = some (.call (.lockShared b) next)) →
      ∃ path b, WaitsAt c i path b := by
    rintro b ⟨_, ⟨rfl, hnone⟩ | ⟨parent, name, ⟨front, hfront⟩, hchild, honly⟩⟩
      hcall
    · exact ⟨[], 0, hcall, rfl, fun p hp => absurd hp (hnone p)⟩
    · refine ⟨front ++ [name], b, hcall, ?_, fun p hp => ?_⟩
      · rw [resolve, LabelledWalk.walk_snoc_of_walk hfront, hchild]
      · rw [honly p hp]
        exact ⟨front, name, rfl, hfront⟩
  cases op with
  | lockShared b => exact hwaits b hguard ⟨next, Or.inr hthread⟩
  | lock b => exact hwaits b hguard ⟨next, Or.inl hthread⟩
  | lockFree =>
      exact absurd (hstuck.freeBlockLock hboot hreach) hgrant
  | _ => exact absurd hlock (by simp [FsCall.IsLock])

omit hstuck in
theorem WaitsAt.path_eq
    {i : ℕ} {path path' : Path} {b b' : BlockNo}
    (hwaits : WaitsAt c i path b) (hwaits' : WaitsAt c i path' b') :
    path' = path := by
  have hblock : b' = b := by
    obtain ⟨next, hcall | hcall⟩ := hwaits.call <;>
      obtain ⟨next', hcall' | hcall'⟩ := hwaits'.call <;>
      rw [hcall] at hcall' <;> cases hcall' <;> rfl
  subst hblock
  exact (run_inv hboot hreach).wf.isTree.walk_injective hwaits'.resolved
    hwaits.resolved

omit hboot hreach in
theorem Stuck.exists_holder
    {i : ℕ} {path : Path} {b : BlockNo} (hwaits : WaitsAt c i path b) :
    ∃ j, Locks j b c.shared := by
  have hholder : ∀ k next, c.thread k = some (.call (.lock b) next) →
      ∃ j, Locks j b c.shared := by
    intro k next hthread
    have hgrant := (hstuck k _ next hthread id).2
    by_contra hnone
    refine hgrant ⟨?_, ?_⟩
    · by_contra hwriter
      obtain ⟨j, hj⟩ := Option.ne_none_iff_exists'.mp hwriter
      exact hnone ⟨j, Or.inr hj⟩
    · by_contra hreaders
      obtain ⟨j, hj⟩ := List.exists_mem_of_ne_nil _ hreaders
      exact hnone ⟨j, Or.inl hj⟩
  obtain ⟨next, hthread | hthread⟩ := hwaits.call
  · exact hholder i next hthread
  · have hgrant := (hstuck i (.lockShared b) next hthread id).2
    by_contra hnone
    refine hgrant ⟨?_, fun k next' hk => hnone (hholder k next' hk)⟩
    by_contra hwriter
    obtain ⟨j, hj⟩ := Option.ne_none_iff_exists'.mp hwriter
    exact hnone ⟨j, Or.inr hj⟩

theorem Stuck.exists_deeper
    {i : ℕ} {path : Path} {b : BlockNo} (hwaits : WaitsAt c i path b) :
    ∃ j path' b', WaitsAt c j path' b' ∧ path.length < path'.length := by
  obtain ⟨j, hj⟩ := hstuck.exists_holder hwaits
  obtain ⟨path', b', hwaits'⟩ := hstuck.waitsAt hboot hreach
    (working_of_locks hboot hreach hj)
  obtain ⟨front, name, rfl, hfront⟩ := hwaits'.holds b hj
  have hsame : front = path :=
    (run_inv hboot hreach).wf.isTree.walk_injective hfront hwaits.resolved
  refine ⟨j, front ++ [name], b', hwaits', ?_⟩
  rw [hsame, List.length_append, List.length_singleton]
  omega

/-- A stuck server has no such handler: walking down from one visits a new thread each
time, and there are finitely many. -/
theorem Stuck.not_working (i : ℕ) : ¬Working c i := by
  intro hworking
  obtain ⟨n, hn⟩ := exists_thread_bound hreach
  have hdeep : ∀ depth, ∃ j path b, WaitsAt c j path b ∧ depth ≤ path.length := by
    intro depth
    induction depth with
    | zero =>
        obtain ⟨path, b, hwaits⟩ := hstuck.waitsAt hboot hreach hworking
        exact ⟨i, path, b, hwaits, Nat.zero_le _⟩
    | succ depth ih =>
        obtain ⟨j, path, b, hwaits, hdepth⟩ := ih
        obtain ⟨k, path', b', hwaits', hlt⟩ :=
          hstuck.exists_deeper hboot hreach hwaits
        exact ⟨k, path', b', hwaits', by omega⟩
  have hdepth : ∀ j, ∃ depth, ∀ path b, WaitsAt c j path b →
      path.length ≤ depth := by
    intro j
    by_cases hj : ∃ path b, WaitsAt c j path b
    · obtain ⟨path, b, hwaits⟩ := hj
      exact ⟨path.length, fun path' b' hwaits' =>
        (hwaits.path_eq hboot hreach hwaits') ▸ le_refl _⟩
    · exact ⟨0, fun path b hwaits => absurd ⟨path, b, hwaits⟩ hj⟩
  choose depth hdepth using hdepth
  obtain ⟨j, path, b, hwaits, hlt⟩ := hdeep ((Finset.range n).sup depth + 1)
  have hj : j < n := by
    by_contra hge
    obtain ⟨next, hthread | hthread⟩ := hwaits.call <;>
      simp [hn j (Nat.le_of_not_lt hge)] at hthread
  have hle : path.length ≤ (Finset.range n).sup depth :=
    (hdepth j path b hwaits).trans
      (Finset.le_sup (Finset.mem_range.mpr hj))
  omega

end Stuck

theorem exists_working_progress
    {disk : Disk} {boot : Server} {c : Config fsInterface Server}
    (hboot : Started disk boot) (hreach : machine.Reachable boot c)
    {i : ℕ} (hworking : Working c i) :
    ∃ j op next, c.thread j = some (.call op next) ∧ ¬op.Answers ∧
      (¬op.IsLock ∨ Grantable c op) ∧ (Server.exec j op c.shared).isSome := by
  by_contra hnone
  refine Stuck.not_working hboot hreach ?_ i hworking
  intro j op next hthread hsilent
  have hguard := (run_invariant hboot hreach).guard hthread
  have hblocked : ∀ h : ¬op.IsLock ∨ Grantable c op,
      ¬(Server.exec j op c.shared).isSome :=
    fun h hsome => hnone ⟨j, op, next, hthread, hsilent, h, hsome⟩
  have hlock : op.IsLock := by
    by_contra hlock
    exact hblocked (Or.inl hlock) (Server.exec_isSome_of_guard hguard hlock)
  exact ⟨hlock, fun hgrant =>
    hblocked (Or.inr hgrant) (exec_isSome_of_grantable hlock hgrant)⟩

theorem exists_progress
    {disk : Disk} {boot : Server} {c : Config fsInterface Server}
    (hboot : Started disk boot) (hreach : machine.Reachable boot c)
    {i : ℕ} (hflight : InFlight c i) :
    ∃ j op next, c.thread j = some (.call op next) ∧
      (¬op.IsLock ∨ Grantable c op) ∧ (Server.exec j op c.shared).isSome := by
  obtain ⟨op, next, hthread⟩ := hflight
  by_cases hanswers : op.Answers
  · refine ⟨i, op, next, hthread, ?_⟩
    cases op with
    | sendResponse message => exact ⟨.inl id, rfl⟩
    | _ => exact hanswers.elim
  · obtain ⟨j, op', next', hthread', _, hprogress⟩ :=
      exists_working_progress hboot hreach ⟨op, next, hthread, hanswers⟩
    exact ⟨j, op', next', hthread', hprogress⟩

/-- While some handler has not returned, one of them can go on. -/
theorem deadlockFree (disk : Disk) (hwf : WellFormed disk) :
    ∃ boot, initServer disk = some boot ∧
      ∀ c, machine.Reachable boot c → (∃ i, InFlight c i) →
        ∃ i op next, c.thread i = some (.call op next) ∧
          (¬op.IsLock ∨ Grantable c op) ∧
          (Server.exec i op c.shared).isSome := by
  obtain ⟨boot, hinit, hboot⟩ := exists_started hwf
  refine ⟨boot, hinit, fun c hreach => ?_⟩
  rintro ⟨i, hflight⟩
  exact exists_progress hboot hreach hflight

/-- Thread 0 has locked the root directory, and thread 1 waits for it. -/
theorem deadlockFree_freshDisk :
    ∃ rest c next, initServer freshDisk = some (freshServer rest) ∧
      playFresh rest (creating 6) = some c ∧
      c.thread 1 = some (.call (.lock 0) next) ∧
      (Server.exec 1 (.lock 0) c.shared).isSome = false ∧
      ∃ i op next, c.thread i = some (.call op next) ∧
        (¬op.IsLock ∨ Grantable c op) ∧
        (Server.exec i op c.shared).isSome := by
  obtain ⟨rest, hinit, hfree⟩ :=
    exists_freshServer (deadlockFree freshDisk wellFormed_freshDisk)
  obtain ⟨c, next, hplay, hthread, hblocked⟩ :
      ∃ c next, playFresh rest (creating 6) = some c ∧
        c.thread 1 = some (.call (.lock 0) next) ∧
        (Server.exec 1 (.lock 0) c.shared).isSome = false :=
    ⟨_, _, rfl, rfl, rfl⟩
  exact ⟨rest, c, next, hinit, hplay, hthread, hblocked,
    hfree c (reachable_of_playFresh hplay) ⟨1, _, next, hthread⟩⟩

end FileServer
end Eecs482
