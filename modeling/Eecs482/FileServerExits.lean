import Eecs482.FileServerRefinement

/-!
# Every exit of a handler

A handler gives back what it has taken, on whichever path it returns: the locks
it has acquired, in the mode in which it has acquired them, and, when it sends no
response, the blocks it has reserved.  The disk is then as it was.
-/

namespace Eecs482
namespace FileServer

open Machine

/-! ## Locks taken and released -/

/-- A lock of the server, with the mode in which it is held. -/
inductive FsLock
  | shared (b : BlockNo)
  | excl (b : BlockNo)
  | free
  deriving DecidableEq

/-- The call acquires the lock. -/
def FsCall.takes (lock : FsLock) : FsCall → Bool
  | .lockShared b => lock = .shared b
  | .lock b => lock = .excl b
  | .lockFree => lock = .free
  | _ => false

/-- The call releases the lock. -/
def FsCall.gives (lock : FsLock) : FsCall → Bool
  | .unlockShared b => lock = .shared b
  | .unlock b => lock = .excl b
  | .unlockFree => lock = .free
  | _ => false

/-- How often thread `i` holds the lock. -/
def Server.held (i : ℕ) (lock : FsLock) (s : Server) : ℕ :=
  match lock with
  | .shared b => (s.diskLocks b).readers.count i
  | .excl b => if (s.diskLocks b).writer = some i then 1 else 0
  | .free => if s.freeBlockLock = some i then 1 else 0

theorem Server.held_of_same
    {i : ℕ} {s t : Server} (hlocks : t.diskLocks = s.diskLocks)
    (hfree : t.freeBlockLock = s.freeBlockLock) (lock : FsLock) :
    t.held i lock = s.held i lock := by
  unfold held
  rw [hlocks, hfree]

theorem Server.held_setLock
    (i : ℕ) (s : Server) (b : BlockNo) (mutex : SharedMutex) (lock : FsLock) :
    (s.setLock b mutex).held i lock =
      if lock = .shared b then mutex.readers.count i
      else if lock = .excl b then if mutex.writer = some i then 1 else 0
      else s.held i lock := by
  cases lock with
  | shared c =>
      by_cases hc : c = b
      · subst hc
        simp [held, setLock]
      · simp [held, setLock, hc]
  | excl c =>
      by_cases hc : c = b
      · subst hc
        simp [held, setLock]
      · simp [held, setLock, hc]
  | free => rfl

/-- Each call changes what is held by what it takes and gives back. -/
theorem Server.exec_held
    {i : ℕ} (lock : FsLock) (op : FsCall) (s : Server)
    (answer : fsInterface.Answer op) (t : Server)
    (hexec : machine.exec i op s = some (answer, t)) :
    t.held i lock + (op.gives lock).toNat =
      s.held i lock + (op.takes lock).toNat := by
  change Server.exec i op s = _ at hexec
  cases op with
  | lockShared b =>
      simp only [Server.exec] at hexec
      split at hexec <;> cases hexec
      rw [held_setLock]
      by_cases hshared : lock = .shared b
      · simp [FsCall.gives, FsCall.takes, held, hshared]
      · by_cases hexcl : lock = .excl b
        · simp [FsCall.gives, FsCall.takes, held, hexcl]
        · simp [FsCall.gives, FsCall.takes, hshared, hexcl]
  | unlockShared b =>
      simp only [Server.exec] at hexec
      split at hexec
      · rename_i hmem
        cases hexec
        rw [held_setLock]
        by_cases hshared : lock = .shared b
        · have hpos := List.count_pos_iff.mpr hmem
          simp only [hshared, if_true, List.count_erase_self, FsCall.gives,
            FsCall.takes, held, decide_true, Bool.toNat_true, Bool.toNat_false]
          omega
        · by_cases hexcl : lock = .excl b
          · simp [FsCall.gives, FsCall.takes, held, hexcl]
          · simp [FsCall.gives, FsCall.takes, hshared, hexcl]
      · cases hexec
  | lock b =>
      simp only [Server.exec] at hexec
      split at hexec
      · rename_i hfree
        cases hexec
        rw [held_setLock]
        by_cases hshared : lock = .shared b
        · simp [FsCall.gives, FsCall.takes, held, hshared]
        · by_cases hexcl : lock = .excl b
          · simp [FsCall.gives, FsCall.takes, held, hexcl, hfree.1]
          · simp [FsCall.gives, FsCall.takes, hshared, hexcl]
      · cases hexec
  | unlock b =>
      simp only [Server.exec] at hexec
      split at hexec
      · rename_i hheld
        cases hexec
        rw [held_setLock]
        by_cases hshared : lock = .shared b
        · simp [FsCall.gives, FsCall.takes, held, hshared]
        · by_cases hexcl : lock = .excl b
          · simp [FsCall.gives, FsCall.takes, held, hexcl, hheld]
          · simp [FsCall.gives, FsCall.takes, hshared, hexcl]
      · cases hexec
  | lockFree =>
      simp only [Server.exec] at hexec
      split at hexec
      · rename_i hfree
        cases hexec
        cases lock with
        | shared c => rfl
        | excl c => rfl
        | free => simp [FsCall.gives, FsCall.takes, held, hfree]
      · cases hexec
  | unlockFree =>
      simp only [Server.exec] at hexec
      split at hexec
      · rename_i hheld
        cases hexec
        cases lock with
        | shared c => rfl
        | excl c => rfl
        | free => simp [FsCall.gives, FsCall.takes, held, hheld]
      · cases hexec
  | freeEmpty => cases hexec; rfl
  | freeFront =>
      simp only [Server.exec] at hexec
      split at hexec <;> cases hexec
      rfl
  | freePop =>
      simp only [Server.exec] at hexec
      split at hexec <;> cases hexec
      rfl
  | freePush b => cases hexec; rfl
  | diskReadblock b mark =>
      cases hexec
      cases mark with
      | false => rfl
      | true =>
          exact held_of_same (commit_diskLocks _ _ _) (commit_freeBlockLock _ _ _)
            lock
  | diskWriteblock b block mark =>
      cases hexec
      cases mark with
      | none => rfl
      | some note =>
          exact held_of_same (commit_diskLocks _ _ _) (commit_freeBlockLock _ _ _)
            lock
  | sendResponse message => cases hexec; rfl
  | close => cases hexec; rfl

theorem Server.held_of_unlocked
    {i : ℕ} {s : Server} (hlocks : s.diskLocks = noLocks)
    (hfree : s.freeBlockLock = none) (lock : FsLock) : s.held i lock = 0 := by
  unfold held
  rw [hlocks, hfree]
  cases lock <;> simp [noLocks]

/-! ## Writes and responses -/

section Calls

variable {i : ℕ} (op : FsCall)

theorem Server.exec_not_writes
    (hop : ¬op.Writes) (s : Server) (answer : fsInterface.Answer op) (t : Server)
    (hexec : machine.exec i op s = some (answer, t)) : t.disk = s.disk := by
  rw [Server.exec_disk hexec]
  cases op with
  | diskWriteblock b block mark => exact (hop trivial).elim
  | _ => rfl

theorem Server.commit_events (s : Server) (i : ℕ) (answer : Option Block) :
    s.events ⊆ (s.commit i answer).events := by
  unfold commit log
  split
  · exact List.subset_append_left _ _
  · exact List.Subset.refl _

/-- Nothing is removed from the log. -/
theorem Server.exec_events
    (s : Server) (answer : fsInterface.Answer op) (t : Server)
    (hexec : machine.exec i op s = some (answer, t)) : s.events ⊆ t.events := by
  change Server.exec i op s = _ at hexec
  cases op with
  | lockShared b | unlockShared b | lock b | unlock b | lockFree | unlockFree
  | freeFront | freePop =>
      simp only [Server.exec] at hexec
      split at hexec
      all_goals cases hexec
      exact List.Subset.refl _
  | freeEmpty | freePush b =>
      cases hexec
      exact List.Subset.refl _
  | diskReadblock b mark =>
      cases hexec
      cases mark with
      | false => exact List.Subset.refl _
      | true => exact commit_events _ _ _
  | diskWriteblock b block mark =>
      cases hexec
      cases mark with
      | none => exact List.Subset.refl _
      | some note =>
          exact commit_events (setHand { s with disk := Function.update s.disk b block }
            i (s.handsAfter i note)) i none
  | sendResponse message | close =>
      cases hexec
      exact List.subset_append_left _ _

theorem Server.exec_responded
    (s : Server) (answer : fsInterface.Answer op) (t : Server)
    (hexec : machine.exec i op s = some (answer, t))
    (hanswered : op.Answers ∨ Responded i s) : Responded i t := by
  rcases hanswered with hop | ⟨message, hmem⟩
  · cases op with
    | sendResponse message =>
        cases hexec
        exact ⟨message, List.mem_append_right _ List.mem_cons_self⟩
    | _ => exact hop.elim
  · exact ⟨message, Server.exec_events op s answer t hexec hmem⟩

end Calls

/-- The lookup of the target, for what comes after it. -/
theorem covered_after_reads
    {α β : Type} {program : FsProg α} {f : α → FsProg β}
    (hcalls : program.Calls FsCall.Reads)
    (hf : ∀ value, (f value).Covered FsCall.Writes FsCall.Answers) :
    (program >>= f).Covered FsCall.Writes FsCall.Answers :=
  .after (hcalls.mono fun _ => FsCall.not_writes_of_reads) hf

theorem covered_handleCreate
    (stack : Stack) (req : List Byte) (fields : RequestFields) :
    (handleCreate stack req fields).Covered FsCall.Writes FsCall.Answers := by
  unfold handleCreate
  split
  · trivial
  split
  · trivial
  split
  · trivial
  apply Prog.Covered.after (by exact calls_call id)
  intro _
  apply Prog.Covered.after (by exact calls_call id)
  intro empty
  split
  · exact .of_calls (calls_call id)
  apply Prog.Covered.after (by exact calls_call id)
  intro newInodeBlock
  apply Prog.Covered.after (by exact calls_call id)
  intro _
  apply Prog.Covered.after (by exact calls_call id)
  intro _
  apply covered_after_reads (calls_traverseDir _ _)
  intro target
  split
  · apply covered_after_reads (by exact calls_call trivial)
    intro _
    apply Prog.Covered.of_calls
    exact (calls_returnEmptyBlock _).mono fun _ => FsCall.not_writes_of_queues
  · apply Prog.Covered.after (by exact calls_call id)
    intro _
    apply Prog.Covered.bind (earns_createLocked _ _ _ _ _ _)
    · intro created hcreated
      apply Prog.Surely.bind
      intro _
      rw [if_pos hcreated]
      exact Prog.surely_perform trivial
    · intro created
      apply Prog.Covered.after (by exact calls_call id)
      intro _
      split
      · exact .of_calls (calls_call id)
      · trivial

theorem covered_handleDelete (stack : Stack) (fields : RequestFields) :
    (handleDelete stack fields).Covered FsCall.Writes FsCall.Answers := by
  unfold handleDelete
  split
  · trivial
  apply covered_after_reads (calls_traverseDir _ _)
  intro target
  split
  · exact .of_calls (calls_call id)
  apply Prog.Covered.after (by exact calls_call id)
  intro _
  have hpush : ∀ blocks, (pushBlocks blocks).Calls fun op => ¬FsCall.Writes op := by
    intro blocks
    induction blocks with
    | nil => trivial
    | cons b rest ih => exact Prog.Calls.bind (calls_call id) fun _ => ih
  apply Prog.Covered.bind (earns_deleteLocked _ _ _ _)
  · intro deleted hdeleted
    apply Prog.Surely.bind
    intro _
    obtain ⟨found, rfl⟩ := Option.isSome_iff_exists.mp hdeleted
    apply Prog.Surely.bind
    intro _
    apply Prog.Surely.bind
    intro _
    apply Prog.Surely.bind
    intro _
    apply Prog.Surely.bind
    intro _
    exact Prog.surely_perform trivial
  · intro deleted
    apply Prog.Covered.after (by exact calls_call id)
    intro _
    cases deleted with
    | none => trivial
    | some found =>
        apply Prog.Covered.after (by exact calls_call id)
        intro _
        apply Prog.Covered.after (hpush _)
        intro _
        apply Prog.Covered.after (by exact calls_call id)
        intro _
        apply Prog.Covered.after (by exact calls_call id)
        intro _
        exact .of_calls (calls_call id)

theorem covered_handleWriteblock
    (req : List Byte) (fields : RequestFields) (data : Block) :
    (handleWriteblock req fields data).Covered FsCall.Writes FsCall.Answers := by
  unfold handleWriteblock
  split
  · trivial
  split
  · trivial
  split
  · trivial
  split
  · trivial
  apply covered_after_reads (calls_traverseDir _ _)
  intro target
  split
  · exact .of_calls (calls_call id)
  apply Prog.Covered.after (by exact calls_call id)
  intro _
  apply Prog.Covered.bind (earns_writeLocked _ _ _ _)
  · intro written hwritten
    apply Prog.Surely.bind
    intro _
    rw [if_pos hwritten]
    exact Prog.surely_perform trivial
  · intro written
    apply Prog.Covered.after (by exact calls_call id)
    intro _
    split
    · exact .of_calls (calls_call id)
    · trivial

/-- Every write to the disk is followed by the response. -/
theorem covered_serve (stack : Stack) (request : Request) :
    (serve stack request).Covered FsCall.Writes FsCall.Answers := by
  have hclose : ∀ value : Unit,
      (call .close).Calls fun op => ¬FsCall.Writes op :=
    fun _ => calls_call id
  cases request with
  | readblock req fields =>
      apply Prog.Covered.before _ hclose
      apply Prog.Covered.of_calls
      apply (calls_handleReadblock req fields).mono
      intro op hkeeps
      cases op <;> first | exact id | exact hkeeps.elim
  | writeblock req fields data =>
      exact (covered_handleWriteblock req fields data).before hclose
  | create req fields =>
      exact (covered_handleCreate stack req fields).before hclose
  | delete fields =>
      exact (covered_handleDelete stack fields).before hclose

/-! ## The exits -/

/-- A handler has returned; `trace` are the calls it has made. -/
structure Exited
    (i : ℕ) (s : Server) (trace : List FsCall) (final : Server) : Prop where
  diskLocks : final.diskLocks = noLocks
  freeBlockLock : final.freeBlockLock = none
  /-- Each lock was released as often as it was taken, in the same mode. -/
  balanced : ∀ lock, trace.countP (FsCall.gives lock) =
    trace.countP (FsCall.takes lock)
  /-- Without a response nothing has changed. -/
  unchanged : ¬Responded i final →
    final.disk = s.disk ∧ final.freeBlocks.Perm s.freeBlocks

/-- A handler that is started while no request is in flight returns, and has
given everything back. -/
theorem exits_release
    (disk : Disk) (free : List BlockNo) (hwf : WellFormed disk)
    (hfree : FreeList disk free) {c : Config fsInterface Server}
    (hreach : machine.Reachable (restServer disk free) c)
    (hidle : ∀ j, ¬InFlight c j) (i : ℕ) (hnew : c.thread i = none)
    (connection : Connection) :
    ∃ final, machine.alone i (machine.program connection)
        (Server.arrive i connection c.shared) = some ((), final) ∧
      Exited i c.shared
        (machine.trace i (machine.program connection)
          (Server.arrive i connection c.shared)) final := by
  have hboot := started_of_freeList hwf hfree
  obtain ⟨final, hrun, hend⟩ :=
    exists_alone_of_idle hboot hreach hidle hnew connection
  refine ⟨final, hrun, ?_⟩
  have hidle' : ∀ j, ¬InFlight
      ⟨final, Function.update c.thread i (some (.ret ()))⟩ j := by
    intro j
    by_cases hj : j = i
    · subst hj
      rw [not_inFlight_iff]
      exact Or.inr (Function.update_self _ _ _)
    · intro hflight
      apply hidle j
      obtain ⟨op, next, hcall⟩ := hflight
      exact ⟨op, next, (Function.update_of_ne hj _ _).symm.trans hcall⟩
  have hstart := unlocked_of_idle hboot hreach hidle
  have hstop := unlocked_of_idle hboot hend hidle'
  constructor
  · exact hstop.1
  · exact hstop.2
  · intro lock
    have hbalance := trace_balance (Server.exec_held lock) hrun
    rw [Server.held_of_unlocked hstop.1 hstop.2,
      Server.held_of_unlocked (s := Server.arrive i connection c.shared) hstart.1
        hstart.2] at hbalance
    omega
  · intro hsilent
    have hnone : ∀ op ∈ machine.trace i (machine.program connection)
        (Server.arrive i connection c.shared), ¬op.Writes := by
      intro op hop hwrites
      apply hsilent
      have hcovered := covered_serve connection.stack connection.request
      exact trace_marks Server.exec_responded hrun
        (Or.inl (trace_covered hcovered hrun ⟨op, hop, hwrites⟩))
    have hdisk : final.disk = (Server.arrive i connection c.shared).disk :=
      trace_keeps Server.disk Server.exec_not_writes hrun hnone
    refine ⟨hdisk, ?_⟩
    have hqueue := freeList_of_idle hboot hreach hidle
    have hqueue' := freeList_of_idle hboot hend hidle'
    rw [show (⟨final, Function.update c.thread i (some (.ret ()))⟩ :
      Config fsInterface Server).shared = final from rfl, hdisk] at hqueue'
    exact hqueue'.perm hqueue

theorem exits_release_freshDisk :
    ∃ free final trace, FreeList freshDisk free ∧
      machine.alone 0 (machine.program ⟨createRequest, freshStack⟩)
        (arrived freshDisk free 0 ⟨createRequest, freshStack⟩) =
          some ((), final) ∧
      machine.trace 0 (machine.program ⟨createRequest, freshStack⟩)
        (arrived freshDisk free 0 ⟨createRequest, freshStack⟩) = trace ∧
      trace.countP (FsCall.takes (.excl 0)) = 1 ∧
      trace.countP (FsCall.gives (.excl 0)) = 1 ∧
      Exited 0 (restServer freshDisk free) trace final := by
  obtain ⟨rest, hlist⟩ := exists_freeList_freshDisk
  obtain ⟨final, hrun, hexited⟩ := exits_release freshDisk (1 :: 2 :: rest)
    wellFormed_freshDisk hlist (c := ⟨restServer freshDisk (1 :: 2 :: rest), fun _ => none⟩)
    .start (fun j => by simp [InFlight]) 0 rfl ⟨createRequest, freshStack⟩
  obtain ⟨trace, htrace, htakes⟩ :
      ∃ trace, machine.trace 0 (machine.program ⟨createRequest, freshStack⟩)
          (arrived freshDisk (1 :: 2 :: rest) 0 ⟨createRequest, freshStack⟩) = trace ∧
        trace.countP (FsCall.takes (.excl 0)) = 1 := ⟨_, rfl, rfl⟩
  have hall : Exited 0 (restServer freshDisk (1 :: 2 :: rest)) trace final :=
    htrace ▸ hexited
  exact ⟨_, final, trace, hlist, hrun, htrace, htakes,
    (hall.balanced (.excl 0)).trans htakes, hall⟩

end FileServer
end Eecs482
