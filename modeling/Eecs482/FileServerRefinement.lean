import Eecs482.FileServerAnswers
import Eecs482.FileServerRecovery
import Eecs482.FileServerCalls
import Eecs482.FileServerLinear

/-!
# One request as an operation on the path tree

A handler running alone on a well-formed image carries out its request as one
operation on the path tree: it responds exactly when the operation applies and
there is space for it, the answer and the new tree are those of the operation,
and otherwise the tree stays as it is.
-/

namespace Eecs482
namespace FileServer

open Machine

variable {disk : Disk} {user name : Name} {path : Path}

/-- There is space for the operation. -/
def FsOp.Room (disk : Disk) (free : List BlockNo) : FsOp → Prop
  | .create _ path _ => free ≠ [] ∧
      ∀ p, resolve disk path.dropLast = some p →
        RoomForEntry disk (inodeAt disk p) free
  | .writeBlock _ path index _ => ∀ owner blocks,
      treeOf disk path = some (.file owner blocks) →
      index = blocks.length → free ≠ []
  | .delete _ _ | .readBlock _ _ _ => True

/-! ## Nodes of the path tree on the disk -/

theorem exists_ownedFile
    (hwf : WellFormed disk) (habove : (treeOf disk).OwnedAbove user path)
    {blocks : List Block} (hfile : treeOf disk path = some (.file user blocks)) :
    ∃ p, OwnedFile disk user path p ∧ blocks = (dataBlocks disk p).map disk := by
  obtain ⟨p, hp, hnode⟩ := Option.map_eq_some_iff.mp hfile
  unfold nodeAt at hnode
  split at hnode
  · cases hnode
  · rename_i htype
    cases hnode
    exact ⟨p, ⟨hp, habove, (hwf.type_cases p ⟨path, hp⟩).resolve_left htype, rfl⟩,
      rfl⟩

theorem exists_editableDir
    (habove : (treeOf disk).OwnedAbove user path) {owner : Name}
    (hdir : treeOf disk path = some (.dir owner))
    (howner : owner = user ∨ owner = []) :
    ∃ p, EditableDir disk user path p := by
  obtain ⟨p, hp, hnode⟩ := Option.map_eq_some_iff.mp hdir
  unfold nodeAt at hnode
  split at hnode
  · rename_i htype
    cases hnode
    exact ⟨p, hp, habove, htype, howner⟩
  · cases hnode

theorem treeOf_snoc
    {p : BlockNo} (hp : resolve disk path = some p) (name : Name) :
    treeOf disk (path ++ [name]) = (childOf disk p name).map (nodeAt disk) := by
  rw [treeOf, resolve, LabelledWalk.walk_snoc_of_walk hp]

theorem nodeAt_owner (disk : Disk) (b : BlockNo) :
    (nodeAt disk b).owner = ownerAt disk b := by
  unfold nodeAt
  split <;> rfl

/-- On an occupied image a directory that lists nothing has size 0. -/
theorem Occupied.not_dir_of_no_child
    (hoccupied : Occupied disk) (hwf : WellFormed disk) {c : BlockNo}
    (hc : Reach disk c) (hempty : ∀ child, childOf disk c child = none) :
    ¬((inodeAt disk c).type = dirType ∧ (inodeAt disk c).size > 0) := by
  rintro ⟨hdir, hsize⟩
  have hpos : 0 < (inodeAt disk c).size.toNat :=
    UInt32.lt_iff_toNat_lt.mp hsize
  have hused := hoccupied c hc hdir _ (block_mem_dataBlocks hpos)
  obtain ⟨entry, rest, hentries⟩ := List.exists_cons_of_ne_nil hused
  have hentry : entry ∈ direntries disk c := by
    rw [direntries, if_pos hdir]
    refine List.mem_flatMap.mpr ⟨_, block_mem_dataBlocks hpos, ?_⟩
    rw [hentries]
    exact List.mem_cons_self
  have hchild := childOf_of_mem (hwf.names_nodup c hc) hentry
  rw [hempty] at hchild
  cases hchild

/-! ## When a request is answered -/

/-- Where the operation applies, the handler responds if there is space. -/
theorem ends_serve
    {i : ℕ} {s : Server} {stack : Stack} {request : Request} {op : FsOp}
    {answer : Option Block} {tree : PathTree}
    (hrest : AtRest i s) (hwf : WellFormed s.disk) (hoccupied : Occupied s.disk)
    (hop : request.op = some op)
    (happly : op.Applies (treeOf s.disk) answer tree) :
    machine.Ends i (serve stack request) s
      (fun _ t => Responded i t ↔ op.Room s.disk s.freeBlocks) := by
  cases request with
  | readblock req fields =>
      simp only [Request.op, Option.bind_eq_bind, Option.bind_eq_some_iff,
        Option.some.injEq] at hop
      obtain ⟨index, hindex, path, hpath, rfl⟩ := hop
      cases happly with
      | readBlock habove hfile hdata =>
          obtain ⟨p, howned, rfl⟩ := exists_ownedFile hwf habove hfile
          have hlt := (List.getElem?_eq_some_iff.mp hdata).1
          rw [List.length_map, length_dataBlocks] at hlt
          refine (ends_handleReadblock hrest hwf hindex hpath howned hlt).imp
            fun _ t ht => iff_of_true ht trivial
  | writeblock req fields data =>
      simp only [Request.op, Option.bind_eq_bind, Option.bind_eq_some_iff,
        Option.some.injEq] at hop
      obtain ⟨index, hindex, path, hpath, rfl⟩ := hop
      cases happly with
      | writeBlock habove hfile hle _ =>
          obtain ⟨p, howned, rfl⟩ := exists_ownedFile hwf habove hfile
          rw [List.length_map, length_dataBlocks] at hle
          refine (ends_handleWriteblock hrest hwf hindex hpath howned hle).imp
            fun _ t ht => ht.trans ?_
          constructor
          · intro hspace owner blocks hsame hend
            rw [hfile] at hsame
            cases hsame
            exact hspace (by simpa using hend)
          · exact fun hspace hend => hspace _ _ hfile (by simpa using hend)
  | create req fields =>
      simp only [Request.op, Option.bind_eq_bind, Option.bind_eq_some_iff,
        Option.some.injEq] at hop
      obtain ⟨type, htype, path, hpath, rfl⟩ := hop
      cases happly with
      | create habove hparent howner habsent =>
          obtain ⟨p, hdir⟩ := exists_editableDir habove hparent howner
          rw [treeOf_snoc hdir.resolved, Option.map_eq_none_iff] at habsent
          refine (ends_handleCreate hrest hwf htype hpath hdir habsent).imp
            fun _ t ht => ht.trans (and_congr_right fun _ => ?_)
          rw [List.dropLast_concat, hdir.resolved]
          simp
  | delete fields =>
      simp only [Request.op, Option.bind_eq_bind, Option.bind_eq_some_iff,
        Option.some.injEq] at hop
      obtain ⟨path, hpath, rfl⟩ := hop
      cases happly with
      | @delete _ _ _ name parent _ habove hparent howner hnode huser hempty =>
          obtain ⟨p, hdir⟩ := exists_editableDir habove hparent howner
          rw [treeOf_snoc hdir.resolved] at hnode
          obtain ⟨c, hchild, rfl⟩ := Option.map_eq_some_iff.mp hnode
          rw [nodeAt_owner] at huser
          refine (ends_handleDelete hrest hwf hpath hdir hchild huser ?_).imp
            fun _ t ht => iff_of_true ht trivial
          refine hoccupied.not_dir_of_no_child hwf
            (LabelledWalk.Visits.child hdir.reach hchild) fun child => ?_
          have hresolve : resolve s.disk (parent ++ [name]) = some c := by
            rw [resolve, LabelledWalk.walk_snoc_of_walk hdir.resolved, hchild]
          have hnone := hempty child
          rw [treeOf_snoc hresolve, Option.map_eq_none_iff] at hnone
          exact hnone

/-! ## Reads write nothing -/

/-- The call leaves the disk and the queue of free blocks alone. -/
def FsCall.KeepsDisk : FsCall → Prop
  | .lockShared _ | .unlockShared _ | .diskReadblock _ _ | .sendResponse _
  | .close => True
  | _ => False

theorem Server.exec_keepsDisk
    {i : ℕ} {op : FsCall} (hop : op.KeepsDisk) {s t : Server}
    {answer : fsInterface.Answer op}
    (hexec : Server.exec i op s = some (answer, t)) :
    (t.disk, t.freeBlocks) = (s.disk, s.freeBlocks) := by
  cases op with
  | lockShared b =>
      simp only [Server.exec] at hexec
      split at hexec <;> cases hexec
      rfl
  | unlockShared b =>
      simp only [Server.exec] at hexec
      split at hexec <;> cases hexec
      rfl
  | diskReadblock b mark =>
      cases hexec
      cases mark with
      | false => rfl
      | true =>
          simp only [if_true, Server.commit]
          split <;> rfl
  | sendResponse message => cases hexec; rfl
  | close => cases hexec; rfl
  | _ => exact hop.elim

/-- No call changes what was asked for. -/
theorem Server.exec_request
    {i : ℕ} {op : FsCall} {s t : Server} {answer : fsInterface.Answer op}
    (hexec : Server.exec i op s = some (answer, t)) : t.request = s.request := by
  have hcommit : ∀ (s : Server) (answer : Option Block),
      (s.commit i answer).request = s.request := by
    intro s answer
    unfold Server.commit
    split <;> rfl
  cases op with
  | lockShared b => simp only [Server.exec] at hexec; split at hexec <;> cases hexec; rfl
  | unlockShared b => simp only [Server.exec] at hexec; split at hexec <;> cases hexec; rfl
  | lock b => simp only [Server.exec] at hexec; split at hexec <;> cases hexec; rfl
  | unlock b => simp only [Server.exec] at hexec; split at hexec <;> cases hexec; rfl
  | lockFree => simp only [Server.exec] at hexec; split at hexec <;> cases hexec; rfl
  | unlockFree => simp only [Server.exec] at hexec; split at hexec <;> cases hexec; rfl
  | freeEmpty => cases hexec; rfl
  | freeFront => simp only [Server.exec] at hexec; split at hexec <;> cases hexec; rfl
  | freePop => simp only [Server.exec] at hexec; split at hexec <;> cases hexec; rfl
  | freePush b => cases hexec; rfl
  | diskReadblock b mark =>
      cases hexec
      cases mark with
      | false => rfl
      | true => exact hcommit _ _
  | diskWriteblock b block mark =>
      cases hexec
      cases mark with
      | none => rfl
      | some note => exact hcommit _ _
  | sendResponse message => cases hexec; rfl
  | close => cases hexec; rfl

theorem FsCall.keepsDisk_of_reads {op : FsCall} (hreads : op.Reads) :
    op.KeepsDisk := by
  cases op <;> trivial

theorem calls_handleReadblock (req : List Byte) (fields : RequestFields) :
    (handleReadblock req fields).Calls FsCall.KeepsDisk := by
  unfold handleReadblock
  split
  · trivial
  split
  · trivial
  split
  · trivial
  split
  · trivial
  refine Prog.Calls.bind
    ((calls_traverseDir _ _).mono fun _ => FsCall.keepsDisk_of_reads) fun target => ?_
  split
  · exact calls_call trivial
  · refine Prog.Calls.bind (calls_call trivial) fun _ => ?_
    refine Prog.Calls.bind
      ((calls_readLocked _ _ _).mono fun _ => FsCall.keepsDisk_of_reads) fun data => ?_
    refine Prog.Calls.bind (calls_call trivial) fun _ => ?_
    split
    · trivial
    · exact calls_call trivial

/-! ## The run of one handler -/

/-- The server at rest on an image. -/
def restServer (disk : Disk) (free : List BlockNo) : Server :=
  { disk := disk, freeBlocks := free }

/-- The server when thread `i` has just been started on a connection. -/
def arrived (disk : Disk) (free : List BlockNo) (i : ℕ)
    (connection : Connection) : Server :=
  Server.arrive i connection (restServer disk free)

theorem atRest_arrived
    (disk : Disk) (free : List BlockNo) (i : ℕ) (connection : Connection) :
    AtRest i (arrived disk free i connection) where
  locks := rfl
  freeLock := rfl
  silent := by
    rintro ⟨message, hmem⟩
    simp [arrived, Server.arrive, restServer] at hmem

/-- Thread `i` has `program` ahead of it, and no other thread was started. -/
def onlyThread (i : ℕ) (program : FsProg Unit) : ℕ → Option (FsProg Unit) :=
  Function.update (fun _ => none) i (some program)

theorem onlyThread_self (i : ℕ) (program : FsProg Unit) :
    onlyThread i program i = some program :=
  Function.update_self _ _ _

theorem onlyThread_of_ne {i j : ℕ} (hj : j ≠ i) (program : FsProg Unit) :
    onlyThread i program j = none :=
  Function.update_of_ne hj _ _

/-- The only handler has ended. -/
theorem idle_onlyThread (i : ℕ) (s : Server) (j : ℕ) :
    ¬InFlight ⟨s, onlyThread i (.ret ())⟩ j := by
  rw [not_inFlight_iff]
  by_cases hj : j = i
  · subst hj
    exact Or.inr (onlyThread_self j _)
  · exact Or.inl (onlyThread_of_ne hj _)

/-- A handler that has been started while no other one runs gets through, and its
run is a run of the server. -/
theorem exists_alone_of_idle
    {boot : Server} {c : Config fsInterface Server} (hboot : Started disk boot)
    (hreach : machine.Reachable boot c) (hidle : ∀ j, ¬InFlight c j) {i : ℕ}
    (hnew : c.thread i = none) (connection : Connection) :
    ∃ final, machine.alone i (machine.program connection)
        (Server.arrive i connection c.shared) = some ((), final) ∧
      machine.Reachable boot
        ⟨final, Function.update c.thread i (some (.ret ()))⟩ := by
  have harrived : machine.Reachable boot
      ⟨Server.arrive i connection c.shared,
        Function.update c.thread i (some (machine.program connection))⟩ :=
    .step hreach (Machine.Step.arrive (M := machine) i connection hnew)
  have hprogress : ∀ c', machine.Reachable boot c' →
      (∀ j, j ≠ i → c'.thread j =
        Function.update c.thread i (some (machine.program connection)) j) →
      ∀ op next, c'.thread i = some (.call op next) →
        (machine.exec i op c'.shared).isSome := by
    intro c' hc' hothers op next hcall
    obtain ⟨j, op', next', hcall', _, hsome⟩ :=
      exists_progress hboot hc' (i := i) ⟨op, next, hcall⟩
    have hj : j = i := by
      by_contra hne
      rw [hothers j hne, Function.update_of_ne hne] at hcall'
      exact hidle j ⟨op', next', hcall'⟩
    subst hj
    rw [hcall] at hcall'
    cases hcall'
    exact hsome
  obtain ⟨final, hfinal⟩ :=
    Machine.Reachable.exists_alone hprogress harrived (Function.update_self _ _ _)
  refine ⟨final, hfinal, ?_⟩
  have hend := Machine.Reachable.alone harrived (Function.update_self _ _ _) hfinal
  rwa [Function.update_idem] at hend

/-- While all handlers have returned or are about to respond, no lock is held. -/
theorem unlocked_of_not_working
    {boot : Server} {c : Config fsInterface Server} (hboot : Started disk boot)
    (hreach : machine.Reachable boot c) (hdone : ∀ j, ¬Working c j) :
    c.shared.diskLocks = noLocks ∧ c.shared.freeBlockLock = none := by
  constructor
  · funext b
    have hreaders : (c.shared.diskLocks b).readers = [] := by
      rw [List.eq_nil_iff_forall_not_mem]
      intro j hj
      exact hdone j (working_of_locks hboot hreach (Or.inl hj))
    have hwriter : (c.shared.diskLocks b).writer = none := by
      by_contra hheld
      obtain ⟨j, hj⟩ := Option.ne_none_iff_exists'.mp hheld
      exact hdone j (working_of_locks hboot hreach (Or.inr hj))
    rw [noLocks]
    cases hlock : c.shared.diskLocks b
    rw [hlock] at hreaders hwriter
    simp only at hreaders hwriter
    rw [hreaders, hwriter]
  · by_contra hheld
    obtain ⟨j, hj⟩ := Option.ne_none_iff_exists'.mp hheld
    exact hdone j (working_of_freeLock hboot hreach hj)

theorem unlocked_of_idle
    {boot : Server} {c : Config fsInterface Server} (hboot : Started disk boot)
    (hreach : machine.Reachable boot c) (hidle : ∀ j, ¬InFlight c j) :
    c.shared.diskLocks = noLocks ∧ c.shared.freeBlockLock = none :=
  unlocked_of_not_working hboot hreach fun j hworking => hidle j hworking.inFlight

section Handler

variable {free : List BlockNo} (hwf : WellFormed disk)
variable (hfree : FreeList disk free) (i : ℕ)
include hwf hfree

/-- A handler running alone gets through, and its run is a run of the
server. -/
theorem exists_aloneRun (connection : Connection) :
    ∃ final, machine.alone i (machine.program connection)
        (arrived disk free i connection) = some ((), final) ∧
      machine.Reachable (restServer disk free)
        ⟨final, onlyThread i (.ret ())⟩ :=
  exists_alone_of_idle (c := ⟨restServer disk free, fun _ => none⟩)
    (started_of_freeList hwf hfree) .start (fun j => by simp [InFlight]) rfl
    connection

variable {final : Server}
variable (hreach : machine.Reachable (restServer disk free)
  ⟨final, onlyThread i (.ret ())⟩)
include hreach

/-- No thread holds anything once the only handler has ended. -/
theorem owns_of_ended (j : ℕ) :
    ∃ request events, Owns j { request := request, events := events } final ∧
      (j ≠ i → events = []) := by
  have hpool := run_invariant (started_of_freeList hwf hfree) hreach
  by_cases hj : j = i
  · subst hj
    obtain ⟨request, events, _, _, howns⟩ := hpool.done (onlyThread_self j _)
    exact ⟨some request, events, howns, fun hne => absurd rfl hne⟩
  · exact ⟨none, [], hpool.idle j (onlyThread_of_ne hj _), fun _ => rfl⟩

/-- All events of the run are those of the handler. -/
theorem eventsOf_of_ended : eventsOf i final.events = final.events := by
  refine List.filter_eq_self.mpr fun event hmem => ?_
  by_contra hne
  have hne : event.thread ≠ i := by simpa using hne
  obtain ⟨_, events, hown, hnil⟩ :=
    owns_of_ended hwf hfree i hreach event.thread
  have hevent : event ∈ eventsOf event.thread final.events :=
    mem_eventsOf.mpr ⟨hmem, rfl⟩
  rw [hown.events, hnil hne] at hevent
  cases hevent

end Handler

/-- The handler of a request has run alone: what has become of the image, the
free blocks and the client. -/
structure Handled
    (disk : Disk) (free : List BlockNo) (i : ℕ) (request : Request)
    (final : Server) : Prop where
  wf : WellFormed final.disk
  occupied : Occupied final.disk
  freeList : FreeList final.disk final.freeBlocks
  unlocked : final.diskLocks = noLocks ∧ final.freeBlockLock = none
  /-- A response is sent exactly when the operation applies to the path tree
  and there is space, and it carries the answer of the operation. -/
  responds : ∀ message, Event.respond i message ∈ final.events ↔
    ∃ op answer tree, request.op = some op ∧
      op.Applies (treeOf disk) answer tree ∧ op.Room disk free ∧
      message = request.response answer
  /-- The tree is then the one the operation gives. -/
  tree : ∀ op answer tree, request.op = some op →
    op.Applies (treeOf disk) answer tree → op.Room disk free →
    treeOf final.disk = tree
  /-- A request that is refused leaves the tree as it is. -/
  refused : ¬Responded i final → treeOf final.disk = treeOf disk
  /-- Reading changes nothing. -/
  reads : ∀ req fields, request = .readblock req fields →
    final.disk = disk ∧ final.freeBlocks = free

/-- Each handler, running alone, carries out its request on the path tree. -/
theorem handler_refines
    (disk : Disk) (free : List BlockNo) (hwf : WellFormed disk)
    (hoccupied : Occupied disk) (hfree : FreeList disk free)
    (i : ℕ) (connection : Connection) :
    ∃ final, machine.alone i (machine.program connection)
        (arrived disk free i connection) = some ((), final) ∧
      Handled disk free i connection.request final := by
  obtain ⟨final, hrun, hreach⟩ := exists_aloneRun hwf hfree i connection
  refine ⟨final, hrun, ?_⟩
  have hboot := started_of_freeList hwf hfree
  have hpool := run_invariant hboot hreach
  have hinv : Inv disk final := hpool.inv
  obtain ⟨request, events, hlife, hclose, hown⟩ :=
    hpool.done (onlyThread_self i (.ret ()))
  have hevents : events = final.events :=
    hown.events.symm.trans (eventsOf_of_ended hwf hfree i hreach)
  subst hevents
  have hrequest : request = connection.request := by
    have hkeeps := Machine.alone_keeps (P := fun _ => True) Server.request
      (fun _ _ _ _ _ hexec => Server.exec_request hexec)
      (Prog.calls_true (machine.program connection)) hrun
    have hasked : final.request i = some connection.request := by
      rw [hkeeps]
      exact Function.update_self _ _ _
    exact Option.some.inj (hown.request.symm.trans hasked)
  subst hrequest
  have hroom : ∀ op answer tree, connection.request.op = some op →
      op.Applies (treeOf disk) answer tree →
      (Responded i final ↔ op.Room disk free) := fun op answer tree hop happly =>
    (ends_serve (atRest_arrived disk free i connection) hwf hoccupied hop
      happly).post hrun
  have hread : ∀ req fields, connection.request = .readblock req fields →
      final.disk = disk ∧ final.freeBlocks = free := by
    intro req fields hreq
    have hcalls : (machine.program connection).Calls FsCall.KeepsDisk := by
      change (serve connection.stack connection.request).Calls _
      rw [hreq]
      exact (calls_handleReadblock req fields).bind fun _ => calls_call trivial
    have hkeeps := Machine.alone_keeps
      (fun s : Server => (s.disk, s.freeBlocks))
      (fun _ hop _ _ _ hexec => Server.exec_keepsDisk hop hexec) hcalls hrun
    exact Prod.mk.inj hkeeps
  have hfinal : (¬Responded i final ∧ treeOf final.disk = treeOf disk) ∨
      ∃ op answer, connection.request.op = some op ∧
        op.Applies (treeOf disk) answer (treeOf final.disk) ∧
        ∀ message, Event.respond i message ∈ final.events ↔
          message = connection.request.response answer := by
    have hreplay := hinv.replay
    generalize hlog : final.events = log at hlife hclose hreplay
    cases hlife with
    | started => simp at hclose
    | committed hop => simp at hclose
    | responded hop => simp at hclose
    | refused =>
        refine Or.inl ⟨?_, ?_⟩
        · rintro ⟨message, hmem⟩
          simp [hlog] at hmem
        · exact Replay.eq_of_nil (by simpa [history] using hreplay)
    | @answered _ op answer hop =>
        refine Or.inr ⟨op, answer, hop, ?_, fun message => by simp⟩
        exact Replay.applies (by simpa [history] using hreplay)
  refine {
    wf := hinv.wf
    occupied := hinv.occupied hoccupied
    freeList := freeList_of_idle hboot hreach (idle_onlyThread i final)
    unlocked := unlocked_of_idle hboot hreach (idle_onlyThread i final)
    responds := fun message => ?_
    tree := fun op answer tree hop happly hspace => ?_
    refused := fun hsilent => ?_
    reads := hread }
  · rcases hfinal with ⟨hsilent, _⟩ | ⟨op, answer, hop, happly, hmessages⟩
    · refine iff_of_false (fun hmem => hsilent ⟨message, hmem⟩) ?_
      rintro ⟨op, answer, tree, hop, happly, hspace, _⟩
      exact hsilent ((hroom op answer tree hop happly).mpr hspace)
    · rw [hmessages]
      have hresponded : Responded i final :=
        ⟨_, (hmessages (connection.request.response answer)).mpr rfl⟩
      constructor
      · rintro rfl
        exact ⟨op, answer, _, hop, happly,
          (hroom op answer _ hop happly).mp hresponded, rfl⟩
      · rintro ⟨op', answer', tree, hop', happly', _, rfl⟩
        obtain rfl : op = op' := Option.some.inj (hop.symm.trans hop')
        rw [(happly.unique happly').1]
  · rcases hfinal with ⟨hsilent, _⟩ | ⟨op', answer', hop', happly', _⟩
    · exact absurd ((hroom op answer tree hop happly).mpr hspace) hsilent
    · obtain rfl : op = op' := Option.some.inj (hop.symm.trans hop')
      exact (happly'.unique happly).2
  · rcases hfinal with ⟨_, hsame⟩ | ⟨_, answer, _, _, hmessages⟩
    · exact hsame
    · exact absurd ⟨_, (hmessages (connection.request.response answer)).mpr rfl⟩
        hsilent

theorem handler_refines_freshDisk :
    ∃ free final message, FreeList freshDisk free ∧
      machine.alone 0 (machine.program ⟨createRequest, freshStack⟩)
        (arrived freshDisk free 0 ⟨createRequest, freshStack⟩) =
          some ((), final) ∧
      Event.respond 0 message ∈ final.events ∧
      Handled freshDisk free 0 createRequest final := by
  obtain ⟨rest, hlist⟩ := exists_freeList_freshDisk
  obtain ⟨final, hrun, hhandled⟩ := handler_refines freshDisk (1 :: 2 :: rest)
    wellFormed_freshDisk occupied_freshDisk hlist 0 ⟨createRequest, freshStack⟩
  obtain ⟨final', hrun', hevents⟩ :
      ∃ final, machine.alone 0 (machine.program ⟨createRequest, freshStack⟩)
          (arrived freshDisk (1 :: 2 :: rest) 0 ⟨createRequest, freshStack⟩) =
            some ((), final) ∧
        ∃ start commit message stop,
          final.events = [start, commit, .respond 0 message, stop] :=
    ⟨_, rfl, _, _, _, _, rfl⟩
  obtain ⟨_, rfl⟩ := Prod.mk.inj (Option.some.inj (hrun'.symm.trans hrun))
  obtain ⟨_, _, message, _, hevents⟩ := hevents
  exact ⟨_, final', message, hlist, hrun, by rw [hevents]; simp, hhandled⟩

end FileServer
end Eecs482