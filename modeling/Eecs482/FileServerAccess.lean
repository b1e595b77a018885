import Eecs482.FileServerOwnership
import Eecs482.FileServerLinear

/-!
# Access control

What a request of one user does to the nodes of the others: nothing.  Each step
of its thread leaves their inodes, their data blocks and the direntries that
name them as they are, and a read answers with what has been written to a file
of the user.
-/

namespace Eecs482
namespace FileServer

open LabelledWalk

variable {disk disk' : Disk} {user : Name} {b p : BlockNo} {op : FsOp}

/-- The inode is in the tree and belongs to another user. -/
structure Foreign (disk : Disk) (user : Name) (b : BlockNo) : Prop where
  reach : Reach disk b
  other : ownerAt disk b ≠ user
  owned : ownerAt disk b ≠ []

theorem owner_nodeAt (disk : Disk) (b : BlockNo) :
    (nodeAt disk b).owner = ownerAt disk b := by
  unfold nodeAt
  split <;> rfl

theorem treeOf_of_resolve {path : Path} (hpath : resolve disk path = some b) :
    treeOf disk path = some (nodeAt disk b) := by
  rw [treeOf, hpath, Option.map_some]

theorem closed_treeOf (disk : Disk) : (treeOf disk).Closed := by
  intro front path hpre hfront
  cases hpath : resolve disk path with
  | none => rw [treeOf, hpath, Option.map_none]
  | some b =>
      obtain ⟨c, hc⟩ := walk_prefix_isSome hpre hpath
      rw [treeOf_of_resolve hc] at hfront
      cases hfront

/-! ## An operation and the nodes of the others -/

section Applies

variable {tree' : PathTree} {answer : Option Block}
variable (happly : op.Applies (treeOf disk) answer tree')
include happly

theorem Foreign.not_home (h : Foreign disk op.user b) :
    resolve disk op.home ≠ some b := by
  intro hhome
  exact (happly.other_owner (treeOf_of_resolve hhome)
    (by rw [owner_nodeAt]; exact h.other) (by rw [owner_nodeAt]; exact h.owned)).2.1 rfl

theorem Foreign.not_target (h : Foreign disk op.user b) :
    resolve disk op.path ≠ some b := by
  intro htarget
  exact (happly.other_owner (treeOf_of_resolve htarget)
    (by rw [owner_nodeAt]; exact h.other) (by rw [owner_nodeAt]; exact h.owned)).1 rfl

/-- Nothing is below the node an operation is about. -/
theorem childOf_target_eq_none
    (htarget : resolve disk op.path = some b) (name : Name) :
    childOf disk b name = none := by
  have hfile : ∀ {owner : Name} {blocks : List Block},
      treeOf disk op.path = some (.file owner blocks) → childOf disk b name = none := by
    intro owner blocks hnode
    rw [treeOf_of_resolve htarget, Option.some.injEq, nodeAt] at hnode
    split at hnode
    · cases hnode
    · rename_i htype
      apply childOf_eq_none_of_direntries_nil
      rw [direntries, if_neg htype]
  cases happly with
  | create _ _ _ habsent =>
      have hnode := treeOf_of_resolve htarget
      rw [FsOp.path, habsent] at hnode
      cases hnode
  | delete _ _ _ _ _ hempty =>
      have hnone := hempty name
      rw [FsOp.path] at htarget
      rw [treeOf, resolve, walk_snoc_of_walk htarget, Option.map_eq_none_iff] at hnone
      exact hnone
  | readBlock _ hnode _ => exact hfile hnode
  | writeBlock _ hnode _ _ => exact hfile hnode

end Applies

/-- Entries that do not name the target of the operation keep their place. -/
theorem Effect.childOf_of_ne
    {attached detached : List BlockNo}
    (h : Effect disk disk' p op attached detached) {dir : BlockNo}
    (hdir : Reach disk dir) (hdir' : Reach disk' dir) {name : Name}
    (hchild : childOf disk dir name = some b)
    (htarget : resolve disk op.path ≠ some b) :
    childOf disk' dir name = some b := by
  obtain ⟨entry, hentry, rfl, rfl⟩ := childOf_eq_some hchild
  exact childOf_of_mem (h.wf.names_nodup dir hdir')
    (h.entries dir hdir entry hentry htarget)

/-- The path of every other node leads where it did. -/
theorem Effect.resolve_of_ne
    {attached detached : List BlockNo}
    (h : Effect disk disk' p op attached detached) {path : Path}
    (hpath : resolve disk path = some b) (htarget : resolve disk op.path ≠ some b) :
    resolve disk' path = some b := by
  induction path using List.reverseRecOn generalizing b with
  | nil => exact hpath
  | append_singleton front name ih =>
      obtain ⟨dir, hdir⟩ := walk_prefix_isSome (List.prefix_append front [name]) hpath
      have hchild : childOf disk dir name = some b := by
        rw [← walk_snoc_of_walk hdir]
        exact hpath
      have hfront := ih hdir fun hsame => by
        rw [childOf_target_eq_none h.applies hsame name] at hchild
        cases hchild
      rw [resolve, walk_snoc_of_walk hfront]
      exact h.childOf_of_ne ⟨front, hdir⟩ ⟨front, hfront⟩ hchild htarget

/-! ## One step of a thread -/

/-- The step leaves everything of the other users as it is: their inodes, with
the paths to them, their data blocks, and the direntries that name their nodes. -/
structure Spares (user : Name) (s t : Server) : Prop where
  inode : ∀ b, Foreign s.disk user b →
    t.disk b = s.disk b ∧ Reach t.disk b ∧ b ∉ t.freeBlocks
  data : ∀ b, Foreign s.disk user b → ∀ x ∈ dataBlocks s.disk b,
    t.disk x = s.disk x ∧ x ∈ dataBlocks t.disk b ∧ x ∉ t.freeBlocks
  entry : ∀ b, Foreign s.disk user b → ∀ dir, Reach s.disk dir →
    ∀ entry ∈ direntries s.disk dir, entry.inodeBlock = b →
      Reach t.disk dir ∧ entry ∈ direntries t.disk dir

/-- A node of the tree is not free, and neither are its data blocks. -/
theorem Conserved.not_free
    {s : Server} (h : Conserved s) {b x : BlockNo} (hb : Reach s.disk b)
    (hx : x = b ∨ x ∈ dataBlocks s.disk b) : x ∉ s.freeBlocks := by
  intro hfree
  have hunused := h.free_unused x hfree
  rcases hx with rfl | hx
  · exact hb.zero_or_used.elim (h.free_range x hfree).1 hunused
  · exact hunused ⟨b, hb, dataBlocks_subset_refs s.disk b hx⟩

/-- What has to be shown about the disk. -/
theorem Spares.of_agree
    {s t : Server} (hconserved : Conserved t)
    (hagree : ∀ b, Foreign s.disk user b →
      Agree s.disk t.disk b ∧ Reach t.disk b)
    (hentry : ∀ b, Foreign s.disk user b → ∀ dir, Reach s.disk dir →
      ∀ entry ∈ direntries s.disk dir, entry.inodeBlock = b →
        Reach t.disk dir ∧ entry ∈ direntries t.disk dir) :
    Spares user s t := by
  refine ⟨fun b hb => ?_, fun b hb x hx => ?_, hentry⟩
  · obtain ⟨hsame, hreach⟩ := hagree b hb
    exact ⟨hsame.1, hreach, hconserved.not_free hreach (Or.inl rfl)⟩
  · obtain ⟨hsame, hreach⟩ := hagree b hb
    have hx' : x ∈ dataBlocks t.disk b := by rwa [hsame.dataBlocks]
    exact ⟨hsame.2 x hx, hx', hconserved.not_free hreach (Or.inr hx')⟩

/-- A step that changes nothing in the tree. -/
theorem Spares.of_sameTree
    {s t : Server} (hconserved : Conserved t)
    (hagree : ∀ b, Reach s.disk b → Agree s.disk t.disk b) :
    Spares user s t := by
  refine Spares.of_agree hconserved (fun b hb => ?_) fun b _ dir hdir entry hentry _ => ?_
  · exact ⟨hagree b hb.reach, (reach_of_agree hagree b).mpr hb.reach⟩
  · exact ⟨(reach_of_agree hagree dir).mpr hdir, by rwa [(hagree dir hdir).direntries]⟩

/-- The commit write of a request. -/
theorem Spares.of_effect
    {s t : Server} {x : BlockNo} {block : Block} {attached detached : List BlockNo}
    (hwf : WellFormed s.disk) (hconserved : Conserved t)
    (hdisk : t.disk = Function.update s.disk x block)
    (hhome : resolve s.disk op.home = some p)
    (htarget : x = p ∨ x ∈ dataBlocks s.disk p)
    (heffect : Effect s.disk (Function.update s.disk x block) p op attached detached) :
    Spares op.user s t := by
  rw [← hdisk] at heffect
  have hkept : ∀ b, Foreign s.disk op.user b → ∀ path,
      resolve s.disk path = some b → resolve t.disk path = some b :=
    fun b hb path hpath =>
      heffect.resolve_of_ne hpath (hb.not_target heffect.applies)
  refine Spares.of_agree hconserved (fun b hb => ?_)
    fun b hb dir hdir entry hentry hname => ?_
  · have hne : b ≠ p := by
      rintro rfl
      exact hb.not_home heffect.applies hhome
    obtain ⟨path, hpath⟩ := hb.reach
    exact ⟨hdisk ▸ hwf.agree_update_of_ne hb.reach ⟨op.home, hhome⟩ hne htarget,
      path, hkept b hb path hpath⟩
  · subst hname
    obtain ⟨path, hpath⟩ := hdir
    have hchild := childOf_of_mem (hwf.names_nodup dir ⟨path, hpath⟩) hentry
    have hdir' : resolve t.disk path = some dir :=
      heffect.resolve_of_ne hpath fun hsame => by
        rw [childOf_target_eq_none heffect.applies hsame] at hchild
        cases hchild
    exact ⟨⟨path, hdir'⟩, heffect.entries dir ⟨path, hpath⟩ entry hentry
      (hb.not_target heffect.applies)⟩

section Run

variable {initial : Disk} {boot : Server} {c : Config fsInterface Server}
variable (hboot : Started initial boot)
variable (hreach : machine.Reachable boot c)
include hboot hreach

/-- A step of the thread of a request. -/
theorem spares_of_exec
    {i : ℕ} {call : FsCall} {next : fsInterface.Answer call → FsProg Unit}
    {answer : fsInterface.Answer call} {shared : Server} {request : Request}
    (hthread : c.thread i = some (.call call next))
    (hexec : machine.exec i call c.shared = some (answer, shared))
    (hrequest : c.shared.request i = some request) :
    Spares request.fields.username c.shared shared := by
  have hinv := run_inv hboot hreach
  have hinv' : Inv initial shared :=
    run_inv hboot (.step hreach (.exec i call next answer shared hthread hexec))
  have hguard := (run_invariant hboot hreach).guard hthread
  have hdisk := Server.exec_disk hexec
  cases call with
  | diskWriteblock b block mark =>
      cases mark with
      | none =>
          refine Spares.of_sameTree hinv'.conserved fun q hq => ?_
          rw [hdisk]
          exact hinv.agree_write hguard.1 block q hq
      | some note =>
          obtain ⟨⟨request', op, p, hrequest', hop, hhome, htarget, heffect⟩, _⟩ := hguard
          rw [hrequest, Option.some.injEq] at hrequest'
          subst hrequest'
          rw [← Request.op_user hop]
          exact Spares.of_effect hinv.wf hinv'.conserved hdisk hhome htarget heffect
  | lockShared b | unlockShared b | lock b | unlock b | lockFree | unlockFree
  | freeEmpty | freeFront | freePop | freePush b | diskReadblock b mark
  | sendResponse message | close =>
      refine Spares.of_sameTree hinv'.conserved fun q _ => ?_
      rw [hdisk]
      exact Agree.refl _ _

theorem ownershipLaw_of_reachable (hlaw : (treeOf initial).OwnershipLaw) :
    (treeOf c.shared.disk).OwnershipLaw := by
  have hinv := run_inv hboot hreach
  refine (hinv.replay.ownershipLaw (closed_treeOf initial) (fun entry hentry => ?_)
    hlaw).2
  obtain ⟨i, hcommit⟩ := mem_history.mp (show (entry.1, entry.2) ∈ _ from hentry)
  obtain ⟨request, _, hop⟩ := Option.bind_eq_some_iff.mp (hinv.requested hcommit)
  rw [Request.op_user hop]
  exact request.fields.username_ne_nil

end Run

/-! ## What a read answers -/

/-- After the events `before` the data are a block of the file at `path`: the
file and the directories above it are the user's, and the data were last
written there to this file, or are its initial content. -/
structure ReadFrom
    (initial : Disk) (before : List Event) (user : Name) (path : Path) (index : ℕ)
    (data : Block) (tree : PathTree) (blocks : List Block) : Prop where
  replay : Replay (treeOf initial) (history before) tree
  above : tree.OwnedAbove user path
  file : tree path = some (.file user blocks)
  block : blocks[index]? = some data
  origin : Written (history before) user path index data ∨
    Initial (treeOf initial) (history before) user path index data

theorem readFrom_of_replay
    {initial : Disk} {before : List Event} {user : Name} {path : Path} {index : ℕ}
    {answer : Option Block} {tree tree' : PathTree}
    (hreplay : Replay (treeOf initial) (history before) tree)
    (happly : (FsOp.readBlock user path index).Applies tree answer tree') :
    ∃ data blocks, answer = some data ∧
      ReadFrom initial before user path index data tree blocks := by
  cases happly with
  | @readBlock _ _ _ _ blocks data habove hfile hdata =>
      exact ⟨data, blocks, rfl, hreplay, habove, hfile, hdata,
        hreplay.origin hfile hdata⟩

/-- A response to a read, with the commit it answers. -/
structure Answers
    (events : List Event) (i : ℕ) (req : List Byte) (fields : RequestFields)
    (message : List Byte) (path : Path) (index : ℕ) (data : Block)
    (before : List Event) : Prop where
  message_eq : ∃ blockStr, message = responseHeader
    [readblockWord, fields.username, fields.pathname, blockStr] ++ List.ofFn data
  path_eq : pathParser fields.pathname = some path
  index_eq : blockIndex req = some index
  commit : ∃ after, events = before ++
    .commit i (.readBlock fields.username path index) (some data) :: after

section Run

variable {initial : Disk} {boot : Server} {c : Config fsInterface Server}
variable (hboot : Started initial boot)
variable (hreach : machine.Reachable boot c)
include hboot hreach

theorem readFrom_of_respond
    {i : ℕ} {req : List Byte} {fields : RequestFields} {message : List Byte}
    (hrequest : c.shared.request i = some (.readblock req fields))
    (hrespond : Event.respond i message ∈ c.shared.events) :
    ∃ path index data before tree blocks,
      Answers c.shared.events i req fields message path index data before ∧
      ReadFrom initial before fields.username path index data tree blocks := by
  have hinv := run_inv hboot hreach
  obtain ⟨request, op, answer, hrequest', hcommit, hmessage⟩ :=
    (hinv.life i).respond_answered (mem_eventsOf.mpr ⟨hrespond, rfl⟩)
  rw [hrequest, Option.some.injEq] at hrequest'
  subst hrequest'
  have hcommit : Event.commit i op answer ∈ c.shared.events :=
    (mem_eventsOf.mp hcommit).1
  have hop := hinv.requested hcommit
  rw [hrequest, Option.bind_some, Request.op] at hop
  simp only [Option.bind_eq_bind, Option.bind_eq_some_iff] at hop
  obtain ⟨index, hindex, path, hpath, heq⟩ := hop
  cases heq
  obtain ⟨before, after, hsplit⟩ := List.append_of_mem hcommit
  have hreplay := hinv.replay
  rw [hsplit] at hreplay
  have hhistory : history (before ++
      .commit i (.readBlock fields.username path index) answer :: after) =
      history before ++ (.readBlock fields.username path index, answer) ::
        history after := by
    simp [history, List.filterMap_append]
  rw [hhistory] at hreplay
  obtain ⟨tree, tree', hfirst, happly, _⟩ := hreplay.split
  obtain ⟨data, blocks, rfl, hread⟩ := readFrom_of_replay hfirst happly
  simp only [Request.response, Request.fields, Option.map_some,
    Option.getD_some] at hmessage
  exact ⟨path, index, data, before, tree, blocks,
    ⟨⟨_, hmessage⟩, hpath, hindex, after, hsplit⟩, hread⟩

end Run

/-! ## Access control -/

/-- In every run the ownership law holds, no thread changes or frees what
belongs to another user than its own, and reads answer with what is the
user's. -/
theorem accessControlled
    (disk : Disk) (hwf : WellFormed disk) (hlaw : (treeOf disk).OwnershipLaw) :
    ∃ boot, initServer disk = some boot ∧ ∀ c, machine.Reachable boot c →
      (treeOf c.shared.disk).OwnershipLaw ∧
      (∀ i call next answer shared request,
        c.thread i = some (.call call next) →
        machine.exec i call c.shared = some (answer, shared) →
        c.shared.request i = some request →
        Spares request.fields.username c.shared shared) ∧
      ∀ i req fields message,
        c.shared.request i = some (.readblock req fields) →
        Event.respond i message ∈ c.shared.events →
        ∃ path index data before tree blocks,
          Answers c.shared.events i req fields message path index data before ∧
          ReadFrom disk before fields.username path index data tree blocks := by
  obtain ⟨boot, hinit, hboot⟩ := exists_started hwf
  refine ⟨boot, hinit, fun c hreach => ⟨ownershipLaw_of_reachable hboot hreach hlaw,
    fun i call next answer shared request hthread hexec hrequest => ?_,
    fun i req fields message hrequest hrespond => ?_⟩⟩
  · exact spares_of_exec hboot hreach hthread hexec hrequest
  · exact readFrom_of_respond hboot hreach hrequest hrespond

theorem treeOf_freshDisk {path : Path} (hpath : path ≠ []) :
    treeOf freshDisk path = none := by
  cases hresolve : resolve freshDisk path with
  | none => rw [treeOf, hresolve, Option.map_none]
  | some b =>
      have hroot := reach_freshDisk ⟨path, hresolve⟩
      subst hroot
      exact absurd (wellFormed_freshDisk.isTree.walk_injective hresolve rfl) hpath

theorem ownershipLaw_freshDisk : (treeOf freshDisk).OwnershipLaw where
  root := by
    have howner : ownerAt freshDisk 0 = [] := by
      rw [ownerAt, inodeAt_freshDisk_zero]
      rfl
    rw [treeOf_of_resolve (b := 0) rfl, nodeAt, if_pos wellFormed_freshDisk.root_dir,
      howner]
  unowned := fun path node hpath hnode => by
    rw [treeOf_freshDisk hpath] at hnode
    cases hnode
  below := fun front path owner node hfront _ _ hnode _ => by
    rw [treeOf_freshDisk hfront] at hnode
    cases hnode

/-- Thread 0 creates a file of user `a`, with thread 1 in flight. -/
theorem accessControlled_freshDisk :
    ∃ rest c d, initServer freshDisk = some (freshServer rest) ∧
      playFresh rest (creating 14) = some c ∧ playFresh rest (creating 15) = some d ∧
      ownerAt d.shared.disk 1 = [97] ∧ Spares [97] c.shared d.shared ∧
      (treeOf d.shared.disk).OwnershipLaw := by
  obtain ⟨rest, hinit, hcontrolled⟩ := exists_freshServer
    (accessControlled freshDisk wellFormed_freshDisk ownershipLaw_freshDisk)
  obtain ⟨c, d, call, next, answer, hbefore, hafter, howner, hthread, hexec, hrequest⟩ :
      ∃ c d call next answer, playFresh rest (creating 14) = some c ∧
        playFresh rest (creating 15) = some d ∧ ownerAt d.shared.disk 1 = [97] ∧
        c.thread 0 = some (.call call next) ∧
        machine.exec 0 call c.shared = some (answer, d.shared) ∧
        c.shared.request 0 = some createRequest :=
    ⟨_, _, _, _, _, rfl, rfl, rfl, rfl, rfl, rfl⟩
  exact ⟨rest, c, d, hinit, hbefore, hafter, howner,
    (hcontrolled c (reachable_of_playFresh hbefore)).2.1 0 call next answer d.shared _
      hthread hexec hrequest,
    (hcontrolled d (reachable_of_playFresh hafter)).1⟩

end FileServer
end Eecs482
