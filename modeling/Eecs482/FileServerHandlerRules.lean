import Eecs482.FileServerTraverse
import Eecs482.FileServerOperations

/-!
# The handlers keep the discipline

Each handler is checked alone, from the moment its connection is accepted: its
calls meet their guards, its commit is the operation it was asked for, and on
every path it ends without a lock and with empty hands.
-/

namespace Eecs482
namespace FileServer

open Discipline

variable {initial : Disk} {i : ℕ} {l : Local} {α : Type}
variable {Post : α → Server → Prop}

/-- What a handler knows before its commit, apart from locks. -/
def Local.start (i : ℕ) (request : Request) (hand : List BlockNo) : Local :=
  { hand := hand, request := some request, events := [.start i] }

theorem Local.start_unlocked (request : Request) (hand : List BlockNo) :
    (Local.start i request hand).Unlocked :=
  ⟨rfl, rfl, rfl, rfl⟩

/-- The handler of thread `i` has ended, with or without a response. -/
def Done (i : ℕ) (s : Server) : Prop :=
  ∃ request events, Life i (some request) events ∧ Event.close i ∈ events ∧
    Owns i { request := some request, events := events } s

theorem triple_finish
    {request : Request} (events : List Event)
    (hlife : Life i (some request) (events ++ [.close i])) :
    (discipline initial).Triple i
      (Owns i { request := some request, events := events })
      (call .close) (fun _ => Done i) := by
  have h : (discipline initial).Triple i
      (Owns i { request := some request, events := events })
      (call .close >>= fun _ => (pure () : FsProg Unit)) (fun _ => Done i) := by
    refine triple_close (by simp [Local.Locks]) rfl hlife ?_
    intro s _ howns t hrely
    exact ⟨request, _, hlife, by simp, hrely.owns _ howns⟩
  exact h

theorem triple_refuse (initial : Disk) (i : ℕ) (request : Request) :
    (discipline initial).Triple i (Owns i (Local.start i request []))
      (call .close) (fun _ => Done i) :=
  triple_finish [.start i] .refused

/-- The response and the end of a handler which has committed. -/
theorem triple_respond
    {request : Request} {op : FsOp} {answer : Option Block}
    {message : List Byte} (hop : request.op = some op)
    (hmessage : message = request.response answer) :
    (discipline initial).Triple i
      (Owns i {
        request := some request
        events := [.start i, .commit i op answer] })
      (call (.sendResponse message) >>= fun _ => call .close)
      (fun _ => Done i) := by
  refine triple_sendResponse op answer rfl hop rfl hmessage ?_
  rw [hmessage]
  exact triple_finish [.start i, .commit i op answer,
    .respond i (request.response answer)] (.answered hop)

/-! ## Entering the target -/

/-- The image of a new pin still has what was owned on the way. -/
theorem Pin.Taken.ownedAbove
    {pin parent : Pin} {user name : Name} {b : BlockNo}
    (htaken : pin.Taken l (parent.path ++ [name]) b) (hparent : parent ∈ l.pins)
    (howned : ∀ front, front <+: parent.path → front ≠ [] →
      treeOf parent.image front = some (.dir user)) :
    (treeOf pin.image).OwnedAbove user pin.path := by
  intro front hpre hne hself
  rw [htaken.path_eq] at hpre hself
  rcases prefix_snoc_cases hpre with hpre | rfl
  · exact (htaken.parents parent hparent).owned howned hpre hne
  · exact absurd rfl hself

theorem Pin.child_ne
    {pin : Pin} {name : Name} {b : BlockNo}
    (hchild : childOf pin.image pin.block name = some b) : b ≠ pin.block := by
  rintro rfl
  have hself : LabelledWalk.walk (childOf pin.image) 0 (pin.path ++ [name]) =
      some pin.block := by
    rw [LabelledWalk.walk_snoc_of_walk pin.resolved, hchild]
  have hpath := pin.wf.isTree.walk_injective hself pin.resolved
  simpa using congrArg List.length hpath

theorem Pin.child_ne_zero
    {pin : Pin} {name : Name} {b : BlockNo}
    (hchild : childOf pin.image pin.block name = some b) : b ≠ 0 :=
  (pin.wf.refs_range pin.block pin.reach b (childOf_mem_refs hchild)).1

/-- What is known about the target once its lock is held. -/
structure Entered (pin : Pin) (user : Name) (path : Path) (b : BlockNo) :
    Prop where
  path_eq : pin.path = path
  block_eq : pin.block = b
  above : (treeOf pin.image).OwnedAbove user pin.path

section Enter

variable {base l' : Local} {user : Name} {path : Path} {target : TargetInode}
variable {next : Unit → FsProg α}

theorem triple_enter
    (hbase : base.Unlocked) (htraversed : Traversed base user path target l')
    (hnext : ∀ pin : Pin, Entered pin user path target.inodeBlock →
      (discipline initial).Triple i
        (Owns i { base with excl := [target.inodeBlock], pins := [pin] })
        (next ()) Post) :
    (discipline initial).Triple i (Owns i l')
      (call (.lock target.inodeBlock) >>= fun _ =>
        unlockParent target >>= next) Post := by
  cases htraversed with
  | root hblock =>
      rw [hblock] at hnext ⊢
      have htarget : LockTarget base [] 0 :=
        .root fun c hc => by simp [Local.Locks, hbase.shared, hbase.excl] at hc
      refine triple_lock htarget hbase.free fun pin htaken => ?_
      simp only [unlockParent, hblock, ne_eq, not_true_eq_false, if_false,
        Prog.pure_def, Prog.ret_bind]
      rw [hbase.excl, hbase.pins]
      refine hnext pin ⟨htaken.path_eq, htaken.block_eq, fun front hpre => ?_⟩
      rw [htaken.path_eq] at hpre
      exact fun hne => absurd (List.prefix_nil.mp hpre) hne
  | @below parent name _ hchild hparent howned =>
      have hzero := Pin.child_ne_zero hchild
      have hne := Pin.child_ne hchild
      have htarget : LockTarget
          { base with shared := [parent.block], pins := [parent] }
          (parent.path ++ [name]) target.inodeBlock := by
        refine .child List.mem_cons_self hchild fun c hc => ?_
        simpa [Local.Locks, hbase.excl] using hc
      refine triple_lock htarget hbase.free fun pin htaken => ?_
      simp only [unlockParent, ne_eq, hzero, not_false_eq_true, if_true]
      rw [hparent]
      refine triple_unlockShared [pin] (by simp) ?_ ?_
      · intro q hq
        rw [List.mem_singleton.mp hq]
        exact ⟨List.mem_cons_self, by rw [htaken.block_eq]; exact hne⟩
      · have herase : [parent.block].erase parent.block = base.shared := by
          rw [hbase.shared]
          simp
        simp only [herase, hbase.excl]
        exact hnext pin ⟨htaken.path_eq, htaken.block_eq,
          htaken.ownedAbove List.mem_cons_self howned⟩

theorem triple_enterShared
    (hbase : base.Unlocked) (htraversed : Traversed base user path target l')
    (hnext : ∀ pin : Pin, Entered pin user path target.inodeBlock →
      (discipline initial).Triple i
        (Owns i { base with shared := [target.inodeBlock], pins := [pin] })
        (next ()) Post) :
    (discipline initial).Triple i (Owns i l')
      (call (.lockShared target.inodeBlock) >>= fun _ =>
        unlockParent target >>= next) Post := by
  cases htraversed with
  | root hblock =>
      rw [hblock] at hnext ⊢
      have htarget : LockTarget base [] 0 :=
        .root fun c hc => by simp [Local.Locks, hbase.shared, hbase.excl] at hc
      refine triple_lockShared htarget hbase.free fun pin htaken => ?_
      simp only [unlockParent, hblock, ne_eq, not_true_eq_false, if_false,
        Prog.pure_def, Prog.ret_bind]
      rw [hbase.shared, hbase.pins]
      refine hnext pin ⟨htaken.path_eq, htaken.block_eq, fun front hpre => ?_⟩
      rw [htaken.path_eq] at hpre
      exact fun hne => absurd (List.prefix_nil.mp hpre) hne
  | @below parent name _ hchild hparent howned =>
      have hzero := Pin.child_ne_zero hchild
      have hne := Pin.child_ne hchild
      have htarget : LockTarget
          { base with shared := [parent.block], pins := [parent] }
          (parent.path ++ [name]) target.inodeBlock := by
        refine .child List.mem_cons_self hchild fun c hc => ?_
        simpa [Local.Locks, hbase.excl] using hc
      refine triple_lockShared htarget hbase.free fun pin htaken => ?_
      simp only [unlockParent, ne_eq, hzero, not_false_eq_true, if_true]
      rw [hparent]
      refine triple_unlockShared [pin] (by simp) ?_ ?_
      · intro q hq
        rw [List.mem_singleton.mp hq]
        exact ⟨List.mem_cons_self, by rw [htaken.block_eq]; exact hne⟩
      · have herase : [target.inodeBlock, parent.block].erase parent.block =
            [target.inodeBlock] := by
          rw [List.erase_cons_tail (by simpa using hne)]
          simp
        simp only [herase]
        exact hnext pin ⟨htaken.path_eq, htaken.block_eq,
          htaken.ownedAbove List.mem_cons_self howned⟩

theorem triple_leave
    {b : BlockNo} (base : Local) (hbase : base.Unlocked) (hwritten : base.written = [])
    {pins : List Pin} {written : List (BlockNo × Block)}
    (hnext : (discipline initial).Triple i (Owns i base) (next ()) Post) :
    (discipline initial).Triple i
      (Owns i { base with excl := [b], pins := pins, written := written })
      (call (.unlock b) >>= next) Post := by
  refine triple_weaken [] [] (by simp) (by simp) ?_
  refine triple_unlock [] [] (by simp) (by simp) (by simp) ?_
  rw [← hbase.excl, ← hbase.pins, ← hwritten]
  exact hnext

theorem triple_leaveShared
    {b : BlockNo} (base : Local) (hbase : base.Unlocked)
    {pins : List Pin}
    (hnext : (discipline initial).Triple i (Owns i base) (next ()) Post) :
    (discipline initial).Triple i
      (Owns i { base with shared := [b], pins := pins })
      (call (.unlockShared b) >>= next) Post := by
  refine triple_unlockShared [] (by simp) (by simp) ?_
  have herase : [b].erase b = base.shared := by
    rw [hbase.shared]
    simp
  simp only [herase, ← hbase.pins]
  exact hnext

end Enter

theorem Entered.inode
    {pin : Pin} {user : Name} {path : Path} {b : BlockNo}
    (h : Entered pin user path b) :
    asInode (pin.image b) = inodeAt pin.image pin.block := by
  rw [inodeAt, h.block_eq]

/-- A directory the handler may edit, as it was found under the lock. -/
theorem Entered.editableDir
    {pin : Pin} {user : Name} {path : Path} {b : BlockNo}
    (h : Entered pin user path b)
    (hedit : mayEdit (inodeAt pin.image pin.block) user = true) :
    EditableDir pin.image user pin.path pin.block := by
  simp only [mayEdit, decide_eq_true_eq] at hedit
  exact ⟨pin.resolved, h.above, hedit.2, hedit.1⟩

/-- The last name of a pathname and the path to its directory. -/
theorem pathParser_split
    {fields : RequestFields} {pathNames : Path}
    (hpath : pathParser fields.pathname = some pathNames) :
    pathNames = pathNames.dropLast ++ [pathNames.getLastD []] ∧
      (pathNames.getLastD []).length ≤ fsMaxFileName ∧
      (0 : Byte) ∉ pathNames.getLastD [] := by
  have hne := pathParser_ne_nil hpath
  have hlast : pathNames.getLastD [] = pathNames.getLast hne := by
    rw [List.getLastD_eq_getLast?, List.getLast?_eq_some_getLast hne]
    rfl
  have hmem : pathNames.getLastD [] ∈ pathNames := by
    rw [hlast]
    exact List.getLast_mem hne
  obtain ⟨hlength, _, hnul⟩ :=
    pathParser_components hpath fields.pathname_noNul hmem
  refine ⟨?_, hlength, hnul⟩
  rw [hlast, List.dropLast_append_getLast]

end FileServer
end Eecs482
