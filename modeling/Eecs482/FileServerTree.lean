import Eecs482.FileServerLayout
import Mathlib.Data.List.Infix
import Mathlib.Logic.Function.Basic

/-!
# The path tree a file server stands for

What the clients of the server see: a tree of named nodes, each a directory or
a file of an owner, and four operations on it.  An operation either applies to
the tree, with an answer and a new tree, or it does not apply at all.
-/

namespace Eecs482
namespace FileServer

/-- Names from the root down; the root itself is `[]`. -/
abbrev Path := List Name

inductive Node
  | dir (owner : Name)
  | file (owner : Name) (blocks : List Block)

def Node.owner : Node → Name
  | .dir owner => owner
  | .file owner _ => owner

/-- The node of each path that names one. -/
abbrev PathTree := Path → Option Node

/-- What a request asks for, once its fields have been parsed. -/
inductive FsOp
  | create (user : Name) (path : Path) (type : Byte)
  | delete (user : Name) (path : Path)
  | readBlock (user : Name) (path : Path) (index : ℕ)
  | writeBlock (user : Name) (path : Path) (index : ℕ) (data : Block)

def FsOp.user : FsOp → Name
  | .create user _ _ | .delete user _ | .readBlock user _ _
  | .writeBlock user _ _ _ => user

def FsOp.path : FsOp → Path
  | .create _ path _ | .delete _ path | .readBlock _ path _
  | .writeBlock _ path _ _ => path

/-- The node whose inode or data blocks the operation changes: the directory of
a new or deleted node, the file itself for its blocks. -/
def FsOp.home : FsOp → Path
  | .create _ path _ | .delete _ path => path.dropLast
  | .readBlock _ path _ | .writeBlock _ path _ _ => path

/-- Every node strictly between the root and `path` is a directory of
`user`. -/
def PathTree.OwnedAbove (tree : PathTree) (user : Name) (path : Path) : Prop :=
  ∀ front, front <+: path → front ≠ [] → front ≠ path →
    tree front = some (.dir user)

/-- A new, empty node of the type asked for. -/
def Node.fresh (type : Byte) (user : Name) : Node :=
  if type = dirType then .dir user else .file user []

/-- The blocks of a file after a write at `index`, at most one behind the
end. -/
def writeAt (blocks : List Block) (index : ℕ) (data : Block) : List Block :=
  if index = blocks.length then blocks ++ [data] else blocks.set index data

/-- The operation applies to the tree, with this answer and this result.  A
directory without an owner, as the root is, can be edited by everybody. -/
inductive FsOp.Applies : FsOp → PathTree → Option Block → PathTree → Prop
  | create {tree : PathTree} {user owner name : Name} {parent : Path}
      {type : Byte}
      (habove : tree.OwnedAbove user parent)
      (hparent : tree parent = some (.dir owner))
      (howner : owner = user ∨ owner = [])
      (habsent : tree (parent ++ [name]) = none) :
      Applies (.create user (parent ++ [name]) type) tree none
        (Function.update tree (parent ++ [name]) (some (.fresh type user)))
  | delete {tree : PathTree} {user owner name : Name} {parent : Path}
      {node : Node}
      (habove : tree.OwnedAbove user parent)
      (hparent : tree parent = some (.dir owner))
      (howner : owner = user ∨ owner = [])
      (hnode : tree (parent ++ [name]) = some node)
      (huser : node.owner = user)
      (hempty : ∀ child, tree (parent ++ [name] ++ [child]) = none) :
      Applies (.delete user (parent ++ [name])) tree none
        (Function.update tree (parent ++ [name]) none)
  | readBlock {tree : PathTree} {user : Name} {path : Path} {index : ℕ}
      {blocks : List Block} {data : Block}
      (habove : tree.OwnedAbove user path)
      (hfile : tree path = some (.file user blocks))
      (hdata : blocks[index]? = some data) :
      Applies (.readBlock user path index) tree (some data) tree
  | writeBlock {tree : PathTree} {user : Name} {path : Path} {index : ℕ}
      {blocks : List Block} {data : Block}
      (habove : tree.OwnedAbove user path)
      (hfile : tree path = some (.file user blocks))
      (hindex : index ≤ blocks.length) (hbound : index < fsMaxFileBlocks) :
      Applies (.writeBlock user path index data) tree none
        (Function.update tree path
          (some (.file user (writeAt blocks index data))))

/-- The operations of a list apply one after the other. -/
inductive Replay : PathTree → List (FsOp × Option Block) → PathTree → Prop
  | nil {tree : PathTree} : Replay tree [] tree
  | snoc {tree tree' tree'' : PathTree} {history : List (FsOp × Option Block)}
      {op : FsOp} {answer : Option Block}
      (hhistory : Replay tree history tree')
      (happly : op.Applies tree' answer tree'') :
      Replay tree (history ++ [(op, answer)]) tree''

theorem Replay.eq_of_nil {tree tree' : PathTree} (h : Replay tree [] tree') :
    tree' = tree := by
  generalize hhistory : ([] : List (FsOp × Option Block)) = history at h
  cases h with
  | nil => rfl
  | snoc => simp at hhistory

/-- The operation in the middle of a history is applied at its turn. -/
theorem Replay.split
    {tree tree' : PathTree} {before after : List (FsOp × Option Block)}
    {op : FsOp} {answer : Option Block}
    (h : Replay tree (before ++ (op, answer) :: after) tree') :
    ∃ tree₁ tree₂, Replay tree before tree₁ ∧ op.Applies tree₁ answer tree₂ ∧
      Replay tree₂ after tree' := by
  induction after using List.reverseRecOn generalizing tree' with
  | nil =>
      generalize hhistory : before ++ [(op, answer)] = history at h
      cases h with
      | nil => simp at hhistory
      | snoc hbefore happly =>
          obtain ⟨rfl, heq⟩ := List.append_inj' hhistory rfl
          simp only [List.cons.injEq, Prod.mk.injEq, and_true] at heq
          obtain ⟨rfl, rfl⟩ := heq
          exact ⟨_, _, hbefore, happly, .nil⟩
  | append_singleton after last ih =>
      generalize hhistory :
        before ++ (op, answer) :: (after ++ [last]) = history at h
      cases h with
      | nil => simp at hhistory
      | @snoc _ _ front opLast answerLast hbefore happly =>
          have hsplit : (before ++ (op, answer) :: after) ++ [last] =
              front ++ [(opLast, answerLast)] := by
            simpa using hhistory
          obtain ⟨rfl, hlast⟩ := List.append_inj' hsplit rfl
          obtain ⟨tree₁, tree₂, hfirst, happlyOp, hafter⟩ := ih hbefore
          have hlast : last = (opLast, answerLast) := by simpa using hlast
          subst hlast
          exact ⟨tree₁, tree₂, hfirst, happlyOp, .snoc hafter happly⟩

theorem Replay.applies
    {tree tree' : PathTree} {op : FsOp} {answer : Option Block}
    (h : Replay tree [(op, answer)] tree') : op.Applies tree answer tree' := by
  have h : Replay tree ([] ++ (op, answer) :: []) tree' := h
  obtain ⟨tree₁, tree₂, hbefore, happly, hafter⟩ := h.split
  rw [hbefore.eq_of_nil] at happly
  rw [hafter.eq_of_nil]
  exact happly

/-- Reading changes nothing. -/
theorem FsOp.Applies.eq_of_answer
    {op : FsOp} {tree tree' : PathTree} {data : Block}
    (h : op.Applies tree (some data) tree') : tree' = tree := by
  cases h
  rfl

/-- A delete takes its node out of the tree, and nothing else. -/
theorem FsOp.Applies.delete_eq
    {user : Name} {path : Path} {tree tree' : PathTree} {answer : Option Block}
    (h : (FsOp.delete user path).Applies tree answer tree') :
    tree' = Function.update tree path none := by
  cases h
  rfl

theorem FsOp.Applies.delete_parent
    {user : Name} {path : Path} {tree tree' : PathTree} {answer : Option Block}
    (h : (FsOp.delete user path).Applies tree answer tree') :
    ∃ owner, tree path.dropLast = some (.dir owner) := by
  cases h with
  | delete _ hparent =>
      rw [List.dropLast_concat]
      exact ⟨_, hparent⟩

/-- The operations that change the tree, without the reads. -/
def mutations (history : List (FsOp × Option Block)) : List FsOp :=
  (history.filter fun entry => entry.2.isNone).map Prod.fst

/-- A history without its reads ends in the same tree. -/
theorem Replay.mutations
    {tree tree' : PathTree} {history : List (FsOp × Option Block)}
    (h : Replay tree history tree') :
    Replay tree ((FileServer.mutations history).map fun op => (op, none))
      tree' := by
  induction h with
  | nil => exact .nil
  | @snoc _ _ history op answer hhistory happly ih =>
      cases answer with
      | none =>
          have hsnoc : FileServer.mutations (history ++ [(op, none)]) =
              FileServer.mutations history ++ [op] := by
            simp [FileServer.mutations]
          rw [hsnoc, List.map_append]
          exact .snoc ih happly
      | some data =>
          have hsnoc : FileServer.mutations (history ++ [(op, some data)]) =
              FileServer.mutations history := by
            simp [FileServer.mutations]
          rw [hsnoc, happly.eq_of_answer]
          exact ih

/-- Only the root may have no owner. -/
def PathTree.OnlyRootUnowned (tree : PathTree) : Prop :=
  ∀ path node, path ≠ [] → tree path = some node → node.owner ≠ []

theorem PathTree.OnlyRootUnowned.update
    {tree : PathTree} (htree : tree.OnlyRootUnowned) {path : Path}
    {entry : Option Node} (hentry : ∀ node, entry = some node → node.owner ≠ []) :
    PathTree.OnlyRootUnowned (Function.update tree path entry) := by
  intro other node hother hnode
  by_cases heq : other = path
  · subst heq
    rw [Function.update_self] at hnode
    exact hentry node hnode
  · rw [Function.update_of_ne heq] at hnode
    exact htree other node hother hnode

theorem FsOp.Applies.onlyRootUnowned
    {op : FsOp} {tree tree' : PathTree} {answer : Option Block}
    (h : op.Applies tree answer tree') (huser : op.user ≠ [])
    (htree : tree.OnlyRootUnowned) : tree'.OnlyRootUnowned := by
  cases h with
  | create =>
      refine htree.update fun node hnode => ?_
      rw [← Option.some.inj hnode, Node.fresh]
      split <;> exact huser
  | delete => exact htree.update (by simp)
  | readBlock => exact htree
  | writeBlock =>
      refine htree.update fun node hnode => ?_
      rw [← Option.some.inj hnode]
      exact huser

theorem Replay.onlyRootUnowned
    {tree tree' : PathTree} {history : List (FsOp × Option Block)}
    (h : Replay tree history tree')
    (huser : ∀ entry ∈ history, entry.1.user ≠ [])
    (htree : tree.OnlyRootUnowned) : tree'.OnlyRootUnowned := by
  induction h with
  | nil => exact htree
  | snoc hhistory happly ih =>
      refine happly.onlyRootUnowned
        (huser _ (List.mem_append_right _ List.mem_cons_self)) (ih ?_)
      exact fun entry hentry => huser entry (List.mem_append_left _ hentry)

/-- The prefixes of a path and one more name. -/
theorem prefix_snoc_cases
    {front path : Path} {name : Name} (h : front <+: path ++ [name]) :
    front <+: path ∨ front = path ++ [name] := by
  rcases List.eq_nil_or_concat front with rfl | ⟨init, last, rfl⟩
  · exact Or.inl (List.nil_prefix)
  · obtain ⟨rest, hrest⟩ := h
    rcases List.eq_nil_or_concat rest with rfl | ⟨rest, x, rfl⟩
    · exact Or.inr (by simpa using hrest)
    · left
      rw [List.concat_eq_append, List.concat_eq_append, ← List.append_assoc] at hrest
      have := (List.append_inj' hrest rfl).1
      exact ⟨rest, by rw [List.concat_eq_append]; exact this⟩

/-- Where only the root is unowned, an operation works below directories of
its user. -/
theorem FsOp.Applies.ownedAbove
    {op : FsOp} {tree tree' : PathTree} {answer : Option Block}
    (h : op.Applies tree answer tree') (htree : tree.OnlyRootUnowned) :
    tree.OwnedAbove op.user op.path := by
  have hsnoc : ∀ {user owner name : Name} {parent : Path},
      tree.OwnedAbove user parent → tree parent = some (.dir owner) →
      owner = user ∨ owner = [] → tree.OwnedAbove user (parent ++ [name]) := by
    intro user owner name parent habove hparent howner front hpre hne hself
    have hfront := (prefix_snoc_cases hpre).resolve_right hself
    by_cases heq : front = parent
    · subst heq
      have hnonempty : owner ≠ [] := htree front (.dir owner) hne hparent
      rw [hparent, howner.resolve_right hnonempty]
    · exact habove front hfront hne heq
  cases h with
  | create habove hparent howner _ => exact hsnoc habove hparent howner
  | delete habove hparent howner _ _ _ => exact hsnoc habove hparent howner
  | readBlock habove _ _ => exact habove
  | writeBlock habove _ _ _ => exact habove

/-- An operation has at most one result. -/
theorem FsOp.Applies.unique
    {op : FsOp} {tree tree₁ tree₂ : PathTree} {answer₁ answer₂ : Option Block}
    (h₁ : op.Applies tree answer₁ tree₁) (h₂ : op.Applies tree answer₂ tree₂) :
    answer₁ = answer₂ ∧ tree₁ = tree₂ := by
  cases h₁ with
  | create =>
      generalize hpath : _ ++ [_] = path at h₂
      cases h₂
      exact ⟨rfl, rfl⟩
  | delete =>
      generalize hpath : _ ++ [_] = path at h₂
      cases h₂
      exact ⟨rfl, rfl⟩
  | readBlock habove hfile hdata =>
      cases h₂ with
      | readBlock habove' hfile' hdata' =>
          rw [hfile] at hfile'
          cases hfile'
          rw [hdata] at hdata'
          exact ⟨hdata', rfl⟩
  | writeBlock habove hfile hindex hbound =>
      cases h₂ with
      | writeBlock habove' hfile' hindex' hbound' =>
          rw [hfile] at hfile'
          cases hfile'
          exact ⟨rfl, rfl⟩

end FileServer
end Eecs482
