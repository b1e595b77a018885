import Eecs482.FileServerTree

/-!
# Owners and origins in the path tree

Who may own what in a path tree, and that the operations keep it so; and where
the contents of a file come from: the last write to the block since the file
exists, or the initial tree.
-/

namespace Eecs482
namespace FileServer

/-- Only the root has no owner, and all that is below another directory has
the owner of the directory. -/
structure PathTree.OwnershipLaw (tree : PathTree) : Prop where
  root : tree [] = some (.dir [])
  unowned : tree.OnlyRootUnowned
  below : ∀ front path owner node, front ≠ [] → front <+: path → front ≠ path →
    tree front = some (.dir owner) → tree path = some node → node.owner = owner

/-- Whatever is above a node of the tree is in the tree. -/
def PathTree.Closed (tree : PathTree) : Prop :=
  ∀ front path, front <+: path → tree front = none → tree path = none

theorem FsOp.Applies.ownershipLaw
    {op : FsOp} {tree tree' : PathTree} {answer : Option Block}
    (h : op.Applies tree answer tree') (hclosed : tree.Closed)
    (huser : op.user ≠ []) (hlaw : tree.OwnershipLaw) : tree'.OwnershipLaw := by
  have hunowned := h.onlyRootUnowned huser hlaw.unowned
  have habove := h.ownedAbove hlaw.unowned
  cases h with
  | @create _ user owner name parent type _ hparent howner habsent =>
      refine ⟨?_, hunowned, fun front path above node hne hpre hself hfront hnode => ?_⟩
      · rw [Function.update_of_ne (by simp)]
        exact hlaw.root
      · by_cases hnew : path = parent ++ [name]
        · subst hnew
          rw [Function.update_of_ne hself] at hfront
          rw [Function.update_self, Option.some.injEq] at hnode
          have hdir := habove front hpre hne hself
          rw [hfront] at hdir
          cases hdir
          rw [← hnode, Node.fresh]
          split <;> rfl
        · rw [Function.update_of_ne hnew] at hnode
          by_cases hold : front = parent ++ [name]
          · rw [hclosed _ path (hold ▸ hpre) habsent] at hnode
            cases hnode
          · rw [Function.update_of_ne hold] at hfront
            exact hlaw.below front path above node hne hpre hself hfront hnode
  | @delete _ user owner name parent node' =>
      refine ⟨?_, hunowned, fun front path above node hne hpre hself hfront hnode => ?_⟩
      · rw [Function.update_of_ne (by simp)]
        exact hlaw.root
      · by_cases hgone : path = parent ++ [name]
        · rw [hgone, Function.update_self] at hnode
          cases hnode
        · by_cases hold : front = parent ++ [name]
          · rw [hold, Function.update_self] at hfront
            cases hfront
          · rw [Function.update_of_ne hgone] at hnode
            rw [Function.update_of_ne hold] at hfront
            exact hlaw.below front path above node hne hpre hself hfront hnode
  | readBlock => exact hlaw
  | @writeBlock _ user target index blocks data _ hfile _ _ =>
      refine ⟨?_, hunowned, fun front path above node hne hpre hself hfront hnode => ?_⟩
      · have hroot : ([] : Path) ≠ target := by
          rintro rfl
          rw [hlaw.root] at hfile
          cases hfile
        rw [Function.update_of_ne hroot]
        exact hlaw.root
      · have hfront' : front ≠ target := by
          rintro rfl
          rw [Function.update_self] at hfront
          cases hfront
        rw [Function.update_of_ne hfront'] at hfront
        by_cases htarget : path = target
        · subst htarget
          rw [Function.update_self, Option.some.injEq] at hnode
          rw [← hnode]
          exact hlaw.below front path above (.file user blocks) hne hpre hself hfront hfile
        · rw [Function.update_of_ne htarget] at hnode
          exact hlaw.below front path above node hne hpre hself hfront hnode

theorem PathTree.Closed.update
    {tree : PathTree} (hclosed : tree.Closed) {target : Path} {entry : Option Node}
    (habove : ∀ front, front <+: target → front ≠ target → entry ≠ none →
      tree front ≠ none)
    (hbelow : entry = none → ∀ child, tree (target ++ [child]) = none) :
    PathTree.Closed (Function.update tree target entry) := by
  intro front path hpre hfront
  by_cases hself : front = target
  · subst hself
    rw [Function.update_self] at hfront
    obtain ⟨rest, rfl⟩ := hpre
    cases rest with
    | nil => simp [hfront]
    | cons child rest =>
        rw [Function.update_of_ne (by simp)]
        exact hclosed (front ++ [child]) _ ⟨rest, by simp⟩ (hbelow hfront child)
  · rw [Function.update_of_ne hself] at hfront
    by_cases hpath : path = target
    · subst hpath
      rw [Function.update_self]
      by_contra hentry
      exact habove front hpre hself hentry hfront
    · rw [Function.update_of_ne hpath]
      exact hclosed front path hpre hfront

theorem FsOp.Applies.closed
    {op : FsOp} {tree tree' : PathTree} {answer : Option Block}
    (h : op.Applies tree answer tree') (hclosed : tree.Closed) : tree'.Closed := by
  cases h with
  | create _ hparent _ _ =>
      refine hclosed.update (fun front hpre hself _ hnone => ?_) (by simp)
      have hpre := (prefix_snoc_cases hpre).resolve_right hself
      rw [hclosed front _ hpre hnone] at hparent
      cases hparent
  | delete _ _ _ _ _ hempty => exact hclosed.update (by simp) fun _ => hempty
  | readBlock => exact hclosed
  | writeBlock _ hfile _ _ =>
      refine hclosed.update (fun front hpre _ _ hnone => ?_) (by simp)
      rw [hclosed front _ hpre hnone] at hfile
      cases hfile

theorem Replay.ownershipLaw
    {tree tree' : PathTree} {history : List (FsOp × Option Block)}
    (h : Replay tree history tree') (hclosed : tree.Closed)
    (huser : ∀ entry ∈ history, entry.1.user ≠ []) (hlaw : tree.OwnershipLaw) :
    tree'.Closed ∧ tree'.OwnershipLaw := by
  induction h with
  | nil => exact ⟨hclosed, hlaw⟩
  | snoc _ happly ih =>
      obtain ⟨hclosed, hlaw⟩ := ih fun entry hentry =>
        huser entry (List.mem_append_left _ hentry)
      exact ⟨happly.closed hclosed, happly.ownershipLaw hclosed
        (huser _ (List.mem_append_right _ List.mem_cons_self)) hlaw⟩

/-- A node that belongs to somebody else is neither the target of an operation
nor the directory it edits, and it stays as it is. -/
theorem FsOp.Applies.other_owner
    {op : FsOp} {tree tree' : PathTree} {answer : Option Block}
    (h : op.Applies tree answer tree') {path : Path} {node : Node}
    (hnode : tree path = some node) (hother : node.owner ≠ op.user)
    (howned : node.owner ≠ []) :
    path ≠ op.path ∧ path ≠ op.home ∧ tree' path = some node := by
  cases h with
  | @create _ user owner name parent type habove hparent howner habsent =>
      have hpath : path ≠ parent ++ [name] := by
        rintro rfl
        rw [habsent] at hnode
        cases hnode
      refine ⟨hpath, ?_, by rw [Function.update_of_ne hpath, hnode]⟩
      intro hhome
      rw [FsOp.home, List.dropLast_concat] at hhome
      rw [hhome, hparent] at hnode
      cases hnode
      exact howner.elim hother howned
  | @delete _ user owner name parent node' habove hparent howner hold huser hempty =>
      have hpath : path ≠ parent ++ [name] := by
        rintro rfl
        rw [hold] at hnode
        cases hnode
        exact hother huser
      refine ⟨hpath, ?_, by rw [Function.update_of_ne hpath, hnode]⟩
      intro hhome
      rw [FsOp.home, List.dropLast_concat] at hhome
      rw [hhome, hparent] at hnode
      cases hnode
      exact howner.elim hother howned
  | @readBlock _ user target index blocks data habove hfile hdata =>
      have hpath : path ≠ target := by
        rintro rfl
        rw [hfile] at hnode
        cases hnode
        exact hother rfl
      exact ⟨hpath, hpath, hnode⟩
  | @writeBlock _ user target index blocks data habove hfile hindex hbound =>
      have hpath : path ≠ target := by
        rintro rfl
        rw [hfile] at hnode
        cases hnode
        exact hother rfl
      exact ⟨hpath, hpath, by rw [Function.update_of_ne hpath, hnode]⟩

/-! ## Where the contents of a file come from -/

/-- The operation creates or deletes the node at `path`. -/
def FsOp.Renews (path : Path) : FsOp → Prop
  | .create _ target _ | .delete _ target => target = path
  | .readBlock _ _ _ | .writeBlock _ _ _ _ => False

/-- The operation writes block `index` of the file at `path`. -/
def FsOp.Overwrites (path : Path) (index : ℕ) : FsOp → Prop
  | .writeBlock _ target k _ => target = path ∧ k = index
  | _ => False

/-- In the history the file at `path` is not replaced, and its block not
written. -/
def Undisturbed (path : Path) (index : ℕ) (history : List (FsOp × Option Block)) :
    Prop :=
  ∀ entry ∈ history, ¬entry.1.Renews path ∧ ¬entry.1.Overwrites path index

/-- The block was last written with these data, to the file that is there
now. -/
def Written
    (history : List (FsOp × Option Block)) (owner : Name) (path : Path)
    (index : ℕ) (data : Block) : Prop :=
  ∃ before after,
    history = before ++ (.writeBlock owner path index data, none) :: after ∧
      Undisturbed path index after

/-- The block has had these data from the beginning, in the file that is there
now. -/
def Initial
    (tree : PathTree) (history : List (FsOp × Option Block)) (owner : Name)
    (path : Path) (index : ℕ) (data : Block) : Prop :=
  Undisturbed path index history ∧
    ∃ blocks, tree path = some (.file owner blocks) ∧ blocks[index]? = some data

theorem Undisturbed.snoc
    {path : Path} {index : ℕ} {history : List (FsOp × Option Block)}
    (h : Undisturbed path index history) {op : FsOp} {answer : Option Block}
    (hrenews : ¬op.Renews path) (hwrites : ¬op.Overwrites path index) :
    Undisturbed path index (history ++ [(op, answer)]) := by
  intro entry hentry
  rcases List.mem_append.mp hentry with hentry | hentry
  · exact h entry hentry
  · rw [List.mem_singleton.mp hentry]
    exact ⟨hrenews, hwrites⟩

theorem writeAt_self
    {blocks : List Block} {index : ℕ} {data : Block} (hindex : index ≤ blocks.length) :
    (writeAt blocks index data)[index]? = some data := by
  unfold writeAt
  split
  · rename_i hend
    subst hend
    simp
  · rw [List.getElem?_set_self (by omega)]

theorem writeAt_of_ne
    {blocks : List Block} {index k : ℕ} {data : Block} (hk : k ≠ index) :
    (writeAt blocks index data)[k]? = blocks[k]? := by
  unfold writeAt
  split
  · rename_i hend
    subst hend
    rcases Nat.lt_or_gt_of_ne hk with hlt | hgt
    · rw [List.getElem?_append_left hlt]
    · rw [List.getElem?_eq_none (by simp; omega), List.getElem?_eq_none (by omega)]
  · rw [List.getElem?_set_ne (Ne.symm hk)]

/-- What is read from a file was written to it, or is its initial content. -/
theorem Replay.origin
    {tree tree' : PathTree} {history : List (FsOp × Option Block)}
    (h : Replay tree history tree') {owner : Name} {path : Path}
    {blocks : List Block} {index : ℕ} {data : Block}
    (hfile : tree' path = some (.file owner blocks))
    (hdata : blocks[index]? = some data) :
    Written history owner path index data ∨
      Initial tree history owner path index data := by
  induction h generalizing blocks with
  | nil => exact Or.inr ⟨fun entry hentry => by simp at hentry, blocks, hfile, hdata⟩
  | @snoc tree₁ tree₂ history op answer hhistory happly ih =>
      have hextend : ∀ {blocks' : List Block},
          tree₁ path = some (.file owner blocks') → blocks'[index]? = some data →
          ¬op.Renews path → ¬op.Overwrites path index →
          Written (history ++ [(op, answer)]) owner path index data ∨
            Initial tree (history ++ [(op, answer)]) owner path index data := by
        intro blocks' hfile' hdata' hrenews hwrites
        rcases ih hfile' hdata' with ⟨before, after, rfl, hafter⟩ | ⟨hquiet, hinitial⟩
        · exact Or.inl ⟨before, after ++ [(op, answer)], by simp,
            hafter.snoc hrenews hwrites⟩
        · exact Or.inr ⟨hquiet.snoc hrenews hwrites, hinitial⟩
      cases happly with
      | @create _ user owner' name parent type _ _ _ _ =>
          by_cases hpath : path = parent ++ [name]
          · rw [hpath, Function.update_self, Option.some.injEq, Node.fresh] at hfile
            split at hfile
            · cases hfile
            · cases hfile
              simp at hdata
          · rw [Function.update_of_ne hpath] at hfile
            exact hextend hfile hdata (fun hr => hpath hr.symm) (fun hw => hw)
      | @delete _ user owner' name parent node _ _ _ _ _ _ =>
          by_cases hpath : path = parent ++ [name]
          · rw [hpath, Function.update_self] at hfile
            cases hfile
          · rw [Function.update_of_ne hpath] at hfile
            exact hextend hfile hdata (fun hr => hpath hr.symm) (fun hw => hw)
      | readBlock => exact hextend hfile hdata (fun hr => hr) (fun hw => hw)
      | @writeBlock _ user target k blocks' data' _ hfile' hindex _ =>
          by_cases hpath : path = target
          · subst hpath
            rw [Function.update_self, Option.some.injEq, Node.file.injEq] at hfile
            obtain ⟨rfl, rfl⟩ := hfile
            by_cases hk : k = index
            · subst hk
              rw [writeAt_self hindex, Option.some.injEq] at hdata
              subst hdata
              exact Or.inl ⟨history, [], rfl, fun entry hentry => by simp at hentry⟩
            · rw [writeAt_of_ne (Ne.symm hk)] at hdata
              exact hextend hfile' hdata (fun hr => hr) (fun hw => hk hw.2)
          · rw [Function.update_of_ne hpath] at hfile
            exact hextend hfile hdata (fun hr => hr) (fun hw => hpath hw.1.symm)

end FileServer
end Eecs482
