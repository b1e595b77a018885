import Mathlib.Data.List.Basic
import Mathlib.Data.List.Infix
import Mathlib.Tactic.Common

/-!
# Walks in a graph with labelled edges

From each node at most one edge carries a given label, so a word of labels
names at most one node.  In a graph whose visited part is a tree, a word is the
only name of its node, and growing or cutting a leaf edge changes the meaning
of exactly one word.
-/

namespace Eecs482
namespace LabelledWalk

variable {ν κ : Type*}

/-- The node reached from `root` by following the labels of `path`. -/
def walk (child : ν → κ → Option ν) (root : ν) (path : List κ) : Option ν :=
  path.foldlM child root

/-- Some word of labels leads to `node`. -/
def Visits (child : ν → κ → Option ν) (root node : ν) : Prop :=
  ∃ path, walk child root path = some node

@[simp] theorem walk_nil (child : ν → κ → Option ν) (root : ν) :
    walk child root [] = some root := rfl

theorem walk_cons
    (child : ν → κ → Option ν) (root : ν) (label : κ) (path : List κ) :
    walk child root (label :: path) =
      (child root label).bind fun node => walk child node path := rfl

theorem walk_append
    (child : ν → κ → Option ν) (root : ν) (before after : List κ) :
    walk child root (before ++ after) =
      (walk child root before).bind fun node => walk child node after := by
  unfold walk
  rw [List.foldlM_append]
  rfl

theorem walk_snoc
    (child : ν → κ → Option ν) (root : ν) (path : List κ) (label : κ) :
    walk child root (path ++ [label]) =
      (walk child root path).bind fun node => child node label := by
  rw [walk_append]
  congr 1
  funext node
  simp [walk]

theorem walk_snoc_of_walk
    {child : ν → κ → Option ν} {root node : ν} {path : List κ}
    (hwalk : walk child root path = some node) (label : κ) :
    walk child root (path ++ [label]) = child node label := by
  rw [walk_snoc, hwalk]
  rfl

theorem visits_root (child : ν → κ → Option ν) (root : ν) :
    Visits child root root :=
  ⟨[], rfl⟩

theorem Visits.child
    {child : ν → κ → Option ν} {root node next : ν} {label : κ}
    (hvisits : Visits child root node) (hchild : child node label = some next) :
    Visits child root next := by
  obtain ⟨path, hpath⟩ := hvisits
  exact ⟨path ++ [label], by rw [walk_snoc_of_walk hpath, hchild]⟩

/-- Every visited node is the root or the child of a visited node. -/
theorem Visits.root_or_child
    {child : ν → κ → Option ν} {root node : ν}
    (hvisits : Visits child root node) :
    node = root ∨
      ∃ parent label, Visits child root parent ∧
        child parent label = some node := by
  obtain ⟨path, hpath⟩ := hvisits
  rcases List.eq_nil_or_concat path with rfl | ⟨front, label, rfl⟩
  · left
    simpa using hpath.symm
  · right
    rw [List.concat_eq_append, walk_snoc] at hpath
    obtain ⟨parent, hparent, hchild⟩ := Option.bind_eq_some_iff.mp hpath
    exact ⟨parent, label, ⟨front, hparent⟩, hchild⟩

/-- A prefix of a word which names a node also names a node. -/
theorem walk_prefix_isSome
    {child : ν → κ → Option ν} {root node : ν} {front path : List κ}
    (hpre : front <+: path) (hwalk : walk child root path = some node) :
    ∃ above, walk child root front = some above := by
  obtain ⟨rest, rfl⟩ := hpre
  rw [walk_append] at hwalk
  obtain ⟨above, habove, _⟩ := Option.bind_eq_some_iff.mp hwalk
  exact ⟨above, habove⟩

/-- Graphs which agree on the visited nodes have the same walks. -/
theorem walk_congr
    {child child' : ν → κ → Option ν} {root : ν}
    (hsame : ∀ node, Visits child root node → child' node = child node)
    (path : List κ) :
    walk child' root path = walk child root path := by
  induction path using List.reverseRecOn with
  | nil => rfl
  | append_singleton front label ih =>
      rw [walk_snoc, walk_snoc, ih]
      cases hfront : walk child root front with
      | none => rfl
      | some node => simp [hsame node ⟨front, hfront⟩]

/-- The visited part of the graph is a tree. -/
structure IsTree (child : ν → κ → Option ν) (root : ν) : Prop where
  root_ne : ∀ node label, Visits child root node →
    child node label ≠ some root
  parent_unique : ∀ node label node' label' next,
    Visits child root node → Visits child root node' →
    child node label = some next → child node' label' = some next →
    node = node' ∧ label = label'

/-- In a tree a node has only one name. -/
theorem IsTree.walk_injective
    {child : ν → κ → Option ν} {root : ν} (htree : IsTree child root)
    {path path' : List κ} {node : ν}
    (hpath : walk child root path = some node)
    (hpath' : walk child root path' = some node) :
    path = path' := by
  induction path using List.reverseRecOn generalizing path' node with
  | nil =>
      have hroot : root = node := by simpa using hpath
      subst hroot
      rcases List.eq_nil_or_concat path' with rfl | ⟨front, label, rfl⟩
      · rfl
      · rw [List.concat_eq_append, walk_snoc] at hpath'
        obtain ⟨above, habove, hchild⟩ := Option.bind_eq_some_iff.mp hpath'
        exact absurd hchild (htree.root_ne above label ⟨front, habove⟩)
  | append_singleton front label ih =>
      rw [walk_snoc] at hpath
      obtain ⟨above, habove, hchild⟩ := Option.bind_eq_some_iff.mp hpath
      rcases List.eq_nil_or_concat path' with rfl | ⟨front', label', rfl⟩
      · have hroot : root = node := by simpa using hpath'
        subst hroot
        exact absurd hchild (htree.root_ne above label ⟨front, habove⟩)
      · rw [List.concat_eq_append, walk_snoc] at hpath'
        obtain ⟨above', habove', hchild'⟩ := Option.bind_eq_some_iff.mp hpath'
        obtain ⟨rfl, rfl⟩ := htree.parent_unique above label above' label' node
          ⟨front, habove⟩ ⟨front', habove'⟩ hchild hchild'
        rw [List.concat_eq_append, ih habove habove']

section LeafEdges

variable [DecidableEq κ] {child child' : ν → κ → Option ν} {root node leaf : ν}
variable {path : List κ} {label : κ}

/-- Growing a leaf below `node` names exactly one new word. -/
theorem walk_insert_leaf
    (htree : IsTree child root) (hnode : walk child root path = some node)
    (hfree : child node label = none)
    (hedge : child' node label = some leaf)
    (hlabel : ∀ other, other ≠ label → child' node other = child node other)
    (hframe : ∀ other, other ≠ node → Visits child root other →
      child' other = child other)
    (hleaf : ∀ other, child' leaf other = none) (word : List κ) :
    walk child' root word =
      if word = path ++ [label] then some leaf else walk child root word := by
  induction word using List.reverseRecOn with
  | nil => simp
  | append_singleton front last ih =>
      rw [walk_snoc, ih]
      by_cases hfront : front = path ++ [label]
      · subst hfront
        have hold : walk child root (path ++ [label] ++ [last]) = none := by
          rw [walk_snoc, walk_snoc_of_walk hnode, hfree]
          rfl
        rw [if_pos rfl, if_neg (by simp), hold]
        exact hleaf last
      · rw [if_neg hfront, walk_snoc]
        cases hwalk : walk child root front with
        | none =>
            have hne : front ++ [last] ≠ path ++ [label] := by
              intro heq
              have hpath := (List.append_inj' heq rfl).1
              rw [hpath, hnode] at hwalk
              cases hwalk
            rw [if_neg hne]
            rfl
        | some other =>
            simp only [Option.bind_some]
            by_cases hother : other = node
            · subst hother
              have hpath : front = path := htree.walk_injective hwalk hnode
              subst hpath
              by_cases hlast : last = label
              · subst hlast
                rw [if_pos rfl, hedge]
              · rw [if_neg (by simpa using hlast), hlabel last hlast]
            · have hne : front ++ [last] ≠ path ++ [label] := by
                intro heq
                have hpath := (List.append_inj' heq rfl).1
                rw [hpath, hnode] at hwalk
                exact hother (Option.some.inj hwalk).symm
              rw [if_neg hne, hframe other hother ⟨front, hwalk⟩]

/-- Cutting the edge to a leaf removes exactly one word. -/
theorem walk_erase_leaf
    (htree : IsTree child root) (hnode : walk child root path = some node)
    (hedge : child node label = some leaf)
    (hleaf : ∀ other, child leaf other = none)
    (hcut : child' node label = none)
    (hlabel : ∀ other, other ≠ label → child' node other = child node other)
    (hframe : ∀ other, other ≠ node → other ≠ leaf → Visits child root other →
      child' other = child other) (word : List κ) :
    walk child' root word =
      if word = path ++ [label] then none else walk child root word := by
  induction word using List.reverseRecOn with
  | nil => simp
  | append_singleton front last ih =>
      rw [walk_snoc, ih]
      by_cases hfront : front = path ++ [label]
      · subst hfront
        have hold : walk child root (path ++ [label] ++ [last]) = none := by
          rw [walk_snoc, walk_snoc_of_walk hnode, hedge]
          exact hleaf last
        rw [if_pos rfl, if_neg (by simp), hold]
        rfl
      · rw [if_neg hfront, walk_snoc]
        cases hwalk : walk child root front with
        | none =>
            have hne : front ++ [last] ≠ path ++ [label] := by
              intro heq
              have hpath := (List.append_inj' heq rfl).1
              rw [hpath, hnode] at hwalk
              cases hwalk
            rw [if_neg hne]
            rfl
        | some other =>
            simp only [Option.bind_some]
            by_cases hother : other = node
            · subst hother
              have hpath : front = path := htree.walk_injective hwalk hnode
              subst hpath
              by_cases hlast : last = label
              · subst hlast
                rw [if_pos rfl, hcut]
              · rw [if_neg (by simpa using hlast), hlabel last hlast]
            · have hne : front ++ [last] ≠ path ++ [label] := by
                intro heq
                have hpath := (List.append_inj' heq rfl).1
                rw [hpath, hnode] at hwalk
                exact hother (Option.some.inj hwalk).symm
              have hotherLeaf : other ≠ leaf := by
                rintro rfl
                exact hfront (htree.walk_injective hwalk
                  (by rw [walk_snoc_of_walk hnode, hedge]))
              rw [if_neg hne, hframe other hother hotherLeaf ⟨front, hwalk⟩]

end LeafEdges

end LabelledWalk
end Eecs482
