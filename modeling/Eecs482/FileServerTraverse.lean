import Eecs482.FileServerDiskRules
import Eecs482.FileServerLookup

/-!
# Walking down to a directory

The walk takes the shared locks hand over hand: the lock of an inode is taken
while the lock of its parent is still held, so the pin on the parent proves
that the path leads to the new inode.  It ends holding the shared lock of the
last directory, which is known to list the target.
-/

namespace Eecs482
namespace FileServer

open Discipline

variable {initial : Disk} {i : ℕ} {l : Local} {α : Type}
variable {Post : α → Server → Prop}

/-! ## Shared functions -/

theorem triple_checkBlocks
    {pin : Pin} (hpin : pin ∈ l.pins) {name : Name} (remaining k : ℕ)
    (hbound : k + remaining ≤ (inodeAt pin.image pin.block).size.toNat)
    (result : TargetInode) (output : Option Entries)
    {next : TargetInode × Option Entries → FsProg α}
    (hnext : (discipline initial).Triple i (Owns i l)
      (next (scanBlocks pin.image (inodeAt pin.image pin.block) name remaining k
        result output)) Post) :
    (discipline initial).Triple i (Owns i l)
      (checkBlocks (inodeAt pin.image pin.block) name remaining k result output
        >>= next) Post := by
  induction remaining generalizing k result output with
  | zero => exact hnext
  | succ remaining ih =>
      have hk : k < (inodeAt pin.image pin.block).size.toNat := by omega
      simp only [checkBlocks, Prog.bind_assoc]
      refine triple_read _ hpin (Or.inr (block_mem_dataBlocks hk)) ?_
      simp only [scanBlocks] at hnext
      rcases hscan : checkEntries name k ((inodeAt pin.image pin.block).block k)
          (asEntries (pin.image ((inodeAt pin.image pin.block).block k)))
          (List.finRange fsDirentries) result output with ⟨stop, result', output'⟩
      cases stop with
      | true =>
          simp only [hscan] at hnext ⊢
          exact hnext
      | false =>
          simp only [hscan] at hnext ⊢
          exact ih (k + 1) (by omega) result' output' hnext

/-- On a pinned inode `check_existance` is the pure scan. -/
theorem triple_checkExistance
    (pin : Pin) (hpin : pin ∈ l.pins) {name : Name}
    (result : TargetInode) (output : Option Entries)
    {next : TargetInode × Option Entries → FsProg α}
    (hnext : (discipline initial).Triple i (Owns i l)
      (next (scan pin.image (inodeAt pin.image pin.block) result name output))
      Post) :
    (discipline initial).Triple i (Owns i l)
      (checkExistance result (inodeAt pin.image pin.block) name output >>= next)
      Post :=
  triple_checkBlocks hpin _ 0 (by omega) _ _ hnext

/-- A handler can give back a block that is outside the tree. -/
theorem Inv.not_locks_of_hand
    {s : Server} (hinv : Inv initial s) (howns : Owns i l s)
    (hpins : ∀ c, l.Locks c → ∃ pin ∈ l.pins, pin.block = c)
    {b : BlockNo} (hb : b ∈ l.hand) : ¬l.Locks b := by
  intro hlocks
  obtain ⟨pin, hpin, rfl⟩ := hpins b hlocks
  have hreach := (howns.locked_pin _ hpin).2.reach
  exact hinv.notMem_hands hreach (Or.inl rfl) i (by rw [howns.hand]; exact hb)

theorem triple_returnEmptyBlock
    {b : BlockNo} {next : Unit → FsProg α} (hfree : l.free = none)
    (hb : b ∈ l.hand)
    (hpins : ∀ c, l.Locks c → ∃ pin ∈ l.pins, pin.block = c)
    (hnext : (discipline initial).Triple i
      (Owns i { l with hand := l.hand.erase b, written := [] })
      (next ()) Post) :
    (discipline initial).Triple i (Owns i l)
      (returnEmptyBlock b >>= next) Post := by
  simp only [returnEmptyBlock, Prog.bind_assoc]
  refine triple_lockFree hfree fun queue => ?_
  refine triple_freePush queue [] rfl hb
    (fun s hinv howns => hinv.not_locks_of_hand howns hpins hb) (by simp) ?_
  refine triple_unlockFree (queue ++ [b]) rfl ?_
  rw [hfree] at hnext
  exact hnext

/-! ## The walk -/

/-- What the handler knows after a walk that has found its target. -/
inductive Traversed (base : Local) (user : Name) :
    Path → TargetInode → Local → Prop
  | root {result : TargetInode} (hblock : result.inodeBlock = 0) :
      Traversed base user [] result base
  | below {pin : Pin} {name : Name} {result : TargetInode}
      (hchild : childOf pin.image pin.block name = some result.inodeBlock)
      (hparent : result.parentInodeBlock = pin.block)
      (howned : ∀ front, front <+: pin.path → front ≠ [] →
        treeOf pin.image front = some (.dir user)) :
      Traversed base user (pin.path ++ [name]) result
        { base with shared := [pin.block], pins := [pin] }

/-- A handler that holds no inode lock. -/
structure Local.Unlocked (l : Local) : Prop where
  shared : l.shared = []
  excl : l.excl = []
  pins : l.pins = []
  free : l.free = none

/-- Where a walk stands: the shared lock of one directory is held, and the
directories down to it are the user's. -/
structure OnTheWay
    (base : Local) (user : Name) (pin : Pin) (result : TargetInode) : Prop where
  base : base.Unlocked
  dir : (inodeAt pin.image pin.block).type = dirType
  parent : result.parentInodeBlock = pin.block
  owned : ∀ front, front <+: pin.path → front ≠ [] →
    treeOf pin.image front = some (.dir user)

theorem Pin.Holds.owned
    {parent : Pin} {disk : Disk} {user : Name} (hparent : parent.Holds disk)
    (howned : ∀ front, front <+: parent.path → front ≠ [] →
      treeOf parent.image front = some (.dir user))
    {front : Path} (hpre : front <+: parent.path) (hne : front ≠ []) :
    treeOf disk front = some (.dir user) := by
  rw [treeOf_eq_dir_of_trail_eq (hparent.above front hpre)]
  exact howned front hpre hne

theorem triple_traverseDirLoop
    {user : Name} {names : Path} (hnames : names ≠ [])
    {pin : Pin} {result : TargetInode} (hway : OnTheWay l user pin result)
    {next : TargetInode → FsProg α}
    (hinvalid : ∀ (bad : TargetInode) (last : Pin), bad.valid = false →
      bad.parentInodeBlock = last.block →
      (discipline initial).Triple i
        (Owns i { l with shared := [last.block], pins := [last] })
        (next bad) Post)
    (hvalid : ∀ (good : TargetInode) (l' : Local), good.valid = true →
      Traversed l user (pin.path ++ names) good l' →
      (discipline initial).Triple i (Owns i l') (next good) Post) :
    (discipline initial).Triple i
      (Owns i { l with shared := [pin.block], pins := [pin] })
      (traverseDirLoop user names result (inodeAt pin.image pin.block) pin.block
        >>= next) Post := by
  induction names generalizing pin result with
  | nil => exact absurd rfl hnames
  | cons name rest ih =>
      simp only [traverseDirLoop, Prog.bind_assoc]
      refine triple_checkExistance pin List.mem_cons_self _ _ ?_
      cases hchild : childOf pin.image pin.block name with
      | none =>
          have hpassed := scan_of_childOf_none pin.wf pin.reach hway.dir hchild
            result none
          generalize scan pin.image (inodeAt pin.image pin.block) result name
            none = found at hpassed
          simp only [hpassed.valid, true_or, if_true]
          exact hinvalid _ pin hpassed.valid (hpassed.parent.trans hway.parent)
      | some child =>
          obtain ⟨k, j, _, _, hblock, hscan⟩ := scan_of_childOf_some pin.wf
            pin.reach hway.dir hchild result none
          rw [hscan]
          have hfound : (foundAt pin.image (inodeAt pin.image pin.block) result
              k j).inodeBlock = child := hblock
          have hvalidFound : (foundAt pin.image (inodeAt pin.image pin.block)
              result k j).valid = true := rfl
          have hparentFound : (foundAt pin.image (inodeAt pin.image pin.block)
              result k j).parentInodeBlock = pin.block := hway.parent
          generalize foundAt pin.image (inodeAt pin.image pin.block) result k j
            = found at hfound hvalidFound hparentFound
          by_cases hrest : rest = []
          · subst hrest
            simp only [hvalidFound, or_true, if_true]
            refine hvalid found _ hvalidFound ?_
            exact Traversed.below (by rw [hfound]; exact hchild) hparentFound
              hway.owned
          · simp only [hvalidFound, Bool.true_eq_false, hrest, or_self, if_false,
              Prog.bind_assoc]
            have htarget : LockTarget
                { l with shared := [pin.block], pins := [pin] }
                (pin.path ++ [name]) found.inodeBlock := by
              rw [hfound]
              refine LockTarget.child List.mem_cons_self hchild fun c hc => ?_
              simpa [Local.Locks, hway.base.excl] using hc
            refine triple_lockShared htarget hway.base.free fun new htaken => ?_
            have hne : new.block ≠ pin.block := by
              rw [htaken.block_eq]
              intro heq
              have hself : LabelledWalk.walk (childOf pin.image) 0
                  (pin.path ++ [name]) = some pin.block := by
                rw [LabelledWalk.walk_snoc_of_walk pin.resolved, hchild,
                  ← hfound, heq]
              have hpath := pin.wf.isTree.walk_injective hself pin.resolved
              simpa using congrArg List.length hpath
            refine triple_unlockShared [new] (by simp) ?_ ?_
            · intro p hp
              rw [List.mem_singleton.mp hp]
              exact ⟨List.mem_cons_self, hne⟩
            have hshared :
                (found.inodeBlock :: [pin.block]).erase pin.block =
                  [new.block] := by
              rw [← htaken.block_eq, List.erase_cons_tail (by simpa using hne)]
              simp
            simp only [hshared]
            refine triple_read new List.mem_cons_self
              (Or.inl htaken.block_eq.symm) ?_
            have hnewBlock := htaken.block_eq
            have hinode : asInode (new.image found.inodeBlock) =
                inodeAt new.image new.block := by
              rw [inodeAt, hnewBlock]
            rw [hinode]
            split
            · exact hinvalid _ new rfl hnewBlock.symm
            · rename_i hmine
              simp only [ne_eq, not_or, Decidable.not_not] at hmine
              have hpath : new.path = pin.path ++ [name] := htaken.path_eq
              have hway' : OnTheWay l user new
                  { found with
                    valid := true
                    parentInodeBlock := found.inodeBlock } := by
                refine ⟨hway.base, hmine.2, hnewBlock.symm,
                  fun front hpre hfront => ?_⟩
                rw [hpath] at hpre
                rcases prefix_snoc_cases hpre with hpre | rfl
                · exact (htaken.parents pin List.mem_cons_self).owned hway.owned
                    hpre hfront
                · rw [treeOf, ← hpath, new.resolved, Option.map_some, nodeAt,
                    if_pos hmine.2, ownerAt, hmine.1]
              rw [← hnewBlock]
              refine ih hrest ?_ ?_
              · rw [hnewBlock]
                exact hway'
              · intro good l' hgood htraversed
                refine hvalid good l' hgood ?_
                rw [hpath, List.append_assoc, List.singleton_append] at htraversed
                exact htraversed

/-- The walk from the root. -/
theorem triple_traverseDir
    {user : Name} {names : Path} (hbase : l.Unlocked)
    {next : TargetInode → FsProg α}
    (hinvalid : ∀ (bad : TargetInode) (last : Pin), bad.valid = false →
      bad.parentInodeBlock = last.block →
      (discipline initial).Triple i
        (Owns i { l with shared := [last.block], pins := [last] })
        (next bad) Post)
    (hvalid : ∀ (good : TargetInode) (l' : Local), good.valid = true →
      Traversed l user names good l' →
      (discipline initial).Triple i (Owns i l') (next good) Post) :
    (discipline initial).Triple i (Owns i l)
      (traverseDir user names >>= next) Post := by
  unfold traverseDir
  by_cases hnames : names = []
  · subst hnames
    simp only [if_true]
    exact hvalid _ l rfl (Traversed.root rfl)
  · simp only [hnames, if_false, Prog.bind_assoc]
    have htarget : LockTarget l [] 0 := by
      refine LockTarget.root fun c hc => ?_
      simp [Local.Locks, hbase.shared, hbase.excl] at hc
    refine triple_lockShared htarget hbase.free fun pin htaken => ?_
    rw [hbase.shared, hbase.pins]
    have hblock : pin.block = 0 := htaken.block_eq
    refine triple_read pin List.mem_cons_self (Or.inl hblock.symm) ?_
    have hinode : asInode (pin.image 0) = inodeAt pin.image pin.block := by
      rw [inodeAt, hblock]
    have hway : OnTheWay l user pin { valid := true } := by
      refine ⟨hbase, ?_, hblock.symm, fun front hpre hne => ?_⟩
      · rw [hblock]
        exact pin.wf.root_dir
      · rw [htaken.path_eq] at hpre
        exact absurd (List.prefix_nil.mp hpre) hne
    rw [← hblock, hblock, hinode]
    have hloop := triple_traverseDirLoop hnames hway hinvalid (by
        intro good l' hgood htraversed
        rw [htaken.path_eq] at htraversed
        exact hvalid good l' hgood htraversed)
    rw [hblock] at hloop ⊢
    exact hloop

end FileServer
end Eecs482
