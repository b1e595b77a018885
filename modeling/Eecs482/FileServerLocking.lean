import Eecs482.CallBudgets
import Eecs482.FileServerRuns
import Eecs482.FileServerParser

/-!
# Every access to the disk is protected by a lock

A handler reads an inode or one of its data blocks under the lock of the inode,
and overwrites them under its exclusive lock; before that it writes only to
blocks in its hands.  So no two handlers are ever about to access one block at
the same time when one of them is going to write.  On the way the calls of each
handler are counted.
-/

namespace Eecs482
namespace FileServer

open Discipline

variable {initial : Disk} {i m n : ℕ} {l : Local} {s : Server} {b : BlockNo}
variable {α β : Type}

/-- The block is the inode `p` of the tree or one of its data blocks. -/
def PartOf (disk : Disk) (p b : BlockNo) : Prop :=
  Reach disk p ∧ (b = p ∨ b ∈ dataBlocks disk p)

/-- What protects an access to the disk. -/
def Protected (i : ℕ) (op : FsCall) (s : Server) : Prop :=
  match op with
  | .diskReadblock b _ => ∃ p, Locks i p s ∧ PartOf s.disk p b
  | .diskWriteblock b _ none => b ∈ s.hands i
  | .diskWriteblock b _ (some _) =>
      ∃ p, (s.diskLocks p).writer = some i ∧ PartOf s.disk p b
  | _ => True

/-- A handler which knows `l` makes at most `n` calls, all of them protected. -/
def Limited (initial : Disk) (i : ℕ) (l : Local) (program : FsProg α) (n : ℕ) : Prop :=
  ∀ s, Inv initial s → Owns i l s →
    (discipline initial).Within Protected i program n s

/-! ## Rules -/

/-- What a handler has found out, and how it goes on. -/
def Known (initial : Disk) (i : ℕ) (next : α → FsProg β) (n : ℕ) (value : α)
    (s : Server) : Prop :=
  ∃ l, Owns i l s ∧ Limited initial i l (next value) n

section Rules

variable {next : α → FsProg β} {program : FsProg α}

theorem triple_known
    {value : α} (h : Limited initial i l (next value) n) :
    (discipline initial).Triple i (Owns i l) (.ret value) (Known initial i next n) :=
  fun _ _ howns _ hrely => ⟨l, hrely.owns l howns, h⟩

theorem Limited.mono (h : Limited initial i l program m) (hle : m ≤ n) :
    Limited initial i l program n :=
  fun s hinv howns => (h s hinv howns).mono hle

theorem Limited.ret (value : α) : Limited initial i l (.ret value) n :=
  fun _ _ _ => trivial

theorem Limited.seq
    (hfirst : Limited initial i l program m)
    (htriple : (discipline initial).Triple i (Owns i l) (program >>= Prog.ret)
      (Known initial i next n)) :
    Limited initial i l (program >>= next) (m + n) := by
  intro s hinv howns
  rw [Prog.bind_ret] at htriple
  refine (hfirst s hinv howns).bind hinv (htriple s hinv howns) ?_
  rintro value t hinvt ⟨l', howns', hnext⟩
  exact hnext t hinvt howns'

theorem limited_call
    {op : FsCall} (hop : ∀ s, Inv initial s → Owns i l s → Protected i op s) :
    Limited initial i l (call op) 1 := by
  intro s hinv howns
  refine ⟨Nat.one_pos, fun t hrely => ⟨?_, fun answer u _ _ => trivial⟩⟩
  exact hop t hrely.inv (hrely.owns l howns)

/-- One call, and what it lets the handler know. -/
theorem Limited.step
    {op : FsCall} {next : fsInterface.Answer op → FsProg β}
    (hop : ∀ s, Inv initial s → Owns i l s → Protected i op s)
    (htriple : (discipline initial).Triple i (Owns i l) (call op >>= Prog.ret)
      (Known initial i next n)) :
    Limited initial i l (call op >>= next) (n + 1) := by
  rw [Nat.add_comm]
  exact (limited_call hop).seq htriple

/-- None of the calls needs protection, and there are at most `n`. -/
def Plain : ℕ → FsProg α → Prop
  | _, .ret _ => True
  | n, .call op next =>
      0 < n ∧ (∀ i s, Protected i op s) ∧ ∀ answer, Plain (n - 1) (next answer)

theorem Plain.ret (value : α) : Plain n (.ret value : FsProg α) :=
  trivial

theorem Plain.call
    {op : FsCall} {next : fsInterface.Answer op → FsProg β}
    (hop : ∀ i s, Protected i op s) (hnext : ∀ answer, Plain n (next answer)) :
    Plain (n + 1) (call op >>= next) :=
  ⟨Nat.succ_pos n, hop, hnext⟩

theorem Plain.mono (h : Plain m program) (hle : m ≤ n) : Plain n program := by
  induction program generalizing m n with
  | ret value => trivial
  | call op next ih =>
      obtain ⟨hpos, hop, hnext⟩ := h
      exact ⟨hpos.trans_le hle, hop, fun answer =>
        ih answer (hnext answer) (Nat.sub_le_sub_right hle 1)⟩

theorem Plain.bind
    (h : Plain m program) (hnext : ∀ value, Plain n (next value)) :
    Plain (m + n) (program >>= next) := by
  induction program generalizing m with
  | ret value => exact (hnext value).mono (Nat.le_add_left n m)
  | call op rest ih =>
      obtain ⟨hpos, hop, hrest⟩ := h
      refine ⟨Nat.add_pos_left hpos n, hop, fun answer => ?_⟩
      have hsum : m + n - 1 = m - 1 + n := by omega
      rw [hsum]
      exact ih answer (hrest answer)

theorem Plain.within
    (h : Plain n program) (s : Server) :
    (discipline initial).Within Protected i program n s := by
  induction program generalizing n s with
  | ret value => trivial
  | call op rest ih =>
      obtain ⟨hpos, hop, hrest⟩ := h
      exact ⟨hpos, fun t _ => ⟨hop i t, fun answer u _ _ => ih answer (hrest answer) u⟩⟩

theorem Plain.limited (h : Plain n program) : Limited initial i l program n :=
  fun s _ _ => h.within s

/-- The last access of a handler. -/
theorem Limited.last
    {op : FsCall} {next : fsInterface.Answer op → FsProg β}
    (hop : ∀ s, Inv initial s → Owns i l s → Protected i op s)
    (hnext : ∀ answer, Plain n (next answer)) :
    Limited initial i l (call op >>= next) (n + 1) := by
  intro s hinv howns
  refine ⟨Nat.succ_pos n, fun t hrely => ⟨?_, fun answer u _ _ => ?_⟩⟩
  · exact hop t hrely.inv (hrely.owns l howns)
  · exact (hnext answer).within u

end Rules

/-! ## What the locks protect -/

theorem protected_read
    {pin : Pin} (hpin : pin ∈ l.pins)
    (hb : b = pin.block ∨ b ∈ dataBlocks pin.image pin.block) (mark : Bool) :
    ∀ s, Inv initial s → Owns i l s → Protected i (.diskReadblock b mark) s := by
  intro s _ howns
  obtain ⟨hlock, hholds⟩ := howns.locked_pin pin hpin
  refine ⟨pin.block, hlock, hholds.reach, ?_⟩
  rw [hholds.agree.dataBlocks]
  exact hb

theorem protected_write
    {pin : Pin} {block : Block} {note : Commit} (hpin : pin ∈ l.pins)
    (hexcl : pin.block ∈ l.excl)
    (hb : b = pin.block ∨ b ∈ dataBlocks pin.image pin.block) :
    ∀ s, Inv initial s → Owns i l s →
      Protected i (.diskWriteblock b block (some note)) s := by
  intro s _ howns
  obtain ⟨_, hholds⟩ := howns.locked_pin pin hpin
  refine ⟨pin.block, (howns.writer pin.block).mpr hexcl, hholds.reach, ?_⟩
  rw [hholds.agree.dataBlocks]
  exact hb

theorem protected_new
    {block : Block} (hb : b ∈ l.hand) :
    ∀ s, Inv initial s → Owns i l s → Protected i (.diskWriteblock b block none) s := by
  intro s _ howns
  change b ∈ s.hands i
  rw [howns.hand]
  exact hb

/-! ## Searches and the walk -/

theorem limited_checkBlocks
    {pin : Pin} (hpin : pin ∈ l.pins) (name : Name) (remaining k : ℕ)
    (hbound : k + remaining ≤ (inodeAt pin.image pin.block).size.toNat)
    (result : TargetInode) (output : Option Entries) :
    Limited initial i l
      (checkBlocks (inodeAt pin.image pin.block) name remaining k result output)
      remaining := by
  induction remaining generalizing k result output with
  | zero => exact .ret _
  | succ remaining ih =>
      have hk : k < (inodeAt pin.image pin.block).size.toNat := by omega
      have hb := block_mem_dataBlocks hk
      refine Limited.step (protected_read hpin (.inr hb) false) ?_
      refine triple_read pin hpin (.inr hb) (triple_known ?_)
      rcases checkEntries name k ((inodeAt pin.image pin.block).block k)
          (asEntries (pin.image ((inodeAt pin.image pin.block).block k)))
          (List.finRange fsDirentries) result output with ⟨stop, result', output'⟩
      cases stop with
      | true => exact .ret _
      | false => exact ih (k + 1) (by omega) result' output'

theorem limited_checkExistance
    {pin : Pin} (hpin : pin ∈ l.pins) (name : Name) (result : TargetInode)
    (output : Option Entries) :
    Limited initial i l
      (checkExistance result (inodeAt pin.image pin.block) name output) 124 :=
  (limited_checkBlocks hpin name _ 0 (by omega) _ output).mono
    (pin.wf.size_le pin.block pin.reach)

theorem limited_traverseDirLoop
    {user : Name} (names : Path) {pin : Pin} {result : TargetInode}
    (hway : OnTheWay l user pin result) :
    Limited initial i { l with shared := [pin.block], pins := [pin] }
      (traverseDirLoop user names result (inodeAt pin.image pin.block) pin.block)
      (127 * names.length) := by
  induction names generalizing pin result with
  | nil => exact .ret _
  | cons name rest ih =>
      unfold traverseDirLoop
      have hlength : 127 * (name :: rest).length = 124 + (127 * rest.length + 3) := by
        rw [List.length_cons]
        omega
      rw [hlength]
      refine (limited_checkExistance List.mem_cons_self name result none).seq ?_
      refine triple_checkExistance pin List.mem_cons_self _ _ (triple_known ?_)
      cases hchild : childOf pin.image pin.block name with
      | none =>
          have hpassed := scan_of_childOf_none pin.wf pin.reach hway.dir hchild
            result none
          generalize scan pin.image (inodeAt pin.image pin.block) result name
            none = found at hpassed
          simp only [hpassed.valid, true_or, if_true]
          exact .ret _
      | some child =>
          obtain ⟨k, j, _, _, hblock, hscan⟩ := scan_of_childOf_some pin.wf
            pin.reach hway.dir hchild result none
          rw [hscan]
          have hfound : (foundAt pin.image (inodeAt pin.image pin.block) result
              k j).inodeBlock = child := hblock
          have hvalidFound : (foundAt pin.image (inodeAt pin.image pin.block)
              result k j).valid = true := rfl
          generalize foundAt pin.image (inodeAt pin.image pin.block) result k j
            = found at hfound hvalidFound
          by_cases hrest : rest = []
          · simp only [hrest, or_true, if_true]
            exact .ret _
          simp only [hvalidFound, Bool.true_eq_false, hrest, or_self, if_false]
          have htarget : LockTarget
              { l with shared := [pin.block], pins := [pin] }
              (pin.path ++ [name]) found.inodeBlock := by
            rw [hfound]
            refine LockTarget.child List.mem_cons_self hchild fun c hc => ?_
            simpa [Local.Locks, hway.base.excl] using hc
          refine Limited.step (fun _ _ _ => trivial) ?_
          refine triple_lockShared htarget hway.base.free fun new htaken => ?_
          refine triple_known (Limited.step (fun _ _ _ => trivial) ?_)
          have hne : new.block ≠ pin.block := by
            rw [htaken.block_eq, hfound]
            exact Pin.child_ne hchild
          refine triple_unlockShared [new] (by simp) ?_ (triple_known ?_)
          · intro p hp
            rw [List.mem_singleton.mp hp]
            exact ⟨List.mem_cons_self, hne⟩
          have hshared : (found.inodeBlock :: [pin.block]).erase pin.block =
              [new.block] := by
            rw [← htaken.block_eq, List.erase_cons_tail (by simpa using hne)]
            simp
          simp only [hshared]
          have hnewBlock := htaken.block_eq
          have hread : found.inodeBlock = new.block ∨
              found.inodeBlock ∈ dataBlocks new.image new.block := .inl hnewBlock.symm
          refine Limited.step (protected_read List.mem_cons_self hread false) ?_
          refine triple_read new List.mem_cons_self hread (triple_known ?_)
          have hinode : asInode (new.image found.inodeBlock) =
              inodeAt new.image new.block := by
            rw [inodeAt, hnewBlock]
          rw [hinode]
          split
          · exact .ret _
          · rename_i hmine
            simp only [ne_eq, not_or, Decidable.not_not] at hmine
            have hpath : new.path = pin.path ++ [name] := htaken.path_eq
            rw [← hnewBlock]
            refine ih ⟨hway.base, hmine.2, rfl, fun front hpre hfront => ?_⟩
            rw [hpath] at hpre
            rcases prefix_snoc_cases hpre with hpre | rfl
            · exact (htaken.parents pin List.mem_cons_self).owned hway.owned hpre hfront
            · rw [treeOf, ← hpath, new.resolved, Option.map_some, nodeAt,
                if_pos hmine.2, ownerAt, hmine.1]

theorem limited_traverseDir
    {user : Name} (names : Path) (hbase : l.Unlocked) :
    Limited initial i l (traverseDir user names) (127 * names.length + 2) := by
  unfold traverseDir
  by_cases hnames : names = []
  · simp only [hnames, if_true]
    exact .ret _
  simp only [hnames, if_false]
  have htarget : LockTarget l [] 0 := by
    refine LockTarget.root fun c hc => ?_
    simp [Local.Locks, hbase.shared, hbase.excl] at hc
  refine Limited.step (fun _ _ _ => trivial) ?_
  refine triple_lockShared htarget hbase.free fun pin htaken => triple_known ?_
  rw [hbase.shared, hbase.pins]
  have hblock : pin.block = 0 := htaken.block_eq
  have hread : 0 = pin.block ∨ 0 ∈ dataBlocks pin.image pin.block := .inl hblock.symm
  refine Limited.step (protected_read List.mem_cons_self hread false) ?_
  refine triple_read pin List.mem_cons_self hread (triple_known ?_)
  have hinode : asInode (pin.image 0) = inodeAt pin.image pin.block := by
    rw [inodeAt, hblock]
  rw [hinode]
  have hway : OnTheWay l user pin { valid := true } := by
    refine ⟨hbase, ?_, hblock.symm, fun front hpre hne => ?_⟩
    · rw [hblock]
      exact pin.wf.root_dir
    · rw [htaken.path_eq] at hpre
      exact absurd (List.prefix_nil.mp hpre) hne
  have hloop : Limited initial i _ _ _ := limited_traverseDirLoop names hway
  rw [hblock] at hloop ⊢
  exact hloop

/-! ## Under the lock of the target -/

section Target

variable {base l' : Local} {user : Name} {path : Path} {target : TargetInode}
variable {next : Unit → FsProg β}

theorem plain_unlockParent : Plain 1 (unlockParent target) := by
  unfold unlockParent
  split
  · exact Plain.call (fun _ _ => trivial) fun _ => .ret _
  · exact .ret _

theorem limited_traverse
    {names : Path} {next : TargetInode → FsProg β} (hbase : l.Unlocked)
    (hinvalid : ∀ bad : TargetInode, bad.valid = false → Plain n (next bad))
    (hvalid : ∀ (good : TargetInode) (l' : Local), good.valid = true →
      Traversed l user names good l' → Limited initial i l' (next good) n) :
    Limited initial i l (traverseDir user names >>= next)
      (127 * names.length + 2 + n) := by
  refine (limited_traverseDir names hbase).seq (triple_traverseDir hbase ?_ ?_)
  · intro bad last hbad _
    exact triple_known (hinvalid bad hbad).limited
  · intro good l' hgood htraversed
    exact triple_known (hvalid good l' hgood htraversed)

theorem limited_enter
    (hbase : base.Unlocked) (htraversed : Traversed base user path target l')
    (hnext : ∀ pin : Pin, Entered pin user path target.inodeBlock →
      Limited initial i { base with excl := [target.inodeBlock], pins := [pin] }
        (next ()) n) :
    Limited initial i l' (call (.lock target.inodeBlock) >>= fun _ =>
      unlockParent target >>= next) (n + 2) := by
  have hfirst : Plain 2 (call (.lock target.inodeBlock) >>= fun _ =>
      unlockParent target) :=
    Plain.call (fun _ _ => trivial) fun _ => plain_unlockParent
  have hboth : Limited initial i l' ((call (.lock target.inodeBlock) >>= fun _ =>
      unlockParent target) >>= next) (2 + n) := by
    apply hfirst.limited.seq
    rw [Prog.bind_assoc]
    exact triple_enter hbase htraversed fun pin hentered =>
      triple_known (hnext pin hentered)
  rwa [Prog.bind_assoc, Nat.add_comm] at hboth

theorem limited_enterShared
    (hbase : base.Unlocked) (htraversed : Traversed base user path target l')
    (hnext : ∀ pin : Pin, Entered pin user path target.inodeBlock →
      Limited initial i { base with shared := [target.inodeBlock], pins := [pin] }
        (next ()) n) :
    Limited initial i l' (call (.lockShared target.inodeBlock) >>= fun _ =>
      unlockParent target >>= next) (n + 2) := by
  have hfirst : Plain 2 (call (.lockShared target.inodeBlock) >>= fun _ =>
      unlockParent target) :=
    Plain.call (fun _ _ => trivial) fun _ => plain_unlockParent
  have hboth : Limited initial i l' ((call (.lockShared target.inodeBlock) >>= fun _ =>
      unlockParent target) >>= next) (2 + n) := by
    apply hfirst.limited.seq
    rw [Prog.bind_assoc]
    exact triple_enterShared hbase htraversed fun pin hentered =>
      triple_known (hnext pin hentered)
  rwa [Prog.bind_assoc, Nat.add_comm] at hboth

/-- Reading the inode of the target. -/
theorem limited_readTarget
    {pin : Pin} {next : Block → FsProg β} (hentered : Entered pin user path b)
    (hpin : pin ∈ l.pins)
    (hnext : ∀ block, asInode block = inodeAt pin.image pin.block →
      Limited initial i l (next block) n) :
    Limited initial i l (call (.diskReadblock b false) >>= next) (n + 1) := by
  have hread : b = pin.block ∨ b ∈ dataBlocks pin.image pin.block :=
    .inl hentered.block_eq.symm
  refine Limited.step (protected_read hpin hread false) ?_
  exact triple_read pin hpin hread (triple_known (hnext _ hentered.inode))

end Target

/-! ## The handlers -/

/-- The calls of a handler whose path has `n` names. -/
def callBound (n : ℕ) : ℕ := 127 * n + 320

theorem limited_handleReadblock (req : List Byte) (fields : RequestFields) (n : ℕ)
    (hn : ∀ names, pathParser fields.pathname = some names → names.length ≤ n) :
    Limited initial i (Local.start i (.readblock req fields) [])
      (handleReadblock req fields >>= fun _ => call .close) (callBound n) := by
  have hbase := Local.start_unlocked (i := i) (.readblock req fields) []
  have hclose : ∀ k, Plain (k + 1) (call .close) := fun k =>
    Plain.call (fun _ _ => trivial) fun _ => .ret _
  unfold handleReadblock
  cases hword : extractWord req with
  | none => exact (hclose _).limited
  | some word =>
      obtain ⟨blockStr, rest⟩ := word
      simp only
      split
      · exact (hclose _).limited
      split
      · exact (hclose _).limited
      cases hpath : pathParser fields.pathname with
      | none => exact (hclose _).limited
      | some pathNames =>
          simp only [Prog.bind_assoc]
          refine (limited_traverse (n := 8) hbase ?_ ?_).mono ?_
          · intro bad hbad
            simp only [hbad, if_true]
            exact Plain.call (fun _ _ => trivial) fun _ => hclose _
          · intro good l' hgood htraversed
            simp only [hgood, Bool.true_eq_false, if_false, Prog.bind_assoc, readLocked]
            have hrefuse : Plain 4 (call (.unlockShared good.inodeBlock) >>= fun _ =>
                pure () >>= fun _ => call .close) :=
              Plain.call (fun _ _ => trivial) fun _ => hclose _
            have hsend : ∀ data : Block, Plain 4
                (call (.unlockShared good.inodeBlock) >>= fun _ =>
                  call (.sendResponse (responseHeader [readblockWord,
                    fields.username, fields.pathname, blockStr] ++ List.ofFn data)) >>=
                  fun _ => call .close) := by
              intro data
              refine Plain.call (fun _ _ => trivial) fun _ => ?_
              exact Plain.call (fun _ _ => trivial) fun _ => hclose _
            refine limited_enterShared hbase htraversed fun pin hentered => ?_
            refine limited_readTarget hentered List.mem_cons_self fun block hinode => ?_
            rw [hinode]
            split
            · exact (hrefuse.mono (by omega)).limited
            · rename_i hcheck
              simp only [not_or, ge_iff_le, not_le] at hcheck
              have hread := block_mem_dataBlocks hcheck.2.2
              simp only [Prog.bind_assoc]
              exact Limited.last (protected_read List.mem_cons_self (.inr hread) true)
                fun answer => hsend answer
          · have hle := hn pathNames hpath
            unfold callBound
            omega

theorem limited_handleWriteblock
    (req : List Byte) (fields : RequestFields) (data : Block) (n : ℕ)
    (hn : ∀ names, pathParser fields.pathname = some names → names.length ≤ n) :
    Limited initial i (Local.start i (.writeblock req fields data) [])
      (handleWriteblock req fields data >>= fun _ => call .close) (callBound n) := by
  have hbase := Local.start_unlocked (i := i) (.writeblock req fields data) []
  have hclose : ∀ k, Plain (k + 1) (call .close) := fun k =>
    Plain.call (fun _ _ => trivial) fun _ => .ret _
  unfold handleWriteblock
  cases hword : extractWord req with
  | none => exact (hclose _).limited
  | some word =>
      obtain ⟨blockStr, rest⟩ := word
      simp only
      split
      · exact (hclose _).limited
      split
      · exact (hclose _).limited
      rename_i hbound
      cases hpath : pathParser fields.pathname with
      | none => exact (hclose _).limited
      | some pathNames =>
          simp only [Prog.bind_assoc]
          refine (limited_traverse (n := 13) hbase ?_ ?_).mono ?_
          · intro bad hbad
            simp only [hbad, if_true]
            exact Plain.call (fun _ _ => trivial) fun _ => hclose _
          · intro good l' hgood htraversed
            simp only [hgood, Bool.true_eq_false, if_false, Prog.bind_assoc, writeLocked]
            have hsend : ∀ (written : Bool) (k : ℕ), Plain (k + 3)
                (call (.unlock good.inodeBlock) >>= fun _ =>
                  (if written then call (.sendResponse (responseHeader [writeblockWord,
                      fields.username, fields.pathname, blockStr])) else pure ()) >>=
                  fun _ => call .close) := by
              intro written k
              refine Plain.call (fun _ _ => trivial) fun _ => ?_
              cases written with
              | false => exact hclose _
              | true => exact Plain.call (fun _ _ => trivial) fun _ => hclose _
            refine limited_enter hbase htraversed fun pin hentered => ?_
            have hexcl : pin.block ∈ [good.inodeBlock] := by
              rw [hentered.block_eq]
              exact List.mem_cons_self
            refine limited_readTarget hentered List.mem_cons_self fun block hinode => ?_
            rw [hinode]
            split
            · exact (hsend false 7).limited
            split
            · rename_i hend
              simp only [Prog.bind_assoc]
              refine Limited.step (fun _ _ _ => trivial) ?_
              refine triple_lockFree rfl fun queue => triple_known ?_
              refine Limited.step (fun _ _ _ => trivial) ?_
              refine triple_freeEmpty queue rfl (triple_known ?_)
              split
              · simp only [Prog.bind_assoc]
                exact Plain.limited (Plain.call (fun _ _ => trivial) fun _ =>
                  hsend false 4)
              · rename_i hspace
                obtain ⟨x, queue', rfl⟩ : ∃ x queue', queue = x :: queue' := by
                  cases queue with
                  | nil => simp at hspace
                  | cons x queue' => exact ⟨x, queue', rfl⟩
                simp only [Prog.bind_assoc]
                refine Limited.step (fun _ _ _ => trivial) ?_
                refine triple_freeFront queue' rfl (triple_known ?_)
                refine Limited.step (fun _ _ _ => trivial) ?_
                refine triple_freePop (b := x) queue' rfl (triple_known ?_)
                refine Limited.step (fun _ _ _ => trivial) ?_
                refine triple_unlockFree queue' rfl (triple_known ?_)
                have hblock : ((inodeAt pin.image pin.block).append x).block
                    (stoi blockStr) = x := by
                  rw [block_append, if_pos ⟨hend, by omega⟩]
                rw [hblock]
                refine Limited.step (protected_new List.mem_cons_self) ?_
                refine triple_write (b := x) List.mem_cons_self
                  (fun _ _ _ => by simp [Local.start]) rfl (triple_known ?_)
                exact Limited.last (protected_write List.mem_cons_self hexcl
                  (.inl hentered.block_eq.symm)) fun _ => hsend true 0
            · rename_i hcheck hend
              simp only [not_or, gt_iff_lt, not_lt] at hcheck
              have hwrite := block_mem_dataBlocks
                (show stoi blockStr < (inodeAt pin.image pin.block).size.toNat by omega)
              simp only [Prog.bind_assoc]
              exact Limited.last (protected_write List.mem_cons_self hexcl (.inr hwrite))
                fun _ => hsend true 6
          · have hle := hn pathNames hpath
            unfold callBound
            omega

theorem plain_returnEmptyBlock : Plain 3 (returnEmptyBlock b) :=
  Plain.call (fun _ _ => trivial) fun _ => Plain.call (fun _ _ => trivial) fun _ =>
    Plain.call (fun _ _ => trivial) fun _ => .ret _

theorem plain_growDirectory (inode : FsInode) (dirBlock newInodeBlock : BlockNo) :
    Plain 5 (growDirectory inode dirBlock newInodeBlock) := by
  unfold growDirectory
  refine Plain.call (fun _ _ => trivial) fun _ => ?_
  split
  · refine Plain.call (fun _ _ => trivial) fun empty => ?_
    split
    · exact Plain.call (fun _ _ => trivial) fun _ => Plain.call (fun _ _ => trivial)
        fun _ => .ret _
    · exact Plain.call (fun _ _ => trivial) fun _ => Plain.call (fun _ _ => trivial)
        fun _ => Plain.call (fun _ _ => trivial) fun _ => .ret _
  · exact Plain.call (fun _ _ => trivial) fun _ => .ret _

/-- The scope of the write lock in `handle_create`, with what comes after it. -/
theorem limited_createLocked
    {request : Request} {stack : Stack} {type : Byte} {user name : Name} {x : BlockNo}
    {target : TargetInode} {path : Path} {l' : Local} {next : Bool → FsProg β}
    (htraversed : Traversed (Local.start i request [x]) user path target l')
    (hnext : ∀ created, Plain 3 (next created)) :
    Limited initial i l'
      (call (.lock target.inodeBlock) >>= fun _ =>
        createLocked stack type user name x target >>= next) 138 := by
  have hbase := Local.start_unlocked (i := i) request [x]
  simp only [createLocked, Prog.bind_assoc]
  refine limited_enter hbase htraversed fun pin hentered => ?_
  have hpins : ∀ c, ({ Local.start i request [x] with
      excl := [target.inodeBlock], pins := [pin] } : Local).Locks c →
      ∃ q ∈ [pin], q.block = c := by
    intro c hc
    have hc : c = target.inodeBlock := by
      simpa [Local.Locks, Local.start] using hc
    exact ⟨pin, List.mem_cons_self, by rw [hentered.block_eq, hc]⟩
  have hexcl : pin.block ∈ [target.inodeBlock] := by
    rw [hentered.block_eq]
    exact List.mem_cons_self
  refine limited_readTarget hentered List.mem_cons_self fun block hinode => ?_
  rw [hinode]
  split
  · simp only [Prog.bind_assoc]
    exact ((plain_returnEmptyBlock.bind fun _ => hnext false).mono (by omega)).limited
  rename_i hedit
  have hseen := hentered.editableDir (by simpa using hedit)
  simp only [Prog.bind_assoc]
  refine ((limited_checkExistance List.mem_cons_self name _ _).seq (n := 11) ?_).mono
    (by omega)
  refine triple_checkExistance pin List.mem_cons_self _ _ (triple_known ?_)
  cases hchild : childOf pin.image pin.block name with
  | some child =>
      obtain ⟨k, j, _, _, _, hscan⟩ := scan_of_childOf_some pin.wf pin.reach
        hseen.dir hchild {} (some stack.parentEntries)
      rw [hscan]
      simp only [foundAt, if_true, Prog.bind_assoc]
      exact ((plain_returnEmptyBlock.bind fun _ => hnext false).mono (by omega)).limited
  | none =>
      have hpassed := scan_of_childOf_none pin.wf pin.reach hseen.dir hchild
        {} (some stack.parentEntries)
      generalize scan pin.image (inodeAt pin.image pin.block) {} name
        (some stack.parentEntries) = found at hpassed
      obtain ⟨info, output⟩ := found
      have hslotSeen := hpassed.slot (Or.inl rfl)
      have hvalid : info.valid = false := hpassed.valid
      simp only [hvalid, Bool.false_eq_true, if_false, Prog.bind_assoc]
      refine ((plain_growDirectory _ _ x).limited.seq (n := 6) ?_).mono (by omega)
      refine triple_growDirectory (n := x) rfl rfl rfl hpins ?_ ?_ ?_
      · exact triple_known ((hnext false).mono (by omega)).limited
      · intro y _ _
        refine triple_known ?_
        simp only [Prog.bind_assoc]
        refine Limited.step (protected_new (by simp)) ?_
        refine triple_write (b := x) (by simp) (fun _ _ _ => by simp [Local.start]) rfl
          (triple_known ?_)
        refine Limited.step (protected_new (by simp)) ?_
        refine triple_write (b := y) (by simp) (fun s hinv howns w hw => ?_) rfl
          (triple_known ?_)
        · have hnodup := hinv.conserved.hand_nodup i
          have hhand : s.hands i = [y, x] := howns.hand
          have hyx : y ≠ x := by simpa [hhand] using hnodup
          have hw : w ∈ [(x, _)] := hw
          rw [List.mem_singleton.mp hw]
          exact hyx.symm
        exact Limited.last (protected_write List.mem_cons_self hexcl
          (.inl hentered.block_eq.symm)) fun _ => hnext true
      · intro hsome
        obtain ⟨hslot, _⟩ := hslotSeen.resolve_left hsome
        refine triple_known ?_
        simp only [Prog.bind_assoc]
        refine Limited.step (protected_new List.mem_cons_self) ?_
        refine triple_write (b := x) List.mem_cons_self
          (fun _ _ _ => by simp [Local.start]) rfl (triple_known ?_)
        exact Limited.last (protected_write List.mem_cons_self hexcl (.inr hslot))
          fun _ => (hnext true).mono (by omega)

theorem limited_handleCreate
    (stack : Stack) (req : List Byte) (fields : RequestFields) (n : ℕ)
    (hn : ∀ names, pathParser fields.pathname = some names → names.length ≤ n) :
    Limited initial i (Local.start i (.create req fields) [])
      (handleCreate stack req fields >>= fun _ => call .close) (callBound n) := by
  have hclose : ∀ k, Plain (k + 1) (call .close) := fun k =>
    Plain.call (fun _ _ => trivial) fun _ => .ret _
  unfold handleCreate
  cases hword : extractWord req with
  | none => exact (hclose _).limited
  | some word =>
      obtain ⟨type, rest⟩ := word
      simp only
      split
      · exact (hclose _).limited
      cases hpath : pathParser fields.pathname with
      | none => exact (hclose _).limited
      | some pathNames =>
          simp only [Prog.bind_assoc]
          have hle := hn pathNames hpath
          have hdrop : pathNames.dropLast.length = pathNames.length - 1 :=
            List.length_dropLast
          refine Limited.mono (m := 127 * pathNames.dropLast.length + 2 + 138 + 5) ?_
            (by unfold callBound; omega)
          refine Limited.step (fun _ _ _ => trivial) ?_
          refine triple_lockFree rfl fun queue => triple_known ?_
          refine Limited.step (fun _ _ _ => trivial) ?_
          refine triple_freeEmpty queue rfl (triple_known ?_)
          split
          · exact Plain.limited (Plain.call (fun _ _ => trivial) fun _ => hclose _)
          rename_i hspace
          obtain ⟨x, queue', rfl⟩ : ∃ x queue', queue = x :: queue' := by
            cases queue with
            | nil => simp at hspace
            | cons x queue' => exact ⟨x, queue', rfl⟩
          simp only [Prog.bind_assoc]
          refine Limited.step (fun _ _ _ => trivial) ?_
          refine triple_freeFront queue' rfl (triple_known ?_)
          refine Limited.step (fun _ _ _ => trivial) ?_
          refine triple_freePop (b := x) queue' rfl (triple_known ?_)
          refine Limited.step (fun _ _ _ => trivial) ?_
          refine triple_unlockFree queue' rfl (triple_known ?_)
          have hbase := Local.start_unlocked (i := i) (.create req fields) [x]
          change Limited initial i (Local.start i (.create req fields) [x]) _
            (127 * pathNames.dropLast.length + 2 + 138)
          refine limited_traverse hbase ?_ ?_
          · intro bad hbad
            simp only [hbad, if_true, Prog.bind_assoc]
            exact Plain.call (fun _ _ => trivial) fun _ =>
              (plain_returnEmptyBlock.bind fun _ => hclose 0).mono (by omega)
          · intro good l' hgood htraversed
            simp only [hgood, Bool.true_eq_false, if_false, Prog.bind_assoc]
            refine limited_createLocked htraversed fun created => ?_
            refine Plain.call (fun _ _ => trivial) fun _ => ?_
            cases created with
            | false => exact hclose _
            | true => exact Plain.call (fun _ _ => trivial) fun _ => hclose _

theorem plain_pushBlocks (blocks : List BlockNo) :
    Plain blocks.length (pushBlocks blocks) := by
  induction blocks with
  | nil => exact .ret _
  | cons b blocks ih =>
      unfold pushBlocks
      rw [List.length_cons]
      exact Plain.call (fun _ _ => trivial) fun _ => ih

/-- The scope of the lock of the child, with what comes after it. -/
theorem limited_deleteChild
    {request : Request} {user name : Name} {pin child : Pin} {excl : List BlockNo}
    {target info : TargetInode} {k : ℕ} {j : Fin fsDirentries}
    {next : Option (FsInode × BlockNo) → FsProg β}
    (hexcl : pin.block ∈ excl) (htarget : target.inodeBlock = pin.block)
    (hposition : Position info pin k j name) (hchild : child.block = info.inodeBlock)
    (hnext : ∀ deleted : Option (FsInode × BlockNo),
      (∀ fileInode c, deleted = some (fileInode, c) →
        fileInode.dataBlocks.length ≤ 124) → Plain n (next deleted)) :
    Limited initial i
      { Local.start i request [] with excl := excl, pins := [child, pin] }
      (deleteChild user target info (inodeAt pin.image pin.block)
        (asEntries (pin.image ((inodeAt pin.image pin.block).block k))) >>= next)
      (n + 5) := by
  obtain ⟨hk, _, _, hkey, hindex⟩ := hposition
  have hpin : pin ∈ [child, pin] := by simp
  have hread : info.inodeBlock = child.block ∨
      info.inodeBlock ∈ dataBlocks child.image child.block := .inl hchild.symm
  simp only [deleteChild, Prog.bind_assoc]
  refine Limited.step (protected_read List.mem_cons_self hread false) ?_
  refine triple_read child List.mem_cons_self hread (triple_known ?_)
  have hinode : asInode (child.image info.inodeBlock) =
      inodeAt child.image child.block := by
    rw [inodeAt, hchild]
  rw [hinode, hkey, hindex]
  split
  · exact ((hnext none (by simp)).mono (by omega)).limited
  have hsize : (inodeAt child.image child.block).dataBlocks.length ≤ 124 := by
    have hle := child.wf.size_le child.block child.reach
    have hlength := length_dataBlocks child.image child.block
    unfold dataBlocks at hlength
    rw [hlength]
    exact hle
  have hdone : ∀ c, Plain n (next (some (inodeAt child.image child.block, c))) := by
    intro c
    refine hnext _ fun fileInode c' heq => ?_
    simp only [Option.some.injEq, Prod.mk.injEq] at heq
    rw [← heq.1]
    exact hsize
  split
  · simp only [Prog.bind_assoc]
    refine Limited.last (protected_write hpin hexcl (.inl htarget)) fun _ => ?_
    exact Plain.call (fun _ _ => trivial) fun _ => Plain.call (fun _ _ => trivial)
      fun _ => Plain.call (fun _ _ => trivial) fun _ => hdone _
  · simp only [Prog.bind_assoc]
    exact Limited.last
      (protected_write hpin hexcl (.inr (block_mem_dataBlocks hk)))
      fun _ => (hdone _).mono (by omega)

/-- The scope of the lock of the directory, with what comes after it. -/
theorem limited_deleteLocked
    {request : Request} {stack : Stack} {user name : Name} {target : TargetInode}
    {path : Path} {l' : Local} {next : Option (FsInode × BlockNo) → FsProg β}
    (htraversed : Traversed (Local.start i request []) user path target l')
    (hnext : ∀ deleted : Option (FsInode × BlockNo),
      (∀ fileInode c, deleted = some (fileInode, c) →
        fileInode.dataBlocks.length ≤ 124) → Plain n (next deleted)) :
    Limited initial i l'
      (call (.lock target.inodeBlock) >>= fun _ =>
        deleteLocked stack user name target >>= next) (n + 134) := by
  have hbase := Local.start_unlocked (i := i) request []
  simp only [deleteLocked, Prog.bind_assoc]
  refine Limited.mono (m := n + 131 + 1 + 2) ?_ (by omega)
  refine limited_enter hbase htraversed fun pin hentered => ?_
  have hexcl : ∀ b, pin.block ∈ [b, target.inodeBlock] := by
    intro b
    rw [hentered.block_eq]
    exact List.mem_cons_of_mem b List.mem_cons_self
  refine limited_readTarget hentered List.mem_cons_self fun block hinode => ?_
  rw [hinode]
  split
  · exact ((hnext none (by simp)).mono (by omega)).limited
  rename_i hedit
  have hseen := hentered.editableDir (by simpa using hedit)
  simp only [Prog.bind_assoc]
  refine ((limited_checkExistance List.mem_cons_self name _ _).seq (n := n + 7) ?_).mono
    (by omega)
  refine triple_checkExistance pin List.mem_cons_self _ _ (triple_known ?_)
  cases hchild : childOf pin.image pin.block name with
  | none =>
      have hpassed := scan_of_childOf_none pin.wf pin.reach hseen.dir hchild
        {} (some stack.parentEntries)
      generalize scan pin.image (inodeAt pin.image pin.block) {} name
        (some stack.parentEntries) = found at hpassed
      obtain ⟨info, output⟩ := found
      have hvalid : info.valid = false := hpassed.valid
      simp only [hvalid, if_true]
      exact ((hnext none (by simp)).mono (by omega)).limited
  | some c =>
      obtain ⟨k, j, hk, hmatch, hblock, hscan⟩ := scan_of_childOf_some pin.wf
        pin.reach hseen.dir hchild {} (some stack.parentEntries)
      rw [hscan]
      have hposition : Position (foundAt pin.image
          (inodeAt pin.image pin.block) {} k j) pin k j name := by
        refine ⟨hk, hmatch, rfl, ?_, rfl⟩
        have hle := pin.wf.size_le pin.block pin.reach
        change _ ≤ 124 at hle
        simp only [foundAt, UInt32.toNat_ofNat']
        omega
      have hvalid : (foundAt pin.image (inodeAt pin.image pin.block) {} k
          j).valid = true := rfl
      have hinodeBlock : (foundAt pin.image (inodeAt pin.image pin.block) {} k
          j).inodeBlock = c := hblock
      generalize foundAt pin.image (inodeAt pin.image pin.block) {} k j = info
        at hposition hvalid hinodeBlock
      simp only [hvalid, Bool.true_eq_false, if_false, Prog.bind_assoc,
        Option.map_some, Option.getD_some]
      have hlock : LockTarget { Local.start i request [] with
          excl := [target.inodeBlock], pins := [pin] }
          (pin.path ++ [name]) info.inodeBlock := by
        rw [hinodeBlock]
        refine .child List.mem_cons_self hchild fun x hx => ?_
        rw [hentered.block_eq]
        simpa [Local.Locks, Local.start] using hx
      refine Limited.step (fun _ _ _ => trivial) ?_
      refine triple_lock hlock rfl fun child htaken => triple_known ?_
      refine limited_deleteChild (n := n + 1) (hexcl _) hentered.block_eq.symm hposition
        htaken.block_eq fun deleted hdeleted => ?_
      exact Plain.call (fun _ _ => trivial) fun _ => hnext deleted hdeleted

theorem limited_handleDelete
    (stack : Stack) (fields : RequestFields) (n : ℕ)
    (hn : ∀ names, pathParser fields.pathname = some names → names.length ≤ n) :
    Limited initial i (Local.start i (.delete fields) [])
      (handleDelete stack fields >>= fun _ => call .close) (callBound n) := by
  have hbase := Local.start_unlocked (i := i) (.delete fields) []
  have hclose : ∀ k, Plain (k + 1) (call .close) := fun k =>
    Plain.call (fun _ _ => trivial) fun _ => .ret _
  unfold handleDelete
  cases hpath : pathParser fields.pathname with
  | none => exact (hclose _).limited
  | some pathNames =>
      simp only [Prog.bind_assoc]
      have hle := hn pathNames hpath
      have hdrop : pathNames.dropLast.length = pathNames.length - 1 :=
        List.length_dropLast
      refine (limited_traverse (n := 130 + 134) hbase ?_ ?_).mono
        (by unfold callBound; omega)
      · intro bad hbad
        simp only [hbad, if_true]
        exact Plain.call (fun _ _ => trivial) fun _ => hclose _
      · intro good l' hgood htraversed
        simp only [hgood, Bool.true_eq_false, if_false, Prog.bind_assoc]
        refine limited_deleteLocked htraversed fun deleted hdeleted => ?_
        refine Plain.call (fun _ _ => trivial) fun _ => ?_
        cases deleted with
        | none => exact hclose _
        | some freed =>
            obtain ⟨fileInode, c⟩ := freed
            have hlength := hdeleted fileInode c rfl
            simp only [Prog.bind_assoc]
            refine Plain.call (fun _ _ => trivial) fun _ => ?_
            refine ((plain_pushBlocks _).bind (n := 4) fun _ => ?_).mono (by omega)
            exact Plain.call (fun _ _ => trivial) fun _ => Plain.call (fun _ _ => trivial)
              fun _ => Plain.call (fun _ _ => trivial) fun _ => hclose _

/-! ## How long a path can be -/

theorem sum_getlines (tmp : Name) (stream : List Byte) :
    ((getlines tmp stream).map fun name => name.length + 1).sum ≤
      tmp.length + stream.length + 1 := by
  induction stream generalizing tmp with
  | nil =>
      simp only [getlines]
      split <;> simp
  | cons c rest ih =>
      simp only [getlines]
      split
      · have hrest := ih []
        simp only [List.length_nil] at hrest
        simp only [List.map_cons, List.sum_cons, List.length_cons]
        omega
      · have hrest := ih (tmp ++ [c])
        simp only [List.length_append, List.length_cons, List.length_nil] at hrest ⊢
        omega

/-- Every name of a path takes a slash and at least one character. -/
theorem length_pathParser
    {pathname : Name} {path : Path} (h : pathParser pathname = some path) :
    2 * path.length ≤ pathname.length := by
  unfold pathParser at h
  split at h
  · cases h
  rename_i hends
  simp only [not_or, ne_eq, not_not] at hends
  obtain ⟨rfl, hall⟩ := pathParserLoop_eq_some h
  cases pathname with
  | nil => simp at hends
  | cons c rest =>
      have hc : c = slash := by simpa using hends.1
      have hstrings : (getlines [] (c :: rest)).tail = getlines [] rest := by
        simp [getlines, hc]
      rw [hstrings] at hall ⊢
      have hsum := sum_getlines [] rest
      have htwo : ((getlines [] rest).map fun name => name.length + 1).length * 2 ≤
          ((getlines [] rest).map fun name => name.length + 1).sum := by
        refine List.card_nsmul_le_sum _ 2 fun n hn => ?_
        obtain ⟨name, hname, rfl⟩ := List.mem_map.mp hn
        have hpos := List.length_pos_of_ne_nil (hall name hname).2
        omega
      simp only [List.length_map, List.length_nil] at hsum htwo
      rw [List.length_cons]
      omega

/-- A path has at most 64 names. -/
theorem limited_serve (connection : Connection) :
    Limited initial i (Local.start i connection.request [])
      (serve connection.stack connection.request) (callBound 64) := by
  have hn : ∀ (fields : RequestFields) names,
      pathParser fields.pathname = some names → names.length ≤ 64 := by
    intro fields names hnames
    have hle := length_pathParser hnames
    have hmax := fields.pathname_length
    have hvalue : fsMaxPathName = 128 := rfl
    omega
  obtain ⟨request, stack⟩ := connection
  cases request with
  | readblock req fields => exact limited_handleReadblock req fields 64 (hn fields)
  | writeblock req fields data =>
      exact limited_handleWriteblock req fields data 64 (hn fields)
  | create req fields => exact limited_handleCreate stack req fields 64 (hn fields)
  | delete fields => exact limited_handleDelete stack fields 64 (hn fields)

theorem owns_arrive
    {connection : Connection} (hidle : Owns i {} s) :
    Owns i (Local.start i connection.request []) (Server.arrive i connection s) := by
  have hevents : eventsOf i (s.events ++ [.start i]) = [.start i] := by
    have happend := eventsOf_append_self s.events (.start i)
    simp only [Event.thread, hidle.events, List.nil_append] at happend
    exact happend
  exact { hidle with
    request := Function.update_self _ _ _
    events := hevents }

theorem budgeted (initial : Disk) :
    (discipline initial).Budgeted Protected (callBound 64) := by
  intro i connection s _ hidle hinv
  exact limited_serve connection _ hinv (owns_arrive hidle)

/-! ## Accesses do not conflict -/

/-- The call accesses block `b` of the disk. -/
def FsCall.Accesses (b : BlockNo) : FsCall → Prop
  | .diskReadblock x _ | .diskWriteblock x _ _ => x = b
  | _ => False

/-- The call accesses the queue of free blocks. -/
def FsCall.UsesQueue : FsCall → Prop
  | .freeEmpty | .freeFront | .freePop | .freePush _ => True
  | _ => False

/-- Two calls are about the same data and at least one of them changes it. -/
def Conflict (op op' : FsCall) : Prop :=
  (∃ b, op.Accesses b ∧ op'.Accesses b ∧ (op.Writes ∨ op'.Writes)) ∨
    (op.UsesQueue ∧ op'.UsesQueue)

theorem PartOf.unique
    {disk : Disk} {p q : BlockNo} (hwf : WellFormed disk) (hp : PartOf disk p b)
    (hq : PartOf disk q b) : p = q := by
  obtain ⟨hreach, hp⟩ := hp
  obtain ⟨hreach', hq⟩ := hq
  rcases hp with rfl | hp
  · rcases hq with hq | hq
    · exact hq
    · exact absurd hq (hwf.inode_notMem_dataBlocks hreach hreach')
  · rcases hq with rfl | hq
    · exact absurd hp (hwf.inode_notMem_dataBlocks hreach' hreach)
    · by_contra hne
      exact hwf.refs_disjoint p q hreach hreach' hne
        (dataBlocks_subset_refs disk p hp) (dataBlocks_subset_refs disk q hq)

theorem PartOf.used
    {disk : Disk} {p : BlockNo} (hpart : PartOf disk p b) (hzero : b ≠ 0) :
    Used disk b := by
  obtain ⟨hreach, rfl | hb⟩ := hpart
  · rcases LabelledWalk.Visits.root_or_child hreach with rfl | ⟨parent, name, hparent, hchild⟩
    · exact absurd rfl hzero
    · exact ⟨parent, hparent, childOf_mem_refs hchild⟩
  · exact ⟨p, hreach, dataBlocks_subset_refs disk p hb⟩

/-- A handler has in hand a block it accesses, or a lock over it. -/
theorem protected_access
    {op : FsCall} (hop : op.Accesses b) (hprotected : Protected i op s) :
    (b ∈ s.hands i ∨ ∃ p, Locks i p s ∧ PartOf s.disk p b) ∧
      (op.Writes → b ∈ s.hands i ∨
        ∃ p, (s.diskLocks p).writer = some i ∧ PartOf s.disk p b) := by
  cases op with
  | diskReadblock x mark =>
      obtain rfl : x = b := hop
      exact ⟨.inr hprotected, False.elim⟩
  | diskWriteblock x block note =>
      obtain rfl : x = b := hop
      cases note with
      | none => exact ⟨.inl hprotected, fun _ => .inl hprotected⟩
      | some note =>
          obtain ⟨p, hwriter, hpart⟩ := hprotected
          exact ⟨.inr ⟨p, .inr hwriter, hpart⟩, fun _ => .inr ⟨p, hwriter, hpart⟩⟩
  | _ => exact hop.elim

theorem not_writes_of_access
    {j : ℕ} {op op' : FsCall} (hinv : Inv initial s) (hij : i ≠ j)
    (hop : op.Accesses b) (hop' : op'.Accesses b) (hprotected : Protected i op s)
    (hprotected' : Protected j op' s) : ¬op.Writes := by
  intro hwrites
  have hunused : ∀ k p, b ∈ s.hands k → ¬PartOf s.disk p b := by
    intro k p hhand hpart
    exact hinv.conserved.hand_unused k b hhand
      (hpart.used (hinv.conserved.hand_range k b hhand).1)
  have hmine := (protected_access hop hprotected).2 hwrites
  have hyours := (protected_access hop' hprotected').1
  rcases hmine with hhand | ⟨p, hwriter, hpart⟩
  · rcases hyours with hhand' | ⟨q, _, hpart'⟩
    · exact hij (hinv.conserved.hand_unique i j b hhand hhand')
    · exact hunused i q hhand hpart'
  · rcases hyours with hhand' | ⟨q, hlock, hpart'⟩
    · exact hunused j p hhand' hpart
    · have hpq : p = q := hpart.unique hinv.wf hpart'
      subst hpq
      rcases hlock with hreader | hwriter'
      · rw [hinv.exclusive p i hwriter] at hreader
        cases hreader
      · rw [hwriter, Option.some.injEq] at hwriter'
        exact hij hwriter'

theorem freeBlockLock_of_usesQueue
    {op : FsCall} (hop : op.UsesQueue) (hguard : Guard i op s) :
    s.freeBlockLock = some i := by
  cases op with
  | freeEmpty => exact hguard
  | freeFront => exact hguard.1
  | freePop => exact hguard.1
  | freePush x => exact hguard.1
  | _ => exact hop.elim

section Run

variable {disk : Disk} {boot : Server} {c : Config fsInterface Server}
variable (hboot : Started disk boot)
variable (hreach : machine.Reachable boot c)
include hboot hreach

theorem protected_of_reachable
    {op : FsCall} {next : fsInterface.Answer op → FsProg Unit}
    (hthread : c.thread i = some (.call op next)) : Protected i op c.shared :=
  (budgeted disk).guard (verified disk) hboot.inv hboot.idle hreach hthread

theorem not_conflict_of_reachable
    {j : ℕ} {op op' : FsCall} {next : fsInterface.Answer op → FsProg Unit}
    {next' : fsInterface.Answer op' → FsProg Unit} (hij : i ≠ j)
    (hthread : c.thread i = some (.call op next))
    (hthread' : c.thread j = some (.call op' next')) : ¬Conflict op op' := by
  have hinv := run_inv hboot hreach
  have hprotected := protected_of_reachable hboot hreach hthread
  have hprotected' := protected_of_reachable hboot hreach hthread'
  rintro (⟨b, hop, hop', hwrites | hwrites⟩ | ⟨hop, hop'⟩)
  · exact not_writes_of_access hinv hij hop hop' hprotected hprotected' hwrites
  · exact not_writes_of_access hinv hij.symm hop' hop hprotected' hprotected hwrites
  · have hpool := run_invariant hboot hreach
    have hlock := freeBlockLock_of_usesQueue hop (hpool.guard hthread)
    have hlock' := freeBlockLock_of_usesQueue hop' (hpool.guard hthread')
    rw [hlock, Option.some.injEq] at hlock'
    exact hij hlock'

end Run

/-- In every interleaving each access to the disk is made under the lock that
covers the block, or to a block in hand, and no two handlers are about to make
accesses which conflict. -/
theorem raceFree (disk : Disk) (hwf : WellFormed disk) :
    ∃ boot, initServer disk = some boot ∧
      ∀ c, machine.Reachable boot c →
        ∀ i op next, c.thread i = some (.call op next) → Protected i op c.shared ∧
          ∀ j op' next', j ≠ i → c.thread j = some (.call op' next') →
            ¬Conflict op op' := by
  obtain ⟨boot, hinit, hboot⟩ := exists_started hwf
  refine ⟨boot, hinit, fun c hreach i op next hthread => ?_⟩
  refine ⟨protected_of_reachable hboot hreach hthread, fun j op' next' hji hthread' => ?_⟩
  exact not_conflict_of_reachable hboot hreach hji.symm hthread hthread'

/-- Thread 0 is about to commit, under the lock that thread 1 waits for. -/
theorem raceFree_freshDisk :
    ∃ rest c block note next op next', initServer freshDisk = some (freshServer rest) ∧
      playFresh rest (creating 14) = some c ∧
      c.thread 0 = some (.call (.diskWriteblock 0 block (some note)) next) ∧
      c.thread 1 = some (.call op next') ∧
      Protected 0 (.diskWriteblock 0 block (some note)) c.shared ∧
      ¬Conflict (.diskWriteblock 0 block (some note)) op := by
  obtain ⟨rest, hinit, hraces⟩ :=
    exists_freshServer (raceFree freshDisk wellFormed_freshDisk)
  obtain ⟨c, block, note, next, op, next', hplay, hwrites, hwaits⟩ :
      ∃ c block note next op next', playFresh rest (creating 14) = some c ∧
        c.thread 0 = some (.call (.diskWriteblock 0 block (some note)) next) ∧
        c.thread 1 = some (.call op next') := ⟨_, _, _, _, _, _, rfl, rfl, rfl⟩
  obtain ⟨hprotected, hconflict⟩ :=
    hraces c (reachable_of_playFresh hplay) 0 _ next hwrites
  exact ⟨rest, c, block, note, next, op, next', hinit, hplay, hwrites, hwaits, hprotected,
    hconflict 1 op next' (by decide) hwaits⟩

end FileServer
end Eecs482
