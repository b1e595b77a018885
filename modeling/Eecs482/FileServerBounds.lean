import Eecs482.FileServerAccesses
import Eecs482.FileServerExits
import Eecs482.FileServerParser

/-!
# Accesses stay in bounds

A handler trusts what it reads from the disk.  The sizes it may rely on are
those of inodes under a lock it holds, since what is locked is in the tree, and
the tree is well-formed.  The locks of a handler can be read off its calls, and
with them every access is in bounds.
-/

namespace Eecs482
namespace FileServer

open Discipline

variable {initial : Disk} {i j : ℕ} {s t : Server} {b : BlockNo}

/-! ## The locks of a thread -/

/-- Thread `i` holds the locks in the list, and none of a block in its hands. -/
structure HoldsLocks (i : ℕ) (held : List BlockNo) (s : Server) : Prop where
  count_le : ∀ b, held.count b ≤ s.held i (.shared b) + s.held i (.excl b)
  notMem_hands : ∀ b ∈ held, b ∉ s.hands i

/-- The locks after a call.  A write ends the reading, and what is held after
it does not matter. -/
def heldAfter (held : List BlockNo) : FsCall → List BlockNo
  | .lockShared b | .lock b => b :: held
  | .unlockShared b | .unlock b => held.erase b
  | .diskWriteblock _ _ _ => []
  | _ => held

theorem holdsLocks_nil : HoldsLocks i [] s :=
  ⟨fun _ => Nat.zero_le _, fun _ hb => nomatch hb⟩

theorem locks_of_held_pos (hpos : 0 < s.held i (.shared b) + s.held i (.excl b)) :
    Locks i b s := by
  unfold Server.held at hpos
  by_cases hwriter : (s.diskLocks b).writer = some i
  · exact Or.inr hwriter
  · simp only [if_neg hwriter, Nat.add_zero] at hpos
    exact Or.inl (List.count_pos_iff.mp hpos)

/-- What is held is in the tree. -/
theorem HoldsLocks.reach
    {held : List BlockNo} (hheld : HoldsLocks i held s) (hinv : Inv initial s)
    (hb : b ∈ held) : Reach s.disk b := by
  have hcount : 0 < held.count b := List.count_pos_iff.mpr hb
  have hlocks : Locks i b s :=
    locks_of_held_pos (hcount.trans_le (hheld.count_le b))
  rcases hinv.locked i b hlocks with hreach | hhand
  · exact hreach
  · exact absurd hhand (hheld.notMem_hands b hb)

theorem MayWait.reach (hwait : MayWait i b s) : Reach s.disk b := by
  rcases hwait.2 with ⟨rfl, _⟩ | ⟨parent, name, hparent, hchild, _⟩
  · exact LabelledWalk.visits_root _ _
  · exact LabelledWalk.Visits.child hparent hchild

/-- The list follows the locks a call takes and gives back. -/
theorem count_heldAfter_le (held : List BlockNo) (op : FsCall) (c : BlockNo) :
    (heldAfter held op).count c ≤
      held.count c + (op.takes (.shared c)).toNat + (op.takes (.excl c)).toNat -
        (op.gives (.shared c)).toNat - (op.gives (.excl c)).toNat := by
  cases op with
  | lockShared b | lock b =>
      by_cases hc : c = b
      · subst hc
        simp [heldAfter, FsCall.takes, FsCall.gives]
      · simp [heldAfter, FsCall.takes, FsCall.gives, hc,
          List.count_cons_of_ne (Ne.symm hc)]
  | unlockShared b | unlock b =>
      by_cases hc : c = b
      · subst hc
        simp [heldAfter, FsCall.takes, FsCall.gives]
      · simp [heldAfter, FsCall.takes, FsCall.gives, hc, List.count_erase_of_ne hc]
  | diskWriteblock b block mark => exact Nat.zero_le _
  | _ => exact Nat.le_refl _

/-- Under its guard a call adds only blocks of the tree to the list. -/
theorem HoldsLocks.reach_after
    {held : List BlockNo} {op : FsCall} (hheld : HoldsLocks i held s)
    (hinv : Inv initial s) (hguard : Guard i op s) (hb : b ∈ heldAfter held op) :
    Reach s.disk b := by
  cases op with
  | lockShared c | lock c =>
      rcases List.mem_cons.mp hb with rfl | hb
      · exact MayWait.reach hguard
      · exact hheld.reach hinv hb
  | unlockShared c | unlock c => exact hheld.reach hinv (List.mem_of_mem_erase hb)
  | diskWriteblock c block mark => cases hb
  | _ => exact hheld.reach hinv hb

/-- Before it writes, a thread takes blocks from the queue only. -/
theorem mem_hands_of_exec
    {held : List BlockNo} {op : FsCall} {answer : fsInterface.Answer op}
    (hexec : Server.exec i op s = some (answer, t)) (hb : b ∈ heldAfter held op)
    {c : BlockNo} (hc : c ∈ t.hands i) : c ∈ s.hands i ∨ c ∈ s.freeBlocks := by
  cases op with
  | lockShared x | unlockShared x | lock x | unlock x | lockFree | unlockFree
  | freeFront =>
      simp only [Server.exec] at hexec
      split at hexec
      all_goals cases hexec
      exact Or.inl hc
  | freePop =>
      simp only [Server.exec] at hexec
      split at hexec
      · cases hexec
      · rename_i front rest hqueue
        cases hexec
        simp only [Server.setHand, Function.update_self] at hc
        rcases List.mem_cons.mp hc with rfl | hc
        · rw [hqueue]
          exact Or.inr List.mem_cons_self
        · exact Or.inl hc
  | freePush x =>
      cases hexec
      simp only [Server.setHand, Function.update_self] at hc
      exact Or.inl (List.mem_of_mem_erase hc)
  | freeEmpty | sendResponse message | close =>
      cases hexec
      exact Or.inl hc
  | diskReadblock x mark =>
      cases hexec
      cases mark with
      | false => exact Or.inl hc
      | true =>
          simp only [if_true, Server.commit_hands] at hc
          exact Or.inl hc
  | diskWriteblock x block mark => cases hb

/-- What a thread holds follows from its calls. -/
theorem HoldsLocks.exec
    {held : List BlockNo} {op : FsCall} {answer : fsInterface.Answer op}
    (hheld : HoldsLocks i held s) (hinv : Inv initial s) (hguard : Guard i op s)
    (hexec : Server.exec i op s = some (answer, t)) :
    HoldsLocks i (heldAfter held op) t := by
  constructor
  · intro c
    have hshared := Server.exec_held (.shared c) op s answer t hexec
    have hexcl := Server.exec_held (.excl c) op s answer t hexec
    have hbefore := hheld.count_le c
    have hafter := count_heldAfter_le held op c
    omega
  · intro c hc hmem
    have hreach := hheld.reach_after hinv hguard hc
    rcases mem_hands_of_exec hexec hc hmem with hhand | hfree
    · exact hinv.notMem_hands hreach (Or.inl rfl) i hhand
    · have hzero := (hinv.conserved.free_range c hfree).1
      have hunused := hinv.conserved.free_unused c hfree
      exact hreach.zero_or_used.elim hzero hunused

/-! ### The calls of the others -/

theorem Server.held_setLock_of_same
    {mutex : SharedMutex} (lock : FsLock)
    (hreaders : mutex.readers.count j = (s.diskLocks b).readers.count j)
    (hwriter : mutex.writer = some j ↔ (s.diskLocks b).writer = some j) :
    (s.setLock b mutex).held j lock = s.held j lock := by
  rw [held_setLock]
  by_cases hshared : lock = .shared b
  · rw [if_pos hshared, hreaders, hshared]
    rfl
  · by_cases hexcl : lock = .excl b
    · simp only [hexcl, reduceCtorEq, if_false, if_true, hwriter, held]
    · rw [if_neg hshared, if_neg hexcl]

theorem HoldsLocks.frame
    {held : List BlockNo} (hheld : HoldsLocks j held s)
    (hlocks : ∀ lock, t.held j lock = s.held j lock) (hhands : t.hands j = s.hands j) :
    HoldsLocks j held t := by
  constructor
  · intro b
    rw [hlocks, hlocks]
    exact hheld.count_le b
  · rw [hhands]
    exact hheld.notMem_hands

/-- A call changes neither the inode locks nor the hands of another thread. -/
theorem HoldsLocks.exec_of_ne
    {held : List BlockNo} {op : FsCall} {answer : fsInterface.Answer op}
    (hheld : HoldsLocks j held s) (hj : j ≠ i)
    (hexec : Server.exec i op s = some (answer, t)) : HoldsLocks j held t := by
  cases op with
  | lockShared b =>
      simp only [Server.exec] at hexec
      split at hexec
      · cases hexec
        refine hheld.frame (fun lock => Server.held_setLock_of_same lock ?_ ?_) rfl
        · exact List.count_cons_of_ne hj.symm
        · exact Iff.rfl
      · cases hexec
  | unlockShared b =>
      simp only [Server.exec] at hexec
      split at hexec
      · cases hexec
        refine hheld.frame (fun lock => Server.held_setLock_of_same lock ?_ ?_) rfl
        · exact List.count_erase_of_ne hj
        · exact Iff.rfl
      · cases hexec
  | lock b | unlock b =>
      simp only [Server.exec] at hexec
      split at hexec
      · rename_i hmutex
        cases hexec
        refine hheld.frame (fun lock => Server.held_setLock_of_same lock rfl ?_) rfl
        simp [hmutex, hj.symm]
      · cases hexec
  | lockFree | unlockFree =>
      simp only [Server.exec] at hexec
      split at hexec
      · cases hexec
        exact ⟨hheld.count_le, hheld.notMem_hands⟩
      · cases hexec
  | freeFront =>
      simp only [Server.exec] at hexec
      split at hexec
      all_goals cases hexec
      exact hheld
  | freePop =>
      simp only [Server.exec] at hexec
      split at hexec
      all_goals cases hexec
      exact hheld.frame (fun _ => rfl) (Function.update_of_ne hj _ _)
  | freePush b =>
      cases hexec
      exact hheld.frame (fun _ => rfl) (Function.update_of_ne hj _ _)
  | freeEmpty | sendResponse message | close =>
      cases hexec
      exact hheld.frame (fun _ => rfl) rfl
  | diskReadblock b mark =>
      cases hexec
      cases mark with
      | false => exact hheld
      | true =>
          exact hheld.frame (Server.held_of_same (Server.commit_diskLocks s i _)
            (Server.commit_freeBlockLock s i _)) (congrFun (Server.commit_hands s i _) j)
  | diskWriteblock b block mark =>
      cases hexec
      cases mark with
      | none => exact hheld.frame (fun _ => rfl) rfl
      | some note =>
          refine hheld.frame (Server.held_of_same (Server.commit_diskLocks _ i none)
            (Server.commit_freeBlockLock _ i none)) ?_
          rw [Server.commit_hands]
          exact Function.update_of_ne hj _ _

/-! ## What a handler may rely on -/

/-- The locks of a handler as a ghost: an inode read under its lock has a size
that is in bounds. -/
def locksGhost : Ghost machine (List BlockNo) where
  Holds := HoldsLocks
  after := heldAfter
  Answers held op answer :=
    match op, answer with
    | .diskReadblock b _, block =>
        b ∈ held → (asInode block).size.toNat ≤ fsMaxFileBlocks
    | _, _ => True

theorem HoldsLocks.answers
    {held : List BlockNo} {op : FsCall} {answer : fsInterface.Answer op}
    (hheld : HoldsLocks i held s) (hinv : Inv initial s)
    (hexec : Server.exec i op s = some (answer, t)) :
    locksGhost.Answers held op answer := by
  cases op with
  | diskReadblock b mark =>
      cases hexec
      exact fun hb => hinv.wf.size_le b (hheld.reach hinv hb)
  | _ => trivial

theorem locksGhost_tracks {disk : Disk} {boot : Server} (hboot : Started disk boot) :
    locksGhost.Tracks boot [] := by
  constructor
  · intro c i request _ _
    exact ⟨holdsLocks_nil, fun j g _ hg => hg.frame (fun _ => rfl) rfl⟩
  · intro c i op next answer s hreach hthread hexec
    have hpool := run_invariant hboot hreach
    refine ⟨fun held hheld => ⟨?_, ?_⟩, fun j held hj hheld => ?_⟩
    · exact hheld.answers hpool.inv hexec
    · exact hheld.exec hpool.inv (hpool.guard hthread) hexec
    · exact hheld.exec_of_ne hj hexec

/-! ## The handlers -/

namespace Noted

variable {α β : Type} {g : List BlockNo}

/-- With the locks `g` all accesses of the program are in bounds, and what it
returns and then holds satisfies `Q`. -/
def Bounded (Q : α → List BlockNo → Prop) (program : FsProg α) (g : List BlockNo) :
    Prop :=
  locksGhost.Notes Access.InBounds Q program g

section Rules

variable {Q : α → List BlockNo → Prop} {R : β → List BlockNo → Prop}

theorem Bounded.ret {value : α} (hvalue : Q value g) :
    Bounded Q (.ret value) g :=
  hvalue

theorem Bounded.mono
    {Q' : α → List BlockNo → Prop} {program : FsProg α}
    (hprogram : Bounded Q program g)
    (himp : ∀ value g', Q value g' → Q' value g') : Bounded Q' program g :=
  Ghost.Notes.mono hprogram himp

theorem Bounded.bind
    {program : FsProg α} {f : α → FsProg β} (hprogram : Bounded Q program g)
    (hf : ∀ value g', Q value g' → Bounded R (f value) g') :
    Bounded R (program >>= f) g :=
  Ghost.Notes.bind hprogram hf

theorem Bounded.ite
    {c : Prop} [Decidable c] {first second : FsProg α}
    (hfirst : c → Bounded Q first g) (hsecond : ¬c → Bounded Q second g) :
    Bounded Q (if c then first else second) g := by
  split
  · rename_i hc
    exact hfirst hc
  · rename_i hc
    exact hsecond hc

theorem Bounded.call
    {op : FsCall} {f : fsInterface.Answer op → FsProg β}
    (hf : ∀ answer, Bounded R (f answer) (heldAfter g op)) :
    Bounded R (call op >>= f) g :=
  fun answer _ => hf answer

theorem Bounded.note
    {a : Access} {f : Unit → FsProg β} (ha : a.InBounds) (hf : Bounded R (f ()) g) :
    Bounded R (note a >>= f) g :=
  Ghost.Notes.note ha hf

theorem Bounded.noteEntries {f : Unit → FsProg β} (hf : Bounded R (f ()) g) :
    Bounded R (noteEntries >>= f) g := by
  refine Ghost.Notes.noteAll (fun a ha => ?_) hf
  obtain ⟨j, _, rfl⟩ := List.mem_map.mp ha
  exact j.isLt

theorem bounded_plain (program : FileServer.FsProg α) :
    Bounded (fun _ _ => True) program.plain g :=
  Ghost.notes_plain program g

/-- The size of an inode under a lock is in bounds. -/
theorem Bounded.readInode
    {f : FsInode → FsProg β} (hb : b ∈ g)
    (hf : ∀ inode : FsInode, inode.size.toNat ≤ fsMaxFileBlocks → Bounded R (f inode) g) :
    Bounded R (readInode b >>= f) g := by
  intro block hblock
  exact ⟨hblock hb, hf (asInode block) (hblock hb)⟩

end Rules

/-! ### Searches -/

/-- What a search in a directory leaves. -/
structure Searched
    (inode : FsInode) (start : TargetInode) (found : TargetInode × Option Entries) :
    Prop where
  parent : found.1.parentInodeBlock = start.parentInodeBlock
  index_lt : found.1.valid = true → found.1.firstEmptyBlock.toNat < inode.size.toNat

theorem bounded_checkBlocks
    {inode : FsInode} (hsize : inode.size.toNat ≤ fsMaxFileBlocks) (targetName : Name)
    (remaining k : ℕ) (hk : k + remaining = inode.size.toNat) (result : TargetInode)
    (hvalid : result.valid = false) (output : Option Entries) :
    Bounded (fun found g' => g' = g ∧ Searched inode result found)
      (checkBlocks inode targetName remaining k result output) g := by
  induction remaining generalizing k result output with
  | zero =>
      refine ⟨rfl, rfl, fun htrue => ?_⟩
      rw [hvalid] at htrue
      cases htrue
  | succ remaining ih =>
      have hlt : k < inode.size.toNat := by omega
      refine Bounded.note (hlt.trans_le hsize) (Bounded.call fun entries => ?_)
      refine Bounded.noteEntries ?_
      rcases checkEntries_spec (fun _ => entries) targetName hlt
          (List.finRange fsDirentries) result output with
        ⟨j, _, _, heq⟩ | ⟨result', output', _, heq, hpassed⟩
      · simp only [heq]
        refine ⟨rfl, rfl, fun _ => ?_⟩
        have hblocks : k < 124 := hlt.trans_le hsize
        have hword : k < 2 ^ 32 := by omega
        change (UInt32.ofNat k).toNat < inode.size.toNat
        rw [UInt32.toNat_ofNat_of_lt' hword]
        exact hlt
      · simp only [heq]
        refine (ih (k + 1) (by omega) result' (hpassed.valid.trans hvalid)
          output').mono ?_
        rintro found g' ⟨rfl, hfound⟩
        exact ⟨rfl, hfound.parent.trans hpassed.parent, hfound.index_lt⟩

theorem bounded_checkExistance
    {inode : FsInode} (hsize : inode.size.toNat ≤ fsMaxFileBlocks) (result : TargetInode)
    (targetName : Name) (output : Option Entries) :
    Bounded (fun found g' => g' = g ∧ Searched inode result found)
      (checkExistance result inode targetName output) g :=
  (bounded_checkBlocks hsize targetName _ 0 (Nat.zero_add _) { result with valid := false }
    rfl output).mono fun _ _ hfound => ⟨hfound.1, hfound.2.parent, hfound.2.index_lt⟩

/-- Giving back an older lock leaves the latest. -/
theorem mem_erase_cons {c : BlockNo} (hc : c ∈ g) : b ∈ (b :: g).erase c := by
  by_cases hbc : b = c
  · subst hbc
    rw [List.erase_cons_head]
    exact hc
  · exact (List.mem_erase_of_ne hbc).mpr List.mem_cons_self

/-- A handler that goes on with the target still has the lock of its parent,
unless it is the root. -/
def ParentHeld (target : TargetInode) (g : List BlockNo) : Prop :=
  target.inodeBlock ≠ 0 → target.parentInodeBlock ∈ g

theorem bounded_traverseDirLoop
    (username : Name) (names : Path) (result : TargetInode) {inode : FsInode}
    (hsize : inode.size.toNat ≤ fsMaxFileBlocks) {dirBlock : BlockNo}
    (hparent : result.parentInodeBlock = dirBlock) (hheld : dirBlock ∈ g) :
    Bounded ParentHeld (traverseDirLoop username names result inode dirBlock) g := by
  induction names generalizing result inode dirBlock g with
  | nil =>
      intro _
      rw [hparent]
      exact hheld
  | cons name rest ih =>
      refine (bounded_checkExistance hsize result name none).bind ?_
      rintro ⟨found, output⟩ g' ⟨rfl, hfound⟩
      have hparent' : found.parentInodeBlock ∈ g' := by
        rw [hfound.parent, hparent]
        exact hheld
      refine Bounded.ite (fun _ _ => hparent') fun _ => ?_
      refine Bounded.call fun _ => Bounded.call fun _ => ?_
      have hlocked : found.inodeBlock ∈ (found.inodeBlock :: g').erase dirBlock :=
        mem_erase_cons hheld
      refine Bounded.readInode hlocked fun inode hsize => ?_
      exact Bounded.ite (fun _ _ => hlocked) fun _ => ih _ hsize rfl hlocked

theorem bounded_traverseDir (username : Name) (pathNames : Path) :
    Bounded ParentHeld (traverseDir username pathNames) g := by
  refine Bounded.ite (fun _ hroot => absurd rfl hroot) fun _ => ?_
  refine Bounded.call fun _ => Bounded.readInode List.mem_cons_self fun inode hsize => ?_
  exact bounded_traverseDirLoop username pathNames _ hsize rfl List.mem_cons_self

/-! ### Under the lock of the target -/

section Target

variable {R : β → List BlockNo → Prop} {target : TargetInode}

/-- A handler locks its target, gives back the lock of the parent and reads the
inode. -/
theorem Bounded.lockTarget
    {f : FsInode → FsProg β} (hheld : ParentHeld target g)
    (hf : ∀ (inode : FsInode) (g' : List BlockNo), inode.size.toNat ≤ fsMaxFileBlocks →
      Bounded R (f inode) g') :
    Bounded R (do
      unlockParent target
      let inode ← Noted.readInode target.inodeBlock
      f inode) (target.inodeBlock :: g) := by
  unfold unlockParent FileServer.unlockParent
  by_cases hroot : target.inodeBlock = 0
  · rw [if_neg (not_not.mpr hroot)]
    exact Bounded.readInode List.mem_cons_self fun inode hsize => hf inode _ hsize
  · rw [if_pos hroot]
    intro _ _
    exact Bounded.readInode (mem_erase_cons (hheld hroot)) fun inode hsize =>
      hf inode _ hsize

theorem bounded_append
    {inode : FsInode} (hsize : inode.size.toNat < fsMaxFileBlocks) (block : BlockNo) :
    Bounded (fun _ _ => True) (append inode block) g := by
  refine Bounded.note hsize (Bounded.note ?_ trivial)
  exact (size_append hsize block).trans_le hsize

theorem bounded_growDirectory
    {parentInode : FsInode} (hsize : parentInode.size.toNat ≤ fsMaxFileBlocks)
    (dirBlock newInodeBlock : BlockNo) :
    Bounded (fun _ _ => True) (growDirectory parentInode dirBlock newInodeBlock) g := by
  refine Bounded.call fun _ => Bounded.ite (fun _ => ?_) fun _ => ?_
  · refine Bounded.call fun empty => Bounded.ite (fun _ => ?_) fun hroom => ?_
    · exact Bounded.call fun _ => Bounded.call fun _ => trivial
    · have hlt : parentInode.size.toNat < fsMaxFileBlocks := by
        have hgrown := not_lt.mp (not_or.mp hroom).2
        change (parentInode.size + 1).toNat ≤ 124 at hgrown
        change parentInode.size.toNat ≤ 124 at hsize
        change parentInode.size.toNat < 124
        simp only [UInt32.toNat_add, UInt32.reduceToNat] at hgrown
        omega
      refine Bounded.call fun dirBlock => Bounded.call fun _ => ?_
      refine (bounded_append hlt dirBlock).bind fun _ _ _ => ?_
      exact Bounded.call fun _ => trivial
  · exact Bounded.call fun _ => trivial

theorem bounded_newEntries
    (entries : Entries) (changeParent : Bool) (newEntry : Fin fsDirentries)
    {newFileName : Name} (hname : newFileName.length ≤ fsMaxFileName)
    (newInodeBlock : BlockNo) :
    Bounded (fun _ _ => True)
      (newEntries entries changeParent newEntry newFileName newInodeBlock) g := by
  refine Bounded.noteEntries (Bounded.note newEntry.isLt (Bounded.note hname ?_))
  trivial

theorem bounded_createLocked
    (stack : Stack) (type : Byte) {username newFileName : Name}
    (husername : username.length ≤ fsMaxUserName)
    (hname : newFileName.length ≤ fsMaxFileName) (newInodeBlock : BlockNo)
    (hheld : ParentHeld target g) :
    Bounded (fun _ _ => True)
      (createLocked stack type username newFileName newInodeBlock target)
      (target.inodeBlock :: g) := by
  refine Bounded.lockTarget hheld fun parentInode g' hsize => ?_
  have hrefuse : ∀ g, Bounded (fun _ _ => True) (do
      returnEmptyBlock newInodeBlock
      return false) g :=
    fun g => (bounded_plain _).bind fun _ _ _ => trivial
  refine Bounded.ite (fun _ => hrefuse g') fun _ => ?_
  refine (bounded_checkExistance hsize {} newFileName _).bind ?_
  rintro ⟨info, output⟩ g' ⟨rfl, _⟩
  refine Bounded.ite (fun _ => hrefuse g') fun _ => ?_
  refine (bounded_growDirectory hsize _ _).bind fun grown g' _ => ?_
  cases grown with
  | none => trivial
  | some grown =>
      obtain ⟨dirBlock, changed⟩ := grown
      refine (bounded_newEntries _ _ _ hname _).bind fun entries g' _ => ?_
      refine Bounded.note husername (Bounded.call fun _ => ?_)
      cases changed with
      | none => exact Bounded.call fun _ => trivial
      | some parentInode => exact Bounded.call fun _ => Bounded.call fun _ => trivial

theorem bounded_removeBlock
    {inode : FsInode} (hsize : inode.size.toNat ≤ fsMaxFileBlocks) {k : ℕ}
    (hk : k < inode.size.toNat) :
    Bounded (fun _ _ => True) (removeBlock inode k) g := by
  have hpos : 0 < inode.size.toNat := by omega
  have hless : (inode.size - 1).toNat = inode.size.toNat - 1 := size_removeBlock hk
  refine Bounded.note hpos (Ghost.Notes.noteAll (fun a ha => ?_) ?_)
  · obtain ⟨m, hm, ha⟩ := List.mem_flatMap.mp ha
    have hm := (List.mem_range'_1.mp hm).2
    simp only [List.mem_cons, List.not_mem_nil, or_false] at ha
    rw [hless] at hm
    change inode.size.toNat ≤ 124 at hsize
    rcases ha with rfl | rfl
    · change m < 124
      omega
    · change m + 1 < 124
      omega
  · refine Bounded.note hpos (Bounded.note ?_ trivial)
    change (inode.size - 1).toNat ≤ fsMaxFileBlocks
    omega

/-- The inode of what has been deleted was read under its lock. -/
def DeletedSize (deleted : Option (FsInode × BlockNo)) : Prop :=
  ∀ fileInode block, deleted = some (fileInode, block) →
    fileInode.size.toNat ≤ fsMaxFileBlocks

theorem bounded_deleteChild
    (username : Name) (target info : TargetInode) {parentInode : FsInode}
    (hsize : parentInode.size.toNat ≤ fsMaxFileBlocks)
    (hindex : info.firstEmptyBlock.toNat < parentInode.size.toNat)
    (parentEntries : Entries) (hheld : info.inodeBlock ∈ g) :
    Bounded (fun deleted _ => DeletedSize deleted)
      (deleteChild username target info parentInode parentEntries) g := by
  refine Bounded.readInode hheld fun fileInode hfile => ?_
  refine Bounded.ite (fun _ _ _ hnone => nomatch hnone) fun _ => ?_
  refine Bounded.note info.firstEmptyEntryIndex.isLt (Bounded.noteEntries ?_)
  refine Bounded.note (hindex.trans_le hsize) ?_
  have hdeleted : ∀ block, DeletedSize (some (fileInode, block)) := by
    rintro block _ _ ⟨⟩
    exact hfile
  refine Bounded.ite (fun _ => ?_) fun _ => ?_
  · refine (bounded_removeBlock hsize hindex).bind fun _ _ _ => ?_
    refine Bounded.call fun _ => Bounded.call fun _ => ?_
    exact Bounded.call fun _ => Bounded.call fun _ => hdeleted _
  · exact Bounded.call fun _ => hdeleted _

theorem bounded_deleteLocked
    (stack : Stack) (username targetName : Name) (hheld : ParentHeld target g) :
    Bounded (fun deleted _ => DeletedSize deleted)
      (deleteLocked stack username targetName target) (target.inodeBlock :: g) := by
  refine Bounded.lockTarget hheld fun parentInode g' hsize => ?_
  refine Bounded.ite (fun _ _ _ hnone => nomatch hnone) fun _ => ?_
  refine (bounded_checkExistance hsize {} targetName _).bind ?_
  rintro ⟨info, output⟩ g' ⟨rfl, hfound⟩
  refine Bounded.ite (fun _ _ _ hnone => nomatch hnone) fun hvalid => ?_
  have hindex := hfound.index_lt (Bool.eq_true_of_not_eq_false hvalid)
  refine Bounded.call fun _ => ?_
  refine (bounded_deleteChild username target info hsize hindex _
    List.mem_cons_self).bind fun deleted g' hdeleted => ?_
  exact Bounded.call fun _ => hdeleted

theorem bounded_pushBlocks
    {inode : FsInode} (hsize : inode.size.toNat ≤ fsMaxFileBlocks) :
    Bounded (fun _ _ => True) (pushBlocks inode) g := by
  refine Ghost.Notes.noteAll (fun a ha => ?_) (bounded_plain _)
  obtain ⟨k, hk, rfl⟩ := List.mem_map.mp ha
  exact (List.mem_range.mp hk).trans_le hsize

theorem bounded_readLocked
    (username : Name) {blockId : ℕ} (hblock : blockId < fsMaxFileBlocks)
    (hheld : ParentHeld target g) :
    Bounded (fun _ _ => True) (readLocked username blockId target)
      (target.inodeBlock :: g) := by
  refine Bounded.lockTarget hheld fun fileInode g' _ => ?_
  refine Bounded.ite (fun _ => trivial) fun _ => ?_
  exact Bounded.note hblock (Bounded.call fun _ => trivial)

theorem bounded_writeLocked
    (username : Name) {blockId : ℕ} (hblock : blockId < fsMaxFileBlocks) (data : Block)
    (hheld : ParentHeld target g) :
    Bounded (fun _ _ => True) (writeLocked username blockId data target)
      (target.inodeBlock :: g) := by
  refine Bounded.lockTarget hheld fun fileInode g' _ => ?_
  refine Bounded.ite (fun _ => trivial) fun _ => Bounded.ite (fun hend => ?_) fun _ => ?_
  · have hsize : fileInode.size.toNat < fsMaxFileBlocks := hend ▸ hblock
    refine Bounded.call fun _ => Bounded.call fun empty => ?_
    refine Bounded.ite (fun _ => ?_) fun _ => ?_
    · exact Bounded.call fun _ => trivial
    · refine Bounded.call fun newDataBlock => Bounded.call fun _ => ?_
      refine Bounded.call fun _ => ?_
      refine (bounded_append hsize newDataBlock).bind fun _ _ _ => ?_
      refine Bounded.note hblock (Bounded.call fun _ => ?_)
      exact Bounded.call fun _ => trivial
  · exact Bounded.note hblock (Bounded.call fun _ => trivial)

end Target

/-! ### The block field -/

theorem foldl_digits_lt
    {str : Name} (hdigits : ∀ c ∈ str, isDigit c = true) (value : ℕ) :
    str.foldl (fun value c => 10 * value + (c.toNat - 48)) value <
      (value + 1) * 10 ^ str.length := by
  induction str generalizing value with
  | nil => simp
  | cons c rest ih =>
      have hc : c.toNat ≤ 57 := by
        have hdigit := hdigits c List.mem_cons_self
        simp only [isDigit, decide_eq_true_eq] at hdigit
        exact hdigit.2
      have hrest := ih (fun d hd => hdigits d (List.mem_cons_of_mem c hd))
        (10 * value + (c.toNat - 48))
      rw [List.foldl_cons, List.length_cons]
      calc
        _ < (10 * value + (c.toNat - 48) + 1) * 10 ^ rest.length := hrest
        _ ≤ (10 * (value + 1)) * 10 ^ rest.length :=
          Nat.mul_le_mul_right _ (by omega)
        _ = (value + 1) * 10 ^ (rest.length + 1) := by
          rw [Nat.pow_succ, Nat.mul_comm 10, Nat.mul_assoc, Nat.mul_comm 10]

/-- `stoi` gets at most three digits, and at least one. -/
theorem stoiReturns_of_isBlock
    {req str rest : List Byte} (hword : extractWord req = some (str, rest))
    (hblock : ¬isBlock str = false) : StoiReturns str := by
  have hblock := Bool.eq_true_of_not_eq_false hblock
  simp only [isBlock, decide_eq_true_eq] at hblock
  obtain ⟨hlength, hdigits⟩ := hblock
  refine ⟨(extractWord_spec hword).1, hdigits, ?_⟩
  have hlt := foldl_digits_lt (List.all_eq_true.mp hdigits) 0
  have hpow : 10 ^ str.length ≤ 10 ^ 3 := Nat.pow_le_pow_right (by decide) hlength
  unfold FileServer.stoi
  omega

/-! ### The four requests -/

theorem bounded_handleCreate
    (stack : Stack) (req : List Byte) (fields : RequestFields) :
    Bounded (fun _ _ => True) (handleCreate stack req fields) g := by
  unfold handleCreate
  cases extractWord req with
  | none => trivial
  | some word =>
      refine Bounded.ite (fun _ => trivial) fun _ => ?_
      cases hpath : pathParser fields.pathname with
      | none => trivial
      | some pathNames =>
          obtain ⟨_, hname, _⟩ := pathParser_split hpath
          refine Bounded.call fun _ => Bounded.call fun empty => ?_
          refine Bounded.ite (fun _ => Bounded.call fun _ => trivial) fun _ => ?_
          refine Bounded.call fun newInodeBlock => Bounded.call fun _ => ?_
          refine Bounded.call fun _ => ?_
          refine (bounded_traverseDir _ _).bind fun target g' hheld => ?_
          refine Bounded.ite (fun _ => ?_) fun _ => ?_
          · exact Bounded.call fun _ => bounded_plain _
          · refine Bounded.call fun _ => ?_
            refine (bounded_createLocked stack _ fields.username_length hname _
              hheld).bind fun created _ _ => ?_
            refine Bounded.call fun _ => Bounded.ite (fun _ => ?_) fun _ => trivial
            exact Bounded.call fun _ => trivial

theorem bounded_handleDelete (stack : Stack) (fields : RequestFields) :
    Bounded (fun _ _ => True) (handleDelete stack fields) g := by
  unfold handleDelete
  cases pathParser fields.pathname with
  | none => trivial
  | some pathNames =>
      refine (bounded_traverseDir _ _).bind fun target g' hheld => ?_
      refine Bounded.ite (fun _ => Bounded.call fun _ => trivial) fun _ => ?_
      refine Bounded.call fun _ => ?_
      refine (bounded_deleteLocked stack _ _ hheld).bind fun deleted _ hdeleted => ?_
      refine Bounded.call fun _ => ?_
      cases deleted with
      | none => trivial
      | some deleted =>
          refine Bounded.call fun _ => ?_
          refine (bounded_pushBlocks (hdeleted _ _ rfl)).bind fun _ _ _ => ?_
          refine Bounded.call fun _ => Bounded.call fun _ => ?_
          exact Bounded.call fun _ => trivial

theorem bounded_handleReadblock (req : List Byte) (fields : RequestFields) :
    Bounded (fun _ _ => True) (handleReadblock req fields) g := by
  unfold handleReadblock
  cases hword : extractWord req with
  | none => trivial
  | some word =>
      refine Bounded.ite (fun _ => trivial) fun hblock => ?_
      refine Bounded.note (stoiReturns_of_isBlock hword hblock) ?_
      refine Bounded.ite (fun _ => trivial) fun hlt => ?_
      cases pathParser fields.pathname with
      | none => trivial
      | some pathNames =>
          refine (bounded_traverseDir _ _).bind fun target g' hheld => ?_
          refine Bounded.ite (fun _ => Bounded.call fun _ => trivial) fun _ => ?_
          refine Bounded.call fun _ => ?_
          refine (bounded_readLocked _ (not_le.mp hlt) hheld).bind fun data _ _ => ?_
          refine Bounded.call fun _ => ?_
          cases data with
          | none => trivial
          | some data => exact Bounded.call fun _ => trivial

theorem bounded_handleWriteblock
    (req : List Byte) (fields : RequestFields) (data : Block) :
    Bounded (fun _ _ => True) (handleWriteblock req fields data) g := by
  unfold handleWriteblock
  cases hword : extractWord req with
  | none => trivial
  | some word =>
      refine Bounded.ite (fun _ => trivial) fun hblock => ?_
      refine Bounded.note (stoiReturns_of_isBlock hword hblock) ?_
      refine Bounded.ite (fun _ => trivial) fun hlt => ?_
      cases pathParser fields.pathname with
      | none => trivial
      | some pathNames =>
          refine (bounded_traverseDir _ _).bind fun target g' hheld => ?_
          refine Bounded.ite (fun _ => Bounded.call fun _ => trivial) fun _ => ?_
          refine Bounded.call fun _ => ?_
          refine (bounded_writeLocked _ (not_le.mp hlt) data hheld).bind
            fun written _ _ => ?_
          refine Bounded.call fun _ => Bounded.ite (fun _ => ?_) fun _ => trivial
          exact Bounded.call fun _ => trivial

theorem bounded_serve (stack : Stack) (request : Request) :
    Bounded (fun _ _ => True) (serve stack request) g := by
  have hclose : ∀ g, Bounded (fun _ _ => True) (call .close) g := fun g _ _ => trivial
  cases request with
  | readblock req fields =>
      exact (bounded_handleReadblock req fields).bind fun _ g' _ => hclose g'
  | writeblock req fields data =>
      exact (bounded_handleWriteblock req fields data).bind fun _ g' _ => hclose g'
  | create req fields =>
      exact (bounded_handleCreate stack req fields).bind fun _ g' _ => hclose g'
  | delete fields =>
      exact (bounded_handleDelete stack fields).bind fun _ g' _ => hclose g'

end Noted

/-! ## Runs -/

/-- The server whose handlers make a note of each access. -/
def notedMachine : Machine (fsInterface.noted Access) Server :=
  machine.noted fun connection => Noted.serve connection.stack connection.request

theorem erase_program (connection : machine.Request) :
    (Noted.serve connection.stack connection.request).erase =
      machine.program connection :=
  Noted.erase_serve connection.stack connection.request

/-- Whatever a handler is about to do stays inside the disk, the arrays and the
types. -/
structure InBounds (c : Config (fsInterface.noted Access) Server) : Prop where
  diskReadblock : ∀ i b mark next,
    c.thread i = some (.call (.op (.diskReadblock b mark)) next) → b.toNat < fsDiskSize
  diskWriteblock : ∀ i b block mark next,
    c.thread i = some (.call (.op (.diskWriteblock b block mark)) next) →
      b.toNat < fsDiskSize
  access : ∀ i a next, c.thread i = some (.call (.note a) next) → a.InBounds

/-- The blocks a handler may write are blocks of the disk. -/
theorem Guard.write_range
    {block : Block} {mark : Option Commit} (hinv : Inv initial s)
    (hguard : Guard i (.diskWriteblock b block mark) s) : b.toNat < fsDiskSize := by
  cases mark with
  | none => exact (hinv.conserved.hand_range i b hguard.1).2
  | some note =>
      obtain ⟨⟨request, op, p, _, _, hhome, hb, _⟩, _⟩ := hguard
      have hreach : Reach s.disk p := ⟨op.home, hhome⟩
      rcases hb with rfl | hb
      · exact hinv.wf.range_of_reach hreach
      · exact (hinv.wf.refs_range p hreach b (dataBlocks_subset_refs _ _ hb)).2

theorem inBounds_of_reachable
    {disk : Disk} {boot : Server} {c : Config (fsInterface.noted Access) Server}
    (hboot : Started disk boot) (hreach : notedMachine.Reachable boot c) :
    InBounds c := by
  have hpool := run_invariant hboot (hreach.erase erase_program)
  have hcalls : ∀ {i op next}, c.thread i = some (.call (.op op) next) →
      Guard i op c.shared := by
    intro i op next hthread
    have hplain : c.erase.thread i =
        some (.call op fun answer => (next answer).erase) := by
      rw [erase_thread, hthread]
      rfl
    exact hpool.guard hplain
  constructor
  · intro i b mark next hthread
    exact hcalls hthread
  · intro i b block mark next hthread
    exact Guard.write_range hpool.inv (hcalls hthread)
  · intro i a next hthread
    exact (locksGhost_tracks hboot).note erase_program
      (fun connection => Noted.bounded_serve connection.stack connection.request)
      hreach hthread

/-- In every run from a well-formed image, in any order of the calls, every
access of a handler is in bounds.  The runs with notes are the runs of the
server. -/
theorem accesses_inBounds (disk : Disk) (hwf : WellFormed disk) :
    ∃ boot, initServer disk = some boot ∧
      (∀ c, machine.Reachable boot c →
        ∃ noted, notedMachine.Reachable boot noted ∧ noted.erase = c) ∧
      ∀ noted, notedMachine.Reachable boot noted →
        machine.Reachable boot noted.erase ∧ InBounds noted := by
  obtain ⟨boot, hinit, hboot⟩ := exists_started hwf
  refine ⟨boot, hinit, fun c hreach => hreach.exists_noted erase_program, ?_⟩
  intro noted hreach
  exact ⟨hreach.erase erase_program, inBounds_of_reachable hboot hreach⟩

/-- The request `FS_READBLOCK a /a 0`. -/
def readblockRequest : Request :=
  .readblock [32, 48] deleteRequest.fields

theorem accesses_inBounds_freshDisk :
    ∃ boot noted next, initServer freshDisk = some boot ∧
      notedMachine.Reachable boot noted ∧
      noted.thread 0 = some (.call (.note (.stoi [48])) next) ∧ InBounds noted := by
  obtain ⟨boot, hinit, _, hbounds⟩ := accesses_inBounds freshDisk wellFormed_freshDisk
  have hstart : notedMachine.Reachable boot ⟨boot, fun _ => none⟩ := .start
  have hreach := hstart.step
    (.arrive 0 (⟨readblockRequest, freshStack⟩ : Connection) rfl)
  exact ⟨boot, _, _, hinit, hreach, rfl, (hbounds _ hreach).2⟩

end FileServer
end Eecs482
