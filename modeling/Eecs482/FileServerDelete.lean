import Eecs482.FileServerHandlerRules

/-!
# FS_DELETE
-/

namespace Eecs482
namespace FileServer

open Discipline

variable {initial : Disk} {i : ℕ}

/-- The entry to delete, as it was found under the two locks. -/
structure Doomed
    (pin child : Pin) (user : Name) (k : ℕ) (j : Fin fsDirentries)
    (name : Name) : Prop where
  index : k < (inodeAt pin.image pin.block).size.toNat
  entry : (entryAt pin.image (inodeAt pin.image pin.block) k j).Matches name
  block : (entryAt pin.image (inodeAt pin.image pin.block) k j).inodeBlock =
    child.block
  owner : cString (inodeAt child.image child.block).owner = user
  empty : ¬((inodeAt child.image child.block).type = dirType ∧
    (inodeAt child.image child.block).size > 0)

theorem Pin.Holds.entryAt
    {pin : Pin} {disk : Disk} (h : pin.Holds disk) {k : ℕ}
    (hk : k < (inodeAt pin.image pin.block).size.toNat) (j : Fin fsDirentries) :
    FileServer.entryAt disk (inodeAt disk pin.block) k j =
      FileServer.entryAt pin.image (inodeAt pin.image pin.block) k j := by
  unfold FileServer.entryAt
  rw [h.agree.inodeAt, h.read (Or.inr (block_mem_dataBlocks hk))]

section Delete

variable {pin child : Pin} {user name : Name} {k : ℕ} {j : Fin fsDirentries}
variable {s : Server} {l : Local}

theorem Doomed.deletable
    (h : Doomed pin child user k j name) {disk : Disk} (hpin : pin.Holds disk)
    (hchild : child.Holds disk) : Deletable disk user pin.block k j name := by
  have hentry := hpin.entryAt h.index j
  refine ⟨by rw [hpin.agree.inodeAt]; exact h.index, by rw [hentry]; exact h.entry,
    ?_, ?_⟩
  · rw [hentry, h.block, hchild.agree.ownerAt]
    exact h.owner
  · rw [hentry, h.block, hchild.agree.inodeAt]
    exact h.empty

/-- The blocks a delete frees are the ones the handler has read about. -/
theorem Doomed.dataBlocks
    (h : Doomed pin child user k j name) {disk : Disk} (hpin : pin.Holds disk)
    (hchild : child.Holds disk) :
    dataBlocks disk (entryAt disk (inodeAt disk pin.block) k j).inodeBlock =
      (inodeAt child.image child.block).dataBlocks := by
  rw [hpin.entryAt h.index j, h.block, hchild.agree.dataBlocks]
  rfl

/-- Of the freed blocks only the deleted inode was an inode of the tree. -/
theorem detached_reach
    {disk : Disk} (hwf : WellFormed disk) {p c x y : BlockNo}
    (hp : Reach disk p) (hc : Reach disk c) (hy : Reach disk y)
    (hx : x ∈ FileServer.dataBlocks disk p)
    (hmem : y ∈ x :: (FileServer.dataBlocks disk c ++ [c])) : y = c := by
  rcases List.mem_cons.mp hmem with rfl | hmem
  · exact absurd hx (hwf.inode_notMem_dataBlocks hy hp)
  · rcases List.mem_append.mp hmem with hmem | hmem
    · exact absurd hmem (hwf.inode_notMem_dataBlocks hy hc)
    · exact List.mem_singleton.mp hmem

theorem commits_delete_from_block
    (hinv : Inv initial s) (howns : Owns i l s)
    (hpin : pin ∈ l.pins) (hchild : child ∈ l.pins)
    (hexcl : l.excl = [child.block, pin.block]) (hshared : l.shared = [])
    (hseen : EditableDir pin.image user pin.path pin.block)
    (hdoomed : Doomed pin child user k j name)
    (hother : ∃ j', j' ≠ j ∧
      (entryAt pin.image (inodeAt pin.image pin.block) k j').inodeBlock ≠ 0) :
    Commits s l pin.block ((inodeAt pin.image pin.block).block k)
      (ofEntries (Function.update
        (asEntries (pin.image ((inodeAt pin.image pin.block).block k))) j
        { entryAt pin.image (inodeAt pin.image pin.block) k j with
          inodeBlock := 0 }))
      (.delete user (pin.path ++ [name]))
      { attached := []
        detached := (inodeAt child.image child.block).dataBlocks ++
          [(entryAt pin.image (inodeAt pin.image pin.block) k j).inodeBlock] } := by
  have hholds := (howns.locked_pin _ hpin).2
  have hchildHolds := (howns.locked_pin _ hchild).2
  have hx := block_mem_dataBlocks hdoomed.index
  have hentry := hholds.entryAt hdoomed.index j
  have heffect := effect_delete_from_block hinv.wf (hholds.editableDir hseen)
    (hdoomed.deletable hholds hchildHolds) (by
      obtain ⟨j', hne, hused⟩ := hother
      exact ⟨j', hne, by rw [hholds.entryAt hdoomed.index j']; exact hused⟩)
  rw [hdoomed.dataBlocks hholds hchildHolds, hentry, hholds.agree.inodeAt,
    hholds.read (Or.inr hx)] at heffect
  refine {
    home := by simpa [FsOp.home] using hholds.resolve
    excl := by simp [hexcl]
    target := Or.inr (by rw [hholds.agree.dataBlocks]; exact hx)
    effect := heffect
    attached := by simp
    locked := fun c hc => ?_
    detached := fun c hc hreach => ?_ }
  · have hc : c = child.block ∨ c = pin.block := by
      simpa [Local.Locks, hexcl, hshared] using hc
    rcases hc with rfl | rfl
    · exact hchildHolds.reach
    · exact hholds.reach
  · rw [hdoomed.block] at hc
    have hdata : FileServer.dataBlocks s.disk child.block =
        (inodeAt child.image child.block).dataBlocks :=
      hchildHolds.agree.dataBlocks
    have hc : c = child.block := by
      refine detached_reach hinv.wf hholds.reach hchildHolds.reach hreach
        (x := (inodeAt pin.image pin.block).block k)
        (by rw [hholds.agree.dataBlocks]; exact hx) ?_
      rw [hdata]
      exact List.mem_cons_of_mem _ hc
    simp [hexcl, hc]

theorem commits_delete_with_block
    {b : BlockNo} (hb : b = pin.block)
    (hinv : Inv initial s) (howns : Owns i l s)
    (hpin : pin ∈ l.pins) (hchild : child ∈ l.pins)
    (hexcl : l.excl = [child.block, pin.block]) (hshared : l.shared = [])
    (hseen : EditableDir pin.image user pin.path pin.block)
    (hdoomed : Doomed pin child user k j name)
    (honly : ∀ j', j' ≠ j →
      (entryAt pin.image (inodeAt pin.image pin.block) k j').inodeBlock = 0) :
    Commits s l pin.block b
      (ofInode ((inodeAt pin.image pin.block).removeBlock k))
      (.delete user (pin.path ++ [name]))
      { attached := []
        detached := (inodeAt pin.image pin.block).block k ::
          ((inodeAt child.image child.block).dataBlocks ++
            [(entryAt pin.image (inodeAt pin.image pin.block) k j).inodeBlock]) } := by
  subst hb
  have hholds := (howns.locked_pin _ hpin).2
  have hchildHolds := (howns.locked_pin _ hchild).2
  have hx := block_mem_dataBlocks hdoomed.index
  have hentry := hholds.entryAt hdoomed.index j
  have heffect := effect_delete_with_block hinv.wf (hholds.editableDir hseen)
    (hdoomed.deletable hholds hchildHolds)
    (fun j' hj' => by rw [hholds.entryAt hdoomed.index j']; exact honly j' hj')
  rw [hdoomed.dataBlocks hholds hchildHolds, hentry, hholds.agree.inodeAt]
    at heffect
  refine {
    home := by simpa [FsOp.home] using hholds.resolve
    excl := by simp [hexcl]
    target := Or.inl rfl
    effect := heffect
    attached := by simp
    locked := fun c hc => ?_
    detached := fun c hc hreach => ?_ }
  · have hc : c = child.block ∨ c = pin.block := by
      simpa [Local.Locks, hexcl, hshared] using hc
    rcases hc with rfl | rfl
    · exact hchildHolds.reach
    · exact hholds.reach
  · rw [hdoomed.block] at hc
    have hdata : FileServer.dataBlocks s.disk child.block =
        (inodeAt child.image child.block).dataBlocks :=
      hchildHolds.agree.dataBlocks
    have hc : c = child.block := by
      refine detached_reach hinv.wf hholds.reach hchildHolds.reach hreach
        (x := (inodeAt pin.image pin.block).block k)
        (by rw [hholds.agree.dataBlocks]; exact hx) ?_
      rw [hdata]
      exact hc
    simp [hexcl, hc]

end Delete

/-! ## The handler -/

/-- What a handler knows after a delete has taken effect, before the blocks in
its hands have been given back. -/
def Local.deleted
    (i : ℕ) (request : Request) (op : FsOp) (hand : List BlockNo) : Local := {
  hand := hand
  request := some request
  events := [.start i, .commit i op none] }

theorem Local.deleted_unlocked (request : Request) (op : FsOp)
    (hand : List BlockNo) : (Local.deleted i request op hand).Unlocked :=
  ⟨rfl, rfl, rfl, rfl⟩

section Scopes

variable {request : Request} {user name : Name} {pin child : Pin}
variable {α : Type} {Post : α → Server → Prop}

/-- The position `check_existance` has reported. -/
structure Position
    (info : TargetInode) (pin : Pin) (k : ℕ) (j : Fin fsDirentries)
    (name : Name) : Prop where
  index : k < (inodeAt pin.image pin.block).size.toNat
  entry : (entryAt pin.image (inodeAt pin.image pin.block) k j).Matches name
  inodeBlock : info.inodeBlock =
    (entryAt pin.image (inodeAt pin.image pin.block) k j).inodeBlock
  block_eq : info.firstEmptyBlock.toNat = k
  index_eq : info.firstEmptyEntryIndex = j

theorem triple_deleteChild
    {target info : TargetInode} {k : ℕ} {j : Fin fsDirentries}
    (next : Option (FsInode × BlockNo) → FsProg α)
    (hop : request.op = some (.delete user (pin.path ++ [name])))
    (htarget : target.inodeBlock = pin.block)
    (hposition : Position info pin k j name)
    (hchild : child.block = info.inodeBlock)
    (hreach : Reach pin.image child.block)
    (hseen : EditableDir pin.image user pin.path pin.block)
    (hfailed : (discipline initial).Triple i
      (Owns i { Local.start i request [] with
        excl := [child.block, pin.block] })
      (next none) Post)
    (hdeleted : ∀ fileInode : FsInode, (discipline initial).Triple i
      (Owns i {
        Local.deleted i request (.delete user (pin.path ++ [name]))
          (fileInode.dataBlocks ++ [child.block]) with
        excl := [child.block, pin.block] })
      (next (some (fileInode, child.block))) Post) :
    (discipline initial).Triple i
      (Owns i { Local.start i request [] with
        excl := [child.block, pin.block]
        pins := [child, pin] })
      (deleteChild user target info (inodeAt pin.image pin.block)
        (asEntries (pin.image ((inodeAt pin.image pin.block).block k)))
        >>= next) Post := by
  obtain ⟨hk, hmatch, hblock, hkey, hindex⟩ := hposition
  have hentry : (entryAt pin.image (inodeAt pin.image pin.block) k
      j).inodeBlock = child.block := by
    rw [hchild, hblock]
  have hasEntry : asEntries (pin.image
      ((inodeAt pin.image pin.block).block k)) j =
      entryAt pin.image (inodeAt pin.image pin.block) k j := rfl
  simp only [deleteChild, Prog.bind_assoc]
  refine triple_read child List.mem_cons_self (Or.inl hchild.symm) ?_
  have hinode : asInode (child.image info.inodeBlock) =
      inodeAt child.image child.block := by
    rw [inodeAt, hchild]
  rw [hinode, hkey, hindex, hasEntry, hentry]
  split
  · exact triple_weaken _ _ (by simp [Local.start]) (by simp [Local.start]) hfailed
  · rename_i hcheck
    simp only [ne_eq, not_or, Decidable.not_not] at hcheck
    have hdoomed : Doomed pin child user k j name :=
      ⟨hk, hmatch, hentry, hcheck.1, hcheck.2⟩
    have hx := block_mem_dataBlocks hk
    split
    · rename_i hempty
      simp only [Prog.bind_assoc]
      refine triple_commit (p := pin.block) rfl hop rfl ?_ ?_
      · intro s hinv howns
        have hcommits := commits_delete_with_block htarget hinv howns
          (List.mem_cons_of_mem child (List.mem_cons_self (a := pin)))
          List.mem_cons_self rfl rfl hseen hdoomed (fun j' hj' => by
            have := hempty j'
            rw [Function.update_of_ne hj'] at this
            exact this)
        rw [hentry] at hcommits
        exact hcommits
      · refine triple_lockFree rfl fun queue => ?_
        have hcurr : ∀ c, c ∈ [child.block, pin.block] →
            c ≠ (inodeAt pin.image pin.block).block k := by
          intro c hc heq
          have hc : c = child.block ∨ c = pin.block := by simpa using hc
          have hcreach : Reach pin.image c := by
            rcases hc with rfl | rfl
            · exact hreach
            · exact pin.reach
          refine pin.wf.inode_notMem_dataBlocks hcreach pin.reach ?_
          rw [heq]
          exact hx
        refine triple_freePush queue [] rfl (by simp)
          (fun s _ _ hlocks => ?_) (by simp) ?_
        · rcases hlocks with hshared | hexcl
          · simp [Local.start] at hshared
          · exact hcurr _ hexcl rfl
        · refine triple_unlockFree (queue ++ _) rfl ?_
          simpa [Local.start, Local.deleted] using
            hdeleted (inodeAt child.image child.block)
    · rename_i hother
      have hother : ∃ j', j' ≠ j ∧
          (entryAt pin.image (inodeAt pin.image pin.block) k j').inodeBlock ≠
            0 := by
        obtain ⟨j', hj'⟩ := not_forall.mp hother
        have hne : j' ≠ j := by
          rintro rfl
          exact hj' (by rw [Function.update_self])
        rw [Function.update_of_ne hne] at hj'
        exact ⟨j', hne, hj'⟩
      simp only [Prog.bind_assoc]
      refine triple_commit (p := pin.block) rfl hop rfl ?_ ?_
      · intro s hinv howns
        have hcommits := commits_delete_from_block hinv howns
          (List.mem_cons_of_mem child (List.mem_cons_self (a := pin)))
          List.mem_cons_self (by simp) rfl hseen hdoomed hother
        rw [hentry] at hcommits
        exact hcommits
      · simpa [Local.start, Local.deleted] using
          hdeleted (inodeAt child.image child.block)

/-- The scope of the lock of the directory. -/
theorem triple_deleteLocked
    {stack : Stack} {path : Path} {target : TargetInode} {l' : Local}
    {next : Option (FsInode × BlockNo) → FsProg α}
    (hop : request.op = some (.delete user (path ++ [name])))
    (htraversed : Traversed (Local.start i request []) user path target l')
    (hfailed : (discipline initial).Triple i
      (Owns i { Local.start i request [] with excl := [target.inodeBlock] })
      (next none) Post)
    (hdeleted : ∀ (fileInode : FsInode) (c : BlockNo),
      (discipline initial).Triple i
        (Owns i {
          Local.deleted i request (.delete user (path ++ [name]))
            (fileInode.dataBlocks ++ [c]) with
          excl := [target.inodeBlock] })
        (next (some (fileInode, c))) Post) :
    (discipline initial).Triple i (Owns i l')
      (call (.lock target.inodeBlock) >>= fun _ =>
        deleteLocked stack user name target >>= next) Post := by
  have hbase := Local.start_unlocked (i := i) request []
  simp only [deleteLocked, Prog.bind_assoc]
  refine triple_enter hbase htraversed fun pin hentered => ?_
  have hforget : (discipline initial).Triple i
      (Owns i { Local.start i request [] with
        excl := [target.inodeBlock], pins := [pin] })
      (next none) Post :=
    triple_weaken _ _ (by simp [Local.start]) (by simp [Local.start]) hfailed
  refine triple_read pin List.mem_cons_self
    (Or.inl hentered.block_eq.symm) ?_
  rw [hentered.inode]
  split
  · exact hforget
  · rename_i hedit
    have hseen := hentered.editableDir (by simpa using hedit)
    have htarget := hentered.block_eq
    rw [← hentered.path_eq] at hop hdeleted
    simp only [Prog.bind_assoc]
    refine triple_checkExistance pin List.mem_cons_self _ _ ?_
    cases hchild : childOf pin.image pin.block name with
    | none =>
        have hpassed := scan_of_childOf_none pin.wf pin.reach hseen.dir hchild
          {} (some stack.parentEntries)
        generalize scan pin.image (inodeAt pin.image pin.block) {} name
          (some stack.parentEntries) = found at hpassed
        obtain ⟨info, output⟩ := found
        have hvalid : info.valid = false := hpassed.valid
        simp only [hvalid, if_true]
        exact hforget
    | some c =>
        obtain ⟨k, j, hk, hmatch, hblock, hscan⟩ := scan_of_childOf_some pin.wf
          pin.reach hseen.dir hchild {} (some stack.parentEntries)
        rw [hscan]
        have hposition : Position (foundAt pin.image
            (inodeAt pin.image pin.block) {} k j) pin k j name := by
          refine ⟨hk, hmatch, rfl, ?_, rfl⟩
          have hle := pin.wf.size_le pin.block pin.reach
          change _ ≤ 124 at hle
          simp only [foundAt, UInt32.toNat_ofNat']
          omega
        have hvalid : (foundAt pin.image (inodeAt pin.image pin.block) {} k
            j).valid = true := rfl
        have hinodeBlock : (foundAt pin.image (inodeAt pin.image pin.block) {} k
            j).inodeBlock = c := hblock
        generalize foundAt pin.image (inodeAt pin.image pin.block) {} k j = info
          at hposition hvalid hinodeBlock
        simp only [hvalid, Bool.true_eq_false, if_false, Prog.bind_assoc,
          Option.map_some, Option.getD_some]
        have hlock : LockTarget { Local.start i request [] with
            excl := [target.inodeBlock], pins := [pin] }
            (pin.path ++ [name]) info.inodeBlock := by
          rw [hinodeBlock]
          refine .child List.mem_cons_self hchild fun x hx => ?_
          rw [htarget]
          simpa [Local.Locks, Local.start] using hx
        refine triple_lock hlock rfl fun child htaken => ?_
        have hleave : ∀ (base : Local) (result : Option (FsInode × BlockNo)),
            base.pins = [] →
            (discipline initial).Triple i
              (Owns i { base with excl := [target.inodeBlock] })
              (next result) Post →
            (discipline initial).Triple i
              (Owns i { base with excl := [child.block, pin.block] })
              (call (.unlock info.inodeBlock) >>= fun _ => next result)
              Post := by
          intro base result hpins hnext
          have hne : child.block ≠ pin.block := by
            rw [htaken.block_eq, hinodeBlock]
            exact Pin.child_ne hchild
          refine triple_unlock [target.inodeBlock] []
            (by simp [htaken.block_eq]) ?_ (by simp) ?_
          · intro x
            simp only [← htarget, ← htaken.block_eq, List.mem_cons,
              List.not_mem_nil, or_false]
            constructor
            · rintro rfl
              exact ⟨Or.inr rfl, hne.symm⟩
            · rintro ⟨rfl | rfl, hx⟩
              · exact absurd rfl hx
              · rfl
          · rw [← hpins]
            exact hnext
        have hchildBlock := htaken.block_eq
        have hreach : Reach pin.image child.block := by
          rw [hchildBlock, hinodeBlock]
          exact LabelledWalk.Visits.child pin.reach hchild
        have hscope := triple_deleteChild
          (fun deleted =>
            call (.unlock info.inodeBlock) >>= fun _ => next deleted)
          hop htarget.symm hposition hchildBlock hreach hseen
          (hleave (Local.start i request []) none rfl hfailed)
          (fun fileInode => hleave (Local.deleted i request _ _) _ rfl
            (hdeleted fileInode child.block))
        have hlocked : [child.block, pin.block] =
            [info.inodeBlock, target.inodeBlock] := by
          rw [hchildBlock, htarget]
        rw [hlocked] at hscope
        exact hscope

theorem triple_pushBlocks
    {l : Local} (queue blocks rest : List BlockNo)
    {next : Unit → FsProg α} (hlocks : ∀ c, ¬l.Locks c)
    (hwritten : l.written = []) (hfree : l.free = some queue)
    (hhand : l.hand = blocks ++ rest)
    (hnext : ∀ queue', (discipline initial).Triple i
      (Owns i { l with free := some queue', hand := rest }) (next ()) Post) :
    (discipline initial).Triple i (Owns i l)
      (pushBlocks blocks >>= next) Post := by
  induction blocks generalizing l queue with
  | nil =>
      have h := hnext queue
      rw [← hfree, ← List.nil_append rest, ← hhand] at h
      exact h
  | cons b blocks ih =>
      simp only [pushBlocks, Prog.bind_assoc]
      refine triple_freePush queue [] hfree
        (by simp [hhand]) (fun _ _ _ => hlocks b) (by simp) ?_
      refine ih (queue ++ [b]) hlocks rfl rfl (by simp [hhand]) ?_
      intro queue'
      have h := hnext queue'
      rw [hwritten] at h
      exact h

end Scopes

theorem triple_handleDelete (stack : Stack) (fields : RequestFields) :
    (discipline initial).Triple i
      (Owns i (Local.start i (.delete fields) []))
      (handleDelete stack fields >>= fun _ => call .close)
      (fun _ => Done i) := by
  have hrefuse := triple_refuse initial i (.delete fields)
  have hbase := Local.start_unlocked (i := i) (.delete fields) []
  unfold handleDelete
  cases hpath : pathParser fields.pathname with
  | none => exact hrefuse
  | some pathNames =>
      obtain ⟨hsplit, _, _⟩ := pathParser_split hpath
      have hop : (Request.delete fields).op =
          some (.delete fields.username
            (pathNames.dropLast ++ [pathNames.getLastD []])) := by
        rw [← hsplit]
        simp [Request.op, hpath]
      simp only [Prog.bind_assoc]
      refine triple_traverseDir hbase ?_ ?_
      · intro bad last hbad hparent
        simp only [hbad, if_true]
        rw [hparent]
        exact triple_leaveShared _ hbase hrefuse
      · intro good l' hgood htraversed
        simp only [hgood, Bool.true_eq_false, if_false, Prog.bind_assoc]
        refine triple_deleteLocked hop htraversed ?_ fun fileInode c => ?_
        · exact triple_leave _ hbase rfl hrefuse
        · refine triple_leave _ (Local.deleted_unlocked _ _ _) rfl ?_
          simp only [Prog.bind_assoc]
          refine triple_lockFree rfl fun queue => ?_
          refine triple_pushBlocks queue fileInode.dataBlocks [c]
            (by simp [Local.Locks, Local.deleted]) rfl rfl rfl fun queue' => ?_
          refine triple_freePush queue' [] rfl (by simp)
            (fun _ _ _ => by simp [Local.Locks, Local.deleted]) (by simp) ?_
          refine triple_unlockFree (queue' ++ [c]) rfl ?_
          have herase : [c].erase c = ([] : List BlockNo) := by simp
          simp only [herase]
          exact triple_respond hop (by
            simp only [Request.response, Request.fields])

end FileServer
end Eecs482
