import Eecs482.FileServerHandlerRules

/-!
# FS_READBLOCK and FS_WRITEBLOCK
-/

namespace Eecs482
namespace FileServer

open Discipline

variable {initial : Disk} {i : ℕ}

/-- A file the handler may use, as it was found under the lock. -/
theorem Entered.ownedFile
    {pin : Pin} {user : Name} {path : Path} {b : BlockNo}
    (h : Entered pin user path b)
    (howner : cString (inodeAt pin.image pin.block).owner = user)
    (htype : (inodeAt pin.image pin.block).type = fileType) :
    OwnedFile pin.image user pin.path pin.block :=
  ⟨pin.resolved, h.above, htype, howner⟩

theorem triple_handleReadblock (req : List Byte) (fields : RequestFields) :
    (discipline initial).Triple i
      (Owns i (Local.start i (.readblock req fields) []))
      (handleReadblock req fields >>= fun _ => call .close)
      (fun _ => Done i) := by
  have hrefuse := triple_refuse initial i
    (.readblock req fields)
  have hbase := Local.start_unlocked (i := i) (.readblock req fields) []
  unfold handleReadblock
  cases hword : extractWord req with
  | none => exact hrefuse
  | some word =>
      obtain ⟨blockStr, rest⟩ := word
      simp only
      split
      · exact hrefuse
      · rename_i hblock
        split
        · exact hrefuse
        · rename_i hbound
          cases hpath : pathParser fields.pathname with
          | none => exact hrefuse
          | some pathNames =>
              simp only [Prog.bind_assoc]
              refine triple_traverseDir hbase ?_ ?_
              · intro bad last hbad hparent
                simp only [hbad, if_true]
                rw [hparent]
                exact triple_leaveShared _ hbase hrefuse
              · intro good l' hgood htraversed
                simp only [hgood, Bool.true_eq_false, if_false, Prog.bind_assoc,
                  readLocked]
                refine triple_enterShared hbase htraversed fun pin hentered => ?_
                refine triple_read pin List.mem_cons_self
                  (Or.inl hentered.block_eq.symm) ?_
                rw [hentered.inode]
                split
                · exact triple_leaveShared _ hbase hrefuse
                · rename_i hcheck
                  simp only [ne_eq, not_or, Decidable.not_not, ge_iff_le,
                    not_le] at hcheck
                  obtain ⟨howner, htype, hindex⟩ := hcheck
                  have hop : (Request.readblock req fields).op =
                      some (.readBlock fields.username pin.path
                        (stoi blockStr)) := by
                    have hindex : blockIndex req = some (stoi blockStr) := by
                      simp only [blockIndex, hword]
                      rw [if_pos]
                      exact ⟨by simpa using hblock, by omega⟩
                    simp [Request.op, hindex, hpath, hentered.path_eq]
                  have hseen := hentered.ownedFile howner htype
                  simp only [Prog.bind_assoc]
                  refine triple_readCommit pin List.mem_cons_self
                    (Or.inr (block_mem_dataBlocks hindex)) rfl hop rfl ?_ ?_
                  · intro disk hwf hholds
                    have hfile := hholds.ownedFile hseen
                    have hindex' : stoi blockStr <
                        (inodeAt disk pin.block).size.toNat := by
                      rw [hholds.agree.inodeAt]
                      exact hindex
                    have happlies := applies_read hfile hindex'
                    rw [hholds.agree.inodeAt, hholds.read
                      (Or.inr (block_mem_dataBlocks hindex))] at happlies
                    exact happlies
                  · refine triple_leaveShared {
                      request := some (Request.readblock req fields)
                      events := _ } ⟨rfl, rfl, rfl, rfl⟩ ?_
                    exact triple_respond hop (by
                      simp only [Request.response, Request.fields, hword,
                        Option.map_some, Option.getD_some])

/-! ## FS_WRITEBLOCK -/

section Write

variable {request : Request} {user : Name} {path : Path} {index : ℕ}
variable {data : Block} {target : TargetInode} {l' : Local}
variable {α : Type} {Post : α → Server → Prop} {next : Bool → FsProg α}

/-- The scope of the write lock: the file is written, or nothing happens. -/
theorem triple_writeLocked
    (hop : request.op = some (.writeBlock user path index data))
    (hbound : index < fsMaxFileBlocks)
    (htraversed : Traversed (Local.start i request []) user path target l')
    (hfailed : (discipline initial).Triple i
      (Owns i { Local.start i request [] with excl := [target.inodeBlock] })
      (next false) Post)
    (hwritten : (discipline initial).Triple i
      (Owns i {
        excl := [target.inodeBlock]
        request := some request
        events := [.start i, .commit i (.writeBlock user path index data) none] })
      (next true) Post) :
    (discipline initial).Triple i (Owns i l')
      (call (.lock target.inodeBlock) >>= fun _ =>
        writeLocked user index data target >>= next) Post := by
  have hbase := Local.start_unlocked (i := i) request []
  simp only [writeLocked, Prog.bind_assoc]
  refine triple_enter hbase htraversed fun pin hentered => ?_
  have hforget : ∀ written : List (BlockNo × Block),
      (discipline initial).Triple i
        (Owns i { Local.start i request [] with
          excl := [target.inodeBlock], pins := [pin], written := written })
        (next false) Post :=
    fun written => triple_weaken _ _ (by simp [Local.start])
      (by simp [Local.start]) hfailed
  refine triple_read pin List.mem_cons_self
    (Or.inl hentered.block_eq.symm) ?_
  rw [hentered.inode]
  split
  · exact hforget []
  · rename_i hcheck
    simp only [ne_eq, not_or, Decidable.not_not, gt_iff_lt, not_lt] at hcheck
    obtain ⟨howner, htype, hindex⟩ := hcheck
    have hseen := hentered.ownedFile howner htype
    rw [← hentered.path_eq] at hop hwritten
    split
    · rename_i hend
      simp only [Prog.bind_assoc]
      refine triple_lockFree rfl fun queue => ?_
      refine triple_freeEmpty queue rfl ?_
      split
      · refine triple_unlockFree queue rfl ?_
        exact hforget []
      · rename_i hspace
        obtain ⟨x, queue', rfl⟩ : ∃ x queue', queue = x :: queue' := by
          cases queue with
          | nil => simp at hspace
          | cons x queue' => exact ⟨x, queue', rfl⟩
        refine triple_freeFront queue' rfl ?_
        refine triple_freePop (b := x) queue' rfl ?_
        refine triple_unlockFree queue' rfl ?_
        have hsize : (inodeAt pin.image pin.block).size.toNat <
            fsMaxFileBlocks := by
          rw [← hend]
          exact hbound
        have hblock : ((inodeAt pin.image pin.block).append x).block index =
            x := by
          rw [block_append, if_pos ⟨hend, hbound⟩]
        rw [hblock]
        refine triple_write (b := x) List.mem_cons_self
          (fun _ _ _ => by simp [Local.start]) rfl ?_
        refine triple_commit (p := pin.block) rfl hop rfl ?_ ?_
        · intro s hinv howns
          have hholds := (howns.locked_pin pin List.mem_cons_self).2
          have hfile := hholds.ownedFile hseen
          have hinode := hholds.agree.inodeAt
          have hx : x ∈ s.hands i := by
            rw [howns.hand]
            exact List.mem_cons_self
          refine {
            home := hholds.resolve
            excl := by simp [hentered.block_eq]
            target := Or.inl hentered.block_eq.symm
            effect := ?_
            attached := by simp
            locked := fun c hc => ?_
            detached := by simp }
          · rw [← hentered.block_eq, ← hinode, hend, ← hinode]
            refine effect_append hinv.wf hfile (by rw [hinode]; exact hsize) ?_ ?_
            · exact ⟨(hinv.conserved.hand_range i x hx).1,
                (hinv.conserved.hand_range i x hx).2,
                hinv.conserved.hand_unused i x hx⟩
            · exact (howns.written (x, data) List.mem_cons_self).2
          · have hc : c = pin.block := by
              simpa [Local.Locks, Local.start, hentered.block_eq] using hc
            rw [hc]
            exact hholds.reach
        · simpa [Local.start] using hwritten
    · rename_i hinside
      have hindex : index < (inodeAt pin.image pin.block).size.toNat := by omega
      simp only [Prog.bind_assoc]
      refine triple_commit (p := pin.block) rfl hop rfl ?_ ?_
      · intro s hinv howns
        have hholds := (howns.locked_pin pin List.mem_cons_self).2
        have hfile := hholds.ownedFile hseen
        have hinode := hholds.agree.inodeAt
        refine {
          home := hholds.resolve
          excl := by simp [hentered.block_eq]
          target := Or.inr ?_
          effect := ?_
          attached := by simp
          locked := fun c hc => ?_
          detached := by simp }
        · rw [hholds.agree.dataBlocks]
          exact block_mem_dataBlocks hindex
        · rw [← hinode]
          exact effect_overwrite hinv.wf hfile (by rw [hinode]; exact hindex) data
        · have hc : c = pin.block := by
            simpa [Local.Locks, Local.start, hentered.block_eq] using hc
          rw [hc]
          exact hholds.reach
      · simpa [Local.start] using hwritten

end Write

theorem triple_handleWriteblock
    (req : List Byte) (fields : RequestFields) (data : Block) :
    (discipline initial).Triple i
      (Owns i (Local.start i (.writeblock req fields data) []))
      (handleWriteblock req fields data >>= fun _ => call .close)
      (fun _ => Done i) := by
  have hrefuse := triple_refuse initial i
    (.writeblock req fields data)
  have hbase := Local.start_unlocked (i := i) (.writeblock req fields data) []
  unfold handleWriteblock
  cases hword : extractWord req with
  | none => exact hrefuse
  | some word =>
      obtain ⟨blockStr, rest⟩ := word
      simp only
      split
      · exact hrefuse
      · rename_i hblock
        split
        · exact hrefuse
        · rename_i hbound
          cases hpath : pathParser fields.pathname with
          | none => exact hrefuse
          | some pathNames =>
              simp only [Prog.bind_assoc]
              refine triple_traverseDir hbase ?_ ?_
              · intro bad last hbad hparent
                simp only [hbad, if_true]
                rw [hparent]
                exact triple_leaveShared _ hbase hrefuse
              · intro good l' hgood htraversed
                simp only [hgood, Bool.true_eq_false, if_false, Prog.bind_assoc]
                have hop : (Request.writeblock req fields data).op =
                    some (.writeBlock fields.username pathNames
                      (stoi blockStr) data) := by
                  have hindex : blockIndex req = some (stoi blockStr) := by
                    simp only [blockIndex, hword]
                    rw [if_pos]
                    exact ⟨by simpa using hblock, by omega⟩
                  simp [Request.op, hindex, hpath]
                refine triple_writeLocked hop (by omega) htraversed ?_ ?_
                · exact triple_leave _ hbase rfl hrefuse
                · refine triple_leave {
                    request := some (Request.writeblock req fields data)
                    events := _ } ⟨rfl, rfl, rfl, rfl⟩ rfl ?_
                  exact triple_respond hop (by
                    simp only [Request.response, Request.fields, hword,
                      Option.map_some, Option.getD_some])

end FileServer
end Eecs482
