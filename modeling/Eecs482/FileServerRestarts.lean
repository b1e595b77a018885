import Eecs482.FileServerAccess
import Eecs482.FileServerSlots

/-!
# The server over restarts

A server runs until it is stopped, at any point between two of its calls, and
is started again on the disk it has left.  What was in memory is lost: the
locks, the queue of free blocks and the handlers that have not returned.  The
disk and what clients have been told survive.
-/

namespace Eecs482
namespace FileServer

variable {image disk : Disk} {past : List (List Event)}

/-- What has happened in each stay of the server, and the disk after the last
one. -/
inductive Stays (image : Disk) : List (List Event) → Disk → Prop
  | fresh : Stays image [] image
  | next {past : List (List Event)} {disk : Disk} {boot : Server}
      {c : Config fsInterface Server} (hpast : Stays image past disk)
      (hinit : initServer disk = some boot) (hreach : machine.Reachable boot c) :
      Stays image (past ++ [c.shared.events]) c.shared.disk

/-- The operations that have taken effect in all stays. -/
def ledger (past : List (List Event)) : List (FsOp × Option Block) :=
  past.flatMap history

theorem ledger_concat (past : List (List Event)) (events : List Event) :
    ledger (past ++ [events]) = ledger past ++ history events := by
  simp [ledger]

theorem Replay.append
    {tree tree' tree'' : PathTree} {before after : List (FsOp × Option Block)}
    (hbefore : Replay tree before tree') (hafter : Replay tree' after tree'') :
    Replay tree (before ++ after) tree'' := by
  induction hafter with
  | nil =>
      rw [List.append_nil]
      exact hbefore
  | snoc hhistory happly ih =>
      rw [← List.append_assoc]
      exact .snoc ih happly

/-- What a stop leaves. -/
structure Recovered (image : Disk) (past : List (List Event)) (disk : Disk) :
    Prop where
  wf : WellFormed disk
  occupied : Occupied image → Occupied disk
  law : (treeOf image).OwnershipLaw → (treeOf disk).OwnershipLaw
  /-- The server can be started again, and all blocks outside the tree are free
  then, those that a handler had in hand included. -/
  restarts : ∃ boot, initServer disk = some boot ∧ FreeList disk boot.freeBlocks
  replay : Replay (treeOf image) (ledger past) (treeOf disk)
  /-- What a client has been told has taken effect. -/
  acknowledged : ∀ events ∈ past, ∀ i message, Event.respond i message ∈ events →
    ∃ request op answer, Request.op request = some op ∧
      message = request.response answer ∧ Event.commit i op answer ∈ events ∧
      (op, answer) ∈ ledger past

theorem Stays.recovered (hwf : WellFormed image) (hstays : Stays image past disk) :
    Recovered image past disk := by
  induction hstays with
  | fresh =>
      obtain ⟨free, hinit, hfree⟩ := exists_freeList hwf
      exact {
        wf := hwf
        occupied := id
        law := id
        restarts := ⟨_, by rw [initServer, hinit, Option.map_some], hfree⟩
        replay := .nil
        acknowledged := by simp }
  | @next past disk boot c hpast hinit hreach ih =>
      obtain ⟨boot', hinit', hstarted⟩ := exists_started ih.wf
      have hsame : boot' = boot := Option.some.inj (hinit'.symm.trans hinit)
      subst hsame
      have hinv := run_inv hstarted hreach
      obtain ⟨free, hfree, hlist⟩ := exists_freeList hinv.wf
      constructor
      case wf => exact hinv.wf
      case occupied => exact fun himage => hinv.occupied (ih.occupied himage)
      case law =>
          intro himage
          exact ownershipLaw_of_reachable hstarted hreach (ih.law himage)
      case restarts => exact ⟨_, by rw [initServer, hfree, Option.map_some], hlist⟩
      case replay =>
          rw [ledger_concat]
          exact ih.replay.append hinv.replay
      case acknowledged =>
          intro events hevents i message hmessage
          rw [ledger_concat]
          rcases List.mem_append.mp hevents with hold | hnew
          · obtain ⟨request, op, answer, hop, heq, hcommit, hmem⟩ :=
              ih.acknowledged events hold i message hmessage
            exact ⟨request, op, answer, hop, heq, hcommit, List.mem_append_left _ hmem⟩
          · rw [List.mem_singleton.mp hnew] at hmessage ⊢
            obtain ⟨request, op, answer, hrequest, hcommit, heq⟩ :=
              (hinv.life i).respond_answered (mem_eventsOf.mpr ⟨hmessage, rfl⟩)
            have hcommit := (mem_eventsOf.mp hcommit).1
            have hop := hinv.requested hcommit
            rw [hrequest, Option.bind_some] at hop
            exact ⟨request, op, answer, hop, heq, hcommit,
              List.mem_append_right _ (mem_history.mpr ⟨i, hcommit⟩)⟩

/-- Whenever and however often the server is stopped, it can be started again,
with every answered request in effect and nothing half done. -/
theorem durable (image : Disk) (hwf : WellFormed image) :
    ∀ past disk, Stays image past disk → Recovered image past disk :=
  fun _ _ hstays => hstays.recovered hwf

/-- The server is stopped after thread 0 has created the file, with thread 1 in flight,
and again when a request has arrived after the restart. -/
theorem durable_freshDisk :
    ∃ first second disk, Stays freshDisk [first, second] disk ∧
      commitOrder first = [0] ∧ Recovered freshDisk [first, second] disk := by
  obtain ⟨rest, hinit, _⟩ := exists_freshServer (exists_started wellFormed_freshDisk)
  obtain ⟨c, hplay, horder⟩ :
      ∃ c, playFresh rest (creating 18) = some c ∧ commitOrder c.shared.events = [0] :=
    ⟨_, rfl, rfl⟩
  have hstay : Stays freshDisk [c.shared.events] c.shared.disk :=
    .next .fresh hinit (reachable_of_playFresh hplay)
  obtain ⟨boot, hboot, _⟩ := (hstay.recovered wellFormed_freshDisk).restarts
  have harrives : ∃ d, machine.Reachable boot d ∧
      d.shared = Server.arrive 0 ⟨deleteRequest, freshStack⟩ boot :=
    ⟨_, .step .start (.arrive 0 _ rfl), rfl⟩
  obtain ⟨d, hreach, _⟩ := harrives
  have hagain := Stays.next hstay hboot hreach
  exact ⟨_, _, _, hagain, horder, durable freshDisk wellFormed_freshDisk _ _ hagain⟩

/-! ## Reading back -/

/-- Block `index` of the file at `path` holds `data`. -/
def PathTree.HasBlock (tree : PathTree) (user : Name) (path : Path) (index : ℕ)
    (data : Block) : Prop :=
  ∃ blocks, tree path = some (.file user blocks) ∧ blocks[index]? = some data

variable {tree tree' : PathTree} {op : FsOp} {answer : Option Block}
variable {user : Name} {path : Path} {index : ℕ} {data : Block}

theorem FsOp.Applies.hasBlock
    (h : op.Applies tree answer tree') (hrenews : ¬op.Renews path)
    (hwrites : ¬op.Overwrites path index)
    (hblock : tree.HasBlock user path index data) :
    tree'.HasBlock user path index data := by
  obtain ⟨blocks, hfile, hdata⟩ := hblock
  cases h with
  | create =>
      refine ⟨blocks, ?_, hdata⟩
      rw [Function.update_of_ne fun heq => hrenews heq.symm]
      exact hfile
  | delete =>
      refine ⟨blocks, ?_, hdata⟩
      rw [Function.update_of_ne fun heq => hrenews heq.symm]
      exact hfile
  | readBlock => exact ⟨blocks, hfile, hdata⟩
  | @writeBlock _ writer target k old new habove hold hk hbound =>
      by_cases htarget : path = target
      · subst htarget
        rw [hold] at hfile
        cases hfile
        have hne : index ≠ k := fun heq => hwrites ⟨rfl, heq.symm⟩
        refine ⟨_, Function.update_self .., ?_⟩
        rw [writeAt_of_ne hne]
        exact hdata
      · refine ⟨blocks, ?_, hdata⟩
        rw [Function.update_of_ne htarget]
        exact hfile

theorem Replay.hasBlock
    {history : List (FsOp × Option Block)} (h : Replay tree history tree')
    (hquiet : Undisturbed path index history)
    (hblock : tree.HasBlock user path index data) :
    tree'.HasBlock user path index data := by
  induction h with
  | nil => exact hblock
  | snoc hhistory happly ih =>
      have hlast := hquiet _ (List.mem_append_right _ List.mem_cons_self)
      exact happly.hasBlock hlast.1 hlast.2
        (ih (fun entry hentry => hquiet entry (List.mem_append_left _ hentry)))

theorem FsOp.Applies.hasBlock_written
    (h : (FsOp.writeBlock user path index data).Applies tree answer tree') :
    tree'.HasBlock user path index data := by
  cases h with
  | writeBlock habove hfile hindex hbound =>
      exact ⟨_, Function.update_self .., writeAt_self hindex⟩

theorem FsOp.Applies.found
    {reader : Name} {found : Block}
    (h : (FsOp.readBlock reader path index).Applies tree (some found) tree')
    (hblock : tree.HasBlock user path index data) : reader = user ∧ found = data := by
  obtain ⟨blocks, hfile, hdata⟩ := hblock
  cases h with
  | readBlock habove hfile' hfound =>
      rw [hfile] at hfile'
      cases hfile'
      exact ⟨rfl, Option.some.inj (hfound.symm.trans hdata)⟩

/-- Every later read of the block finds what the write has put there, as long as
nothing else is written there and the file is not replaced. -/
structure ReadsBack (past : List (List Event)) (disk : Disk) : Prop where
  stays : ∀ before user path index data answer after,
    ledger past = before ++ (.writeBlock user path index data, answer) :: after →
    Undisturbed path index after → (treeOf disk).HasBlock user path index data
  found : ∀ before user path index data answer between reader found after,
    ledger past = before ++ (.writeBlock user path index data, answer) ::
      (between ++ (.readBlock reader path index, some found) :: after) →
    Undisturbed path index between → reader = user ∧ found = data

/-- What was written is read back, in the same stay of the server and in all
later ones. -/
theorem readsBack
    (image : Disk) (hwf : WellFormed image) (past : List (List Event)) (disk : Disk)
    (hstays : Stays image past disk) : ReadsBack past disk := by
  have hreplay := (hstays.recovered hwf).replay
  constructor
  · intro before user path index data answer after hledger hquiet
    rw [hledger] at hreplay
    obtain ⟨tree₁, tree₂, _, hwrite, hafter⟩ := hreplay.split
    exact hafter.hasBlock hquiet hwrite.hasBlock_written
  · intro before user path index data answer between reader found after hledger hquiet
    rw [hledger] at hreplay
    obtain ⟨tree₁, tree₂, _, hwrite, hafter⟩ := hreplay.split
    obtain ⟨tree₃, tree₄, hbetween, hread, _⟩ := hafter.split
    exact hread.found (hbetween.hasBlock hquiet hwrite.hasBlock_written)

/-- A server that has been started carries out a request that applies. -/
theorem Stays.exists_next
    (hwf : WellFormed image) (hoccupied : Occupied image)
    (hstays : Stays image past disk) (stack : Stack) {request : Request}
    (hop : request.op = some op) (happly : op.Applies (treeOf disk) answer tree)
    (hroom : ∀ free, FreeList disk free → op.Room disk free) :
    ∃ events disk', Stays image (past ++ [events]) disk' ∧
      ledger (past ++ [events]) = ledger past ++ [(op, answer)] ∧ treeOf disk' = tree := by
  have hrecovered := hstays.recovered hwf
  obtain ⟨free, hinit, hfree⟩ := exists_freeList hrecovered.wf
  have hstarted := started_of_freeList hrecovered.wf hfree
  obtain ⟨final, hrun, hreach⟩ :=
    exists_aloneRun hrecovered.wf hfree 0 ⟨request, stack⟩
  have hboot : initServer disk = some (restServer disk free) := by
    rw [initServer, hinit]
    rfl
  have hresponded : Responded 0 final :=
    ((ends_serve (atRest_arrived disk free 0 ⟨request, stack⟩) hrecovered.wf
      (hrecovered.occupied hoccupied) hop happly).post hrun).mpr (hroom free hfree)
  obtain ⟨message, hmessage⟩ := hresponded
  have hpool := run_invariant hstarted hreach
  obtain ⟨asked, events, hlife, _, hown⟩ := hpool.done (i := 0) (onlyThread_self 0 _)
  have hevents : events = final.events :=
    hown.events.symm.trans (eventsOf_of_ended hrecovered.wf hfree 0 hreach)
  subst hevents
  have hkeeps := Machine.alone_keeps (P := fun _ => True) Server.request
    (fun _ _ _ _ _ hexec => Server.exec_request hexec)
    (Prog.calls_true (machine.program ⟨request, stack⟩)) hrun
  have hasked : final.request 0 = some request := by
    rw [hkeeps]
    simp [arrived, Server.arrive]
  obtain rfl : asked = request := Option.some.inj (hown.request.symm.trans hasked)
  have hreplay := (run_inv hstarted hreach).replay
  refine ⟨final.events, final.disk, .next hstays hboot hreach, ?_⟩
  rw [ledger_concat]
  generalize final.events = log at hlife hmessage hreplay
  cases hlife with
  | started => simp at hmessage
  | refused => simp at hmessage
  | committed hop' => simp at hmessage
  | @responded _ op' answer' hop' =>
      obtain rfl : op = op' := Option.some.inj (hop.symm.trans hop')
      have happly' := Replay.applies (by simpa [history] using hreplay)
      obtain ⟨rfl, htree⟩ := happly'.unique happly
      exact ⟨by simp [history], htree⟩
  | @answered _ op' answer' hop' =>
      obtain rfl : op = op' := Option.some.inj (hop.symm.trans hop')
      have happly' := Replay.applies (by simpa [history] using hreplay)
      obtain ⟨rfl, htree⟩ := happly'.unique happly
      exact ⟨by simp [history], htree⟩

theorem appendPathname_ne_nil : ([47, 97] : Name) ≠ [] := by decide

theorem appendPathname_length : ([47, 97] : Name).length ≤ fsMaxPathName := by decide

theorem appendPathname_noNul : (0 : Byte) ∉ ([47, 97] : Name) := by decide

/-- The fields of `FS_WRITEBLOCK u /a`. -/
def appendFields : RequestFields :=
  { createFields with
    pathname := [47, 97]
    pathname_ne_nil := appendPathname_ne_nil
    pathname_length := appendPathname_length
    pathname_noNul := appendPathname_noNul }

theorem treeOf_shiftedDisk : treeOf shiftedDisk [[97]] = some (.file [117] []) := by
  have hwf := wellFormed_of_agree agree_unlinkedDisk wellFormed_freshDisk
  have hname : cString (newEntries freshStack.parentEntries true 0 [97] 1 0).name = [97] :=
    by decide
  have hleaf : (newEntries freshStack.parentEntries true 0 [97] 1 0).inodeBlock = 1 := rfl
  have hinode : inodeAt shiftedDisk 1 = newInode freshStack fileType [117] := by
    rw [inodeAt, shiftedDisk, Function.update_of_ne (by decide), unlinkedDisk,
      Function.update_of_ne (by decide), Function.update_self, asInode_ofInode]
  have hroot : resolve unlinkedDisk [] = some 0 := rfl
  rw [addsEntry_shiftedDisk.treeOf hwf hroot, hname, hleaf, List.nil_append,
    Function.update_self]
  have howner : cString (newInode freshStack fileType [117]).owner = [117] := by decide
  have hblocks : (newInode freshStack fileType [117]).dataBlocks = [] := rfl
  unfold nodeAt dataBlocks ownerAt
  rw [hinode, if_neg (by decide), howner, hblocks, List.map_nil]

theorem room_shiftedDisk {free : List BlockNo} (hfree : FreeList shiftedDisk free) :
    free ≠ [] := by
  have hwf := wellFormed_of_agree agree_unlinkedDisk wellFormed_freshDisk
  have htwo : (2 : BlockNo) ∈ free := by
    rw [hfree.mem_iff, addsEntry_shiftedDisk.used_iff hwf]
    refine ⟨by decide, by decide, ?_⟩
    rintro (hused | hmem)
    · exact (fresh_unlinkedDisk (by decide) (by decide)).2.2 hused
    · revert hmem
      decide
  exact List.ne_nil_of_mem htwo

/-- `FS_WRITEBLOCK u /a 0` after the create of `/a`, and a restart. -/
theorem readsBack_shiftedDisk :
    ∃ past disk data, Stays shiftedDisk past disk ∧
      ledger past = [(.writeBlock [117] [[97]] 0 data, none)] ∧ ReadsBack past disk := by
  have hwf := wellFormed_of_agree agree_unlinkedDisk wellFormed_freshDisk
  have hoccupied : Occupied shiftedDisk := by
    apply addsEntry_shiftedDisk.keeps_occupied hwf
    exact occupied_of_agree agree_unlinkedDisk occupied_freshDisk
  have happly : (FsOp.writeBlock [117] [[97]] 0 fun _ => 1).Applies
      (treeOf shiftedDisk) none (Function.update (treeOf shiftedDisk) [[97]]
        (some (.file [117] (writeAt [] 0 fun _ => 1)))) := by
    refine .writeBlock ?_ treeOf_shiftedDisk (Nat.le_refl _) (by decide)
    intro front hpre hne hself
    have hpre : front <+: [] ++ [[97]] := hpre
    rcases prefix_snoc_cases hpre with hnil | heq
    · exact absurd (List.prefix_nil.mp hnil) hne
    · exact absurd heq hself
  have hop : Request.op (.writeblock [space, 48] appendFields fun _ => 1) =
      some (.writeBlock [117] [[97]] 0 fun _ => 1) := by
    have hindex : blockIndex [space, 48] = some 0 := by decide
    have hpath : pathParser appendFields.pathname = some [[97]] := by decide
    rw [Request.op, hindex, hpath]
    rfl
  obtain ⟨events, disk, hstays, hledger, _⟩ :=
    Stays.fresh.exists_next wellFormed_shiftedDisk hoccupied freshStack hop happly
      fun free hfree _ _ _ _ => room_shiftedDisk hfree
  exact ⟨_, disk, _, hstays, hledger, readsBack _ wellFormed_shiftedDisk _ _ hstays⟩

end FileServer
end Eecs482
