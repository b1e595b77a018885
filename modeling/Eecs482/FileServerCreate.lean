import Eecs482.FileServerHandlerRules

/-!
# FS_CREATE
-/

namespace Eecs482
namespace FileServer

open Discipline

variable {initial : Disk} {i : ℕ}

theorem NewInode.of_written
    {disk : Disk} {n : BlockNo} {stack : Stack} {type : Byte}
    {fields : RequestFields} (hfresh : Fresh disk n)
    (htype : type = dirType ∨ type = fileType)
    (hwritten : disk n = ofInode (newInode stack type fields.username)) :
    NewInode disk n type fields.username := by
  have hinode : inodeAt disk n = newInode stack type fields.username := by
    rw [inodeAt, hwritten, asInode_ofInode]
  have hlength : fields.username.length < fsMaxUserName + 1 := by
    have := fields.username_length
    omega
  refine ⟨hfresh, by rw [hinode]; rfl, htype, ?_, ?_, by rw [hinode]; rfl⟩
  · rw [ownerAt, hinode]
    exact cString_strcpy _ hlength fields.username_noNul
  · rw [hinode]
    exact terminated_strcpy _ hlength

theorem NewEntry.of_strcpy
    {disk : Disk} {p n : BlockNo} {name : Name} (old : FsDirentry)
    (hlength : name.length ≤ fsMaxFileName) (hnul : (0 : Byte) ∉ name)
    (habsent : childOf disk p name = none) :
    NewEntry disk p { name := strcpy old.name name, inodeBlock := n } n name := by
  have hlength : name.length < fsMaxFileName + 1 := by omega
  exact ⟨rfl, cString_strcpy _ hlength hnul, terminated_strcpy _ hlength,
    habsent⟩

theorem usedEntries_newEntries
    (entries : Entries) (slot : Fin fsDirentries) (name : Name) {n : BlockNo}
    (hn : n ≠ 0) :
    usedEntries (newEntries entries true slot name n) =
      [newEntries entries true slot name n slot] := by
  have hslot : newEntries entries true slot name n slot =
      { name := strcpy (entries slot).name name, inodeBlock := n } := by
    simp [newEntries]
  have hset := usedEntries_set (i := slot)
    (fun k => { entries k with inodeBlock := 0 })
    { name := strcpy (entries slot).name name, inodeBlock := n }
    rfl hn
  have hnone : usedEntries (fun k => { entries k with inodeBlock := 0 }) =
      [] := by
    unfold usedEntries
    rw [List.filter_eq_nil_iff]
    intro entry hentry
    obtain ⟨k, rfl⟩ := List.mem_ofFn.mp hentry
    simp
  rw [hnone] at hset
  rw [hslot]
  exact List.perm_singleton.mp hset

section Create

variable {request : Request} {fields : RequestFields} {type : Byte}
variable {stack : Stack} {path : Path} {name : Name} {n : BlockNo}
variable {target : TargetInode} {l' : Local}
variable {α : Type} {Post : α → Server → Prop}

/-- Both branches of the second reservation. -/
theorem triple_growDirectory
    {l : Local} {inode : FsInode} {dirBlock : BlockNo}
    {next : Option (BlockNo × Option FsInode) → FsProg α}
    (hfree : l.free = none) (hhand : l.hand = [n]) (hwritten : l.written = [])
    (hpins : ∀ c, l.Locks c → ∃ pin ∈ l.pins, pin.block = c)
    (hfull : (discipline initial).Triple i (Owns i { l with hand := [] })
      (next none) Post)
    (hgrown : ∀ x, dirBlock = noEmptyBlock →
      (inode.size + 1).toNat ≤ fsMaxFileBlocks →
      (discipline initial).Triple i (Owns i { l with hand := [x, n] })
        (next (some (x, some (inode.append x)))) Post)
    (hslot : dirBlock ≠ noEmptyBlock →
      (discipline initial).Triple i (Owns i l) (next (some (dirBlock, none)))
        Post) :
    (discipline initial).Triple i (Owns i l)
      (growDirectory inode dirBlock n >>= next) Post := by
  simp only [growDirectory, Prog.bind_assoc]
  refine triple_lockFree hfree fun queue => ?_
  split
  · rename_i hnone
    simp only [Prog.bind_assoc]
    refine triple_freeEmpty queue rfl ?_
    split
    · simp only [Prog.bind_assoc]
      refine triple_freePush queue [] rfl
        (by simp [hhand]) (fun s hinv howns => ?_) (by simp) ?_
      · exact hinv.not_locks_of_hand howns hpins (by simp [hhand])
      · refine triple_unlockFree (queue ++ [n]) rfl ?_
        have herase : l.hand.erase n = [] := by simp [hhand]
        simp only [herase, ← hfree, ← hwritten]
        exact hfull
    · rename_i hspace
      simp only [not_or, not_lt, gt_iff_lt, Bool.not_eq_true] at hspace
      obtain ⟨x, queue', rfl⟩ : ∃ x queue', queue = x :: queue' := by
        cases queue with
        | nil => simp at hspace
        | cons x queue' => exact ⟨x, queue', rfl⟩
      simp only [Prog.bind_assoc]
      refine triple_freeFront queue' rfl ?_
      refine triple_freePop (b := x) queue' rfl ?_
      refine triple_unlockFree queue' rfl ?_
      simp only [hhand, ← hfree]
      exact hgrown x hnone hspace.2
  · rename_i hsome
    simp only [Prog.bind_assoc]
    refine triple_unlockFree queue rfl ?_
    simp only [← hfree]
    exact hslot hsome

theorem commits_create_in_slot
    {s : Server} {l : Local} {pin : Pin} {x : BlockNo}
    {slot : Fin fsDirentries}
    (hinv : Inv initial s) (howns : Owns i l s) (hpin : pin ∈ l.pins)
    (hexcl : l.excl = [pin.block]) (hshared : l.shared = [])
    (hhand : n ∈ l.hand) (htype : type = dirType ∨ type = fileType)
    (hseen : EditableDir pin.image fields.username pin.path pin.block)
    (hwritten : (n, ofInode (newInode stack type fields.username)) ∈ l.written)
    (hx : x ∈ dataBlocks pin.image pin.block)
    (hslot : (asEntries (pin.image x) slot).inodeBlock = 0)
    (hlength : name.length ≤ fsMaxFileName) (hnul : (0 : Byte) ∉ name)
    (habsent : childOf pin.image pin.block name = none) :
    Commits s l pin.block x
      (ofEntries (newEntries (asEntries (pin.image x)) false slot name n))
      (.create fields.username (pin.path ++ [name]) type)
      { attached := [n], detached := [] } := by
  have hholds := (howns.locked_pin _ hpin).2
  have hmem : n ∈ s.hands i := by
    rw [howns.hand]
    exact hhand
  have hfresh : Fresh s.disk n :=
    ⟨(hinv.conserved.hand_range i n hmem).1,
      (hinv.conserved.hand_range i n hmem).2,
      hinv.conserved.hand_unused i n hmem⟩
  have hinode := NewInode.of_written hfresh htype (howns.written _ hwritten).2
  refine {
    home := by simpa [FsOp.home] using hholds.resolve
    excl := by simp [hexcl]
    target := Or.inr (by rw [hholds.agree.dataBlocks]; exact hx)
    effect := ?_
    attached := by simpa using hhand
    locked := fun c hc => ?_
    detached := by simp }
  · rw [newEntries, if_neg (by simp), ← hholds.read (Or.inr hx)]
    refine effect_create_in_slot hinv.wf (hholds.editableDir hseen) ?_ ?_
      (NewEntry.of_strcpy _ hlength hnul ?_) hinode
    · rw [hholds.agree.dataBlocks]
      exact hx
    · rw [hholds.read (Or.inr hx)]
      exact hslot
    · rw [hholds.agree.childOf]
      exact habsent
  · have hc : c = pin.block := by
      simpa [Local.Locks, hexcl, hshared] using hc
    rw [hc]
    exact hholds.reach

theorem commits_create_in_new_block
    {s : Server} {l : Local} {pin : Pin} {b x : BlockNo} {entries : Entries}
    {slot : Fin fsDirentries} (hb : b = pin.block)
    (hinv : Inv initial s) (howns : Owns i l s) (hpin : pin ∈ l.pins)
    (hexcl : l.excl = [pin.block]) (hshared : l.shared = [])
    (hhand : l.hand = [x, n]) (htype : type = dirType ∨ type = fileType)
    (hseen : EditableDir pin.image fields.username pin.path pin.block)
    (hwritten : (n, ofInode (newInode stack type fields.username)) ∈ l.written)
    (hnew : (x, ofEntries (newEntries entries true slot name n)) ∈ l.written)
    (hsize : (inodeAt pin.image pin.block).size.toNat < fsMaxFileBlocks)
    (hlength : name.length ≤ fsMaxFileName) (hnul : (0 : Byte) ∉ name)
    (habsent : childOf pin.image pin.block name = none) :
    Commits s l pin.block b
      (ofInode ((inodeAt pin.image pin.block).append x))
      (.create fields.username (pin.path ++ [name]) type)
      { attached := [n, x], detached := [] } := by
  have hholds := (howns.locked_pin _ hpin).2
  have hfresh : ∀ y ∈ s.hands i, Fresh s.disk y := fun y hy =>
    ⟨(hinv.conserved.hand_range i y hy).1, (hinv.conserved.hand_range i y hy).2,
      hinv.conserved.hand_unused i y hy⟩
  have hhands : s.hands i = [x, n] := howns.hand.trans hhand
  have hne : n ≠ x := by
    have hnodup := hinv.conserved.hand_nodup i
    rw [hhands] at hnodup
    have hxn : x ≠ n := by simpa using hnodup
    exact hxn.symm
  have hnfresh := hfresh n (by simp [hhands])
  have hinode := NewInode.of_written hnfresh htype (howns.written _ hwritten).2
  have hentries : entriesAt s.disk x =
      [newEntries entries true slot name n slot] := by
    rw [entriesAt_eq, (howns.written _ hnew).2, asEntries_ofEntries]
    exact usedEntries_newEntries entries slot name hnfresh.1
  have hentry : NewEntry s.disk pin.block
      (newEntries entries true slot name n slot) n name := by
    have hslot : newEntries entries true slot name n slot =
        { name := strcpy (entries slot).name name, inodeBlock := n } := by
      simp [newEntries]
    rw [hslot]
    refine NewEntry.of_strcpy (entries slot) hlength hnul ?_
    rw [hholds.agree.childOf]
    exact habsent
  subst hb
  refine {
    home := by simpa [FsOp.home] using hholds.resolve
    excl := by simp [hexcl]
    target := Or.inl rfl
    effect := ?_
    attached := by simp [hhand]
    locked := fun c hc => ?_
    detached := by simp }
  · rw [← hholds.agree.inodeAt]
    exact effect_create_in_new_block hinv.wf (hholds.editableDir hseen)
      (by rw [hholds.agree.inodeAt]; exact hsize) (hfresh x (by simp [hhands]))
      hne hentries hentry hinode
  · have hc : c = pin.block := by
      simpa [Local.Locks, hexcl, hshared] using hc
    rw [hc]
    exact hholds.reach

/-- The scope of the write lock: the node is created, or nothing happens. -/
theorem triple_createLocked
    {next : Bool → FsProg α}
    (htype : type = dirType ∨ type = fileType)
    (hop : request.op =
      some (.create fields.username (path ++ [name]) type))
    (hlength : name.length ≤ fsMaxFileName) (hnul : (0 : Byte) ∉ name)
    (htraversed : Traversed (Local.start i request [n]) fields.username path
      target l')
    (hfailed : (discipline initial).Triple i
      (Owns i { Local.start i request [] with excl := [target.inodeBlock] })
      (next false) Post)
    (hcreated : (discipline initial).Triple i
      (Owns i {
        excl := [target.inodeBlock]
        request := some request
        events := [.start i,
          .commit i (.create fields.username (path ++ [name]) type) none] })
      (next true) Post) :
    (discipline initial).Triple i (Owns i l')
      (call (.lock target.inodeBlock) >>= fun _ =>
        createLocked stack type fields.username name n target >>= next) Post := by
  have hbase := Local.start_unlocked (i := i) request [n]
  simp only [createLocked, Prog.bind_assoc]
  refine triple_enter hbase htraversed fun pin hentered => ?_
  have hforget : (discipline initial).Triple i
      (Owns i { Local.start i request [] with
        excl := [target.inodeBlock], pins := [pin] })
      (next false) Post :=
    triple_weaken _ _ (by simp [Local.start]) (by simp [Local.start]) hfailed
  have hpins : ∀ c, ({ Local.start i request [n] with
      excl := [target.inodeBlock], pins := [pin] } : Local).Locks c →
      ∃ q ∈ [pin], q.block = c := by
    intro c hc
    have hc : c = target.inodeBlock := by
      simpa [Local.Locks, Local.start] using hc
    exact ⟨pin, List.mem_cons_self, by rw [hentered.block_eq, hc]⟩
  have herase : [n].erase n = ([] : List BlockNo) := by simp
  have hreturn : ∀ next' : Unit → FsProg α, next' () = next false →
      (discipline initial).Triple i
        (Owns i { Local.start i request [n] with
          excl := [target.inodeBlock], pins := [pin] })
        (returnEmptyBlock n >>= next') Post := by
    intro next' hnext'
    refine triple_returnEmptyBlock rfl List.mem_cons_self hpins ?_
    rw [hnext']
    simp only [Local.start, herase]
    exact hforget
  refine triple_read pin List.mem_cons_self
    (Or.inl hentered.block_eq.symm) ?_
  rw [hentered.inode]
  split
  · simp only [Prog.bind_assoc]
    exact hreturn _ rfl
  · rename_i hedit
    have hseen := hentered.editableDir (by simpa using hedit)
    rw [← hentered.path_eq] at hop hcreated
    simp only [Prog.bind_assoc]
    refine triple_checkExistance pin List.mem_cons_self _ _ ?_
    cases hchild : childOf pin.image pin.block name with
    | some child =>
        obtain ⟨k, j, _, _, _, hscan⟩ := scan_of_childOf_some pin.wf pin.reach
          hseen.dir hchild {} (some stack.parentEntries)
        rw [hscan]
        simp only [foundAt, if_true, Prog.bind_assoc]
        exact hreturn _ rfl
    | none =>
        have hpassed := scan_of_childOf_none pin.wf pin.reach hseen.dir hchild
          {} (some stack.parentEntries)
        generalize scan pin.image (inodeAt pin.image pin.block) {} name
          (some stack.parentEntries) = found at hpassed
        obtain ⟨info, output⟩ := found
        have hslotSeen := hpassed.slot (Or.inl rfl)
        have hvalid : info.valid = false := hpassed.valid
        simp only [hvalid, Bool.false_eq_true, if_false, Prog.bind_assoc]
        refine triple_growDirectory (n := n) rfl rfl rfl hpins ?_ ?_ ?_
        · simpa [Local.start] using hforget
        · intro x hfull hroom
          have hsize : (inodeAt pin.image pin.block).size.toNat <
              fsMaxFileBlocks := by
            have hle := pin.wf.size_le pin.block pin.reach
            have hadd : ((inodeAt pin.image pin.block).size + 1).toNat =
                (inodeAt pin.image pin.block).size.toNat + 1 := by
              change _ ≤ 124 at hle
              simp only [UInt32.toNat_add, UInt32.reduceToNat]
              omega
            rw [hadd] at hroom
            omega
          simp only [Prog.bind_assoc]
          refine triple_write (b := n) (by simp)
            (fun _ _ _ => by simp [Local.start]) rfl ?_
          refine triple_write (b := x) (by simp)
            (fun s hinv howns w hw => ?_) rfl ?_
          · have hnodup := hinv.conserved.hand_nodup i
            have hhand : s.hands i = [x, n] := howns.hand
            have hxn : x ≠ n := by simpa [hhand] using hnodup
            have hw : w.1 = n := by
              have hw : w ∈ [(n, _)] := hw
              rw [List.mem_singleton.mp hw]
            rw [hw]
            exact hxn.symm
          refine triple_commit (p := pin.block) rfl hop rfl ?_ ?_
          · intro s hinv howns
            exact commits_create_in_new_block hentered.block_eq.symm hinv howns List.mem_cons_self
              (by rw [hentered.block_eq]) rfl rfl htype hseen
              (List.mem_cons_of_mem _ List.mem_cons_self) List.mem_cons_self
              hsize hlength hnul hchild
          · simpa [Local.start] using hcreated
        · intro hsome
          obtain ⟨hx, houtput, hfree⟩ := hslotSeen.resolve_left hsome
          have houtput : output = some (asEntries
            (pin.image info.firstEmptyBlock)) := houtput
          subst houtput
          simp only [Prog.bind_assoc]
          refine triple_write (b := n) List.mem_cons_self
            (fun _ _ _ => by simp [Local.start]) rfl ?_
          refine triple_commit (p := pin.block) rfl hop rfl ?_ ?_
          · intro s hinv howns
            exact commits_create_in_slot hinv howns List.mem_cons_self
              (by rw [hentered.block_eq]) rfl List.mem_cons_self htype hseen
              List.mem_cons_self hx hfree hlength hnul hchild
          · simpa [Local.start] using hcreated

end Create

theorem triple_handleCreate
    (stack : Stack) (req : List Byte) (fields : RequestFields) :
    (discipline initial).Triple i
      (Owns i (Local.start i (.create req fields) []))
      (handleCreate stack req fields >>= fun _ => call .close)
      (fun _ => Done i) := by
  have hrefuse := triple_refuse initial i
    (.create req fields)
  unfold handleCreate
  cases hword : extractWord req with
  | none => exact hrefuse
  | some word =>
      obtain ⟨typeWord, rest⟩ := word
      simp only
      split
      · exact hrefuse
      · rename_i htypeWord
        simp only [ne_eq, not_and_or, Decidable.not_not] at htypeWord
        obtain ⟨type, rfl, htype⟩ :
            ∃ type, typeWord = [type] ∧ (type = dirType ∨ type = fileType) := by
          rcases htypeWord with rfl | rfl
          · exact ⟨fileType, rfl, Or.inr rfl⟩
          · exact ⟨dirType, rfl, Or.inl rfl⟩
        cases hpath : pathParser fields.pathname with
        | none => exact hrefuse
        | some pathNames =>
            obtain ⟨hsplit, hlength, hnul⟩ := pathParser_split hpath
            have hop : (Request.create req fields).op =
                some (.create fields.username
                  (pathNames.dropLast ++ [pathNames.getLastD []]) type) := by
              have hcreate : createType req = some type := by
                simp only [createType, hword]
                exact if_pos htype.symm
              rw [← hsplit]
              simp [Request.op, hcreate, hpath]
            simp only [Prog.bind_assoc]
            refine triple_lockFree rfl fun queue => ?_
            refine triple_freeEmpty queue rfl ?_
            split
            · refine triple_unlockFree queue rfl ?_
              exact hrefuse
            · rename_i hspace
              obtain ⟨n, queue', rfl⟩ : ∃ n queue', queue = n :: queue' := by
                cases queue with
                | nil => simp at hspace
                | cons n queue' => exact ⟨n, queue', rfl⟩
              simp only [Prog.bind_assoc]
              refine triple_freeFront queue' rfl ?_
              refine triple_freePop (b := n) queue' rfl ?_
              refine triple_unlockFree queue' rfl ?_
              have hbase := Local.start_unlocked (i := i)
                (.create req fields) [n]
              refine triple_traverseDir (l := Local.start i
                (.create req fields) [n]) hbase ?_ ?_
              · intro bad last hbad hparent
                simp only [hbad, if_true, Prog.bind_assoc]
                rw [hparent]
                refine triple_leaveShared _ hbase ?_
                refine triple_returnEmptyBlock rfl List.mem_cons_self
                  (by simp [Local.Locks, Local.start]) ?_
                have herase : [n].erase n = ([] : List BlockNo) := by simp
                simpa [Local.start] using hrefuse
              · intro good l' hgood htraversed
                simp only [hgood, Bool.true_eq_false, if_false, Prog.bind_assoc]
                refine triple_createLocked htype hop hlength hnul htraversed
                  ?_ ?_
                · exact triple_leave _
                    (Local.start_unlocked (.create req fields) []) rfl hrefuse
                · refine triple_leave {
                    request := some (Request.create req fields)
                    events := _ } ⟨rfl, rfl, rfl, rfl⟩ rfl ?_
                  exact triple_respond hop (by
                    simp only [Request.response, Request.fields, hword,
                      Option.map_some, Option.getD_some])

end FileServer
end Eecs482
