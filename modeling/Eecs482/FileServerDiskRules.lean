import Eecs482.FileServerRules

/-!
# Rules for the disk and the socket

A read of a pinned inode or of one of its data blocks answers with what the pin
saw.  A write before the commit goes to a block in hand, outside the tree.  The
commit itself is one marked read or write; its rule is where the invariant of
the whole server changes.
-/

namespace Eecs482
namespace FileServer

variable {initial : Disk} {i : ℕ} {l : Local} {s : Server} {b : BlockNo}
variable {α : Type} {Post : α → Server → Prop}

theorem history_append (events : List Event) (event : Event) :
    history (events ++ [event]) =
      history events ++ history [event] := by
  simp [history, List.filterMap_append]

theorem eventsOf_append_of_ne
    {j : ℕ} {events : List Event} {event : Event} (hj : event.thread ≠ j) :
    eventsOf j (events ++ [event]) = eventsOf j events := by
  rw [eventsOf_append, if_neg hj, List.append_nil]

theorem eventsOf_append_self (events : List Event) (event : Event) :
    eventsOf event.thread (events ++ [event]) =
      eventsOf event.thread events ++ [event] := by
  rw [eventsOf_append, if_pos rfl]

/-! ## Reading -/

theorem triple_read
    {next : Block → FsProg α} (pin : Pin) (hpin : pin ∈ l.pins)
    (hb : b = pin.block ∨ b ∈ dataBlocks pin.image pin.block)
    (hnext : (discipline initial).Triple i (Owns i l) (next (pin.image b))
      Post) :
    (discipline initial).Triple i (Owns i l)
      (call (.diskReadblock b false) >>= next) Post := by
  refine triple_step (.diskReadblock b false) (pin.image b)
    l (atomic_of ?_ ?_) hnext
  · exact fun _ _ _ => pin.range hb
  · intro s answer t hinv howns hexec
    simp only [Server.exec, Bool.false_eq_true, if_false] at hexec
    cases hexec
    exact ⟨hinv, Quiet.of_queue rfl rfl (fun _ _ => Iff.rfl) (Or.inl rfl)
      (fun _ _ => rfl) rfl rfl, (howns.locked_pin _ hpin).2.read hb, howns⟩

/-- The server after an event of thread `i` has been recorded. -/
theorem Inv.log
    (hinv : Inv initial s) (howns : Owns i l s) {event : Event}
    (hthread : event.thread = i)
    (hreplay : Replay (treeOf initial) (history s.events ++ history [event])
      (treeOf s.disk))
    (hlife : Life i l.request (l.events ++ [event])) :
    Inv initial (s.log event) := by
  refine { hinv with
    conserved := { hinv.conserved with }
    replay := by
      simpa only [Server.log, history_append] using hreplay
    life := fun j => ?_ }
  by_cases hj : j = i
  · subst hj
    subst hthread
    simp only [Server.log, eventsOf_append_self, howns.events, howns.request]
    exact hlife
  · have hne : event.thread ≠ j := by
      rw [hthread]
      exact fun h => hj h.symm
    simp only [Server.log, eventsOf_append_of_ne hne]
    exact hinv.life j

theorem quiet_log {event : Event} (hthread : event.thread = i) :
    Quiet i s (s.log event) where
  readers _ _ _ := rfl
  writer _ _ _ := Iff.rfl
  steady _ _ _ _ hb := steady_of_agree (fun _ _ => Agree.refl _ _) hb
  freeLock _ _ := Iff.rfl
  freeBlocks := Or.inl rfl
  hands _ _ := rfl
  written _ _ _ _ := rfl
  request _ _ := rfl
  events j hj := by
    apply eventsOf_append_of_ne
    rw [hthread]
    exact fun h => hj h.symm

theorem Owns.log
    (howns : Owns i l s) (event : Event) (hthread : event.thread = i) :
    Owns i { l with events := l.events ++ [event] } (s.log event) := by
  subst hthread
  exact { howns with
    events := by
      simp only [Server.log, eventsOf_append_self, howns.events] }

theorem Server.commit_eq
    {request : Request} {op : FsOp} {answer : Option Block}
    (hrequest : s.request i = some request) (hop : request.op = some op) :
    s.commit i answer = s.log (.commit i op answer) := by
  simp [Server.commit, hrequest, hop]

/-- The read that answers a request. -/
theorem triple_readCommit
    {next : Block → FsProg α} (pin : Pin) {request : Request} {op : FsOp}
    (hpin : pin ∈ l.pins)
    (hb : b = pin.block ∨ b ∈ dataBlocks pin.image pin.block)
    (hrequest : l.request = some request) (hop : request.op = some op)
    (hevents : l.events = [.start i])
    (happlies : ∀ disk, WellFormed disk → pin.Holds disk →
      op.Applies (treeOf disk) (some (pin.image b)) (treeOf disk))
    (hnext : (discipline initial).Triple i
      (Owns i { l with
        events := [.start i, .commit i op (some (pin.image b))] })
      (next (pin.image b)) Post) :
    (discipline initial).Triple i (Owns i l)
      (call (.diskReadblock b true) >>= next) Post := by
  refine triple_step (.diskReadblock b true) (pin.image b)
    { l with events := [.start i, .commit i op (some (pin.image b))] }
    (atomic_of ?_ ?_) hnext
  · exact fun _ _ _ => pin.range hb
  · intro s answer t hinv howns hexec
    have hholds := (howns.locked_pin _ hpin).2
    simp only [Server.exec, if_true, hholds.read hb,
      Server.commit_eq (howns.request.trans hrequest) hop] at hexec
    cases hexec
    refine ⟨hinv.log howns rfl ?_ ?_, quiet_log rfl, rfl, ?_⟩
    · exact Replay.snoc hinv.replay (happlies s.disk hinv.wf hholds)
    · rw [hrequest, hevents]
      exact Life.committed hop
    · simpa [hevents] using
        howns.log (.commit i op (some (pin.image b))) rfl

/-! ## Writing -/

/-- Writing a block in hand does not touch the tree. -/
theorem Inv.agree_write
    (hinv : Inv initial s) (hb : b ∈ s.hands i) (block : Block) :
    ∀ c, Reach s.disk c → Agree s.disk (Function.update s.disk b block) c :=
  fun _ hc => agree_update_of_not_used hc
    (hinv.conserved.hand_range i b hb).1 (hinv.conserved.hand_unused i b hb)

theorem Inv.write
    (hinv : Inv initial s) (hb : b ∈ s.hands i) (block : Block) :
    Inv initial { s with disk := Function.update s.disk b block } := by
  have hagree := hinv.agree_write hb block
  have hused := used_of_agree hagree
  refine { hinv with
    wf := wellFormed_of_agree hagree hinv.wf
    occupied := fun h => occupied_of_agree hagree (hinv.occupied h)
    replay := by
      rw [treeOf_of_agree hagree]
      exact hinv.replay
    conserved := { hinv.conserved with
      free_unused := fun x hx => by
        rw [hused]
        exact hinv.conserved.free_unused x hx
      hand_unused := fun j x hx => by
        rw [hused]
        exact hinv.conserved.hand_unused j x hx
      complete := fun x hzero hrange => by
        rw [hused]
        exact hinv.conserved.complete x hzero hrange }
    locked := fun j c hlock => ?_ }
  rw [reach_of_agree hagree]
  exact hinv.locked j c hlock

/-- A write before the commit. -/
theorem triple_write
    {next : Unit → FsProg α} {block : Block} (hb : b ∈ l.hand)
    (hnew : ∀ s, Inv initial s → Owns i l s → ∀ w ∈ l.written, w.1 ≠ b)
    (hevents : l.events = [.start i])
    (hnext : (discipline initial).Triple i
      (Owns i { l with written := (b, block) :: l.written }) (next ()) Post) :
    (discipline initial).Triple i (Owns i l)
      (call (.diskWriteblock b block none) >>= next) Post := by
  refine triple_step _ ()
    { l with written := (b, block) :: l.written }
    (atomic_of ?_ ?_) hnext
  · intro s _ howns
    exact ⟨by rw [howns.hand]; exact hb, by rw [howns.events]; exact hevents⟩
  · intro s answer t hinv howns hexec
    have hmem : b ∈ s.hands i := by
      rw [howns.hand]
      exact hb
    have hagree := hinv.agree_write hmem block
    simp only [Server.exec] at hexec
    cases hexec
    refine ⟨hinv.write hmem block, ?_, rfl, ?_⟩
    · constructor
      · exact fun _ _ _ => rfl
      · exact fun _ _ _ => Iff.rfl
      · exact fun j _ c _ hc => steady_of_agree hagree hc
      · exact fun _ _ => Iff.rfl
      · exact Or.inl rfl
      · exact fun _ _ => rfl
      · intro j hj x hx
        refine Function.update_of_ne ?_ _ _
        rintro rfl
        exact hj (hinv.conserved.hand_unique j i x hx hmem)
      · exact fun _ _ => rfl
      · exact fun _ _ => rfl
    · exact { howns with
        pinned := fun pin hpin => by
          obtain ⟨hlock, hholds⟩ := howns.pinned pin hpin
          exact ⟨hlock, hholds.steady (steady_of_agree hagree hholds.reach)⟩
        written := fun w hw => by
          rcases List.mem_cons.mp hw with rfl | hw
          · exact ⟨hb, Function.update_self _ _ _⟩
          · obtain ⟨hwmem, hcontent⟩ := howns.written w hw
            refine ⟨hwmem, ?_⟩
            rw [← hcontent]
            exact Function.update_of_ne (hnew s hinv howns w hw) _ _ }

/-! ## The commit write -/

/-- A block of the tree is in nobody's hands. -/
theorem Inv.notMem_hands
    (hinv : Inv initial s) {p : BlockNo} (hp : Reach s.disk p)
    (hb : b = p ∨ b ∈ dataBlocks s.disk p) (j : ℕ) : b ∉ s.hands j := by
  intro hmem
  have hzero := (hinv.conserved.hand_range j b hmem).1
  have hunused := hinv.conserved.hand_unused j b hmem
  rcases hb with rfl | hb
  · exact hp.zero_or_used.elim hzero hunused
  · exact hunused ⟨p, hp, dataBlocks_subset_refs s.disk p hb⟩

/-- What a handler must establish for its commit write. -/
structure Commits
    (s : Server) (l : Local) (p b : BlockNo) (block : Block) (op : FsOp)
    (note : Commit) : Prop where
  home : resolve s.disk op.home = some p
  excl : p ∈ l.excl
  target : b = p ∨ b ∈ dataBlocks s.disk p
  effect : Effect s.disk (Function.update s.disk b block) p op
    note.attached note.detached
  attached : ∀ x ∈ note.attached, x ∈ l.hand
  locked : ∀ c, l.Locks c → Reach s.disk c
  detached : ∀ c ∈ note.detached, Reach s.disk c → c ∈ l.excl

theorem Commits.reach
    {p : BlockNo} {block : Block} {op : FsOp} {note : Commit}
    (h : Commits s l p b block op note) : Reach s.disk p :=
  ⟨op.home, h.home⟩

theorem Conserved.commit
    (h : Conserved s) (hwf : WellFormed s.disk) {disk' : Disk} {p : BlockNo}
    {op : FsOp} {note : Commit}
    (heffect : Effect s.disk disk' p op note.attached note.detached)
    (hattached : ∀ x ∈ note.attached, x ∈ s.hands i) :
    Conserved ({ s with disk := disk' }.setHand i (s.handsAfter i note)) := by
  have hhand : ∀ j x,
      x ∈ Function.update s.hands i (s.handsAfter i note) j ↔
        (j = i ∧ x ∈ note.detached) ∨
          (x ∈ s.hands j ∧ (j = i → x ∉ note.attached)) := by
    intro j x
    by_cases hj : j = i
    · subst hj
      simp [Server.handsAfter]
    · simp [hj]
  have hnotFree : ∀ x, Used s.disk x → x ∉ s.freeBlocks :=
    fun x hused hfree => h.free_unused x hfree hused
  constructor
  · exact h.free_range
  · exact h.free_nodup
  · intro x hx hused
    rcases ((heffect.used x).mp hused).1 with hold | hnew
    · exact h.free_unused x hx hold
    · exact h.hand_not_free i x (hattached x hnew) hx
  · intro j x hx
    rcases (hhand j x).mp hx with ⟨_, hx⟩ | ⟨hx, _⟩
    · obtain ⟨c, hc, hmem⟩ := heffect.detached_used x hx
      exact hwf.refs_range c hc x hmem
    · exact h.hand_range j x hx
  · intro j
    by_cases hj : j = i
    · subst hj
      simp only [Server.setHand, Function.update_self]
      refine List.Nodup.append heffect.detached_nodup
        ((h.hand_nodup j).filter _) ?_
      intro x hx hmem
      exact h.hand_unused j x (List.mem_of_mem_filter hmem)
        (heffect.detached_used x hx)
    · simp only [Server.setHand, Function.update_of_ne hj]
      exact h.hand_nodup j
  · intro j x hx hused
    obtain ⟨hfrom, hout⟩ := (heffect.used x).mp hused
    rcases (hhand j x).mp hx with ⟨_, hx⟩ | ⟨hx, hkept⟩
    · exact hout hx
    · rcases hfrom with hold | hnew
      · exact h.hand_unused j x hx hold
      · exact hkept (h.hand_unique j i x hx (hattached x hnew)) hnew
  · intro j x hx
    rcases (hhand j x).mp hx with ⟨_, hx⟩ | ⟨hx, _⟩
    · exact hnotFree x (heffect.detached_used x hx)
    · exact h.hand_not_free j x hx
  · intro j k x hj hk
    rcases (hhand j x).mp hj with ⟨hji, hxj⟩ | ⟨hxj, _⟩
    · rcases (hhand k x).mp hk with ⟨hki, _⟩ | ⟨hxk, _⟩
      · rw [hji, hki]
      · exact absurd (heffect.detached_used x hxj) (h.hand_unused k x hxk)
    · rcases (hhand k x).mp hk with ⟨_, hxk⟩ | ⟨hxk, _⟩
      · exact absurd (heffect.detached_used x hxk) (h.hand_unused j x hxj)
      · exact h.hand_unique j k x hxj hxk
  · intro x hzero hrange
    by_cases hdetached : x ∈ note.detached
    · exact Or.inr (Or.inr ⟨i, (hhand i x).mpr (Or.inl ⟨rfl, hdetached⟩)⟩)
    · rcases h.complete x hzero hrange with hfree | hused | ⟨j, hj⟩
      · exact Or.inl hfree
      · exact Or.inr (Or.inl ((heffect.used x).mpr ⟨Or.inl hused, hdetached⟩))
      · by_cases hattach : x ∈ note.attached
        · exact Or.inr (Or.inl
            ((heffect.used x).mpr ⟨Or.inr hattach, hdetached⟩))
        · exact Or.inr (Or.inr
            ⟨j, (hhand j x).mpr (Or.inr ⟨hj, fun _ => hattach⟩)⟩)

/-- The write that makes a request take effect. -/
theorem triple_commit
    {next : Unit → FsProg α} {block : Block} {note : Commit} {p : BlockNo}
    {request : Request} {op : FsOp}
    (hrequest : l.request = some request) (hop : request.op = some op)
    (hevents : l.events = [.start i])
    (hcommits : ∀ s, Inv initial s → Owns i l s →
      Commits s l p b block op note)
    (hnext : (discipline initial).Triple i
      (Owns i { l with
        pins := []
        written := []
        hand := note.detached ++ l.hand.filter (· ∉ note.attached)
        events := [.start i, .commit i op none] })
      (next ()) Post) :
    (discipline initial).Triple i (Owns i l)
      (call (.diskWriteblock b block (some note)) >>= next) Post := by
  refine triple_step _ () { l with
      pins := []
      written := []
      hand := note.detached ++ l.hand.filter (· ∉ note.attached)
      events := [.start i, .commit i op none] }
    (atomic_of ?_ ?_) hnext
  · intro s hinv howns
    have hc := hcommits s hinv howns
    exact ⟨⟨request, op, p, howns.request.trans hrequest, hop, hc.home,
      hc.target, hc.effect⟩, by rw [howns.events]; exact hevents⟩
  · intro s answer t hinv howns hexec
    have hc := hcommits s hinv howns
    have heffect := hc.effect
    have hattached : ∀ x ∈ note.attached, x ∈ s.hands i := by
      intro x hx
      rw [howns.hand]
      exact hc.attached x hx
    have hmine : ∀ c ∈ l.excl, ∀ j, j ≠ i → ¬Locks j c s :=
      fun c hc j hj hlock => hj (hinv.excl_unique howns hc hlock)
    simp only [Server.exec] at hexec
    have hasked : (Server.setHand { s with disk := Function.update s.disk b block }
        i (s.handsAfter i note)).request i = some request :=
      howns.request.trans hrequest
    rw [Server.commit_eq hasked hop] at hexec
    cases hexec
    refine ⟨?_, ?_, rfl, ?_⟩
    · refine {
        wf := heffect.wf
        occupied := fun h => heffect.occupied (hinv.occupied h)
        replay := ?_
        conserved := { hinv.conserved.commit hinv.wf heffect hattached with }
        exclusive := hinv.exclusive
        locked := fun j c hlock => ?_
        life := fun j => ?_ }
      · simp only [Server.log, history_append]
        exact Replay.snoc hinv.replay heffect.applies
      · have hlock : Locks j c s := hlock
        have hreach : Reach s.disk c ∨ (j ≠ i ∧ c ∈ s.hands j) := by
          by_cases hj : j = i
          · subst hj
            exact Or.inl (hc.locked c ((howns.locks_iff c).mp hlock))
          · exact (hinv.locked j c hlock).imp id fun h => ⟨hj, h⟩
        rcases hreach with hreach | ⟨hj, hhand⟩
        · refine (heffect.reach c hreach).imp id fun hout => ?_
          have hj : j = i := by
            by_contra hne
            exact hmine c (hc.detached c hout hreach) j hne hlock
          subst hj
          simp [Server.log, Server.setHand, Server.handsAfter, hout]
        · right
          simpa [Server.log, Server.setHand, Function.update_of_ne hj] using hhand
      · by_cases hj : j = i
        · subst hj
          have hself := eventsOf_append_self s.events (.commit j op none)
          simp only [Event.thread, howns.events, hevents] at hself
          simp only [Server.log, Server.setHand, hself, howns.request, hrequest]
          exact Life.committed hop
        · simp only [Server.log, Server.setHand]
          rw [eventsOf_append_of_ne (by simpa [Event.thread] using Ne.symm hj)]
          exact hinv.life j
    · constructor
      · exact fun _ _ _ => rfl
      · exact fun _ _ _ => Iff.rfl
      · intro j hj c hlock hreach
        refine heffect.steady c hreach ?_ ?_
        · rintro rfl
          exact hmine c hc.excl j hj hlock
        · intro hout
          exact hmine c (hc.detached c hout hreach) j hj hlock
      · exact fun _ _ => Iff.rfl
      · exact Or.inl rfl
      · exact fun j hj => Function.update_of_ne hj _ _
      · intro j _ x hx
        refine Function.update_of_ne ?_ _ _
        rintro rfl
        exact hinv.notMem_hands hc.reach hc.target j hx
      · exact fun _ _ => rfl
      · intro j hj
        exact eventsOf_append_of_ne (by simpa [Event.thread] using Ne.symm hj)
    · have hself := eventsOf_append_self s.events (.commit i op none)
      simp only [Event.thread, howns.events, hevents] at hself
      exact { howns with
        pinned := by simp
        written := by simp
        hand := by
          simp [Server.log, Server.setHand, Server.handsAfter, howns.hand]
        events := by
          simpa only [Server.log, Server.setHand, List.singleton_append]
            using hself }

/-! ## The socket -/

theorem triple_sendResponse
    {next : Unit → FsProg α} {request : Request} (op : FsOp)
    (answer : Option Block) {message : List Byte}
    (hrequest : l.request = some request) (hop : request.op = some op)
    (hevents : l.events = [.start i, .commit i op answer])
    (hmessage : message = request.response answer)
    (hnext : (discipline initial).Triple i
      (Owns i { l with events :=
        [.start i, .commit i op answer, .respond i message] })
      (next ()) Post) :
    (discipline initial).Triple i (Owns i l)
      (call (.sendResponse message) >>= next) Post := by
  refine triple_step _ () { l with events :=
      [.start i, .commit i op answer, .respond i message] }
    (atomic_of (fun _ _ _ => trivial) ?_) hnext
  intro s given t hinv howns hexec
  simp only [Server.exec] at hexec
  cases hexec
  refine ⟨hinv.log howns rfl ?_ ?_, quiet_log rfl, rfl, ?_⟩
  · simpa [history] using hinv.replay
  · rw [hrequest, hevents, hmessage]
    exact Life.responded hop
  · simpa [hevents] using howns.log (.respond i message) rfl

/-- The end of a handler. -/
theorem triple_close
    {next : Unit → FsProg α} (hlocks : ∀ c, ¬l.Locks c)
    (hfree : l.free = none) (hlife : Life i l.request (l.events ++ [.close i]))
    (hnext : (discipline initial).Triple i
      (Owns i { l with events := l.events ++ [.close i] }) (next ()) Post) :
    (discipline initial).Triple i (Owns i l) (call .close >>= next) Post := by
  refine triple_step _ ()
    { l with events := l.events ++ [.close i] } (atomic_of ?_ ?_) hnext
  · intro s _ howns
    refine ⟨fun c hc => hlocks c ((howns.locks_iff c).mp hc), fun hmine => ?_⟩
    have := howns.freeLock.mp hmine
    simp [hfree] at this
  · intro s given t hinv howns hexec
    simp only [Server.exec] at hexec
    cases hexec
    refine ⟨hinv.log howns rfl ?_ hlife, quiet_log rfl, rfl, howns.log _ rfl⟩
    simpa [history] using hinv.replay

end FileServer
end Eecs482
