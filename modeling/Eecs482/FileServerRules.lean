import Eecs482.FileServerRely

/-!
# Rules for the calls of a handler

One rule for each call: what the handler must know to call it, and what it
knows afterwards.
-/

namespace Eecs482
namespace FileServer

variable {initial : Disk} {i : ℕ} {l : Local} {s : Server} {b : BlockNo}

theorem eventsOf_append (j : ℕ) (events : List Event) (event : Event) :
    eventsOf j (events ++ [event]) =
      eventsOf j events ++ if event.thread = j then [event] else [] := by
  unfold eventsOf
  rw [List.filter_append]
  congr 1
  by_cases h : event.thread = j <;> simp [h]

theorem WellFormed.range_of_reach
    {disk : Disk} (hwf : WellFormed disk) (hb : Reach disk b) :
    b.toNat < fsDiskSize := by
  rcases hb.zero_or_used with rfl | ⟨c, hc, hmem⟩
  · decide
  · exact (hwf.refs_range c hc b hmem).2

/-- A pinned inode and its data blocks are blocks of the disk. -/
theorem Pin.range (pin : Pin)
    (hb : b = pin.block ∨ b ∈ dataBlocks pin.image pin.block) :
    b.toNat < fsDiskSize := by
  rcases hb with rfl | hb
  · exact pin.wf.range_of_reach pin.reach
  · exact (pin.wf.refs_range pin.block pin.reach b
      (dataBlocks_subset_refs _ _ hb)).2

/-- The disk still has what the pin saw in the inode and its data blocks. -/
theorem Pin.Holds.read
    {pin : Pin} {disk : Disk} (h : pin.Holds disk)
    (hb : b = pin.block ∨ b ∈ dataBlocks pin.image pin.block) :
    disk b = pin.image b := by
  rcases hb with rfl | hb
  · exact h.agree.1
  · exact h.agree.2 b hb

theorem Owns.locked_pin
    (howns : Owns i l s) (pin : Pin) (hpin : pin ∈ l.pins) :
    Locks i pin.block s ∧ pin.Holds s.disk :=
  ⟨(howns.locks_iff _).mpr (howns.pinned pin hpin).1, (howns.pinned pin hpin).2⟩

/-- An exclusively held inode is not locked by anyone else. -/
theorem Inv.excl_unique
    (hinv : Inv initial s) (howns : Owns i l s) (hb : b ∈ l.excl)
    {j : ℕ} (hj : Locks j b s) : j = i := by
  have hwriter := (howns.writer b).mpr hb
  rcases hj with hreader | hj
  · rw [hinv.exclusive b i hwriter] at hreader
    simp at hreader
  · rw [hwriter, Option.some.injEq] at hj
    exact hj.symm

/-! ## Inode locks -/

/-- What a handler may lock, by the path that names it. -/
inductive LockTarget (l : Local) : Path → BlockNo → Prop
  | root (hnone : ∀ c, ¬l.Locks c) : LockTarget l [] 0
  | child {parent : Pin} {name : Name} {b : BlockNo}
      (hparent : parent ∈ l.pins)
      (hchild : childOf parent.image parent.block name = some b)
      (honly : ∀ c, l.Locks c → c = parent.block) :
      LockTarget l (parent.path ++ [name]) b

theorem LockTarget.resolve
    {path : Path} (htarget : LockTarget l path b) (howns : Owns i l s) :
    FileServer.resolve s.disk path = some b := by
  cases htarget with
  | root => rfl
  | child hparent hchild honly =>
      have hholds := (howns.pinned _ hparent).2
      rw [FileServer.resolve, LabelledWalk.walk_snoc_of_walk hholds.resolve,
        hholds.agree.childOf]
      exact hchild

theorem LockTarget.mayWait
    {path : Path} (htarget : LockTarget l path b) (howns : Owns i l s)
    (hfree : l.free = none) : MayWait i b s := by
  refine ⟨fun h => ?_, ?_⟩
  · have := howns.freeLock.mp h
    simp [hfree] at this
  · cases htarget with
    | root hnone =>
        exact Or.inl ⟨rfl, fun c => by rw [howns.locks_iff]; exact hnone c⟩
    | @child parent name b hparent hchild honly =>
        have hholds := (howns.pinned parent hparent).2
        refine Or.inr ⟨parent.block, name, hholds.reach, ?_, fun c hc => ?_⟩
        · rw [hholds.agree.childOf]
          exact hchild
        · exact honly c ((howns.locks_iff c).mp hc)

/-- Changing the mutex of a block that is in the tree or in the hands of the
thread keeps the invariant. -/
theorem Inv.setLock
    (hinv : Inv initial s) {mutex : SharedMutex}
    (hexclusive : ∀ j, mutex.writer = some j → mutex.readers = [])
    (hlocked : ∀ j, j ∈ mutex.readers ∨ mutex.writer = some j →
      Reach s.disk b ∨ b ∈ s.hands j) :
    Inv initial (s.setLock b mutex) := by
  refine { hinv with
    conserved := { hinv.conserved with }
    exclusive := fun c j hwriter => ?_
    locked := fun j c hlock => ?_ }
  · by_cases hc : c = b
    · subst hc
      simp only [Server.setLock, Function.update_self] at hwriter ⊢
      exact hexclusive j hwriter
    · simp only [Server.setLock, Function.update_of_ne hc] at hwriter ⊢
      exact hinv.exclusive c j hwriter
  · by_cases hc : c = b
    · subst hc
      simp only [Locks, Server.setLock, Function.update_self] at hlock
      exact hlocked j hlock
    · simp only [Locks, Server.setLock, Function.update_of_ne hc] at hlock
      exact hinv.locked j c hlock

theorem quiet_setLock
    {mutex : SharedMutex}
    (hreaders : ∀ j, j ≠ i →
      mutex.readers.count j = (s.diskLocks b).readers.count j)
    (hwriter : ∀ j, j ≠ i →
      (mutex.writer = some j ↔ (s.diskLocks b).writer = some j)) :
    Quiet i s (s.setLock b mutex) := by
  constructor
  · intro j hj c
    by_cases hc : c = b
    · subst hc
      simp only [Server.setLock, Function.update_self]
      exact hreaders j hj
    · simp only [Server.setLock, Function.update_of_ne hc]
  · intro j hj c
    by_cases hc : c = b
    · subst hc
      simp only [Server.setLock, Function.update_self]
      exact hwriter j hj
    · simp only [Server.setLock, Function.update_of_ne hc]
  · exact fun j _ c _ hc => steady_of_agree (fun _ _ => Agree.refl _ _) hc
  · exact fun j _ => Iff.rfl
  · exact Or.inl rfl
  · exact fun j _ => rfl
  · exact fun j _ x _ => rfl
  · exact fun j _ => rfl
  · exact fun j _ => rfl

/-- What a handler knows after a change of one mutex. -/
theorem Owns.setLock
    (howns : Owns i l s) {mutex : SharedMutex}
    {shared excl : List BlockNo} {pins : List Pin}
    (hreaders : mutex.readers.count i = shared.count b)
    (hshared : ∀ c, c ≠ b → shared.count c = l.shared.count c)
    (hwriter : mutex.writer = some i ↔ b ∈ excl)
    (hexcl : ∀ c, c ≠ b → (c ∈ excl ↔ c ∈ l.excl))
    (hpins : ∀ pin ∈ pins,
      (pin.block ∈ shared ∨ pin.block ∈ excl) ∧ pin.Holds s.disk) :
    Owns i { l with shared := shared, excl := excl, pins := pins }
      (s.setLock b mutex) := by
  refine { howns with readers := fun c => ?_, writer := fun c => ?_, pinned := hpins }
  · by_cases hc : c = b
    · subst hc
      simp only [Server.setLock, Function.update_self]
      exact hreaders
    · simp only [Server.setLock, Function.update_of_ne hc, hshared c hc]
      exact howns.readers c
  · by_cases hc : c = b
    · subst hc
      simp only [Server.setLock, Function.update_self]
      exact hwriter
    · simp only [Server.setLock, Function.update_of_ne hc, hexcl c hc]
      exact howns.writer c

/-- The pin a handler takes when it gets a lock. -/
structure Pin.Taken (pin : Pin) (l : Local) (path : Path) (b : BlockNo) :
    Prop where
  path_eq : pin.path = path
  block_eq : pin.block = b
  parents : ∀ parent ∈ l.pins, parent.Holds pin.image

theorem LockTarget.taken
    {path : Path} (htarget : LockTarget l path b) (hinv : Inv initial s)
    (howns : Owns i l s) :
    ∃ pin : Pin, pin.Taken l path b ∧ pin.image = s.disk :=
  ⟨Pin.ofResolve path b s.disk hinv.wf (htarget.resolve howns),
    ⟨rfl, rfl, fun parent hparent => (howns.pinned parent hparent).2⟩, rfl⟩

section Triples

variable {α : Type} {Post : α → Server → Prop} {next : Unit → FsProg α}

/-- A new lock lets the handler pin the inode. -/
theorem triple_lockShared
    {path : Path} (htarget : LockTarget l path b) (hfree : l.free = none)
    (hnext : ∀ pin : Pin, pin.Taken l path b →
      (discipline initial).Triple i
        (Owns i { l with shared := b :: l.shared, pins := pin :: l.pins })
        (next ()) Post) :
    (discipline initial).Triple i (Owns i l)
      (call (.lockShared b) >>= next) Post := by
  refine Discipline.Triple.call (fun _ s => ∃ pin : Pin,
    pin.Taken l path b ∧
      Owns i { l with shared := b :: l.shared, pins := pin :: l.pins } s)
    (atomic_of ?_ ?_) ?_
  · exact fun s _ howns => htarget.mayWait howns hfree
  · intro s answer t hinv howns hexec
    simp only [Server.exec] at hexec
    split at hexec
    · rename_i hwriter
      cases hexec
      have hresolve := htarget.resolve howns
      obtain ⟨pin, htaken, himage⟩ := htarget.taken hinv howns
      refine ⟨hinv.setLock ?_ ?_, quiet_setLock ?_ ?_,
        pin, htaken, howns.setLock ?_ ?_ ?_ ?_ ?_⟩
      · intro j hj
        simp [hwriter] at hj
      · exact fun _ _ => Or.inl ⟨path, hresolve⟩
      · intro j hj
        exact List.count_cons_of_ne hj.symm
      · exact fun _ _ => Iff.rfl
      · rw [List.count_cons_self, List.count_cons_self, howns.readers b]
      · intro c hc
        exact List.count_cons_of_ne hc.symm
      · exact howns.writer b
      · exact fun _ _ => Iff.rfl
      · intro p hp
        rcases List.mem_cons.mp hp with rfl | hp
        · rw [← himage, htaken.block_eq]
          exact ⟨Or.inl List.mem_cons_self, p.holds_image⟩
        · obtain ⟨hlock, hholds⟩ := howns.pinned p hp
          exact ⟨hlock.imp (List.mem_cons_of_mem b) id, hholds⟩
    · cases hexec
  · rintro _ s hinv ⟨pin, htaken, howns⟩
    exact hnext pin htaken s hinv howns

theorem triple_lock
    {path : Path} (htarget : LockTarget l path b) (hfree : l.free = none)
    (hnext : ∀ pin : Pin, pin.Taken l path b →
      (discipline initial).Triple i
        (Owns i { l with excl := b :: l.excl, pins := pin :: l.pins })
        (next ()) Post) :
    (discipline initial).Triple i (Owns i l) (call (.lock b) >>= next) Post := by
  refine Discipline.Triple.call (fun _ s => ∃ pin : Pin,
    pin.Taken l path b ∧
      Owns i { l with excl := b :: l.excl, pins := pin :: l.pins } s)
    (atomic_of ?_ ?_) ?_
  · exact fun s _ howns => htarget.mayWait howns hfree
  · intro s answer t hinv howns hexec
    simp only [Server.exec] at hexec
    split at hexec
    · rename_i hidle
      cases hexec
      have hresolve := htarget.resolve howns
      obtain ⟨pin, htaken, himage⟩ := htarget.taken hinv howns
      refine ⟨hinv.setLock ?_ ?_, quiet_setLock ?_ ?_,
        pin, htaken, howns.setLock ?_ ?_ ?_ ?_ ?_⟩
      · exact fun _ _ => hidle.2
      · exact fun _ _ => Or.inl ⟨path, hresolve⟩
      · exact fun _ _ => rfl
      · intro j hj
        simp [hidle.1, hj.symm]
      · exact howns.readers b
      · exact fun _ _ => rfl
      · simp
      · intro c hc
        simp [hc]
      · intro p hp
        rcases List.mem_cons.mp hp with rfl | hp
        · rw [← himage, htaken.block_eq]
          exact ⟨Or.inr List.mem_cons_self, p.holds_image⟩
        · obtain ⟨hlock, hholds⟩ := howns.pinned p hp
          exact ⟨hlock.imp id (List.mem_cons_of_mem b), hholds⟩
    · cases hexec
  · rintro _ s hinv ⟨pin, htaken, howns⟩
    exact hnext pin htaken s hinv howns

theorem triple_unlockShared
    (pins : List Pin) (hb : b ∈ l.shared)
    (hpins : ∀ pin ∈ pins, pin ∈ l.pins ∧ pin.block ≠ b)
    (hnext : (discipline initial).Triple i
      (Owns i { l with shared := l.shared.erase b, pins := pins })
      (next ()) Post) :
    (discipline initial).Triple i (Owns i l)
      (call (.unlockShared b) >>= next) Post := by
  refine triple_step _ ()
    { l with shared := l.shared.erase b, pins := pins }
    (atomic_of ?_ ?_) hnext
  · intro s _ howns
    have hcount := List.count_pos_iff.mpr hb
    rw [← howns.readers b] at hcount
    exact List.count_pos_iff.mp hcount
  · intro s answer t hinv howns hexec
    simp only [Server.exec] at hexec
    split at hexec
    · cases hexec
      refine ⟨hinv.setLock ?_ ?_, quiet_setLock ?_ ?_, rfl,
        howns.setLock ?_ ?_ ?_ ?_ ?_⟩
      · intro j hj
        simp [hinv.exclusive b j hj]
      · intro j hj
        exact hinv.locked j b (hj.imp List.mem_of_mem_erase id)
      · intro j hj
        exact List.count_erase_of_ne hj
      · exact fun _ _ => Iff.rfl
      · rw [List.count_erase_self, List.count_erase_self, howns.readers b]
      · intro c hc
        exact List.count_erase_of_ne hc
      · exact howns.writer b
      · exact fun _ _ => Iff.rfl
      · intro p hp
        obtain ⟨hmem, hne⟩ := hpins p hp
        obtain ⟨hlock, hholds⟩ := howns.pinned p hmem
        exact ⟨hlock.imp (List.mem_erase_of_ne hne).mpr id, hholds⟩
    · cases hexec

theorem triple_unlock
    (excl : List BlockNo) (pins : List Pin) (hb : b ∈ l.excl)
    (hexcl : ∀ c, c ∈ excl ↔ c ∈ l.excl ∧ c ≠ b)
    (hpins : ∀ pin ∈ pins, pin ∈ l.pins ∧ pin.block ≠ b)
    (hnext : (discipline initial).Triple i
      (Owns i { l with excl := excl, pins := pins }) (next ()) Post) :
    (discipline initial).Triple i (Owns i l) (call (.unlock b) >>= next) Post := by
  refine triple_step _ ()
    { l with excl := excl, pins := pins } (atomic_of ?_ ?_) hnext
  · exact fun s _ howns => (howns.writer b).mpr hb
  · intro s answer t hinv howns hexec
    have hmine := (howns.writer b).mpr hb
    simp only [Server.exec, if_pos hmine] at hexec
    cases hexec
    refine ⟨hinv.setLock ?_ ?_, quiet_setLock ?_ ?_, rfl,
      howns.setLock ?_ ?_ ?_ ?_ ?_⟩
    · intro j hj
      simp at hj
    · intro j hj
      exact hinv.locked j b (hj.imp id (by simp))
    · exact fun _ _ => rfl
    · intro j hj
      simp [hmine, hj.symm]
    · exact howns.readers b
    · exact fun _ _ => rfl
    · simp [hexcl]
    · intro c hc
      simp [hexcl, hc]
    · intro p hp
      obtain ⟨hmem, hne⟩ := hpins p hp
      obtain ⟨hlock, hholds⟩ := howns.pinned p hmem
      exact ⟨hlock.imp id fun h => (hexcl p.block).mpr ⟨h, hne⟩, hholds⟩

end Triples

/-! ## The queue of free blocks -/

section Queue

variable {α : Type} {Post : α → Server → Prop}

/-- A step which leaves the disk, the locks of inodes and the events alone. -/
theorem Quiet.of_queue
    {t : Server} (hdisk : t.disk = s.disk) (hlocks : t.diskLocks = s.diskLocks)
    (hfreeLock : ∀ j, j ≠ i →
      (t.freeBlockLock = some j ↔ s.freeBlockLock = some j))
    (hfreeBlocks : t.freeBlocks = s.freeBlocks ∨ s.freeBlockLock = some i)
    (hhands : ∀ j, j ≠ i → t.hands j = s.hands j)
    (hrequest : t.request = s.request) (hevents : t.events = s.events) :
    Quiet i s t where
  readers j _ b := by rw [hlocks]
  writer j _ b := by rw [hlocks]
  steady j _ b _ hb := by
    rw [hdisk]
    exact steady_of_agree (fun _ _ => Agree.refl _ _) hb
  freeLock := hfreeLock
  freeBlocks := hfreeBlocks
  hands := hhands
  written j _ x _ := by rw [hdisk]
  request j _ := by rw [hrequest]
  events j _ := by rw [hevents]

theorem triple_lockFree
    {next : Unit → FsProg α} (hfree : l.free = none)
    (hnext : ∀ queue, (discipline initial).Triple i
      (Owns i { l with free := some queue }) (next ()) Post) :
    (discipline initial).Triple i (Owns i l) (call .lockFree >>= next) Post := by
  refine Discipline.Triple.call
    (fun _ s => ∃ queue, Owns i { l with free := some queue } s)
    (atomic_of ?_ ?_) ?_
  · intro s _ howns hmine
    have := howns.freeLock.mp hmine
    simp [hfree] at this
  · intro s answer t hinv howns hexec
    simp only [Server.exec] at hexec
    split at hexec
    · rename_i hnone
      cases hexec
      refine ⟨{ hinv with conserved := { hinv.conserved with } },
        Quiet.of_queue rfl rfl ?_ (Or.inl rfl) (fun _ _ => rfl) rfl rfl,
        s.freeBlocks, ?_⟩
      · intro j hj
        simp [hnone, hj.symm]
      · exact { howns with
          freeLock := by simp
          freeBlocks := fun queue hqueue => by simpa using hqueue }
    · cases hexec
  · rintro _ s hinv ⟨queue, howns⟩
    exact hnext queue s hinv howns

theorem triple_unlockFree
    {next : Unit → FsProg α} (queue : List BlockNo)
    (hfree : l.free = some queue)
    (hnext : (discipline initial).Triple i (Owns i { l with free := none })
      (next ()) Post) :
    (discipline initial).Triple i (Owns i l) (call .unlockFree >>= next) Post := by
  refine triple_step _ () { l with free := none }
    (atomic_of ?_ ?_) hnext
  · exact fun s _ howns => howns.freeLock.mpr (by simp [hfree])
  · intro s answer t hinv howns hexec
    have hmine := howns.freeLock.mpr (by simp [hfree])
    simp only [Server.exec, if_pos hmine] at hexec
    cases hexec
    refine ⟨{ hinv with conserved := { hinv.conserved with } },
      Quiet.of_queue rfl rfl ?_ (Or.inl rfl) (fun _ _ => rfl) rfl rfl, rfl, ?_⟩
    · intro j hj
      simp [hmine, hj.symm]
    · exact { howns with
        freeLock := by simp
        freeBlocks := fun queue hqueue => by simp at hqueue }

theorem triple_freeEmpty
    {next : Bool → FsProg α} (queue : List BlockNo)
    (hfree : l.free = some queue)
    (hnext : (discipline initial).Triple i (Owns i l) (next queue.isEmpty)
      Post) :
    (discipline initial).Triple i (Owns i l) (call .freeEmpty >>= next) Post := by
  refine triple_step .freeEmpty queue.isEmpty l
    (atomic_of ?_ ?_) hnext
  · exact fun s _ howns => howns.freeLock.mpr (by simp [hfree])
  · intro s answer t hinv howns hexec
    simp only [Server.exec, howns.freeBlocks queue hfree] at hexec
    cases hexec
    exact ⟨hinv, Quiet.of_queue rfl rfl (fun _ _ => Iff.rfl) (Or.inl rfl)
      (fun _ _ => rfl) rfl rfl, rfl, howns⟩

theorem triple_freeFront
    {next : BlockNo → FsProg α} (queue : List BlockNo)
    (hfree : l.free = some (b :: queue))
    (hnext : (discipline initial).Triple i (Owns i l) (next b) Post) :
    (discipline initial).Triple i (Owns i l) (call .freeFront >>= next) Post := by
  refine triple_step .freeFront b l
    (atomic_of ?_ ?_) hnext
  · intro s _ howns
    exact ⟨howns.freeLock.mpr (by simp [hfree]),
      by simp [howns.freeBlocks _ hfree]⟩
  · intro s answer t hinv howns hexec
    simp only [Server.exec, howns.freeBlocks _ hfree] at hexec
    cases hexec
    exact ⟨hinv, Quiet.of_queue rfl rfl (fun _ _ => Iff.rfl) (Or.inl rfl)
      (fun _ _ => rfl) rfl rfl, rfl, howns⟩

/-- Taking the first free block into one's hands. -/
theorem Conserved.pop
    (h : Conserved s) {queue : List BlockNo} (hqueue : s.freeBlocks = b :: queue) :
    Conserved ((s.setFree queue).setHand i (b :: s.hands i)) := by
  have hb : b ∈ s.freeBlocks := by simp [hqueue]
  have htail : ∀ x ∈ queue, x ∈ s.freeBlocks := by
    intro x hx
    simp [hqueue, hx]
  have hnodup := h.free_nodup
  rw [hqueue, List.nodup_cons] at hnodup
  have hhand : ∀ j x, x ∈ Function.update s.hands i (b :: s.hands i) j ↔
      (j = i ∧ x = b) ∨ x ∈ s.hands j := by
    intro j x
    by_cases hj : j = i
    · subst hj
      simp
    · simp [hj]
  constructor
  · exact fun x hx => h.free_range x (htail x hx)
  · exact hnodup.2
  · exact fun x hx => h.free_unused x (htail x hx)
  · intro j x hx
    rcases (hhand j x).mp hx with ⟨_, rfl⟩ | hx
    · exact h.free_range x hb
    · exact h.hand_range j x hx
  · intro j
    by_cases hj : j = i
    · subst hj
      simp only [Server.setHand, Function.update_self, List.nodup_cons]
      exact ⟨fun hmem => h.hand_not_free j b hmem hb, h.hand_nodup j⟩
    · simp only [Server.setHand, Function.update_of_ne hj]
      exact h.hand_nodup j
  · intro j x hx
    rcases (hhand j x).mp hx with ⟨_, rfl⟩ | hx
    · exact h.free_unused x hb
    · exact h.hand_unused j x hx
  · intro j x hx hfree
    rcases (hhand j x).mp hx with ⟨_, rfl⟩ | hx
    · exact hnodup.1 hfree
    · exact h.hand_not_free j x hx (htail x hfree)
  · intro j k x hj hk
    rcases (hhand j x).mp hj with ⟨rfl, rfl⟩ | hjOld
    · rcases (hhand k x).mp hk with ⟨rfl, _⟩ | hkOld
      · rfl
      · exact absurd hb (h.hand_not_free k x hkOld)
    · rcases (hhand k x).mp hk with ⟨_, rfl⟩ | hkOld
      · exact absurd hb (h.hand_not_free j x hjOld)
      · exact h.hand_unique j k x hjOld hkOld
  · intro x hzero hrange
    rcases h.complete x hzero hrange with hfree | hused | ⟨j, hj⟩
    · rw [hqueue, List.mem_cons] at hfree
      rcases hfree with rfl | hfree
      · exact Or.inr (Or.inr ⟨i, (hhand i x).mpr (Or.inl ⟨rfl, rfl⟩)⟩)
      · exact Or.inl hfree
    · exact Or.inr (Or.inl hused)
    · exact Or.inr (Or.inr ⟨j, (hhand j x).mpr (Or.inr hj)⟩)

theorem triple_freePop
    {next : Unit → FsProg α} (queue : List BlockNo)
    (hfree : l.free = some (b :: queue))
    (hnext : (discipline initial).Triple i
      (Owns i { l with free := some queue, hand := b :: l.hand })
      (next ()) Post) :
    (discipline initial).Triple i (Owns i l) (call .freePop >>= next) Post := by
  refine triple_step _ ()
    { l with free := some queue, hand := b :: l.hand }
    (atomic_of ?_ ?_) hnext
  · intro s _ howns
    exact ⟨howns.freeLock.mpr (by simp [hfree]),
      by simp [howns.freeBlocks _ hfree]⟩
  · intro s answer t hinv howns hexec
    have hmine := howns.freeLock.mpr (by simp [hfree])
    have hqueue := howns.freeBlocks _ hfree
    simp only [Server.exec, hqueue] at hexec
    cases hexec
    refine ⟨{ hinv with
        conserved := hinv.conserved.pop hqueue
        locked := fun j c hlock => ?_ },
      Quiet.of_queue rfl rfl (fun _ _ => Iff.rfl) (Or.inr hmine) ?_ rfl rfl,
      rfl, ?_⟩
    · refine (hinv.locked j c hlock).imp id fun hc => ?_
      by_cases hj : j = i
      · subst hj
        simp [Server.setHand, hc]
      · simpa [Server.setHand, Server.setFree, Function.update_of_ne hj] using hc
    · exact fun j hj => Function.update_of_ne hj _ _
    · exact { howns with
        freeLock := by simp [Server.setHand, Server.setFree, hmine]
        freeBlocks := fun q hq => by simpa [Server.setHand, Server.setFree] using hq
        hand := by simp [Server.setHand, howns.hand]
        written := fun w hw =>
          ⟨List.mem_cons_of_mem b (howns.written w hw).1,
            (howns.written w hw).2⟩ }

/-- Giving a block in hand back. -/
theorem Conserved.push
    (h : Conserved s) (hb : b ∈ s.hands i) :
    Conserved ((s.setFree (s.freeBlocks ++ [b])).setHand i
      ((s.hands i).erase b)) := by
  have hhand : ∀ j x, x ∈ Function.update s.hands i ((s.hands i).erase b) j ↔
      x ∈ s.hands j ∧ x ≠ b := by
    intro j x
    by_cases hj : j = i
    · subst hj
      rw [Function.update_self, (h.hand_nodup j).mem_erase_iff]
      exact and_comm
    · rw [Function.update_of_ne hj]
      refine ⟨fun hx => ⟨hx, ?_⟩, And.left⟩
      rintro rfl
      exact hj (h.hand_unique j i x hx hb)
  have hfree : ∀ x, x ∈ s.freeBlocks ++ [b] ↔ x ∈ s.freeBlocks ∨ x = b := by
    intro x
    simp
  constructor
  · intro x hx
    rcases (hfree x).mp hx with hx | rfl
    · exact h.free_range x hx
    · exact h.hand_range i x hb
  · exact List.Nodup.append h.free_nodup (List.nodup_singleton b)
      (by simpa using h.hand_not_free i b hb)
  · intro x hx
    rcases (hfree x).mp hx with hx | rfl
    · exact h.free_unused x hx
    · exact h.hand_unused i x hb
  · exact fun j x hx => h.hand_range j x ((hhand j x).mp hx).1
  · intro j
    by_cases hj : j = i
    · subst hj
      simp only [Server.setHand, Function.update_self]
      exact (h.hand_nodup j).erase b
    · simp only [Server.setHand, Function.update_of_ne hj]
      exact h.hand_nodup j
  · exact fun j x hx => h.hand_unused j x ((hhand j x).mp hx).1
  · intro j x hx hmem
    obtain ⟨hx, hne⟩ := (hhand j x).mp hx
    exact ((hfree x).mp hmem).elim (h.hand_not_free j x hx) hne
  · exact fun j k x hj hk =>
      h.hand_unique j k x ((hhand j x).mp hj).1 ((hhand k x).mp hk).1
  · intro x hzero hrange
    rcases h.complete x hzero hrange with hmem | hused | ⟨j, hj⟩
    · exact Or.inl ((hfree x).mpr (Or.inl hmem))
    · exact Or.inr (Or.inl hused)
    · by_cases hx : x = b
      · exact Or.inl ((hfree x).mpr (Or.inr hx))
      · exact Or.inr (Or.inr ⟨j, (hhand j x).mpr ⟨hj, hx⟩⟩)

/-- The block given back is neither locked nor remembered as written. -/
theorem triple_freePush
    {next : Unit → FsProg α} (queue : List BlockNo)
    (written : List (BlockNo × Block))
    (hfree : l.free = some queue) (hb : b ∈ l.hand)
    (hlocks : ∀ s, Inv initial s → Owns i l s → ¬l.Locks b)
    (hwritten : ∀ w ∈ written, w ∈ l.written ∧ w.1 ≠ b)
    (hnext : (discipline initial).Triple i
      (Owns i { l with
        free := some (queue ++ [b])
        hand := l.hand.erase b
        written := written })
      (next ()) Post) :
    (discipline initial).Triple i (Owns i l) (call (.freePush b) >>= next) Post := by
  refine triple_step _ ()
    { l with
      free := some (queue ++ [b])
      hand := l.hand.erase b
      written := written }
    (atomic_of ?_ ?_) hnext
  · intro s _ howns
    exact ⟨howns.freeLock.mpr (by simp [hfree]), by rw [howns.hand]; exact hb⟩
  · intro s answer t hinv howns hexec
    have hmine := howns.freeLock.mpr (by simp [hfree])
    have hmem : b ∈ s.hands i := by
      rw [howns.hand]
      exact hb
    have hqueue := howns.freeBlocks queue hfree
    simp only [Server.exec] at hexec
    cases hexec
    refine ⟨{ hinv with
        conserved := hinv.conserved.push hmem
        locked := fun j c hlock => ?_ },
      Quiet.of_queue rfl rfl (fun _ _ => Iff.rfl) (Or.inr hmine) ?_ rfl rfl,
      rfl, ?_⟩
    · refine (hinv.locked j c hlock).imp id fun hc => ?_
      by_cases hj : j = i
      · subst hj
        have hne : c ≠ b := by
          rintro rfl
          exact hlocks s hinv howns ((howns.locks_iff c).mp hlock)
        simp only [Server.setHand, Function.update_self]
        exact (List.mem_erase_of_ne hne).mpr hc
      · simpa [Server.setHand, Server.setFree, Function.update_of_ne hj] using hc
    · exact fun j hj => Function.update_of_ne hj _ _
    · exact { howns with
        freeLock := by simp [Server.setHand, Server.setFree, hmine]
        freeBlocks := fun q hq => by
          simpa [Server.setHand, Server.setFree, hqueue] using hq
        hand := by simp [Server.setHand, howns.hand]
        written := fun w hw => by
          obtain ⟨hw, hne⟩ := hwritten w hw
          exact ⟨(List.mem_erase_of_ne hne).mpr (howns.written w hw).1,
            (howns.written w hw).2⟩ }

end Queue

end FileServer
end Eecs482
