import Eecs482.PagerContents
import Eecs482.PagerResidency
import Mathlib.Data.List.TakeWhile

/-!
# The clock algorithm

Without a free frame `get_free_physical_page` passes over the referenced frames
at the front of the clock and takes the first one that is not referenced.  If
all were referenced, the hand comes round to the front, whose bit it has cleared
itself.  The page of the victim had no permission left in any process, so it can
leave memory.
-/

namespace Eecs482
namespace Pager

variable {W : Type} {io : FileIo W} {P : Set VirtualPage} {s s' s'' : State W}
variable {ppage victim : ℕ} {passed rest : List ℕ}

/-! ## Passing over frames -/

/-- The hand of the clock passes over the frames `passed`. -/
def State.passOvers (s : State W) : List ℕ → State W
  | [] => s
  | ppage :: passed => (s.passOver ppage s.clockQueue.tail).passOvers passed

/-- What passing over the frames `passed` does: their referenced bits and all
permissions of their peers are gone. -/
structure PassedOver (passed : List ℕ) (s s' : State W) : Prop where
  referenced : ∀ p, (s'.physicalTable p).referenced =
    if p ∈ passed then false else (s.physicalTable p).referenced
  dirty : ∀ p, (s'.physicalTable p).dirty = (s.physicalTable p).dirty
  id : ∀ p, (s'.physicalTable p).id = (s.physicalTable p).id
  entries : ∀ ref, s'.entries ref =
    if ∃ p ∈ passed, ∃ vp ∈ s.peerMap (s.physicalTable p).id, vp.entry = ref then
      { s.entries ref with readEnable := false, writeEnable := false }
    else s.entries ref
  available : s'.availablePhysicalPages = s.availablePhysicalPages
  arenas : s'.arenas = s.arenas
  peerInPhys : s'.peerInPhys = s.peerInPhys
  physmem : s'.physmem = s.physmem
  world : s'.world = s.world

theorem PassedOver.nil : PassedOver [] s s := by
  constructor <;> simp

theorem passedOver_passOver (ppage : ℕ) (rest : List ℕ) :
    PassedOver [ppage] s (s.passOver ppage rest) := by
  constructor
  case referenced =>
      intro p
      by_cases hp : p = ppage <;>
        simp [State.passOver, State.setPhysical, State.setEntries, hp]
  case dirty | id =>
      intro p
      by_cases hp : p = ppage <;>
        simp [State.passOver, State.setPhysical, State.setEntries, hp]
  case entries =>
      intro ref
      simp [State.passOver, State.setPhysical, State.setEntries]
  all_goals rfl

theorem PassedOver.trans
    (hfirst : PassedOver [ppage] s s') (hrest : PassedOver passed s' s'') :
    PassedOver (ppage :: passed) s s'' := by
  have hmap : s'.peerMap = s.peerMap := congrArg Arenas.peerMap hfirst.arenas
  constructor
  case referenced =>
      intro p
      rw [hrest.referenced, hfirst.referenced]
      by_cases hp : p = ppage
      · simp [hp]
      · simp [hp]
  case dirty => exact fun p => (hrest.dirty p).trans (hfirst.dirty p)
  case id => exact fun p => (hrest.id p).trans (hfirst.id p)
  case entries =>
      intro ref
      rw [hrest.entries, hfirst.entries, hmap]
      simp only [hfirst.id, List.mem_cons, exists_eq_or_imp, List.not_mem_nil, or_false,
        exists_eq_left]
      by_cases hpeer : ∃ vp ∈ s.peerMap (s.physicalTable ppage).id, vp.entry = ref
      · simp [hpeer]
      · simp [hpeer]
  case available => exact hrest.available.trans hfirst.available
  case arenas => exact hrest.arenas.trans hfirst.arenas
  case peerInPhys => exact hrest.peerInPhys.trans hfirst.peerInPhys
  case physmem => exact hrest.physmem.trans hfirst.physmem
  case world => exact hrest.world.trans hfirst.world

/-- As long as the front is referenced, the loop passes over it. -/
theorem passOvers_spec
    (hclock : s.clockQueue = passed ++ rest) (hnodup : passed.Nodup) :
    (s.passOvers passed).clockQueue = rest ++ passed ∧
      PassedOver passed s (s.passOvers passed) := by
  induction passed generalizing s rest with
  | nil =>
      rw [List.append_nil]
      exact ⟨hclock, .nil⟩
  | cons ppage passed ih =>
      rw [List.nodup_cons] at hnodup
      have htail : s.clockQueue.tail = passed ++ rest := by
        rw [hclock]
        rfl
      have hnext : (s.passOver ppage s.clockQueue.tail).clockQueue =
          passed ++ (rest ++ [ppage]) := by
        rw [htail, ← List.append_assoc]
        rfl
      obtain ⟨hlast, hpassed⟩ := ih hnext hnodup.2
      refine ⟨?_, (passedOver_passOver ppage _).trans hpassed⟩
      rw [State.passOvers, hlast, List.append_assoc]
      rfl

theorem getFreePhysicalPageLoop_passOvers
    (hfree : s.availablePhysicalPages = [])
    (hclock : s.clockQueue = passed ++ rest) (hnodup : passed.Nodup)
    (hreferenced : ∀ p ∈ passed, (s.physicalTable p).referenced = true) (fuel : ℕ) :
    State.getFreePhysicalPageLoop io (fuel + passed.length) s =
      State.getFreePhysicalPageLoop io fuel (s.passOvers passed) := by
  induction passed generalizing s rest with
  | nil => rfl
  | cons ppage passed ih =>
      rw [List.nodup_cons] at hnodup
      have hfront := hreferenced ppage List.mem_cons_self
      have htail : s.clockQueue.tail = passed ++ rest := by
        rw [hclock]
        rfl
      have hpassed := passedOver_passOver (s := s) ppage s.clockQueue.tail
      have hstep : State.getFreePhysicalPageLoop io (fuel + (ppage :: passed).length) s =
          State.getFreePhysicalPageLoop io (fuel + passed.length)
            (s.passOver ppage s.clockQueue.tail) := by
        rw [List.length_cons, ← Nat.add_assoc, State.getFreePhysicalPageLoop,
          if_neg (by simp [hfree]), hclock]
        simp [hfront]
      have hnext : (s.passOver ppage s.clockQueue.tail).clockQueue =
          passed ++ (rest ++ [ppage]) := by
        rw [htail, ← List.append_assoc]
        rfl
      rw [hstep, State.passOvers]
      refine ih (hpassed.available.trans hfree) hnext hnodup.2 fun p hp => ?_
      have hne : p ≠ ppage := by
        rintro rfl
        exact hnodup.1 hp
      rw [hpassed.referenced, if_neg (by simpa using hne)]
      exact hreferenced p (List.mem_cons_of_mem _ hp)

/-! ## The victim -/

/-- The frames that are passed over, the victim, and the clock that is left. -/
inductive Chosen (s : State W) : List ℕ → ℕ → List ℕ → Prop
  | first {passed rest : List ℕ} {victim : ℕ}
      (hclock : s.clockQueue = passed ++ victim :: rest)
      (hpassed : ∀ p ∈ passed, (s.physicalTable p).referenced = true)
      (hvictim : (s.physicalTable victim).referenced = false) :
      Chosen s passed victim (rest ++ passed)
  | frontmost {rest : List ℕ} {victim : ℕ}
      (hclock : s.clockQueue = victim :: rest)
      (hall : ∀ p ∈ s.clockQueue, (s.physicalTable p).referenced = true) :
      Chosen s s.clockQueue victim rest

theorem exists_chosen (hclock : s.clockQueue ≠ []) :
    ∃ passed victim queue, Chosen s passed victim queue := by
  have hsplit := List.takeWhile_append_dropWhile
    (p := fun p => (s.physicalTable p).referenced) (l := s.clockQueue)
  have hpassed : ∀ p ∈ s.clockQueue.takeWhile fun p => (s.physicalTable p).referenced,
      (s.physicalTable p).referenced = true :=
    fun p hp => List.mem_takeWhile_imp (p := fun p => (s.physicalTable p).referenced) hp
  cases hdrop : s.clockQueue.dropWhile fun p => (s.physicalTable p).referenced with
  | nil =>
      rw [hdrop, List.append_nil] at hsplit
      rw [hsplit] at hpassed
      obtain ⟨victim, rest, hfront⟩ := List.exists_cons_of_ne_nil hclock
      exact ⟨_, victim, rest, .frontmost hfront hpassed⟩
  | cons victim rest =>
      have hvictim := List.head?_dropWhile_not
        (fun p => (s.physicalTable p).referenced) s.clockQueue
      rw [hdrop] at hsplit hvictim
      exact ⟨_, victim, _, .first hsplit.symm hpassed (by simpa using hvictim)⟩

theorem Chosen.length_le
    {queue : List ℕ} (hchosen : Chosen s passed victim queue) :
    passed.length ≤ s.clockQueue.length := by
  cases hchosen with
  | first hclock =>
      rw [hclock, List.length_append]
      exact Nat.le_add_right _ _
  | frontmost => exact le_rfl

theorem Chosen.victim_mem
    {queue : List ℕ} (hchosen : Chosen s passed victim queue) :
    victim ∈ s.clockQueue := by
  cases hchosen with
  | first hclock =>
      rw [hclock]
      exact List.mem_append_right _ List.mem_cons_self
  | frontmost hclock =>
      rw [hclock]
      exact List.mem_cons_self

variable (io) in
/-- The loop passes over the frames in front of the victim, and evicts it. -/
theorem Chosen.loop
    {queue : List ℕ} (hchosen : Chosen s passed victim queue) (hframes : Frames s)
    (hfree : s.availablePhysicalPages = []) (fuel : ℕ) :
    PassedOver passed s (s.passOvers passed) ∧
      State.getFreePhysicalPageLoop io (fuel + 1 + passed.length) s =
        some ((s.passOvers passed).evict io victim queue) := by
  have hnodup := hframes.clock_nodup
  obtain ⟨behind, hsplit, hpassedNodup, hall, hfront, hbit⟩ : ∃ behind,
      s.clockQueue = passed ++ behind ∧ passed.Nodup ∧
      (∀ p ∈ passed, (s.physicalTable p).referenced = true) ∧
      behind ++ passed = victim :: queue ∧
      (victim ∈ passed ∨ (s.physicalTable victim).referenced = false) := by
    cases hchosen with
    | @first passed rest victim hclock hpassed hvictim =>
        rw [hclock] at hnodup
        exact ⟨victim :: rest, hclock, hnodup.of_append_left, hpassed, rfl, .inr hvictim⟩
    | frontmost hclock hall =>
        refine ⟨[], (List.append_nil _).symm, hnodup, hall, hclock, .inl ?_⟩
        rw [hclock]
        exact List.mem_cons_self
  obtain ⟨hclock, hpassed⟩ := passOvers_spec hsplit hpassedNodup
  refine ⟨hpassed, ?_⟩
  have hunreferenced :
      ((s.passOvers passed).physicalTable victim).referenced = false := by
    rw [hpassed.referenced]
    rcases hbit with hmem | hbit
    · rw [if_pos hmem]
    · rw [hbit, ite_self]
  rw [getFreePhysicalPageLoop_passOvers hfree hsplit hpassedNodup hall,
    State.getFreePhysicalPageLoop, if_neg (by simp [hpassed.available, hfree]), hclock,
    hfront]
  simp [hunreferenced]

/-- What `get_free_physical_page` does without a free frame: it passes over the
frames `passed` and takes `victim`. -/
structure Evicts
    (io : FileIo W) (c : Config W) (passed : List ℕ) (victim : ℕ) (s : State W) :
    Prop where
  chosen : Chosen c.state passed victim s.clockQueue
  /-- The loop takes one round for each frame passed over and one for the victim. -/
  rounds : ∀ fuel, passed.length < fuel →
    State.getFreePhysicalPageLoop io fuel c.state = some s
  bounded : passed.length + 1 ≤ c.state.clockQueue.length + 1
  available : s.availablePhysicalPages = [victim]
  referenced : ∀ p, (s.physicalTable p).referenced =
    if p ∈ passed then false else (c.state.physicalTable p).referenced
  revoked : ∀ p ∈ passed, ∀ vp, c.LivePage vp → vp.id = (c.state.physicalTable p).id →
    s.entries vp.entry =
      { c.state.entries vp.entry with readEnable := false, writeEnable := false }
  kept : ∀ ref, (∀ p ∈ passed, ∀ vp, c.LivePage vp →
    vp.id = (c.state.physicalTable p).id → vp.entry ≠ ref) →
    s.entries ref = c.state.entries ref
  owner : c.state.peerInPhys (c.state.physicalTable victim).id = some victim
  /-- The page of the victim goes to its own block if it was written to. -/
  written : s.world =
    if (c.state.physicalTable victim).dirty then
      (io.write (c.state.physicalTable victim).id.key (c.state.frame victim)
        c.state.world).2
    else c.state.world
  gone : s.peerInPhys =
    Function.update c.state.peerInPhys (c.state.physicalTable victim).id none
  denied : ∀ vp, c.LivePage vp → vp.id = (c.state.physicalTable victim).id →
    (s.entries vp.entry).readEnable = false ∧ (s.entries vp.entry).writeEnable = false
  unmapped : ∀ pid ∈ c.live, ∀ table i, s.tables pid = some table →
    (s.entries (table, i)).readEnable = true ∨
      (s.entries (table, i)).writeEnable = true →
    (s.entries (table, i)).ppage ≠ victim
  physmem : s.physmem = c.state.physmem
  arenas : s.arenas = c.state.arenas

/-- An enabled entry of a process leads to the frame its page is in. -/
theorem ppage_of_enabled
    {pid table i : ℕ} (hprotect : Protected s.pages s) (htables : Tables s)
    (hcleared : Cleared s) (htable : s.tables pid = some table)
    (henabled : (s.entries (table, i)).readEnable = true ∨
      (s.entries (table, i)).writeEnable = true) :
    ∃ vp ∈ s.pages, s.peerInPhys vp.id = some (s.entries (table, i)).ppage := by
  have hi : i < (s.heap table).cnt := by
    by_contra hi
    have hclear := hcleared pid table htable i (Nat.le_of_not_lt hi)
    rw [hclear.1, hclear.2] at henabled
    simp at henabled
  obtain ⟨vp, hvp, hentry⟩ := (htables.mem_pages_iff htable i).mpr hi
  have hmatches := hprotect vp hvp
  rw [hentry] at hmatches
  refine ⟨vp, hvp, ?_⟩
  cases hplace : s.peerInPhys vp.id with
  | none =>
      rw [matches_none hplace] at hmatches
      rw [hmatches.1, hmatches.2] at henabled
      simp at henabled
  | some ppage => rw [hmatches.ppage hplace]

/-- No enabled entry leads to a free frame, since no page is in one. -/
theorem ppage_ne_of_available
    {pid table i : ℕ} (hframes : Frames s) (hprotect : Protected s.pages s)
    (htables : Tables s) (hcleared : Cleared s) (htable : s.tables pid = some table)
    (henabled : (s.entries (table, i)).readEnable = true ∨
      (s.entries (table, i)).writeEnable = true)
    (hppage : ppage ≠ 0) (havailable : ppage ∈ s.availablePhysicalPages) :
    (s.entries (table, i)).ppage ≠ ppage := by
  intro heq
  obtain ⟨vp, -, hplace⟩ :=
    ppage_of_enabled hprotect htables hcleared htable henabled
  rw [heq] at hplace
  exact hframes.not_mem_clock havailable (hframes.resident _ ppage hplace hppage).1

/-- The page of the victim is written back if it was written to. -/
theorem PassedOver.world_evict
    {queue : List ℕ} (hpassed : PassedOver passed s s') (hvictim : victim < 2 ^ 16) :
    (s'.evict io victim queue).world =
      if (s.physicalTable victim).dirty then
        (io.write (s.physicalTable victim).id.key (s.frame victim) s.world).2
      else s.world := by
  change (if (s'.physicalTable victim).dirty then
    (io.write (s'.physicalTable victim).id.key
      (loadPage s'.physmem (frameStart victim)) s'.world).2
    else s'.world) = _
  rw [hpassed.dirty, hpassed.id, hpassed.physmem, hpassed.world,
    frameStart_of_lt hvictim]
  rfl

/-- With more fuel the loop ends in the same state. -/
theorem getFreePhysicalPageLoop_mono
    {fuel : ℕ} (hrun : State.getFreePhysicalPageLoop io fuel s = some s') (more : ℕ) :
    State.getFreePhysicalPageLoop io (fuel + more) s = some s' := by
  induction fuel generalizing s with
  | zero => cases hrun
  | succ fuel ih =>
      rw [Nat.succ_add, State.getFreePhysicalPageLoop]
      rw [State.getFreePhysicalPageLoop] at hrun
      by_cases hfree : s.availablePhysicalPages ≠ []
      · rw [if_pos hfree] at hrun ⊢
        exact hrun
      rw [if_neg hfree] at hrun ⊢
      cases hclock : s.clockQueue with
      | nil =>
          rw [hclock] at hrun
          cases hrun
      | cons ppage rest =>
          rw [hclock] at hrun
          simp only at hrun ⊢
          by_cases hreferenced : (s.physicalTable ppage).referenced = true
          · rw [if_pos hreferenced] at hrun ⊢
            exact ih hrun
          · rw [if_neg hreferenced] at hrun ⊢
            exact hrun

theorem Invariant.evicts
    {c : Config W} (h : Invariant c) (hmemory : c.state.numMemoryPages ≤ 2 ^ 16)
    (hfree : c.state.availablePhysicalPages = []) :
    ∃ passed victim s, c.state.getFreePhysicalPage io = some s ∧
      Evicts io c passed victim s := by
  have hframes := h.coherent.frames
  have hpeers := h.coherent.peers
  obtain ⟨passed, victim, queue, hchosen⟩ := exists_chosen (hframes.clock_ne_nil hfree)
  obtain ⟨hpassed, hloop⟩ := hchosen.loop io hframes hfree 0
  generalize hs : (c.state.passOvers passed).evict io victim queue = s at hloop
  have hrounds : ∀ fuel, passed.length < fuel →
      State.getFreePhysicalPageLoop io fuel c.state = some s := by
    intro fuel hfuel
    obtain ⟨more, rfl⟩ := Nat.exists_eq_add_of_le hfuel
    have hmore := getFreePhysicalPageLoop_mono hloop more
    rwa [Nat.zero_add, Nat.add_comm 1] at hmore
  have hlength := hchosen.length_le
  have hcall : c.state.getFreePhysicalPage io = some s :=
    hrounds _ (Nat.lt_succ_of_le hlength)
  obtain ⟨s', hcall', hfreed⟩ :=
    getFreePhysicalPage_spec io hframes hpeers h.coherent.protect
  obtain rfl : s' = s := Option.some.inj (hcall'.symm.trans hcall)
  have hsame := SameTables.of_arenas hfreed.arenas
  have hclock := hchosen.victim_mem
  have howner := hframes.owner victim hclock
  have hbounds := hframes.clock_bounds hclock
  refine ⟨passed, victim, s', hcall, ?_⟩
  have hgone : s'.peerInPhys = Function.update c.state.peerInPhys
      (c.state.physicalTable victim).id none := by
    rw [← hs]
    change Function.update (c.state.passOvers passed).peerInPhys
      ((c.state.passOvers passed).physicalTable victim).id none = _
    rw [hpassed.peerInPhys, hpassed.id]
  constructor
  case chosen =>
      rw [← hs]
      exact hchosen
  case rounds => exact hrounds
  case bounded => exact Nat.succ_le_succ hlength
  case available =>
      rw [← hs]
      change (c.state.passOvers passed).availablePhysicalPages ++ [victim] = _
      rw [hpassed.available, hfree, List.nil_append]
  case referenced =>
      intro p
      rw [← hpassed.referenced, ← hs]
      by_cases hp : p = victim <;> simp [State.evict, State.setPhysical, hp]
  case revoked =>
      intro p hp vp hvp hid
      rw [← hs]
      change (c.state.passOvers passed).entries vp.entry = _
      rw [hpassed.entries, if_pos]
      exact ⟨p, hp, vp, (hpeers.listed _ vp).mpr ⟨(h.livePage_iff vp).mp hvp, hid⟩, rfl⟩
  case kept =>
      intro ref houtside
      rw [← hs]
      change (c.state.passOvers passed).entries ref = _
      rw [hpassed.entries, if_neg]
      rintro ⟨p, hp, vp, hvp, hentry⟩
      obtain ⟨hpage, hid⟩ := (hpeers.listed _ vp).mp hvp
      exact houtside p hp vp ((h.livePage_iff vp).mpr hpage) hid hentry
  case owner => exact howner
  case written =>
      rw [← hs]
      exact hpassed.world_evict (hbounds.2.trans_le hmemory)
  case gone => exact hgone
  case denied =>
      intro vp hvp hid
      refine (matches_none ?_).mp (hfreed.protect vp ((h.livePage_iff vp).mp hvp))
      rw [hgone, hid, Function.update_self]
  case unmapped =>
      intro pid _ table i htable henabled
      refine ppage_ne_of_available hfreed.frames (hsame.pages ▸ hfreed.protect)
        (h.tables.of_same hsame) (h.cleared.settled h.tables hfreed.toSettled) htable
        henabled (Nat.one_le_iff_ne_zero.mp hbounds.1) ?_
      rw [← hs]
      exact List.mem_append_right _ List.mem_cons_self
  case physmem =>
      rw [← hs]
      exact hpassed.physmem
  case arenas => exact hfreed.arenas

/-- The clock algorithm, in every state of a legal run. -/
theorem getFreePhysicalPage_of_reachable
    {c : Config W} {memoryPages swapBlocks : ℕ} {physmem : ℕ → Byte}
    {entries : EntryRef → Entry} {world : W} (hlower : 2 ≤ memoryPages)
    (hupper : memoryPages ≤ 2 ^ 16)
    (hreach : (system io).Reachable
      (Config.init memoryPages swapBlocks physmem entries world) c) :
    (c.state.availablePhysicalPages ≠ [] →
      c.state.getFreePhysicalPage io = some c.state) ∧
    (c.state.availablePhysicalPages = [] →
      ∃ passed victim s, c.state.getFreePhysicalPage io = some s ∧
        Evicts io c passed victim s) := by
  have h := invariant_of_reachable hlower (hupper.trans (by decide)) hreach
  constructor
  · intro hfree
    rw [State.getFreePhysicalPage, State.getFreePhysicalPageLoop, if_pos hfree]
  · intro hfree
    refine h.evicts ?_ hfree
    rw [(processes_of_reachable hreach).2]
    exact hupper

/-- The only frame holds the page just written to, and is taken from it. -/
theorem evicts_after_write_fault :
    ∃ c passed victim s, (system blockFiles).Reachable (freshConfig 2 1) c ∧
      c.state.availablePhysicalPages = [] ∧
      c.state.getFreePhysicalPage blockFiles = some s ∧
      Evicts blockFiles c passed victim s := by
  obtain ⟨_, _, _, _, _, c, hreach, rfl, hclock⟩ := exists_write_fault
  have hpartition :=
    (residency_of_reachable (by decide) (by decide) hreach).partition.length_eq
  rw [hclock, List.length_append, List.length_range'] at hpartition
  have hfree : c.state.availablePhysicalPages = [] :=
    List.eq_nil_of_length_eq_zero (by simpa using hpartition)
  obtain ⟨passed, victim, s, hcall, hevicts⟩ :=
    (getFreePhysicalPage_of_reachable (by decide) (by decide) hreach).2 hfree
  exact ⟨c, passed, victim, s, hreach, hfree, hcall, hevicts⟩

end Pager
end Eecs482
