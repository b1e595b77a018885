import Eecs482.PagerFrames

/-!
# Page faults keep the residency of pages

Each function of a page fault returns, and leaves the pages of `P` in frames
with the right protection.  Between `set_physical_page` and `set_peer` this is
true of the pages with other file ids only.
-/

namespace Eecs482
namespace Pager

variable {W : Type} {io : FileIo W}

/-- What every part of a page fault guarantees: the frames agree again, the
pages of `Q` are protected, and only entries of `P` and residency changed. -/
structure Settled (P Q : Set VirtualPage) (s s' : State W) : Prop where
  frames : Frames s'
  protect : Protected Q s'
  arenas : s'.arenas = s.arenas
  outside : OnlyPages P s s'

/-- The pages of `P` with another file id. -/
def others (P : Set VirtualPage) (vp : VirtualPage) : Set VirtualPage :=
  {other | other ∈ P ∧ other.id ≠ vp.id}

/-- Exactly the pages with an id in `gone` have left the zero page. -/
def LeavesZero (gone : Set FileId) (s s' : State W) : Prop :=
  ∀ id, s'.peerInPhys id = some 0 ↔ s.peerInPhys id = some 0 ∧ id ∉ gone

variable {P Q : Set VirtualPage} {s s' s'' : State W} {vp : VirtualPage}

theorem Peers.of_arenas (h : Peers P s) (harenas : s'.arenas = s.arenas) :
    Peers P s' := by
  have hmap : s'.peerMap = s.peerMap := congrArg Arenas.peerMap harenas
  exact ⟨by rw [hmap]; exact h.listed, h.entry_injective⟩

theorem OnlyPages.refl : OnlyPages P s s :=
  ⟨fun _ _ => rfl, fun _ _ _ => id⟩

theorem OnlyPages.trans
    (h : OnlyPages P s s') (h' : OnlyPages P s' s'') : OnlyPages P s s'' where
  entries ref houtside := (h'.entries ref houtside).trans (h.entries ref houtside)
  resident id houtside ppage hid :=
    h.resident id houtside ppage (h'.resident id houtside ppage hid)

/-- Only the entry of a page of `P` is assigned to. -/
theorem OnlyPages.of_entry
    (hvp : vp ∈ P) (hpeerInPhys : s'.peerInPhys = s.peerInPhys)
    (hentries : ∀ ref, ref ≠ vp.entry → s'.entries ref = s.entries ref) :
    OnlyPages P s s' where
  entries ref houtside := hentries ref fun hsame => houtside vp hvp hsame.symm
  resident id _ ppage hid := by rwa [hpeerInPhys] at hid

theorem LeavesZero.refl : LeavesZero ∅ s s :=
  fun _ => by simp

theorem LeavesZero.trans
    {gone gone' : Set FileId} (h : LeavesZero gone s s')
    (h' : LeavesZero gone' s' s'') : LeavesZero (gone ∪ gone') s s'' := by
  intro id
  rw [h' id, h id]
  simp [and_assoc]

theorem Settled.trans
    {R : Set VirtualPage} (h : Settled P R s s') (h' : Settled P Q s' s'') :
    Settled P Q s s'' where
  frames := h'.frames
  protect := h'.protect
  arenas := h'.arenas.trans h.arenas
  outside := h.outside.trans h'.outside

theorem Settled.refl (hframes : Frames s) (hprotect : Protected Q s) :
    Settled P Q s s :=
  ⟨hframes, hprotect, rfl, .refl⟩

theorem protected_others (h : Protected P s) : Protected (others P vp) s :=
  fun other hother => h other hother.1

/-! ## Getting a free frame -/

/-- The referenced pages still ahead of the clock hand. -/
def State.referencedCount (s : State W) : ℕ :=
  s.clockQueue.countP fun ppage => (s.physicalTable ppage).referenced

theorem referencedCount_passOver
    {ppage : ℕ} {rest : List ℕ} (hframes : Frames s)
    (hclock : s.clockQueue = ppage :: rest)
    (hreferenced : (s.physicalTable ppage).referenced = true) :
    (s.passOver ppage rest).referencedCount + 1 = s.referencedCount := by
  have hnodup := hframes.clock_nodup
  rw [hclock, List.nodup_cons] at hnodup
  have hrest : rest.countP
        (fun p => ((s.passOver ppage rest).physicalTable p).referenced) =
      rest.countP fun p => (s.physicalTable p).referenced := by
    refine List.countP_congr fun p hp => ?_
    have hne : p ≠ ppage := by
      rintro rfl
      exact hnodup.1 hp
    simp [State.passOver, State.setPhysical, State.setEntries, hne]
  have hself : ((s.passOver ppage rest).physicalTable ppage).referenced = false := by
    simp [State.passOver, State.setPhysical, State.setEntries]
  have hqueue : (s.passOver ppage rest).clockQueue = rest ++ [ppage] := rfl
  rw [State.referencedCount, State.referencedCount, hqueue, hclock,
    List.countP_append, hrest]
  simp [hself, hreferenced]

/-- What getting a free frame does: some pages may have been evicted. -/
structure Freed (P : Set VirtualPage) (s s' : State W) : Prop
    extends Settled P P s s' where
  free : s'.availablePhysicalPages ≠ []
  absent : ∀ id, s.peerInPhys id = none → s'.peerInPhys id = none
  leaves : LeavesZero ∅ s s'

variable (io) in
/-- Passing over a page uses up one of the referenced ones, and a page without
the bit is evicted, so the loop ends before the fuel does. -/
theorem getFreePhysicalPageLoop_spec
    {fuel : ℕ} (hframes : Frames s) (hpeers : Peers P s) (hprotect : Protected P s)
    (hfuel : s.referencedCount < fuel) :
    ∃ s', State.getFreePhysicalPageLoop io fuel s = some s' ∧ Freed P s s' := by
  induction fuel generalizing s with
  | zero => omega
  | succ fuel ih =>
      rw [State.getFreePhysicalPageLoop]
      by_cases hfree : s.availablePhysicalPages ≠ []
      · rw [if_pos hfree]
        exact ⟨s, rfl, Settled.refl hframes hprotect, hfree, fun _ => id, .refl⟩
      rw [if_neg hfree]
      rw [not_not] at hfree
      cases hclock : s.clockQueue with
      | nil => exact absurd hclock (hframes.clock_ne_nil hfree)
      | cons ppage rest =>
          by_cases hreferenced : (s.physicalTable ppage).referenced = true
          · have hcount := referencedCount_passOver hframes hclock hreferenced
            obtain ⟨s', hrun, hfreed⟩ := ih (hframes.passOver hclock)
              (hpeers.of_arenas rfl) (hprotect.passOver hframes hpeers hclock)
              (by omega)
            refine ⟨s', by simpa [hreferenced] using hrun, ?_, hfreed.free,
              hfreed.absent, hfreed.leaves⟩
            exact ⟨hfreed.frames, hfreed.protect, hfreed.arenas,
              OnlyPages.trans (.passOver hpeers) hfreed.outside⟩
          · have hunreferenced : (s.physicalTable ppage).referenced = false := by
              simpa using hreferenced
            have howner := hframes.owner ppage (by simp [hclock])
            have hpos := (hframes.clock_bounds (by rw [hclock]; exact List.mem_cons_self)).1
            refine ⟨s.evict io ppage rest, by simp [hunreferenced], ?_, ?_, ?_, ?_⟩
            · exact ⟨hframes.evict hfree hclock,
                hprotect.evict hframes hclock hunreferenced, rfl, .evict⟩
            · simp [State.evict]
            · intro id hid
              by_cases hvictim : id = (s.physicalTable ppage).id
              · simp [State.evict, hvictim]
              · simpa [State.evict, hvictim] using hid
            · intro id
              by_cases hvictim : id = (s.physicalTable ppage).id
              · subst hvictim
                simp only [State.evict, Function.update_self, howner]
                simp
                omega
              · simp [State.evict, hvictim]

variable (io) in
theorem getFreePhysicalPage_spec
    (hframes : Frames s) (hpeers : Peers P s) (hprotect : Protected P s) :
    ∃ s', s.getFreePhysicalPage io = some s' ∧ Freed P s s' :=
  getFreePhysicalPageLoop_spec io hframes hpeers hprotect
    (Nat.lt_succ_of_le List.countP_le_length)

/-! ## Filling the frame -/

theorem Frames.setMemory
    (h : Frames s) (world : W) (physmem : ℕ → Byte) :
    Frames { s with world := world, physmem := physmem } :=
  ⟨h.memory_lower, h.memory_upper, h.partition, h.resident, h.owner,
    h.zero_swapBacked, h.clean, h.zero_clean⟩

theorem arenas_setMemory (world : W) (physmem : ℕ → Byte) :
    State.arenas { s with world := world, physmem := physmem } = s.arenas := rfl

theorem peerInPhys_setMemory (world : W) (physmem : ℕ → Byte) :
    State.peerInPhys { s with world := world, physmem := physmem } = s.peerInPhys := rfl

theorem copyInto_arenas (ppage : ℕ) : (s.copyInto vp ppage).arenas = s.arenas :=
  arenas_setMemory s.world _

theorem copyInto_peerInPhys (ppage : ℕ) :
    (s.copyInto vp ppage).peerInPhys = s.peerInPhys :=
  peerInPhys_setMemory s.world _

theorem readInto_arenas (ppage : ℕ) : (s.readInto io vp ppage).2.arenas = s.arenas :=
  arenas_setMemory _ _

theorem readInto_peerInPhys (ppage : ℕ) :
    (s.readInto io vp ppage).2.peerInPhys = s.peerInPhys :=
  peerInPhys_setMemory _ _

theorem install_arenas (ppage : ℕ) (rest : List ℕ) :
    (s.install vp ppage rest).arenas = s.arenas := rfl

theorem Protected.setMemory
    (h : Protected P s) (world : W) (physmem : ℕ → Byte) :
    Protected P { s with world := world, physmem := physmem } :=
  fun vp hvp => (h vp hvp).congr rfl fun _ _ _ => ⟨rfl, rfl⟩

/-- A read that fails changes only the bytes of a free frame. -/
theorem Settled.setMemory
    (hframes : Frames s) (hprotect : Protected P s) (world : W) (physmem : ℕ → Byte) :
    Settled P P s { s with world := world, physmem := physmem } ∧
      LeavesZero ∅ s { s with world := world, physmem := physmem } :=
  ⟨⟨hframes.setMemory world physmem, hprotect.setMemory world physmem, rfl,
    ⟨fun _ _ => rfl, fun _ _ _ => id⟩⟩, .refl⟩

/-- The page is not in a frame of its own: it is in its file, or it is mapped to
the zero page. -/
def Unplaced (s : State W) (vp : VirtualPage) : Prop :=
  s.peerInPhys vp.id = none ∨ s.peerInPhys vp.id = some 0

theorem Unplaced.ne_zero
    {ppage : ℕ} (h : Unplaced s vp) (hid : s.peerInPhys vp.id = some ppage) :
    ppage = 0 := by
  rcases h with h | h
  · rw [h] at hid
    cases hid
  · rw [h] at hid
    exact (Option.some.inj hid).symm

section Install

variable {ppage : ℕ} {rest : List ℕ}

theorem install_physicalTable_of_ne {p : ℕ} (hp : p ≠ ppage) :
    (s.install vp ppage rest).physicalTable p = s.physicalTable p :=
  Function.update_of_ne hp _ _

theorem install_physicalTable_self :
    (s.install vp ppage rest).physicalTable ppage =
      { s.physicalTable ppage with id := vp.id } :=
  Function.update_self _ _ _

theorem install_peerInPhys_self :
    (s.install vp ppage rest).peerInPhys vp.id = some ppage :=
  Function.update_self _ _ _

theorem install_peerInPhys_of_ne {id : FileId} (hid : id ≠ vp.id) :
    (s.install vp ppage rest).peerInPhys id = s.peerInPhys id :=
  Function.update_of_ne hid _ _

theorem install_entries_self :
    (s.install vp ppage rest).entries vp.entry =
      { s.entries vp.entry with ppage := ppage % ppageLimit } :=
  Function.update_self _ _ _

theorem install_entries_of_ne {ref : EntryRef} (href : ref ≠ vp.entry) :
    (s.install vp ppage rest).entries ref = s.entries ref :=
  Function.update_of_ne href _ _

theorem Frames.install
    (h : Frames s) (hfree : s.availablePhysicalPages = ppage :: rest)
    (hunplaced : Unplaced s vp) : Frames (s.install vp ppage rest) := by
  have hmem : ppage ∈ s.availablePhysicalPages := by simp [hfree]
  have hclock := h.not_mem_clock hmem
  have hpos := (h.available_bounds hmem).1
  have hne : ∀ p ∈ s.clockQueue, p ≠ ppage := by
    rintro p hp rfl
    exact hclock hp
  have hdirty : ∀ p, ((s.install vp ppage rest).physicalTable p).dirty =
      (s.physicalTable p).dirty := by
    intro p
    by_cases hp : p = ppage
    · rw [hp, install_physicalTable_self]
    · rw [install_physicalTable_of_ne hp]
  constructor
  case memory_lower => exact h.memory_lower
  case memory_upper => exact h.memory_upper
  case partition =>
      have hpartition := h.partition
      rw [hfree] at hpartition
      refine List.Perm.trans ?_ hpartition
      change (rest ++ (s.clockQueue ++ [ppage])).Perm _
      rw [← List.append_assoc]
      exact List.perm_append_singleton ppage _
  case resident =>
      intro id p hid hzero
      by_cases hvp : id = vp.id
      · subst hvp
        rw [install_peerInPhys_self, Option.some.injEq] at hid
        subst hid
        rw [install_physicalTable_self]
        exact ⟨List.mem_append_right _ (List.mem_singleton_self _), rfl⟩
      · rw [install_peerInPhys_of_ne hvp] at hid
        obtain ⟨hp, howner⟩ := h.resident id p hid hzero
        rw [install_physicalTable_of_ne (hne p hp)]
        exact ⟨List.mem_append_left _ hp, howner⟩
  case owner =>
      intro p hp
      rcases List.mem_append.mp hp with hp | hp
      · have hold := h.owner p hp
        have hvp : (s.physicalTable p).id ≠ vp.id := by
          intro heq
          rw [heq] at hold
          have := hunplaced.ne_zero hold
          have := (h.clock_bounds hp).1
          omega
        rw [install_physicalTable_of_ne (hne p hp), install_peerInPhys_of_ne hvp]
        exact hold
      · rw [List.mem_singleton.mp hp, install_physicalTable_self]
        exact install_peerInPhys_self
  case zero_swapBacked =>
      intro id hid
      by_cases hvp : id = vp.id
      · subst hvp
        rw [install_peerInPhys_self, Option.some.injEq] at hid
        omega
      · rw [install_peerInPhys_of_ne hvp] at hid
        exact h.zero_swapBacked id hid
  case clean =>
      intro p hp
      rw [hdirty]
      exact h.clean p (by rw [hfree]; exact List.mem_cons_of_mem _ hp)
  case zero_clean => exact (hdirty 0).trans h.zero_clean

theorem Protected.install
    (h : Protected P s) (hframes : Frames s) (hpeers : Peers P s) (hvp : vp ∈ P)
    (hfree : s.availablePhysicalPages = ppage :: rest) :
    Protected (others P vp) (s.install vp ppage rest) := by
  rintro other ⟨hother, hid⟩
  have href : other.entry ≠ vp.entry := by
    intro hsame
    exact hid (congrArg VirtualPage.id
      (hpeers.entry_injective other hother vp hvp hsame))
  rw [install_entries_of_ne href]
  refine (h other hother).congr (install_peerInPhys_of_ne hid)
    fun p hplace hzero => ?_
  have hp := (hframes.resident _ p hplace hzero).1
  have hne : p ≠ ppage := by
    rintro rfl
    exact hframes.not_mem_clock (by simp [hfree]) hp
  rw [install_physicalTable_of_ne hne]
  exact ⟨rfl, rfl⟩

end Install

/-- The page fault has found or made a place for `vp`: its own entry points
there, and may be written if the frame is dirty. -/
structure Placed (P : Set VirtualPage) (vp : VirtualPage) (s s' : State W) : Prop
    extends Settled P (others P vp) s s' where
  place : ∃ ppage, s'.peerInPhys vp.id = some ppage ∧
    (s'.entries vp.entry).ppage = ppage ∧
    (s'.entries vp.entry).writeEnable = (s'.physicalTable ppage).dirty

/-- The page is now in a clean frame of its own. -/
structure Loaded (P : Set VirtualPage) (vp : VirtualPage) (s s' : State W) : Prop
    extends Placed P vp s s' where
  nonzero : (s'.entries vp.entry).ppage ≠ 0
  leaves : LeavesZero {vp.id} s s'

theorem loaded_install
    {ppage : ℕ} {rest : List ℕ} (hframes : Frames s) (hpeers : Peers P s)
    (hprotect : Protected P s) (hvp : vp ∈ P) (hunplaced : Unplaced s vp)
    (hfree : s.availablePhysicalPages = ppage :: rest) :
    Loaded P vp s (s.install vp ppage rest) := by
  have hmem : ppage ∈ s.availablePhysicalPages := by simp [hfree]
  have hbounds := hframes.available_bounds hmem
  have hmod : ppage % ppageLimit = ppage := hframes.mod_ppageLimit hbounds.2
  have hwrite : (s.entries vp.entry).writeEnable = false := by
    have hmatches := hprotect vp hvp
    rcases hunplaced with hplace | hplace
    · exact ((matches_none hplace).mp hmatches).2
    · exact ((matches_zero hplace).mp hmatches).2.2
  refine ⟨⟨⟨hframes.install hfree hunplaced,
    hprotect.install hframes hpeers hvp hfree, rfl, ?_⟩, ?_⟩, ?_, ?_⟩
  · refine ⟨fun ref houtside =>
      install_entries_of_ne fun hsame => houtside vp hvp hsame.symm,
      fun id houtside p hid => ?_⟩
    rwa [install_peerInPhys_of_ne (houtside vp hvp).symm] at hid
  · refine ⟨ppage, install_peerInPhys_self, ?_, ?_⟩
    · rw [install_entries_self]
      exact hmod
    · rw [install_entries_self, install_physicalTable_self]
      exact hwrite.trans (hframes.clean ppage hmem).symm
  · have hppage : ((s.install vp ppage rest).entries vp.entry).ppage = ppage := by
      rw [install_entries_self]
      exact hmod
    omega
  · intro id
    by_cases hid : id = vp.id
    · subst hid
      rw [install_peerInPhys_self]
      simp
      omega
    · rw [install_peerInPhys_of_ne hid]
      simp [hid]

theorem setPhysicalPage_of_resident
    {ppage : ℕ} {rest : List ℕ}
    (hfree : s.availablePhysicalPages = ppage :: rest)
    (hresidence : s.checkResidence vp = true) :
    s.setPhysicalPage io vp =
      some (true, (s.copyInto vp ppage).install vp ppage rest) := by
  simp [State.setPhysicalPage, hfree, hresidence]

theorem setPhysicalPage_of_read
    {ppage : ℕ} {rest : List ℕ}
    (hfree : s.availablePhysicalPages = ppage :: rest)
    (hresidence : s.checkResidence vp = false)
    (hok : ((s.readInto io vp ppage).1 || vp.id.swapBacked) = true) :
    s.setPhysicalPage io vp =
      some (true, (s.readInto io vp ppage).2.install vp ppage rest) := by
  simp only [State.setPhysicalPage, hfree, hresidence, hok, Bool.false_eq_true,
    if_false, if_true]

theorem setPhysicalPage_of_failed_read
    {ppage : ℕ} {rest : List ℕ}
    (hfree : s.availablePhysicalPages = ppage :: rest)
    (hresidence : s.checkResidence vp = false)
    (hfailed : ((s.readInto io vp ppage).1 || vp.id.swapBacked) = false) :
    s.setPhysicalPage io vp = some (false, (s.readInto io vp ppage).2) := by
  simp only [State.setPhysicalPage, hfree, hresidence, hfailed,
    Bool.false_eq_true, if_false]

variable (io) in
/-- Success loads the page.  Failure is a failing read of a file. -/
theorem setPhysicalPage_spec
    (hframes : Frames s) (hpeers : Peers P s) (hprotect : Protected P s)
    (hvp : vp ∈ P) (hunplaced : Unplaced s vp)
    (hfree : s.availablePhysicalPages ≠ []) :
    ∃ ok s', s.setPhysicalPage io vp = some (ok, s') ∧
      (ok = true → Loaded P vp s s') ∧
      (ok = false → vp.id.swapBacked = false ∧ Settled P P s s' ∧
        LeavesZero ∅ s s') := by
  cases hlist : s.availablePhysicalPages with
  | nil => exact absurd hlist hfree
  | cons ppage rest =>
      have hmemory : ∀ world physmem,
          Loaded P vp s
            (State.install vp ppage rest
              { s with world := world, physmem := physmem }) := by
        intro world physmem
        have hpeers' : Peers P { s with world := world, physmem := physmem } :=
          ⟨hpeers.listed, hpeers.entry_injective⟩
        have hprotect' := hprotect.setMemory world physmem
        have hloaded := loaded_install (hframes.setMemory world physmem) hpeers'
          hprotect' hvp hunplaced hlist
        exact ⟨⟨⟨hloaded.frames, hloaded.protect, hloaded.arenas,
          ⟨hloaded.outside.entries, hloaded.outside.resident⟩⟩,
          hloaded.place⟩, hloaded.nonzero, hloaded.leaves⟩
      cases hresidence : s.checkResidence vp with
      | true =>
          refine ⟨true, _, setPhysicalPage_of_resident hlist hresidence,
            fun _ => hmemory s.world _, ?_⟩
          rintro ⟨⟩
      | false =>
          cases hok : (s.readInto io vp ppage).1 || vp.id.swapBacked with
          | true =>
              refine ⟨true, _, setPhysicalPage_of_read hlist hresidence hok,
                fun _ => hmemory _ _, ?_⟩
              rintro ⟨⟩
          | false =>
              refine ⟨false, _, setPhysicalPage_of_failed_read hlist hresidence hok,
                ?_, fun _ => ⟨?_, ?_⟩⟩
              · rintro ⟨⟩
              · exact (Bool.or_eq_false_iff.mp hok).2
              · exact Settled.setMemory hframes hprotect _ _

variable (io) in
theorem bringIn_spec
    (hframes : Frames s) (hpeers : Peers P s) (hprotect : Protected P s)
    (hvp : vp ∈ P) (hunplaced : Unplaced s vp) :
    ∃ ok s', s.bringIn io vp = some (ok, s') ∧
      (ok = true → Loaded P vp s s') ∧
      (ok = false → vp.id.swapBacked = false ∧ Settled P P s s' ∧
        LeavesZero ∅ s s') := by
  obtain ⟨t, hget, hfreed⟩ := getFreePhysicalPage_spec io hframes hpeers hprotect
  have hunplaced' : Unplaced t vp :=
    hunplaced.imp (hfreed.absent vp.id) fun hzero =>
      (hfreed.leaves vp.id).mpr ⟨hzero, Set.notMem_empty _⟩
  obtain ⟨ok, s', hset, hloaded, hfailed⟩ := setPhysicalPage_spec io
    hfreed.frames (hpeers.of_arenas hfreed.arenas) hfreed.protect hvp hunplaced'
    hfreed.free
  refine ⟨ok, s', by rw [State.bringIn, hget]; exact hset, fun hok => ?_,
    fun hok => ?_⟩
  · have h := hloaded hok
    refine ⟨⟨hfreed.toSettled.trans h.toSettled, h.place⟩, h.nonzero, ?_⟩
    simpa using hfreed.leaves.trans h.leaves
  · obtain ⟨hfile, h, hleaves⟩ := hfailed hok
    exact ⟨hfile, hfreed.toSettled.trans h, by simpa using hfreed.leaves.trans hleaves⟩

/-! ## Serving the fault -/

theorem Frames.setPhysical
    {ppage : ℕ} {assign : PhysicalPage → PhysicalPage} (h : Frames s)
    (hid : (assign (s.physicalTable ppage)).id = (s.physicalTable ppage).id)
    (hdirty : ppage ∈ s.clockQueue ∨
      (assign (s.physicalTable ppage)).dirty = (s.physicalTable ppage).dirty) :
    Frames (s.setPhysical ppage assign) := by
  have hids : ∀ p, ((s.setPhysical ppage assign).physicalTable p).id =
      (s.physicalTable p).id := by
    intro p
    by_cases hp : p = ppage
    · subst hp
      simpa [State.setPhysical] using hid
    · simp [State.setPhysical, hp]
  have hclean : ∀ p, p ∉ s.clockQueue →
      ((s.setPhysical ppage assign).physicalTable p).dirty =
        (s.physicalTable p).dirty := by
    intro p hclock
    by_cases hp : p = ppage
    · subst hp
      simpa [State.setPhysical] using hdirty.resolve_left hclock
    · simp [State.setPhysical, hp]
  constructor
  case memory_lower => exact h.memory_lower
  case memory_upper => exact h.memory_upper
  case partition => exact h.partition
  case resident =>
      intro id p hplace hzero
      rw [hids]
      exact h.resident id p hplace hzero
  case owner =>
      intro p hp
      rw [hids]
      exact h.owner p hp
  case zero_swapBacked => exact h.zero_swapBacked
  case clean =>
      intro p hp
      rw [hclean p (h.not_mem_clock hp)]
      exact h.clean p hp
  case zero_clean =>
      rw [hclean 0 fun hp => absurd (h.clock_bounds hp).1 (by omega)]
      exact h.zero_clean

theorem Frames.assignEntries (h : Frames s) (entries : EntryRef → Entry) :
    Frames { s with entries := entries } :=
  ⟨h.memory_lower, h.memory_upper, h.partition, h.resident, h.owner,
    h.zero_swapBacked, h.clean, h.zero_clean⟩

/-- The bits of the frame of `vp` and the entries of the pages with its file id
do not matter to the other pages. -/
theorem Protected.of_others
    {ppage : ℕ} (h : Protected (others P vp) s) (hframes : Frames s)
    (hplace : s.peerInPhys vp.id = some ppage)
    (hpeerInPhys : s'.peerInPhys = s.peerInPhys)
    (hphysical : ∀ p, p ≠ ppage → s'.physicalTable p = s.physicalTable p)
    (hentries : ∀ other ∈ others P vp,
      s'.entries other.entry = s.entries other.entry) :
    Protected (others P vp) s' := by
  intro other hother
  rw [hentries other hother]
  refine (h other hother).congr (congrFun hpeerInPhys _) fun p hp hzero => ?_
  have hne : p ≠ ppage := by
    rintro rfl
    exact hother.2 (hframes.resident_injective hp hplace hzero)
  rw [hphysical p hne]
  exact ⟨rfl, rfl⟩

theorem Peers.entry_ne_of_others
    (h : Peers P s) (hvp : vp ∈ P) {other : VirtualPage}
    (hother : other ∈ others P vp) : other.entry ≠ vp.entry := by
  intro hsame
  exact hother.2
    (congrArg VirtualPage.id (h.entry_injective other hother.1 vp hvp hsame))

/-- The pages that leave the zero page in a fault: the one written to. -/
def faultGone (vp : VirtualPage) (write : Bool) : Set FileId :=
  {id | write = true ∧ id = vp.id}

/-- Either branch of `vm_fault` has done its part. -/
structure Served (P : Set VirtualPage) (vp : VirtualPage) (write : Bool)
    (s s' : State W) : Prop extends Placed P vp s s' where
  written : write = true →
    (s'.entries vp.entry).ppage ≠ 0 ∧ (s'.entries vp.entry).writeEnable = true
  leaves : LeavesZero (faultGone vp write) s s'

theorem served_markWritten
    {s₀ : State W} (hsettled : Settled P (others P vp) s₀ s) (hpeers : Peers P s)
    (hvp : vp ∈ P)
    (hplace : s.peerInPhys vp.id = some (s.entries vp.entry).ppage)
    (hnonzero : (s.entries vp.entry).ppage ≠ 0)
    (hleaves : LeavesZero {vp.id} s₀ s) :
    Served P vp true s₀ (s.markWritten vp) := by
  have hclock := (hsettled.frames.resident _ _ hplace hnonzero).1
  have hentry : (s.markWritten vp).entries vp.entry =
      { s.entries vp.entry with writeEnable := true } :=
    Function.update_self _ _ _
  have hother : ∀ ref, ref ≠ vp.entry →
      (s.markWritten vp).entries ref = s.entries ref :=
    fun ref href => Function.update_of_ne href _ _
  refine ⟨⟨⟨?_, ?_, hsettled.arenas, ?_⟩, ?_⟩, ?_, ?_⟩
  · have hframes : Frames (s.setPhysical (s.entries vp.entry).ppage
        ({ · with dirty := true })) :=
      hsettled.frames.setPhysical rfl (.inl hclock)
    exact hframes.assignEntries _
  · refine hsettled.protect.of_others hsettled.frames hplace rfl ?_ ?_
    · intro p hp
      exact Function.update_of_ne hp _ _
    · intro other hmem
      exact hother _ (hpeers.entry_ne_of_others hvp hmem)
  · exact hsettled.outside.trans (.of_entry hvp rfl hother)
  · refine ⟨_, hplace, by rw [hentry], ?_⟩
    rw [hentry]
    simp [State.markWritten, State.setPhysical, State.setEntry]
  · rw [hentry]
    exact fun _ => ⟨hnonzero, rfl⟩
  · have hgone : faultGone vp true = {vp.id} := by
      ext id
      simp [faultGone]
    rw [hgone]
    exact hleaves

/-- What a branch of `vm_fault` promises: it serves the fault, or it fails
because a file could not be read. -/
def ServesOrFails
    (P : Set VirtualPage) (vp : VirtualPage) (write : Bool) (s : State W)
    (ok : Bool) (s' : State W) : Prop :=
  (ok = true → Served P vp write s s') ∧
  (ok = false → vp.id.swapBacked = false ∧ Settled P P s s' ∧
    LeavesZero ∅ s s')

/-- A resident page has its frame in its entry. -/
theorem Protected.place
    (h : Protected P s) (hvp : vp ∈ P) (hresidence : s.checkResidence vp = true) :
    s.peerInPhys vp.id = some (s.entries vp.entry).ppage := by
  obtain ⟨ppage, hplace⟩ := Option.isSome_iff_exists.mp hresidence
  rw [(h vp hvp).ppage hplace]
  exact hplace

theorem peerInPhys_of_not_resident (hresidence : s.checkResidence vp = false) :
    s.peerInPhys vp.id = none :=
  Option.isSome_eq_false_iff.mp hresidence |> Option.isNone_iff_eq_none.mp

/-- A write fault gives the page a frame if it has none of its own. -/
theorem unplaced_of_needed
    (hprotect : Protected P s) (hvp : vp ∈ P)
    (hneeded :
      (!s.checkResidence vp || (s.entries vp.entry).ppage == 0) = true) :
    Unplaced s vp := by
  cases hresidence : s.checkResidence vp with
  | false => exact .inl (peerInPhys_of_not_resident hresidence)
  | true =>
      have hplace := hprotect.place hvp hresidence
      have hzero : (s.entries vp.entry).ppage = 0 := by
        simpa [hresidence] using hneeded
      exact .inr (hzero ▸ hplace)

variable (io) in
theorem writeFault_spec
    (hframes : Frames s) (hpeers : Peers P s) (hprotect : Protected P s)
    (hvp : vp ∈ P) :
    ∃ ok s', s.writeFault io vp = some (ok, s') ∧
      ServesOrFails P vp true s ok s' := by
  rw [State.writeFault]
  by_cases hneeded :
      (!s.checkResidence vp || (s.entries vp.entry).ppage == 0) = true
  · have hunplaced := unplaced_of_needed hprotect hvp hneeded
    obtain ⟨ok, t, hbring, hloaded, hfailed⟩ :=
      bringIn_spec io hframes hpeers hprotect hvp hunplaced
    rw [if_pos hneeded, hbring]
    cases ok with
    | false =>
        refine ⟨false, t, rfl, ?_, fun _ => hfailed rfl⟩
        rintro ⟨⟩
    | true =>
        have h := hloaded rfl
        obtain ⟨ppage, hplace, hppage, hwrite⟩ := h.place
        refine ⟨true, t.markWritten vp, rfl, fun _ => ?_, ?_⟩
        · exact served_markWritten h.toSettled (hpeers.of_arenas h.arenas) hvp
            (by rw [hppage]; exact hplace) h.nonzero h.leaves
        · rintro ⟨⟩
  · rw [if_neg hneeded]
    have hresidence : s.checkResidence vp = true := by
      cases hresidence : s.checkResidence vp with
      | false => simp [hresidence] at hneeded
      | true => rfl
    have hnonzero : (s.entries vp.entry).ppage ≠ 0 := by
      simpa [hresidence] using hneeded
    have hplace := hprotect.place hvp hresidence
    refine ⟨true, s.markWritten vp, rfl, fun _ => ?_, ?_⟩
    · refine served_markWritten (Settled.refl hframes (protected_others hprotect))
        hpeers hvp hplace hnonzero fun id => ?_
      refine ⟨fun hid => ⟨hid, ?_⟩, And.left⟩
      rintro rfl
      rw [hplace, Option.some.injEq] at hid
      exact hnonzero hid
    · rintro ⟨⟩

theorem leavesZero_of_read
    (hleaves : LeavesZero ∅ s s') : LeavesZero (faultGone vp false) s s' := by
  have hgone : faultGone vp false = ∅ := by
    ext id
    simp [faultGone]
  rw [hgone]
  exact hleaves

variable (io) in
theorem readFault_spec
    (hframes : Frames s) (hpeers : Peers P s) (hprotect : Protected P s)
    (hvp : vp ∈ P) :
    ∃ ok s', s.readFault io vp = some (ok, s') ∧
      ServesOrFails P vp false s ok s' := by
  rw [State.readFault]
  cases hresidence : s.checkResidence vp with
  | false =>
      have hnone := peerInPhys_of_not_resident hresidence
      obtain ⟨ok, t, hbring, hloaded, hfailed⟩ :=
        bringIn_spec io hframes hpeers hprotect hvp (.inl hnone)
      refine ⟨ok, t, by simpa using hbring, fun hok => ?_, hfailed⟩
      have h := hloaded hok
      refine ⟨h.toPlaced, nofun, leavesZero_of_read fun id => ?_⟩
      rw [h.leaves id]
      refine ⟨fun hid => ⟨hid.1, Set.notMem_empty _⟩, fun hid => ⟨hid.1, ?_⟩⟩
      rintro rfl
      rw [hnone] at hid
      cases hid.1
  | true =>
      have hplace := hprotect.place hvp hresidence
      have hmatches := hprotect vp hvp
      cases hdirty : (s.physicalTable (s.entries vp.entry).ppage).dirty with
      | true =>
          have hentry : (s.setEntry vp.entry ({ · with writeEnable := true })).entries
              vp.entry = { s.entries vp.entry with writeEnable := true } :=
            Function.update_self _ _ _
          have hother : ∀ ref, ref ≠ vp.entry →
              (s.setEntry vp.entry ({ · with writeEnable := true })).entries ref =
                s.entries ref :=
            fun ref href => Function.update_of_ne href _ _
          refine ⟨true, s.setEntry vp.entry ({ · with writeEnable := true }),
            by simp, fun _ => ⟨⟨⟨?_, ?_, rfl, ?_⟩, ?_⟩, nofun,
              leavesZero_of_read .refl⟩, nofun⟩
          · exact hframes.assignEntries _
          · exact (protected_others hprotect).of_others hframes hplace rfl
              (fun _ _ => rfl)
              fun other hmem => hother _ (hpeers.entry_ne_of_others hvp hmem)
          · exact .of_entry hvp rfl hother
          · refine ⟨_, hplace, by rw [hentry], ?_⟩
            rw [hentry]
            exact hdirty.symm
      | false =>
          refine ⟨true, s, by simp, fun _ => ⟨⟨Settled.refl hframes
            (protected_others hprotect), _, hplace, rfl, ?_⟩, nofun,
              leavesZero_of_read .refl⟩, nofun⟩
          rw [hdirty]
          by_cases hzero : (s.entries vp.entry).ppage = 0
          · exact ((matches_zero (hzero ▸ hplace)).mp hmatches).2.2
          · rw [((matches_frame hplace hzero).mp hmatches).2.2, hdirty,
              Bool.and_false]

/-- After a successful fault the access is permitted. -/
structure Accessible (vp : VirtualPage) (write : Bool) (s : State W) : Prop where
  readEnable : (s.entries vp.entry).readEnable = true
  writeEnable : write = true → (s.entries vp.entry).writeEnable = true
  nonzero : write = true → (s.entries vp.entry).ppage ≠ 0

theorem finishFault_spec
    {write : Bool} {s₀ : State W} (h : Served P vp write s₀ s)
    (hpeers : Peers P s) (hvp : vp ∈ P) :
    Settled P P s₀ (s.finishFault vp) ∧ Accessible vp write (s.finishFault vp) ∧
      LeavesZero (faultGone vp write) s₀ (s.finishFault vp) := by
  obtain ⟨ppage, hplace, hppage, hwrite⟩ := h.place
  have hframe : ((s.setEntry vp.entry
      ({ · with readEnable := true })).entries vp.entry).ppage = ppage := by
    simp [State.setEntry, hppage]
  have hmod := h.frames.mod_ppageLimit (h.frames.resident_lt hplace)
  have hpeer : ∀ peer ∈ P, peer.id = vp.id →
      (s.finishFault vp).entries peer.entry =
        pte ppage true (s.physicalTable ppage).dirty := by
    intro peer hpeerP hid
    have hlisted := (hpeers.listed vp.id peer).mpr ⟨hpeerP, hid⟩
    refine (if_pos ⟨peer, hlisted, rfl⟩).trans ?_
    simp [State.setEntry, State.setPhysical, hppage, hwrite]
  have hother : ∀ ref, (∀ peer ∈ P, peer.id = vp.id → peer.entry ≠ ref) →
      (s.finishFault vp).entries ref = s.entries ref := by
    intro ref href
    refine (if_neg ?_).trans (Function.update_of_ne ?_ _ _)
    · rintro ⟨peer, hlisted, hsame⟩
      obtain ⟨hpeerP, hid⟩ := (hpeers.listed vp.id peer).mp hlisted
      exact href peer hpeerP hid hsame
    · exact fun hsame => href vp hvp rfl hsame.symm
  have hphysical : (s.finishFault vp).physicalTable =
      Function.update s.physicalTable ppage
        { s.physicalTable ppage with referenced := true } := by
    simp [State.finishFault, State.setPeer, State.setEntries, State.setPhysical,
      State.setEntry, hppage]
  have hframes : Frames (s.finishFault vp) :=
    (((h.frames.assignEntries _).setPhysical rfl (.inr rfl)).assignEntries _)
  refine ⟨⟨hframes, ?_, h.arenas, ?_⟩, ⟨?_, ?_, ?_⟩, h.leaves⟩
  · intro other hmem
    by_cases hid : other.id = vp.id
    · rw [hpeer other hmem hid, hid]
      by_cases hzero : ppage = 0
      · subst hzero
        refine (matches_zero (s := s.finishFault vp) hplace).mpr ?_
        exact ⟨rfl, rfl, h.frames.zero_clean⟩
      · refine (matches_frame (s := s.finishFault vp) hplace hzero).mpr ?_
        rw [hphysical]
        simp [pte, hmod]
    · have hprotect : Protected (others P vp) (s.finishFault vp) := by
        refine h.protect.of_others h.frames hplace rfl ?_ ?_
        · intro p hp
          rw [hphysical]
          exact Function.update_of_ne hp _ _
        · intro other' hmem'
          refine hother _ fun peer hpeerP hpeerId hsame => hmem'.2 ?_
          have := hpeers.entry_injective peer hpeerP other' hmem'.1 hsame
          exact this ▸ hpeerId
      exact hprotect other ⟨hmem, hid⟩
  · refine h.outside.trans ⟨fun ref houtside => ?_, fun _ _ _ => id⟩
    exact hother ref fun peer hpeerP _ => houtside peer hpeerP
  · rw [hpeer vp hvp rfl]
    rfl
  · intro hflag
    rw [hpeer vp hvp rfl]
    exact hwrite.symm.trans (h.written hflag).2
  · intro hflag
    rw [hpeer vp hvp rfl]
    change ppage % ppageLimit ≠ 0
    rw [hmod, ← hppage]
    exact (h.written hflag).1

/-! ## The whole fault -/

/-- The result of a page fault on the valid page `vp`. -/
structure Faulted (P : Set VirtualPage) (vp : VirtualPage) (write : Bool)
    (s : State W) (ok : Bool) (s' : State W) : Prop
    extends Settled P P s s' where
  accessible : ok = true → Accessible vp write s'
  leaves : LeavesZero (faultGone vp write) s s'

variable (io) in
theorem faultPage_spec
    (hframes : Frames s) (hpeers : Peers P s) (hprotect : Protected P s)
    (hvp : vp ∈ P) (write : Bool) :
    ∃ ok s', s.faultPage io vp write = some (ok, s') ∧
      Faulted P vp write s ok s' := by
  have hbranch : ∃ ok t,
      (if write then s.writeFault io vp else s.readFault io vp) = some (ok, t) ∧
        ServesOrFails P vp write s ok t := by
    cases write with
    | true => exact writeFault_spec io hframes hpeers hprotect hvp
    | false => exact readFault_spec io hframes hpeers hprotect hvp
  obtain ⟨ok, t, hrun, hserved, hfailed⟩ := hbranch
  rw [State.faultPage, hrun]
  cases ok with
  | true =>
      have h := hserved rfl
      obtain ⟨hsettled, haccessible, hleaves⟩ :=
        finishFault_spec h (hpeers.of_arenas h.arenas) hvp
      exact ⟨true, t.finishFault vp, rfl, hsettled, fun _ => haccessible, hleaves⟩
  | false =>
      obtain ⟨hfile, hsettled, hleaves⟩ := hfailed rfl
      refine ⟨false, t, rfl, hsettled, nofun, fun id => ?_⟩
      rw [hleaves id]
      refine ⟨fun hid => ⟨hid.1, ?_⟩, fun hid => ⟨hid.1, Set.notMem_empty _⟩⟩
      rintro ⟨-, rfl⟩
      rw [hframes.zero_swapBacked _ hid.1] at hfile
      cases hfile

end Pager
end Eecs482
