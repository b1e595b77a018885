import Eecs482.PagerOperations
import Mathlib.Data.List.Perm.Basic
import Mathlib.Data.List.Range
import Mathlib.Data.Set.Basic

/-!
# Which page is in which frame

`Frames` says that the free frames, the clock, `peer_in_phys` and the physical
table agree about what each frame holds.  `Peers` says that `peer_map` lists the
virtual pages of a set `P`, and `Protected` that their page table entries are
the ones their frames call for.  The set is a parameter, because `vm_destroy`
takes the pages of a process away one by one.
-/

namespace Eecs482
namespace Pager

variable {W : Type} {io : FileIo W}

/-- The free frames and the clock share out the frames, and a frame is in the
clock when the page it is said to hold is said to be there. -/
structure Frames (s : State W) : Prop where
  memory_lower : 2 ≤ s.numMemoryPages
  memory_upper : s.numMemoryPages ≤ ppageLimit
  partition : (s.availablePhysicalPages ++ s.clockQueue).Perm
    (List.range' 1 (s.numMemoryPages - 1))
  resident : ∀ id ppage, s.peerInPhys id = some ppage → ppage ≠ 0 →
    ppage ∈ s.clockQueue ∧ (s.physicalTable ppage).id = id
  owner : ∀ ppage ∈ s.clockQueue,
    s.peerInPhys (s.physicalTable ppage).id = some ppage
  zero_swapBacked : ∀ id, s.peerInPhys id = some 0 → id.swapBacked = true
  clean : ∀ ppage ∈ s.availablePhysicalPages,
    (s.physicalTable ppage).dirty = false
  zero_clean : (s.physicalTable 0).dirty = false

/-- `peer_map` lists the virtual pages of `P`, each of which has its own page
table entry. -/
structure Peers (P : Set VirtualPage) (s : State W) : Prop where
  listed : ∀ id vp, vp ∈ s.peerMap id ↔ vp ∈ P ∧ vp.id = id
  entry_injective : ∀ vp ∈ P, ∀ other ∈ P, vp.entry = other.entry → vp = other

/-- What the page table entry of a virtual page has to be: no permission while
the page is not in memory, read-only while it is the zero page, and otherwise
as the referenced and the dirty bit of its frame say. -/
def Matches (s : State W) (id : FileId) (entry : Entry) : Prop :=
  match s.peerInPhys id with
  | none => entry.readEnable = false ∧ entry.writeEnable = false
  | some ppage =>
      entry.ppage = ppage ∧
      if ppage = 0 then entry.readEnable = true ∧ entry.writeEnable = false
      else
        entry.readEnable = (s.physicalTable ppage).referenced ∧
        entry.writeEnable = ((s.physicalTable ppage).referenced &&
          (s.physicalTable ppage).dirty)

/-- The entries of the virtual pages of `P` are right. -/
def Protected (P : Set VirtualPage) (s : State W) : Prop :=
  ∀ vp ∈ P, Matches s vp.id (s.entries vp.entry)

/-- Only entries of pages of `P` differ, and only pages of `P` have come into
memory. -/
structure OnlyPages (P : Set VirtualPage) (s s' : State W) : Prop where
  entries : ∀ ref, (∀ vp ∈ P, vp.entry ≠ ref) →
    s'.entries ref = s.entries ref
  resident : ∀ id, (∀ vp ∈ P, vp.id ≠ id) → ∀ ppage,
    s'.peerInPhys id = some ppage → s.peerInPhys id = some ppage

/-- The fields no page fault touches. -/
structure Arenas where
  peerMap : FileId → Finset VirtualPage
  tables : ℕ → Option ℕ
  curTable : Option ℕ
  availableSwapBlocks : List ℕ
  numMemoryPages : ℕ
  numSwapBlocks : ℕ
  curPid : ℤ
  pageTableBaseRegister : Option ℕ
  heap : ℕ → PageTable
  nextTable : ℕ

def State.arenas (s : State W) : Arenas where
  peerMap := s.peerMap
  tables := s.tables
  curTable := s.curTable
  availableSwapBlocks := s.availableSwapBlocks
  numMemoryPages := s.numMemoryPages
  numSwapBlocks := s.numSwapBlocks
  curPid := s.curPid
  pageTableBaseRegister := s.pageTableBaseRegister
  heap := s.heap
  nextTable := s.nextTable

/-! ## Matching entries -/

theorem matches_none
    {s : State W} {id : FileId} {entry : Entry} (hid : s.peerInPhys id = none) :
    Matches s id entry ↔
      entry.readEnable = false ∧ entry.writeEnable = false := by
  rw [Matches, hid]

theorem matches_zero
    {s : State W} {id : FileId} {entry : Entry}
    (hid : s.peerInPhys id = some 0) :
    Matches s id entry ↔
      entry.ppage = 0 ∧ entry.readEnable = true ∧ entry.writeEnable = false := by
  rw [Matches, hid]
  simp

theorem matches_frame
    {s : State W} {id : FileId} {entry : Entry} {ppage : ℕ}
    (hid : s.peerInPhys id = some ppage) (hppage : ppage ≠ 0) :
    Matches s id entry ↔
      entry.ppage = ppage ∧
      entry.readEnable = (s.physicalTable ppage).referenced ∧
      entry.writeEnable = ((s.physicalTable ppage).referenced &&
        (s.physicalTable ppage).dirty) := by
  rw [Matches, hid]
  simp only [if_neg hppage]

theorem Matches.ppage
    {s : State W} {id : FileId} {entry : Entry} {ppage : ℕ}
    (h : Matches s id entry) (hid : s.peerInPhys id = some ppage) :
    entry.ppage = ppage := by
  rw [Matches, hid] at h
  exact h.1

/-- The entry of a page depends on where the page is and on the bits of its
frame only. -/
theorem Matches.congr
    {s s' : State W} {id : FileId} {entry : Entry} (h : Matches s id entry)
    (hid : s'.peerInPhys id = s.peerInPhys id)
    (hframe : ∀ ppage, s.peerInPhys id = some ppage → ppage ≠ 0 →
      (s'.physicalTable ppage).referenced = (s.physicalTable ppage).referenced ∧
      (s'.physicalTable ppage).dirty = (s.physicalTable ppage).dirty) :
    Matches s' id entry := by
  cases hplace : s.peerInPhys id with
  | none =>
      rw [matches_none hplace] at h
      exact (matches_none (hid.trans hplace)).mpr h
  | some ppage =>
      by_cases hzero : ppage = 0
      · subst hzero
        rw [matches_zero hplace] at h
        exact (matches_zero (hid.trans hplace)).mpr h
      · rw [matches_frame hplace hzero] at h
        obtain ⟨hreferenced, hdirty⟩ := hframe ppage hplace hzero
        refine (matches_frame (hid.trans hplace) hzero).mpr ?_
        rw [hreferenced, hdirty]
        exact h

/-! ## The partition of the frames -/

namespace Frames

variable {s : State W}

theorem nodup (h : Frames s) :
    (s.availablePhysicalPages ++ s.clockQueue).Nodup :=
  h.partition.nodup_iff.mpr List.nodup_range'

theorem mem_iff (h : Frames s) (ppage : ℕ) :
    ppage ∈ s.availablePhysicalPages ∨ ppage ∈ s.clockQueue ↔
      1 ≤ ppage ∧ ppage < s.numMemoryPages := by
  have hlower := h.memory_lower
  rw [← List.mem_append, h.partition.mem_iff, List.mem_range'_1]
  omega

theorem available_bounds
    (h : Frames s) {ppage : ℕ} (hmem : ppage ∈ s.availablePhysicalPages) :
    1 ≤ ppage ∧ ppage < s.numMemoryPages :=
  (h.mem_iff ppage).mp (.inl hmem)

theorem clock_bounds
    (h : Frames s) {ppage : ℕ} (hmem : ppage ∈ s.clockQueue) :
    1 ≤ ppage ∧ ppage < s.numMemoryPages :=
  (h.mem_iff ppage).mp (.inr hmem)

theorem not_mem_clock
    (h : Frames s) {ppage : ℕ} (hmem : ppage ∈ s.availablePhysicalPages) :
    ppage ∉ s.clockQueue :=
  fun hclock => List.disjoint_of_nodup_append h.nodup hmem hclock

theorem clock_nodup (h : Frames s) : s.clockQueue.Nodup :=
  h.nodup.of_append_right

/-- A frame number fits in the `ppage` field. -/
theorem mod_ppageLimit
    (h : Frames s) {ppage : ℕ} (hppage : ppage < s.numMemoryPages) :
    ppage % ppageLimit = ppage :=
  Nat.mod_eq_of_lt (hppage.trans_le h.memory_upper)

theorem resident_lt
    (h : Frames s) {id : FileId} {ppage : ℕ}
    (hid : s.peerInPhys id = some ppage) : ppage < s.numMemoryPages := by
  have hlower := h.memory_lower
  by_cases hzero : ppage = 0
  · omega
  · exact (h.clock_bounds (h.resident id ppage hid hzero).1).2

/-- Two pages are never in one frame, except for the zero page. -/
theorem resident_injective
    (h : Frames s) {id id' : FileId} {ppage : ℕ}
    (hid : s.peerInPhys id = some ppage) (hid' : s.peerInPhys id' = some ppage)
    (hppage : ppage ≠ 0) : id = id' :=
  (h.resident id ppage hid hppage).2.symm.trans
    (h.resident id' ppage hid' hppage).2

/-- Without a free frame there is one in the clock. -/
theorem clock_ne_nil (h : Frames s) (hfree : s.availablePhysicalPages = []) :
    s.clockQueue ≠ [] := by
  intro hclock
  have hlower := h.memory_lower
  have hone := (h.mem_iff 1).mpr ⟨le_refl 1, by omega⟩
  rw [hfree, hclock] at hone
  simp at hone

end Frames

/-! ## The clock -/

section Clock

variable {s : State W} {P : Set VirtualPage} {ppage : ℕ} {rest : List ℕ}

theorem Frames.passOver
    (h : Frames s) (hclock : s.clockQueue = ppage :: rest) :
    Frames (s.passOver ppage rest) := by
  have hid : ∀ p, ((s.passOver ppage rest).physicalTable p).id =
      (s.physicalTable p).id := by
    intro p
    by_cases hp : p = ppage <;> simp [State.passOver, State.setPhysical, State.setEntries, hp]
  have hdirty : ∀ p, ((s.passOver ppage rest).physicalTable p).dirty =
      (s.physicalTable p).dirty := by
    intro p
    by_cases hp : p = ppage <;> simp [State.passOver, State.setPhysical, State.setEntries, hp]
  have hmem : ∀ p, p ∈ rest ++ [ppage] ↔ p ∈ s.clockQueue := by
    intro p
    simp [hclock, or_comm]
  constructor
  case memory_lower => exact h.memory_lower
  case memory_upper => exact h.memory_upper
  case partition =>
      have hrotate : (rest ++ [ppage]).Perm s.clockQueue := by
        rw [hclock]
        exact List.perm_append_singleton ppage rest
      exact (hrotate.append_left _).trans h.partition
  case resident =>
      intro id p hplace hzero
      obtain ⟨hclock', howner⟩ := h.resident id p hplace hzero
      exact ⟨(hmem p).mpr hclock', (hid p).trans howner⟩
  case owner =>
      intro p hp
      rw [hid]
      exact h.owner p ((hmem p).mp hp)
  case zero_swapBacked => exact h.zero_swapBacked
  case clean =>
      intro p hp
      rw [hdirty]
      exact h.clean p hp
  case zero_clean => exact (hdirty 0).trans h.zero_clean

theorem Protected.passOver
    (h : Protected P s) (hframes : Frames s) (hpeers : Peers P s)
    (hclock : s.clockQueue = ppage :: rest) :
    Protected P (s.passOver ppage rest) := by
  have hmem : ppage ∈ s.clockQueue := by simp [hclock]
  have howner := hframes.owner ppage hmem
  have hpos : ppage ≠ 0 := by
    have := (hframes.clock_bounds hmem).1
    omega
  intro vp hvp
  by_cases hid : vp.id = (s.physicalTable ppage).id
  · have hentry : (s.passOver ppage rest).entries vp.entry =
        { s.entries vp.entry with readEnable := false, writeEnable := false } :=
      if_pos ⟨vp, (hpeers.listed _ vp).mpr ⟨hvp, hid⟩, rfl⟩
    have hplace : s.peerInPhys vp.id = some ppage := by rw [hid, howner]
    have hold := (matches_frame hplace hpos).mp (h vp hvp)
    refine (matches_frame (s := s.passOver ppage rest) hplace hpos).mpr ?_
    rw [hentry]
    simp [State.passOver, State.setPhysical, State.setEntries, hold.1]
  · have hentry : (s.passOver ppage rest).entries vp.entry = s.entries vp.entry := by
      refine if_neg ?_
      rintro ⟨peer, hpeer, hsame⟩
      obtain ⟨hpeerP, hpeerId⟩ := (hpeers.listed _ peer).mp hpeer
      have := hpeers.entry_injective peer hpeerP vp hvp hsame
      exact hid (this ▸ hpeerId)
    rw [hentry]
    refine (h vp hvp).congr rfl fun p hplace hzero => ?_
    have hne : p ≠ ppage := by
      rintro rfl
      exact hid (hframes.resident_injective hplace howner hzero)
    simp [State.passOver, State.setPhysical, State.setEntries, hne]

theorem OnlyPages.passOver (hpeers : Peers P s) :
    OnlyPages P s (s.passOver ppage rest) := by
  refine ⟨fun ref houtside => if_neg ?_, fun _ _ _ => id⟩
  rintro ⟨peer, hpeer, hsame⟩
  exact houtside peer ((hpeers.listed _ peer).mp hpeer).1 hsame

theorem OnlyPages.evict : OnlyPages P s (s.evict io ppage rest) := by
  refine ⟨fun _ _ => rfl, fun id _ p hid => ?_⟩
  by_cases hvictim : id = (s.physicalTable ppage).id
  · simp [State.evict, hvictim] at hid
  · simpa [State.evict, hvictim] using hid

theorem Frames.evict
    (h : Frames s) (hfree : s.availablePhysicalPages = [])
    (hclock : s.clockQueue = ppage :: rest) :
    Frames (s.evict io ppage rest) := by
  have hmem : ppage ∈ s.clockQueue := by simp [hclock]
  have hpos := (h.clock_bounds hmem).1
  have hnodup := h.clock_nodup
  rw [hclock, List.nodup_cons] at hnodup
  have hother : ∀ p, p ≠ ppage →
      (s.evict io ppage rest).physicalTable p = s.physicalTable p := by
    intro p hp
    exact Function.update_of_ne hp _ _
  have hself : ((s.evict io ppage rest).physicalTable ppage).dirty = false := by
    simp [State.evict, State.setPhysical]
  have hplace : ∀ id p, (s.evict io ppage rest).peerInPhys id = some p →
      id ≠ (s.physicalTable ppage).id ∧ s.peerInPhys id = some p := by
    intro id p hid
    by_cases hvictim : id = (s.physicalTable ppage).id
    · simp [State.evict, hvictim] at hid
    · exact ⟨hvictim, by simpa [State.evict, hvictim] using hid⟩
  constructor
  case memory_lower => exact h.memory_lower
  case memory_upper => exact h.memory_upper
  case partition =>
      have hpartition := h.partition
      rw [hfree, hclock] at hpartition
      change ((s.availablePhysicalPages ++ [ppage]) ++ rest).Perm _
      rw [hfree]
      exact hpartition
  case resident =>
      intro id p hid hzero
      obtain ⟨hvictim, hold⟩ := hplace id p hid
      obtain ⟨hp, howner⟩ := h.resident id p hold hzero
      have hne : p ≠ ppage := by
        rintro rfl
        exact hvictim howner.symm
      rw [hclock, List.mem_cons] at hp
      exact ⟨hp.resolve_left hne, by rw [hother p hne]; exact howner⟩
  case owner =>
      intro p hp
      change p ∈ rest at hp
      have hne : p ≠ ppage := by
        rintro rfl
        exact hnodup.1 hp
      have hold := h.owner p (by rw [hclock]; exact List.mem_cons_of_mem _ hp)
      have hvictim : (s.physicalTable p).id ≠ (s.physicalTable ppage).id := by
        intro heq
        rw [heq, h.owner ppage hmem] at hold
        exact hne (Option.some.inj hold).symm
      rw [hother p hne]
      simpa [State.evict, hvictim] using hold
  case zero_swapBacked =>
      intro id hid
      exact h.zero_swapBacked id (hplace id 0 hid).2
  case clean =>
      intro p hp
      obtain rfl : p = ppage := by simpa [State.evict, hfree] using hp
      exact hself
  case zero_clean =>
      rw [hother 0 (by omega)]
      exact h.zero_clean

theorem Protected.evict
    (h : Protected P s) (hframes : Frames s)
    (hclock : s.clockQueue = ppage :: rest)
    (hreferenced : (s.physicalTable ppage).referenced = false) :
    Protected P (s.evict io ppage rest) := by
  have hmem : ppage ∈ s.clockQueue := by simp [hclock]
  have howner := hframes.owner ppage hmem
  have hpos : ppage ≠ 0 := by
    have := (hframes.clock_bounds hmem).1
    omega
  intro vp hvp
  change Matches _ _ (s.entries vp.entry)
  by_cases hid : vp.id = (s.physicalTable ppage).id
  · have hnone : (s.evict io ppage rest).peerInPhys vp.id = none := by
      simp [State.evict, hid]
    have hold := (matches_frame (by rw [hid, howner]) hpos).mp (h vp hvp)
    rw [hreferenced] at hold
    exact (matches_none hnone).mpr ⟨hold.2.1, by simpa using hold.2.2⟩
  · refine (h vp hvp).congr (by simp [State.evict, hid]) fun p hplace hzero => ?_
    have hne : p ≠ ppage := by
      rintro rfl
      exact hid (hframes.resident_injective hplace howner hzero)
    simp [State.evict, State.setPhysical, hne]

end Clock

end Pager
end Eecs482
