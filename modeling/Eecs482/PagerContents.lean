import Eecs482.PagerInvariant

/-!
# The contents of pages

The bytes of a page are in its frame, or in its file while it is not in memory.
`Stored` says that a frame which is not dirty agrees with the file, so that
giving it up loses nothing.  Every part of a page fault leaves the contents of
all pages as they are.  The files are used through `BlockStore` only.
-/

namespace Eecs482
namespace Pager

variable {W : Type} {io : FileIo W}

/-- Files behave as a store of blocks: nobody else changes them, a block that
can be read stays readable, and writes succeed. -/
structure BlockStore (io : FileIo W) where
  /-- What is in a block, whether or not it can be read now. -/
  contents : W → BlockKey → Page
  readable : W → BlockKey → Prop
  read_contents : ∀ w key, (io.read key w).1.1 = true →
    (io.read key w).1.2 = contents w key
  read_succeeds : ∀ w key, readable w key → (io.read key w).1.1 = true
  contents_read : ∀ w key, contents (io.read key w).2 = contents w
  readable_read : ∀ w key key', readable w key' ∨
    (key' = key ∧ (io.read key w).1.1 = true) → readable (io.read key w).2 key'
  write_succeeds : ∀ w key page, (io.write key page w).1 = true
  contents_write : ∀ w key page,
    contents (io.write key page w).2 = Function.update (contents w) key page
  readable_write : ∀ w key page key', readable w key' ∨ key' = key →
    readable (io.write key page w).2 key'

/-- The file ids of pages: a swap page has no name, the name of a file ends with
its only NUL. -/
def FileId.Canonical (id : FileId) : Prop :=
  if id.swapBacked then id.filename = []
  else ∃ name, 0 ∉ name ∧ id.filename = name ++ [0]

theorem cStr_append_nul {name : Name} (hname : 0 ∉ name) :
    cStr (name ++ [0]) = name := by
  rw [cStr, List.takeWhile_append_of_pos]
  · simp
  · intro byte hbyte
    have hne : byte ≠ 0 := by
      rintro rfl
      exact hname hbyte
    simpa using hne

/-- Different pages are kept in different blocks. -/
theorem FileId.key_injective
    {id id' : FileId} (hid : id.Canonical) (hid' : id'.Canonical)
    (hkey : id.key = id'.key) : id = id' := by
  obtain ⟨filename, block, swapBacked⟩ := id
  obtain ⟨filename', block', swapBacked'⟩ := id'
  simp only [FileId.key, Prod.mk.injEq] at hkey
  obtain ⟨hname, rfl⟩ := hkey
  cases swapBacked <;> cases swapBacked'
  · obtain ⟨name, hnul, rfl⟩ := hid
    obtain ⟨name', hnul', rfl⟩ := hid'
    simp only [Bool.false_eq_true, if_false, Option.some.injEq] at hname
    rw [cStr_append_nul hnul, cStr_append_nul hnul'] at hname
    rw [hname]
  · simp at hname
  · simp at hname
  · obtain rfl : filename = [] := hid
    obtain rfl : filename' = [] := hid'
    rfl

/-- The bytes of frame `ppage`. -/
def State.frame (s : State W) (ppage : ℕ) : Page :=
  loadPage s.physmem (ppage * vmPagesize)

variable (store : BlockStore io)

/-- The bytes of the page `id`, wherever they are. -/
def content (s : State W) (id : FileId) : Page :=
  match s.peerInPhys id with
  | some ppage => s.frame ppage
  | none => store.contents s.world id.key

/-- The file has the bytes of the page `id`, unless the page is not in `X`. -/
def UpToDate (s : State W) (id : FileId) : Prop :=
  ∀ ppage, s.peerInPhys id = some ppage →
    ppage ≠ 0 ∧ (s.physicalTable ppage).dirty = false

/-- What the frames and the files hold.  The pages in `X` are about to be marked
dirty. -/
structure Stored (X : Set FileId) (P : Set VirtualPage) (s : State W) : Prop where
  memory : s.numMemoryPages ≤ 2 ^ 16
  zero : s.frame 0 = fun _ => 0
  canonical : ∀ vp ∈ P, vp.id.Canonical
  resident_canonical : ∀ id ppage, s.peerInPhys id = some ppage → id.Canonical
  clean : ∀ id ∉ X, UpToDate s id → ∀ ppage, s.peerInPhys id = some ppage →
    s.frame ppage = store.contents s.world id.key
  readable : ∀ vp ∈ P, vp.id ∉ X → vp.id.swapBacked = true → UpToDate s vp.id →
    store.readable s.world vp.id.key

/-- No page has changed. -/
def SameContents (s s' : State W) : Prop :=
  ∀ id, id.Canonical → content store s' id = content store s id

variable {store} {X : Set FileId} {P : Set VirtualPage} {s s' : State W}
variable {vp : VirtualPage} {ppage : ℕ} {rest : List ℕ}

theorem content_of_some {id : FileId} (hid : s.peerInPhys id = some ppage) :
    content store s id = s.frame ppage := by
  rw [content, hid]

theorem content_of_none {id : FileId} (hid : s.peerInPhys id = none) :
    content store s id = store.contents s.world id.key := by
  rw [content, hid]

theorem SameContents.refl : SameContents store s s :=
  fun _ _ => rfl

theorem SameContents.trans
    {s'' : State W} (h : SameContents store s s')
    (h' : SameContents store s' s'') : SameContents store s s'' :=
  fun id hid => (h' id hid).trans (h id hid)

/-- The bytes, the files and the places of the pages are the same, and no frame
has become clean. -/
structure SameStore (s s' : State W) : Prop where
  physmem : s'.physmem = s.physmem
  world : s'.world = s.world
  peerInPhys : s'.peerInPhys = s.peerInPhys
  numMemoryPages : s'.numMemoryPages = s.numMemoryPages
  dirty : ∀ ppage, (s.physicalTable ppage).dirty = true →
    (s'.physicalTable ppage).dirty = true

theorem SameStore.contents (h : SameStore s s') : SameContents store s s' := by
  intro id _
  rw [content, content, h.peerInPhys, h.world]
  cases s.peerInPhys id with
  | none => rfl
  | some ppage =>
      change s'.frame ppage = s.frame ppage
      rw [State.frame, h.physmem]
      rfl

theorem UpToDate.of_same
    {id : FileId} (h : SameStore s s') (hid : UpToDate s' id) : UpToDate s id := by
  intro ppage hplace
  obtain ⟨hzero, hclean⟩ := hid ppage (by rw [h.peerInPhys]; exact hplace)
  refine ⟨hzero, ?_⟩
  cases hdirty : (s.physicalTable ppage).dirty with
  | false => rfl
  | true =>
      rw [h.dirty ppage hdirty] at hclean
      cases hclean

theorem Stored.of_same
    (hstored : Stored store X P s) (h : SameStore s s') :
    Stored store X P s' where
  memory := h.numMemoryPages.trans_le hstored.memory
  zero := by
    rw [State.frame, h.physmem]
    exact hstored.zero
  canonical := hstored.canonical
  resident_canonical := by
    rw [h.peerInPhys]
    exact hstored.resident_canonical
  clean id hid hclean ppage hplace := by
    rw [h.peerInPhys] at hplace
    rw [State.frame, h.physmem, h.world]
    exact hstored.clean id hid (.of_same h hclean) ppage hplace
  readable vp hvp hid hswap hclean := by
    rw [h.world]
    exact hstored.readable vp hvp hid hswap (.of_same h hclean)

/-! ## Frames in physical memory -/

theorem Stored.frameStart_eq
    (h : Stored store X P s) (hppage : ppage < s.numMemoryPages) :
    frameStart ppage = ppage * vmPagesize :=
  frameStart_of_lt (hppage.trans_le h.memory)

theorem loadPage_storePage_of_ne
    {physmem : ℕ → Byte} {page : Page} {p q : ℕ} (hne : q ≠ p) :
    loadPage (storePage physmem (p * vmPagesize) page) (q * vmPagesize) =
      loadPage physmem (q * vmPagesize) := by
  refine loadPage_storePage_of_disjoint physmem page ?_
  change p * 65536 + 65536 ≤ q * 65536 ∨ q * 65536 + 65536 ≤ p * 65536
  omega

/-! ## The clock -/

theorem sameStore_passOver : SameStore s (s.passOver ppage rest) := by
  refine ⟨rfl, rfl, rfl, rfl, fun p hdirty => ?_⟩
  by_cases hp : p = ppage
  · subst hp
    simpa [State.passOver, State.setPhysical, State.setEntries] using hdirty
  · simpa [State.passOver, State.setPhysical, State.setEntries, hp] using hdirty

/-- What the files hold once the victim is written back. -/
theorem contents_evict
    (hframes : Frames s) (hstored : Stored store ∅ P s)
    (hclock : s.clockQueue = ppage :: rest) (key : BlockKey) :
    store.contents (s.evict io ppage rest).world key =
      if key = (s.physicalTable ppage).id.key then s.frame ppage
      else store.contents s.world key := by
  have hmem : ppage ∈ s.clockQueue := by
    rw [hclock]
    exact List.mem_cons_self
  have hbounds := hframes.clock_bounds hmem
  have howner := hframes.owner ppage hmem
  have hstart := hstored.frameStart_eq hbounds.2
  cases hdirty : (s.physicalTable ppage).dirty with
  | true =>
      have hworld : (s.evict io ppage rest).world =
          (io.write (s.physicalTable ppage).id.key (s.frame ppage) s.world).2 := by
        simp only [State.evict, hdirty, if_true, hstart, State.frame]
      rw [hworld, store.contents_write, Function.update_apply]
  | false =>
      have hworld : (s.evict io ppage rest).world = s.world := by
        simp only [State.evict, hdirty, Bool.false_eq_true, if_false]
      rw [hworld]
      split
      case isFalse => rfl
      case isTrue hkey =>
          rw [hkey]
          refine (hstored.clean _ (Set.notMem_empty _) ?_ ppage howner).symm
          intro p hp
          rw [howner, Option.some.injEq] at hp
          subst hp
          exact ⟨by omega, hdirty⟩

theorem readable_evict
    {key : BlockKey} (hreadable : store.readable s.world key) :
    store.readable (s.evict io ppage rest).world key := by
  unfold State.evict
  simp only
  split
  · exact store.readable_write _ _ _ _ (.inl hreadable)
  · exact hreadable

/-- An evicted page keeps its contents: they are in its file. -/
theorem stored_evict
    (hframes : Frames s) (hstored : Stored store ∅ P s)
    (hclock : s.clockQueue = ppage :: rest) :
    Stored store ∅ P (s.evict io ppage rest) ∧
      SameContents store s (s.evict io ppage rest) := by
  have hmem : ppage ∈ s.clockQueue := by
    rw [hclock]
    exact List.mem_cons_self
  have howner := hframes.owner ppage hmem
  have hpos := (hframes.clock_bounds hmem).1
  have hcontents := contents_evict hframes hstored hclock
  have hvictim := hstored.resident_canonical _ _ howner
  have hplace : ∀ id, id ≠ (s.physicalTable ppage).id →
      (s.evict io ppage rest).peerInPhys id = s.peerInPhys id :=
    fun id hid => Function.update_of_ne hid _ _
  have hgone : (s.evict io ppage rest).peerInPhys (s.physicalTable ppage).id = none :=
    Function.update_self _ _ _
  have hother : ∀ id, id.Canonical → id ≠ (s.physicalTable ppage).id →
      store.contents (s.evict io ppage rest).world id.key =
        store.contents s.world id.key := by
    intro id hid hne
    rw [hcontents, if_neg fun hkey => hne (FileId.key_injective hid hvictim hkey)]
  have hclean : ∀ id, id ≠ (s.physicalTable ppage).id →
      UpToDate (s.evict io ppage rest) id → UpToDate s id := by
    intro id hid hupToDate p hp
    obtain ⟨hzero, hdirty⟩ := hupToDate p (by rw [hplace id hid]; exact hp)
    refine ⟨hzero, ?_⟩
    have hne : p ≠ ppage := by
      rintro rfl
      exact hid (hframes.resident_injective hp howner hzero)
    simpa [State.evict, State.setPhysical, hne] using hdirty
  refine ⟨⟨hstored.memory, hstored.zero, hstored.canonical, ?_, ?_, ?_⟩, ?_⟩
  · intro id p hp
    by_cases hid : id = (s.physicalTable ppage).id
    · rw [hid, hgone] at hp
      cases hp
    · rw [hplace id hid] at hp
      exact hstored.resident_canonical id p hp
  · intro id _ hupToDate p hp
    by_cases hid : id = (s.physicalTable ppage).id
    · rw [hid, hgone] at hp
      cases hp
    · have hp' := hp
      rw [hplace id hid] at hp
      rw [hother id (hstored.resident_canonical id p hp) hid]
      exact hstored.clean id (Set.notMem_empty _) (hclean id hid hupToDate) p hp
  · intro vp hvp _ hswap hupToDate
    by_cases hid : vp.id = (s.physicalTable ppage).id
    · cases hdirty : (s.physicalTable ppage).dirty with
      | true =>
          have hworld : (s.evict io ppage rest).world =
              (io.write (s.physicalTable ppage).id.key
                (loadPage s.physmem (frameStart ppage)) s.world).2 := by
            simp only [State.evict, hdirty, if_true]
          rw [hworld, hid]
          exact store.readable_write _ _ _ _ (.inr rfl)
      | false =>
          refine readable_evict (hstored.readable vp hvp (Set.notMem_empty _) hswap ?_)
          intro p hp
          rw [hid, howner, Option.some.injEq] at hp
          subst hp
          exact ⟨by omega, hdirty⟩
    · exact readable_evict (hstored.readable vp hvp (Set.notMem_empty _) hswap
        (hclean _ hid hupToDate))
  · intro id hcanonical
    by_cases hid : id = (s.physicalTable ppage).id
    · subst hid
      rw [content_of_none hgone, content_of_some howner, hcontents, if_pos rfl]
    · rw [content, content, hplace id hid]
      cases hp : s.peerInPhys id with
      | some p => rfl
      | none => exact hother id hcanonical hid

theorem stored_getFreePhysicalPageLoop
    {fuel : ℕ} (hframes : Frames s) (hstored : Stored store ∅ P s)
    (hrun : State.getFreePhysicalPageLoop io fuel s = some s') :
    Stored store ∅ P s' ∧ SameContents store s s' := by
  induction fuel generalizing s with
  | zero => cases hrun
  | succ fuel ih =>
      rw [State.getFreePhysicalPageLoop] at hrun
      split at hrun
      case isTrue =>
          cases hrun
          exact ⟨hstored, .refl⟩
      case isFalse =>
          split at hrun
          case h_1 => cases hrun
          case h_2 ppage rest hclock =>
              split at hrun
              case isTrue =>
                  have hsame : SameStore s (s.passOver ppage rest) := sameStore_passOver
                  obtain ⟨hstored', hcontents⟩ :=
                    ih (hframes.passOver hclock) (hstored.of_same hsame) hrun
                  exact ⟨hstored', hsame.contents.trans hcontents⟩
              case isFalse =>
                  cases hrun
                  exact stored_evict hframes hstored hclock

/-! ## Loading a page -/

/-- Bytes outside the frames in use are nobody's. -/
theorem stored_setMemory
    {world : W} {physmem : ℕ → Byte} (hframes : Frames s) (hstored : Stored store ∅ P s)
    (hfree : ppage ∈ s.availablePhysicalPages)
    (hframe : ∀ p, p ≠ ppage →
      State.frame { s with world := world, physmem := physmem } p = s.frame p)
    (hcontents : store.contents world = store.contents s.world)
    (hreadable : ∀ key, store.readable s.world key → store.readable world key) :
    Stored store ∅ P { s with world := world, physmem := physmem } ∧
      SameContents store s { s with world := world, physmem := physmem } := by
  have hbounds := hframes.available_bounds hfree
  have hresident : ∀ id p, s.peerInPhys id = some p → p ≠ ppage := by
    rintro id p hp rfl
    exact hframes.not_mem_clock hfree (hframes.resident id p hp (by omega)).1
  refine ⟨⟨hstored.memory, (hframe 0 (by omega)).trans hstored.zero,
    hstored.canonical, hstored.resident_canonical, ?_, ?_⟩, ?_⟩
  · intro id hid hclean p hp
    rw [hframe p (hresident id p hp)]
    exact (hstored.clean id hid hclean p hp).trans (congrFun hcontents _).symm
  · exact fun vp hvp hid hswap hclean =>
      hreadable _ (hstored.readable vp hvp hid hswap hclean)
  · intro id _
    rw [content, content]
    change (match s.peerInPhys id with | some _ => _ | none => _) = _
    cases hp : s.peerInPhys id with
    | none => exact congrFun hcontents _
    | some p => exact hframe p (hresident id p hp)

/-- Bytes written to a free frame are nobody's. -/
theorem stored_fill
    (world : W) (page : Page) (hframes : Frames s) (hstored : Stored store ∅ P s)
    (hfree : ppage ∈ s.availablePhysicalPages)
    (hcontents : store.contents world = store.contents s.world)
    (hreadable : ∀ key, store.readable s.world key → store.readable world key) :
    Stored store ∅ P { s with
        world := world
        physmem := storePage s.physmem (frameStart ppage) page } ∧
      SameContents store s { s with
        world := world
        physmem := storePage s.physmem (frameStart ppage) page } := by
  refine stored_setMemory hframes hstored hfree (fun p hp => ?_) hcontents hreadable
  rw [State.frame, hstored.frameStart_eq (hframes.available_bounds hfree).2]
  exact loadPage_storePage_of_ne hp

/-- The page that is about to be marked dirty: one that was only mapped to the
zero page so far. -/
def dirtySoon (vp : VirtualPage) (s : State W) : Set FileId :=
  {id | id = vp.id ∧ s.peerInPhys vp.id = some 0}

theorem dirtySoon_of_same (hplace : s'.peerInPhys = s.peerInPhys) :
    dirtySoon vp s' = dirtySoon vp s := by
  unfold dirtySoon
  rw [hplace]

theorem stored_install
    (rest : List ℕ) (hstored : Stored store ∅ P s) (hvp : vp ∈ P) (hunplaced : Unplaced s vp)
    (hpage : s.frame ppage = content store s vp.id) :
    Stored store (dirtySoon vp s) P (s.install vp ppage rest) ∧
      SameContents store s (s.install vp ppage rest) := by
  have hdirty : ∀ p, ((s.install vp ppage rest).physicalTable p).dirty =
      (s.physicalTable p).dirty := by
    intro p
    by_cases hp : p = ppage
    · rw [hp, install_physicalTable_self]
    · rw [install_physicalTable_of_ne hp]
  have hclean : ∀ id, id ≠ vp.id → UpToDate (s.install vp ppage rest) id →
      UpToDate s id := by
    intro id hid hupToDate p hp
    obtain ⟨hzero, hdirty'⟩ :=
      hupToDate p (by rw [install_peerInPhys_of_ne hid]; exact hp)
    exact ⟨hzero, by rw [← hdirty]; exact hdirty'⟩
  have hnone : vp.id ∉ dirtySoon vp s → s.peerInPhys vp.id = none := by
    intro hX
    rcases hunplaced with hplace | hplace
    · exact hplace
    · exact absurd ⟨rfl, hplace⟩ hX
  refine ⟨⟨hstored.memory, hstored.zero, hstored.canonical, ?_, ?_, ?_⟩, ?_⟩
  · intro id p hp
    by_cases hid : id = vp.id
    · rw [hid]
      exact hstored.canonical vp hvp
    · rw [install_peerInPhys_of_ne hid] at hp
      exact hstored.resident_canonical id p hp
  · intro id hX hupToDate p hp
    by_cases hid : id = vp.id
    · subst hid
      rw [install_peerInPhys_self, Option.some.injEq] at hp
      subst hp
      exact hpage.trans (content_of_none (hnone hX))
    · rw [install_peerInPhys_of_ne hid] at hp
      exact hstored.clean id (Set.notMem_empty _) (hclean id hid hupToDate) p hp
  · intro other hother hX hswap hupToDate
    refine hstored.readable other hother (Set.notMem_empty _) hswap ?_
    by_cases hid : other.id = vp.id
    · intro p hp
      rw [hid] at hX hp
      rw [hnone hX] at hp
      cases hp
    · exact hclean _ hid hupToDate
  · intro id _
    by_cases hid : id = vp.id
    · rw [hid, content_of_some install_peerInPhys_self]
      exact hpage
    · rw [content, content, install_peerInPhys_of_ne hid]
      rfl

/-- A page that is brought into memory has the bytes of its file, or zeroes. -/
theorem stored_setPhysicalPage
    {ok : Bool} (hframes : Frames s) (hstored : Stored store ∅ P s) (hvp : vp ∈ P)
    (hplace : s.checkResidence vp = true →
      s.peerInPhys vp.id = some 0 ∧ (s.entries vp.entry).ppage = 0)
    (hrun : s.setPhysicalPage io vp = some (ok, s')) :
    SameContents store s s' ∧ (ok = false → Stored store ∅ P s') ∧
      (ok = true → Stored store (dirtySoon vp s) P s') := by
  cases hfree : s.availablePhysicalPages with
  | nil =>
      rw [State.setPhysicalPage, hfree] at hrun
      cases hrun
  | cons ppage rest =>
      have hmem : ppage ∈ s.availablePhysicalPages := by
        rw [hfree]
        exact List.mem_cons_self
      have hstart := hstored.frameStart_eq (hframes.available_bounds hmem).2
      cases hresidence : s.checkResidence vp with
      | true =>
          rw [setPhysicalPage_of_resident hfree hresidence] at hrun
          cases hrun
          obtain ⟨hzero, hentry⟩ := hplace hresidence
          have hcopy : frameStart (s.entries vp.entry).ppage = 0 * vmPagesize := by
            rw [hentry]
            rfl
          obtain ⟨hfill, hcontents⟩ : Stored store ∅ P (s.copyInto vp ppage) ∧
              SameContents store s (s.copyInto vp ppage) :=
            stored_fill s.world (loadPage s.physmem (frameStart (s.entries vp.entry).ppage))
              hframes hstored hmem rfl fun _ => id
          have hpage : (s.copyInto vp ppage).frame ppage =
              content store (s.copyInto vp ppage) vp.id := by
            refine Eq.trans ?_ (hcontents _ (hstored.canonical vp hvp)).symm
            rw [content_of_some hzero, State.frame, State.copyInto, hstart,
              loadPage_storePage, hcopy]
            rfl
          have hzero' : (s.copyInto vp ppage).peerInPhys vp.id = some 0 := by
            rw [copyInto_peerInPhys]
            exact hzero
          obtain ⟨hinstall, hcontents'⟩ := stored_install rest hfill hvp
            (.inr hzero') hpage
          rw [dirtySoon_of_same (copyInto_peerInPhys ppage)] at hinstall
          exact ⟨hcontents.trans hcontents', (by simp), fun _ => hinstall⟩
      | false =>
          have hnone := peerInPhys_of_not_resident hresidence
          have hworld : store.contents (io.read vp.id.key s.world).2 =
              store.contents s.world := store.contents_read _ _
          obtain ⟨hfill, hcontents⟩ :
              Stored store ∅ P (s.readInto io vp ppage).2 ∧
                SameContents store s (s.readInto io vp ppage).2 :=
            stored_fill (io.read vp.id.key s.world).2 (io.read vp.id.key s.world).1.2
              hframes hstored hmem hworld
              fun key hkey => store.readable_read _ _ _ (.inl hkey)
          cases hok : (s.readInto io vp ppage).1 || vp.id.swapBacked with
          | false =>
              rw [setPhysicalPage_of_failed_read hfree hresidence hok] at hrun
              cases hrun
              exact ⟨hcontents, fun _ => hfill, (by simp)⟩
          | true =>
              rw [setPhysicalPage_of_read hfree hresidence hok] at hrun
              cases hrun
              have hread : (io.read vp.id.key s.world).1.1 = true := by
                rcases Bool.or_eq_true_iff.mp hok with hread | hswap
                · exact hread
                · refine store.read_succeeds _ _ (hstored.readable vp hvp
                    (Set.notMem_empty _) hswap fun p hp => ?_)
                  rw [hnone] at hp
                  cases hp
              have hpage : (s.readInto io vp ppage).2.frame ppage =
                  content store (s.readInto io vp ppage).2 vp.id := by
                refine Eq.trans ?_ (hcontents _ (hstored.canonical vp hvp)).symm
                rw [content_of_none hnone, State.frame, State.readInto, hstart,
                  loadPage_storePage]
                exact store.read_contents _ _ hread
              have hnone' : (s.readInto io vp ppage).2.peerInPhys vp.id = none := by
                rw [readInto_peerInPhys]
                exact hnone
              obtain ⟨hinstall, hcontents'⟩ := stored_install rest hfill hvp
                (.inl hnone') hpage
              rw [dirtySoon_of_same (readInto_peerInPhys ppage)] at hinstall
              exact ⟨hcontents.trans hcontents', (by simp), fun _ => hinstall⟩

theorem stored_bringIn
    {ok : Bool} (hframes : Frames s) (hpeers : Peers P s) (hprotect : Protected P s)
    (hstored : Stored store ∅ P s) (hvp : vp ∈ P) (hunplaced : Unplaced s vp)
    (hrun : s.bringIn io vp = some (ok, s')) :
    SameContents store s s' ∧ (ok = false → Stored store ∅ P s') ∧
      (ok = true → Stored store (dirtySoon vp s) P s') := by
  obtain ⟨t, hget, hset⟩ := Option.bind_eq_some_iff.mp hrun
  obtain ⟨t', hget', hfreed⟩ := getFreePhysicalPage_spec io hframes hpeers hprotect
  rw [hget, Option.some.injEq] at hget'
  subst hget'
  obtain ⟨hstored', hcontents⟩ := stored_getFreePhysicalPageLoop hframes hstored hget
  have hzero : t.peerInPhys vp.id = some 0 ↔ s.peerInPhys vp.id = some 0 := by
    simpa using hfreed.leaves vp.id
  have hplace : t.checkResidence vp = true →
      t.peerInPhys vp.id = some 0 ∧ (t.entries vp.entry).ppage = 0 := by
    intro hresidence
    rcases hunplaced with hnone | hsome
    · rw [State.checkResidence, hfreed.absent _ hnone] at hresidence
      cases hresidence
    · have hplace := hzero.mpr hsome
      exact ⟨hplace, (hfreed.protect vp hvp).ppage hplace⟩
  obtain ⟨hcontents', hfailed, hloaded⟩ :=
    stored_setPhysicalPage hfreed.frames hstored' hvp hplace hset
  have hsoon : dirtySoon vp t = dirtySoon vp s := by
    ext id
    simp only [dirtySoon, Set.mem_ofPred_eq, hzero]
  exact ⟨hcontents.trans hcontents', hfailed, fun hok => hsoon ▸ hloaded hok⟩

/-! ## Serving the fault -/

theorem sameStore_markWritten (s : State W) (vp : VirtualPage) :
    SameStore s (s.markWritten vp) := by
  refine ⟨rfl, rfl, rfl, rfl, fun p hdirty => ?_⟩
  by_cases hp : p = (s.entries vp.entry).ppage
  · simp [State.markWritten, State.setPhysical, State.setEntry, hp]
  · simpa [State.markWritten, State.setPhysical, State.setEntry, hp] using hdirty

/-- Once the frame is dirty it need not agree with the file. -/
theorem stored_markWritten
    (hstored : Stored store (dirtySoon vp s) P s')
    (hplace : s'.peerInPhys vp.id = some (s'.entries vp.entry).ppage) :
    Stored store ∅ P (s'.markWritten vp) := by
  have hsame := hstored.of_same (sameStore_markWritten s' vp)
  have hdirty : ¬UpToDate (s'.markWritten vp) vp.id := by
    intro hupToDate
    have := (hupToDate _ hplace).2
    simp [State.markWritten, State.setPhysical, State.setEntry] at this
  refine ⟨hsame.memory, hsame.zero, hsame.canonical, hsame.resident_canonical, ?_, ?_⟩
  · intro id _ hupToDate
    refine hsame.clean id (fun hX => hdirty ?_) hupToDate
    exact hX.1 ▸ hupToDate
  · intro other hother _ hswap hupToDate
    refine hsame.readable other hother (fun hX => hdirty ?_) hswap hupToDate
    exact hX.1 ▸ hupToDate

theorem sameStore_finishFault : SameStore s (s.finishFault vp) := by
  refine ⟨rfl, rfl, rfl, rfl, fun p hdirty => ?_⟩
  by_cases hp : p = (s.entries vp.entry).ppage
  · subst hp
    simpa [State.finishFault, State.setPeer, State.setEntries, State.setPhysical,
      State.setEntry] using hdirty
  · simpa [State.finishFault, State.setPeer, State.setEntries, State.setPhysical,
      State.setEntry, hp] using hdirty

theorem stored_writeFault
    {ok : Bool} (hframes : Frames s) (hpeers : Peers P s) (hprotect : Protected P s)
    (hstored : Stored store ∅ P s) (hvp : vp ∈ P)
    (hrun : s.writeFault io vp = some (ok, s')) :
    Stored store ∅ P s' ∧ SameContents store s s' := by
  rw [State.writeFault] at hrun
  split at hrun
  case isTrue hneeded =>
      obtain ⟨⟨loaded, t⟩, hbring, hmark⟩ := Option.map_eq_some_iff.mp hrun
      have hunplaced := unplaced_of_needed hprotect hvp hneeded
      obtain ⟨hcontents, hfailed, hloaded⟩ :=
        stored_bringIn hframes hpeers hprotect hstored hvp hunplaced hbring
      cases loaded with
      | false =>
          cases hmark
          exact ⟨hfailed rfl, hcontents⟩
      | true =>
          cases hmark
          obtain ⟨ok', t', hbring', hplaced, _⟩ :=
            bringIn_spec io hframes hpeers hprotect hvp hunplaced
          rw [hbring] at hbring'
          cases hbring'
          obtain ⟨ppage, hplace, hppage, _⟩ := (hplaced rfl).place
          exact ⟨stored_markWritten (hloaded rfl) (by rw [hppage]; exact hplace),
            hcontents.trans (sameStore_markWritten _ _).contents⟩
  case isFalse =>
      cases hrun
      exact ⟨hstored.of_same (sameStore_markWritten _ _), (sameStore_markWritten _ _).contents⟩

theorem stored_readFault
    {ok : Bool} (hframes : Frames s) (hpeers : Peers P s) (hprotect : Protected P s)
    (hstored : Stored store ∅ P s) (hvp : vp ∈ P)
    (hrun : s.readFault io vp = some (ok, s')) :
    Stored store ∅ P s' ∧ SameContents store s s' := by
  rw [State.readFault] at hrun
  split at hrun
  case isTrue hneeded =>
      have hresidence : s.checkResidence vp = false := by simpa using hneeded
      have hnone := peerInPhys_of_not_resident hresidence
      obtain ⟨hcontents, hfailed, hloaded⟩ :=
        stored_bringIn hframes hpeers hprotect hstored hvp (.inl hnone) hrun
      have hsoon : dirtySoon vp s = ∅ := by
        ext id
        simp [dirtySoon, hnone]
      rw [hsoon] at hloaded
      cases ok with
      | false => exact ⟨hfailed rfl, hcontents⟩
      | true => exact ⟨hloaded rfl, hcontents⟩
  case isFalse =>
      split at hrun
      case isTrue =>
          cases hrun
          have hsame : SameStore s
              (s.setEntry vp.entry ({ · with writeEnable := true })) :=
            ⟨rfl, rfl, rfl, rfl, fun _ => id⟩
          exact ⟨hstored.of_same hsame, hsame.contents⟩
      case isFalse =>
          cases hrun
          exact ⟨hstored, .refl⟩

/-- A page fault changes the contents of no page, whether it succeeds or not. -/
theorem stored_faultPage
    {write ok : Bool} (hcoherent : Coherent P s) (hstored : Stored store ∅ P s)
    (hvp : vp ∈ P) (hrun : s.faultPage io vp write = some (ok, s')) :
    Stored store ∅ P s' ∧ SameContents store s s' := by
  obtain ⟨⟨served, t⟩, hbranch, hfinish⟩ := Option.map_eq_some_iff.mp hrun
  obtain ⟨hframes, hpeers, hprotect, _, _⟩ := hcoherent
  have ht : Stored store ∅ P t ∧ SameContents store s t := by
    cases write with
    | true => exact stored_writeFault hframes hpeers hprotect hstored hvp hbranch
    | false => exact stored_readFault hframes hpeers hprotect hstored hvp hbranch
  cases served with
  | false =>
      cases hfinish
      exact ht
  | true =>
      cases hfinish
      exact ⟨ht.1.of_same sameStore_finishFault,
        ht.2.trans sameStore_finishFault.contents⟩

end Pager
end Eecs482
