import Eecs482.PagerFaults

/-!
# Pages come and go

`vm_map` adds one virtual page to a set of coherent pages, `vm_destroy` takes
those of a process away.  A swap block belongs to one page or is available, and
an available block has no page in a frame of its own.
-/

namespace Eecs482
namespace Pager

variable {W : Type} {io : FileIo W}

/-- Each swap block belongs to one page at most, and none of the available
ones is in use. -/
structure Swap (P : Set VirtualPage) (s : State W) : Prop where
  owner : ∀ vp ∈ P, ∀ other ∈ P, vp.id.swapBacked = true → vp.id = other.id →
    vp = other
  unnamed : ∀ vp ∈ P, vp.id.swapBacked = true → vp.id.filename = []
  free : ∀ vp ∈ P, vp.id.swapBacked = true →
    vp.id.block ∉ s.availableSwapBlocks
  nodup : s.availableSwapBlocks.Nodup
  enough : s.numSwapBlocks ≤ s.availableSwapBlocks.length

/-- The file id of a page kept in a block of the swap file. -/
def swapId (block : ℕ) : FileId where
  block := block

/-- All that holds of the pages `P` between two calls. -/
structure Coherent (P : Set VirtualPage) (s : State W) : Prop where
  frames : Frames s
  peers : Peers P s
  protect : Protected P s
  swap : Swap P s
  unused : ∀ block ∈ s.availableSwapBlocks, ∀ ppage,
    s.peerInPhys (swapId block) = some ppage → ppage = 0

variable {P Q : Set VirtualPage} {s s' : State W} {vp : VirtualPage}

theorem eq_swapId {id : FileId} (hswap : id.swapBacked = true)
    (hname : id.filename = []) : id = swapId id.block := by
  cases id
  simp_all [swapId]

theorem Swap.id_eq (h : Swap P s) (hvp : vp ∈ P)
    (hswap : vp.id.swapBacked = true) : vp.id = swapId vp.id.block :=
  eq_swapId hswap (h.unnamed vp hvp hswap)

theorem Swap.of_arenas (h : Swap P s) (harenas : s'.arenas = s.arenas) :
    Swap P s' := by
  have hblocks : s'.availableSwapBlocks = s.availableSwapBlocks :=
    congrArg Arenas.availableSwapBlocks harenas
  have hnum : s'.numSwapBlocks = s.numSwapBlocks :=
    congrArg Arenas.numSwapBlocks harenas
  refine ⟨h.owner, h.unnamed, ?_, ?_, ?_⟩
  · rw [hblocks]
    exact h.free
  · rw [hblocks]
    exact h.nodup
  · rw [hblocks, hnum]
    exact h.enough

/-- Whatever only brings pages of `P` into memory leaves the pages coherent. -/
theorem Coherent.settled
    (h : Coherent P s) (hsettled : Settled P P s s') : Coherent P s' := by
  have hblocks : s'.availableSwapBlocks = s.availableSwapBlocks :=
    congrArg Arenas.availableSwapBlocks hsettled.arenas
  refine ⟨hsettled.frames, h.peers.of_arenas hsettled.arenas, hsettled.protect,
    h.swap.of_arenas hsettled.arenas, ?_⟩
  intro block hblock ppage hid
  rw [hblocks] at hblock
  refine h.unused block hblock ppage
    (hsettled.outside.resident _ (fun vp hvp heq => ?_) ppage hid)
  have hfree := h.swap.free vp hvp (by rw [heq]; rfl)
  rw [heq] at hfree
  exact hfree hblock

variable (io) in
/-- A page fault on a page of `P`. -/
theorem Coherent.faultPage
    (h : Coherent P s) (hvp : vp ∈ P) (write : Bool) :
    ∃ ok s', s.faultPage io vp write = some (ok, s') ∧
      Coherent P s' ∧ Faulted P vp write s ok s' := by
  obtain ⟨ok, s', hrun, hfaulted⟩ :=
    faultPage_spec io h.frames h.peers h.protect hvp write
  exact ⟨ok, s', hrun, h.settled hfaulted.toSettled, hfaulted⟩

/-! ## A page goes -/

/-- `peer_map[vp->_id].erase(vp)`. -/
def dropPeer (vp : VirtualPage) (s : State W) : State W :=
  { s with
    peerMap := Function.update s.peerMap vp.id ((s.peerMap vp.id).erase vp) }

/-- `available_swap_blocks.push(block)`. -/
def giveBack (block : ℕ) (s : State W) : State W :=
  { s with availableSwapBlocks := s.availableSwapBlocks ++ [block] }

theorem Peers.dropPeer (h : Peers P s) (hvp : vp ∈ P) :
    Peers (P \ {vp}) (dropPeer vp s) where
  listed id other := by
    change other ∈ Function.update s.peerMap vp.id _ id ↔ _
    by_cases hid : id = vp.id
    · subst hid
      rw [Function.update_self, Finset.mem_erase, h.listed]
      simp only [Set.mem_sdiff, Set.mem_singleton_iff]
      tauto
    · rw [Function.update_of_ne hid, h.listed]
      simp only [Set.mem_sdiff, Set.mem_singleton_iff]
      constructor
      · rintro ⟨hother, rfl⟩
        exact ⟨⟨hother, by rintro rfl; exact hid rfl⟩, rfl⟩
      · rintro ⟨⟨hother, -⟩, rfl⟩
        exact ⟨hother, rfl⟩
  entry_injective a ha b hb := h.entry_injective a ha.1 b hb.1

theorem Frames.releaseFrame
    (h : Frames s)
    (hplace : s.peerInPhys vp.id = some (s.entries vp.entry).ppage)
    (hnonzero : (s.entries vp.entry).ppage ≠ 0) :
    Frames (s.releaseFrame vp) := by
  obtain ⟨hclock, howner⟩ := h.resident _ _ hplace hnonzero
  generalize hppage : (s.entries vp.entry).ppage = ppage at *
  have hother : ∀ p, p ≠ ppage →
      (s.releaseFrame vp).physicalTable p = s.physicalTable p := by
    intro p hp
    subst hppage
    exact Function.update_of_ne hp _ _
  have hself : ((s.releaseFrame vp).physicalTable ppage).dirty = false := by
    subst hppage
    simp [State.releaseFrame, State.setPhysical]
  have hqueue : (s.releaseFrame vp).clockQueue = s.clockQueue.erase ppage := by
    subst hppage
    rfl
  have hfree : (s.releaseFrame vp).availablePhysicalPages =
      s.availablePhysicalPages ++ [ppage] := by
    subst hppage
    rfl
  have hmem : ∀ p, p ∈ (s.releaseFrame vp).clockQueue ↔ p ≠ ppage ∧ p ∈ s.clockQueue := by
    intro p
    rw [hqueue, h.clock_nodup.mem_erase_iff]
  have hpeer : ∀ id p, (s.releaseFrame vp).peerInPhys id = some p →
      id ≠ vp.id ∧ s.peerInPhys id = some p := by
    intro id p hid
    by_cases hvp : id = vp.id
    · simp [State.releaseFrame, hvp] at hid
    · exact ⟨hvp, by simpa [State.releaseFrame, hvp] using hid⟩
  constructor
  case memory_lower => exact h.memory_lower
  case memory_upper => exact h.memory_upper
  case partition =>
      rw [hqueue, hfree, List.append_assoc, List.singleton_append]
      exact ((List.perm_cons_erase hclock).symm.append_left _).trans h.partition
  case resident =>
      intro id p hid hzero
      obtain ⟨hvp, hold⟩ := hpeer id p hid
      obtain ⟨hp, hid'⟩ := h.resident id p hold hzero
      have hne : p ≠ ppage := by
        rintro rfl
        exact hvp (hid'.symm.trans howner)
      rw [hother p hne]
      exact ⟨(hmem p).mpr ⟨hne, hp⟩, hid'⟩
  case owner =>
      intro p hp
      obtain ⟨hne, hp⟩ := (hmem p).mp hp
      have hold := h.owner p hp
      have hvp : (s.physicalTable p).id ≠ vp.id := by
        intro heq
        rw [heq, hplace] at hold
        exact hne (Option.some.inj hold).symm
      rw [hother p hne]
      simpa [State.releaseFrame, hvp] using hold
  case zero_swapBacked =>
      intro id hid
      exact h.zero_swapBacked id (hpeer id 0 hid).2
  case clean =>
      intro p hp
      rw [hfree, List.mem_append, List.mem_singleton] at hp
      by_cases hne : p = ppage
      · rw [hne]
        exact hself
      · rw [hother p hne]
        exact h.clean p (hp.resolve_right hne)
  case zero_clean =>
      rw [hother 0 hnonzero.symm]
      exact h.zero_clean

theorem Protected.releaseFrame
    (h : Protected P s) (hframes : Frames s)
    (hplace : s.peerInPhys vp.id = some (s.entries vp.entry).ppage)
    (hQ : ∀ other ∈ Q, other ∈ P ∧ other.id ≠ vp.id) :
    Protected Q (s.releaseFrame vp) := by
  intro other hother
  obtain ⟨hotherP, hid⟩ := hQ other hother
  have hplace' : (s.releaseFrame vp).peerInPhys other.id =
      s.peerInPhys other.id := Function.update_of_ne hid _ _
  refine (h other hotherP).congr hplace' fun p hp hzero => ?_
  have hne : p ≠ (s.entries vp.entry).ppage := by
    rintro rfl
    exact hid (hframes.resident_injective hp hplace hzero)
  simp [State.releaseFrame, State.setPhysical, hne]

theorem Swap.giveBack
    (h : Swap P s) (hvp : vp ∈ P) (hswap : vp.id.swapBacked = true) :
    Swap (P \ {vp}) (giveBack vp.id.block s) where
  owner a ha b hb := h.owner a ha.1 b hb.1
  unnamed a ha := h.unnamed a ha.1
  free a ha haswap := by
    rw [Pager.giveBack, List.mem_append, List.mem_singleton, not_or]
    refine ⟨h.free a ha.1 haswap, fun hblock => ha.2 ?_⟩
    have hid : a.id = vp.id := by
      rw [h.id_eq ha.1 haswap, h.id_eq hvp hswap, hblock]
    exact h.owner a ha.1 vp hvp haswap hid
  nodup := by
    refine List.Nodup.append h.nodup (List.nodup_singleton _) ?_
    intro block hblock hsingle
    rw [List.mem_singleton.mp hsingle] at hblock
    exact h.free vp hvp hswap hblock
  enough := by
    have henough := h.enough
    change s.numSwapBlocks ≤ (s.availableSwapBlocks ++ [_]).length
    rw [List.length_append]
    omega

/-- One round of the loop of `vm_destroy` is for one page. -/
theorem destroyPage_eq (s : State W) (vp : VirtualPage) :
    s.destroyPage vp =
      let dropped := dropPeer vp s
      let released :=
        if s.checkResidence vp && (s.entries vp.entry).ppage != 0 &&
            vp.id.swapBacked then
          dropped.releaseFrame vp
        else dropped
      if vp.id.swapBacked then giveBack vp.id.block released else released := rfl

theorem Coherent.dropPeer (h : Coherent P s) (hvp : vp ∈ P) :
    Frames (Pager.dropPeer vp s) ∧ Peers (P \ {vp}) (Pager.dropPeer vp s) ∧
      Protected P (Pager.dropPeer vp s) := by
  refine ⟨?_, h.peers.dropPeer hvp, ?_⟩
  · exact ⟨h.frames.memory_lower, h.frames.memory_upper, h.frames.partition,
      h.frames.resident, h.frames.owner, h.frames.zero_swapBacked, h.frames.clean,
      h.frames.zero_clean⟩
  · exact fun other hother => (h.protect other hother).congr rfl
      fun _ _ _ => ⟨rfl, rfl⟩

theorem Coherent.destroyPage (h : Coherent P s) (hvp : vp ∈ P) :
    Coherent (P \ {vp}) (s.destroyPage vp) := by
  obtain ⟨hframes, hpeers, hprotect⟩ := h.dropPeer hvp
  have hless : ∀ other ∈ P \ {vp}, other ∈ P := fun other hother => hother.1
  rw [destroyPage_eq]
  cases hswap : vp.id.swapBacked with
  | false =>
      simp only [Bool.and_false, Bool.false_eq_true, if_false]
      refine ⟨hframes, hpeers, fun other hother => hprotect other hother.1,
        ⟨?_, ?_, ?_, h.swap.nodup, h.swap.enough⟩, h.unused⟩
      · exact fun a ha b hb => h.swap.owner a ha.1 b hb.1
      · exact fun a ha => h.swap.unnamed a ha.1
      · exact fun a ha => h.swap.free a ha.1
  | true =>
      have hid := h.swap.id_eq hvp hswap
      have hdistinct : ∀ other ∈ P \ {vp}, other ∈ P ∧ other.id ≠ vp.id := by
        intro other hother
        refine ⟨hother.1, fun heq => hother.2 ?_⟩
        exact (h.swap.owner vp hvp other hother.1 hswap heq.symm).symm
      have hunused : ∀ t : State W, t.availableSwapBlocks = s.availableSwapBlocks →
          (∀ id, id ≠ vp.id → t.peerInPhys id = s.peerInPhys id) →
          (∀ ppage, t.peerInPhys vp.id = some ppage → ppage = 0) →
          ∀ block ∈ (giveBack vp.id.block t).availableSwapBlocks, ∀ ppage,
            t.peerInPhys (swapId block) = some ppage → ppage = 0 := by
        intro t hblocks hsame hself block hblock ppage hplace
        rw [giveBack, List.mem_append, List.mem_singleton, hblocks] at hblock
        by_cases heq : swapId block = vp.id
        · exact hself ppage (heq ▸ hplace)
        · refine h.unused block (hblock.resolve_right ?_) ppage
            ((hsame _ heq).symm.trans hplace)
          rintro rfl
          exact heq hid.symm
      simp only [if_true, Bool.and_true]
      by_cases hresident :
          (s.checkResidence vp && (s.entries vp.entry).ppage != 0) = true
      · rw [if_pos hresident]
        have hresident' := Bool.and_eq_true_iff.mp hresident
        have hplace := h.protect.place hvp hresident'.1
        have hnonzero : (s.entries vp.entry).ppage ≠ 0 := by
          simpa using hresident'.2
        have hreleased : Frames ((Pager.dropPeer vp s).releaseFrame vp) :=
          hframes.releaseFrame hplace hnonzero
        refine ⟨?_, ⟨hpeers.listed, hpeers.entry_injective⟩, ?_,
          Swap.giveBack ⟨h.swap.owner, h.swap.unnamed, h.swap.free, h.swap.nodup,
            h.swap.enough⟩ hvp hswap, ?_⟩
        · exact ⟨hreleased.memory_lower, hreleased.memory_upper,
            hreleased.partition, hreleased.resident, hreleased.owner,
            hreleased.zero_swapBacked, hreleased.clean, hreleased.zero_clean⟩
        · intro other hother
          exact (hprotect.releaseFrame hframes hplace hdistinct other hother).congr
            rfl fun _ _ _ => ⟨rfl, rfl⟩
        · refine hunused ((Pager.dropPeer vp s).releaseFrame vp) rfl ?_ ?_
          · exact fun id hne => Function.update_of_ne hne _ _
          · intro ppage hself
            simp [State.releaseFrame] at hself
      · rw [if_neg hresident]
        refine ⟨?_, ⟨hpeers.listed, hpeers.entry_injective⟩, ?_,
          Swap.giveBack ⟨h.swap.owner, h.swap.unnamed, h.swap.free, h.swap.nodup,
            h.swap.enough⟩ hvp hswap, ?_⟩
        · exact ⟨hframes.memory_lower, hframes.memory_upper, hframes.partition,
            hframes.resident, hframes.owner, hframes.zero_swapBacked,
            hframes.clean, hframes.zero_clean⟩
        · exact fun other hother => (hprotect other hother.1).congr rfl
            fun _ _ _ => ⟨rfl, rfl⟩
        · refine hunused (Pager.dropPeer vp s) rfl (fun _ _ => rfl)
            fun ppage hself => ?_
          have hresidence : s.checkResidence vp = true := by
            change (s.peerInPhys vp.id).isSome = true
            rw [show s.peerInPhys vp.id = some ppage from hself]
            rfl
          have hplace := h.protect.place hvp hresidence
          have hzero : (s.entries vp.entry).ppage = 0 := by
            simpa [hresidence] using hresident
          rw [hzero] at hplace
          exact Option.some.inj (hself.symm.trans hplace)

theorem sdiff_cons (P : Set VirtualPage) (vp : VirtualPage) (pages : List VirtualPage) :
    P \ {other | other ∈ vp :: pages} =
      (P \ {vp}) \ {other | other ∈ pages} := by
  ext other
  simp only [Set.mem_sdiff, Set.mem_ofPred_eq, List.mem_cons, Set.mem_singleton_iff]
  tauto

/-- The loop of `vm_destroy`. -/
theorem Coherent.destroyPages
    {pages : List VirtualPage} (h : Coherent P s) (hpages : ∀ vp ∈ pages, vp ∈ P)
    (hnodup : pages.Nodup) :
    Coherent (P \ {vp | vp ∈ pages}) (pages.foldl State.destroyPage s) := by
  induction pages generalizing s P with
  | nil => simpa using h
  | cons vp pages ih =>
      rw [List.nodup_cons] at hnodup
      have hrest : ∀ other ∈ pages, other ∈ P \ {vp} := by
        intro other hother
        refine ⟨hpages other (List.mem_cons_of_mem _ hother), ?_⟩
        rintro rfl
        exact hnodup.1 hother
      rw [List.foldl_cons, sdiff_cons]
      exact ih (h.destroyPage (hpages vp (by simp))) hrest hnodup.2

/-! ## A page comes -/

theorem Peers.insert
    (h : Peers P s) (hnew : ∀ other ∈ P, other.entry ≠ vp.entry)
    (hmap : s'.peerMap =
      Function.update s.peerMap vp.id (Insert.insert vp (s.peerMap vp.id))) :
    Peers (Insert.insert vp P) s' where
  listed id other := by
    rw [hmap]
    by_cases hid : id = vp.id
    · subst hid
      rw [Function.update_self, Finset.mem_insert, h.listed, Set.mem_insert_iff]
      constructor
      · rintro (rfl | ⟨hother, hid⟩)
        · exact ⟨.inl rfl, rfl⟩
        · exact ⟨.inr hother, hid⟩
      · rintro ⟨rfl | hother, hid⟩
        · exact .inl rfl
        · exact .inr ⟨hother, hid⟩
    · rw [Function.update_of_ne hid, h.listed, Set.mem_insert_iff]
      constructor
      · rintro ⟨hother, hid'⟩
        exact ⟨.inr hother, hid'⟩
      · rintro ⟨rfl | hother, hid'⟩
        · exact absurd hid'.symm hid
        · exact ⟨hother, hid'⟩
  entry_injective a ha b hb hsame := by
    rcases ha with rfl | ha <;> rcases hb with rfl | hb
    · rfl
    · exact absurd hsame.symm (hnew b hb)
    · exact absurd hsame (hnew a ha)
    · exact h.entry_injective a ha b hb hsame

theorem Protected.insert
    (h : Protected P s)
    (hplaces : ∀ other ∈ P, s'.peerInPhys other.id = s.peerInPhys other.id)
    (hphysical : s'.physicalTable = s.physicalTable)
    (hentries : ∀ other ∈ P, s'.entries other.entry = s.entries other.entry)
    (hmatches : Matches s' vp.id (s'.entries vp.entry)) :
    Protected (Insert.insert vp P) s' := by
  rintro other (rfl | hother)
  · exact hmatches
  · rw [hentries other hother]
    refine (h other hother).congr (hplaces other hother) fun _ _ _ => ?_
    rw [hphysical]
    exact ⟨rfl, rfl⟩

theorem Frames.addSwapPage
    {table : ℕ} {rest : List ℕ} (h : Frames s) (hswap : vp.id.swapBacked = true)
    (hunused : ∀ ppage, s.peerInPhys vp.id = some ppage → ppage = 0) :
    Frames (s.addSwapPage table vp rest) where
  memory_lower := h.memory_lower
  memory_upper := h.memory_upper
  partition := h.partition
  resident id ppage hid hzero := by
    change Function.update s.peerInPhys vp.id (some 0) id = some ppage at hid
    by_cases hvp : id = vp.id
    · subst hvp
      rw [Function.update_self, Option.some.injEq] at hid
      exact absurd hid.symm hzero
    · rw [Function.update_of_ne hvp] at hid
      exact h.resident id ppage hid hzero
  owner ppage hppage := by
    have hold := h.owner ppage hppage
    have hvp : (s.physicalTable ppage).id ≠ vp.id := by
      intro heq
      have hzero := hunused ppage (heq ▸ hold)
      have := (h.clock_bounds hppage).1
      omega
    exact (Function.update_of_ne hvp _ _).trans hold
  zero_swapBacked id hid := by
    by_cases hvp : id = vp.id
    · rw [hvp]
      exact hswap
    · exact h.zero_swapBacked id ((Function.update_of_ne hvp _ _).symm.trans hid)
  clean := h.clean
  zero_clean := h.zero_clean

/-- A new swap-backed page takes an available block. -/
theorem Coherent.addSwapPage
    {table block : ℕ} {rest : List ℕ} (h : Coherent P s)
    (hblocks : s.availableSwapBlocks = block :: rest)
    (hid : vp.id = swapId block)
    (hnew : ∀ other ∈ P, other.entry ≠ vp.entry) :
    Coherent (Insert.insert vp P) (s.addSwapPage table vp rest) := by
  have hmem : block ∈ s.availableSwapBlocks := by simp [hblocks]
  have hnodup := h.swap.nodup
  rw [hblocks, List.nodup_cons] at hnodup
  have hother : ∀ other ∈ P, other.id ≠ vp.id := by
    intro other hotherP heq
    rw [hid] at heq
    refine h.swap.free other hotherP (by rw [heq]; rfl) ?_
    rw [heq]
    exact hmem
  have hplace : ∀ id, id ≠ vp.id →
      (s.addSwapPage table vp rest).peerInPhys id = s.peerInPhys id :=
    fun id hne => Function.update_of_ne hne _ _
  refine ⟨?_, h.peers.insert hnew rfl, ?_, ⟨?_, ?_, ?_, hnodup.2, ?_⟩, ?_⟩
  · refine h.frames.addSwapPage (by rw [hid]; rfl) fun ppage hppage => ?_
    rw [hid] at hppage
    exact h.unused block hmem ppage hppage
  · refine h.protect.insert (fun other hotherP => hplace _ (hother other hotherP))
      rfl (fun other hotherP => Function.update_of_ne (hnew other hotherP) _ _) ?_
    have hzero : (s.addSwapPage table vp rest).peerInPhys vp.id = some 0 :=
      Function.update_self _ _ _
    have hentry : (s.addSwapPage table vp rest).entries vp.entry =
        pte 0 true false := Function.update_self _ _ _
    rw [hentry]
    exact (matches_zero hzero).mpr ⟨rfl, rfl, rfl⟩
  · rintro a (rfl | ha) b (rfl | hb) haswap hsame
    · rfl
    · exact absurd hsame.symm (hother b hb)
    · exact absurd hsame (hother a ha)
    · exact h.swap.owner a ha b hb haswap hsame
  · rintro a (rfl | ha) haswap
    · rw [hid]
      rfl
    · exact h.swap.unnamed a ha haswap
  · rintro a (rfl | ha) haswap
    · rw [hid]
      exact hnodup.1
    · have hfree := h.swap.free a ha haswap
      rw [hblocks, List.mem_cons, not_or] at hfree
      exact hfree.2
  · have henough := h.swap.enough
    rw [hblocks, List.length_cons] at henough
    change s.numSwapBlocks - 1 ≤ rest.length
    omega
  · intro other hmemrest ppage hppage
    change other ∈ rest at hmemrest
    have hne : swapId other ≠ vp.id := by
      rw [hid]
      intro heq
      have : other = block := congrArg FileId.block heq
      exact hnodup.1 (this ▸ hmemrest)
    rw [hplace _ hne] at hppage
    exact h.unused other (by rw [hblocks]; exact List.mem_cons_of_mem _ hmemrest)
      ppage hppage

/-- A new file-backed page gets the protection its frame calls for, also when
no other page is mapped to the file block any more. -/
theorem matches_mapFileEntry
    {id : FileId} (h : Frames s) (hfile : id.swapBacked = false) :
    Matches s id (s.mapFileEntry id) := by
  cases hplace : s.peerInPhys id with
  | none =>
      rw [State.mapFileEntry, hplace, matches_none hplace]
      exact ⟨rfl, rfl⟩
  | some ppage =>
      have hzero : ppage ≠ 0 := by
        rintro rfl
        rw [h.zero_swapBacked id hplace] at hfile
        cases hfile
      rw [State.mapFileEntry, hplace, matches_frame hplace hzero]
      exact ⟨h.mod_ppageLimit (h.resident_lt hplace), rfl, rfl⟩

theorem Coherent.addFilePage
    {table : ℕ} (h : Coherent P s) (hfile : vp.id.swapBacked = false)
    (hnew : ∀ other ∈ P, other.entry ≠ vp.entry) :
    Coherent (Insert.insert vp P) (s.addFilePage table vp) := by
  have hframes : Frames (s.addFilePage table vp) :=
    ⟨h.frames.memory_lower, h.frames.memory_upper, h.frames.partition,
      h.frames.resident, h.frames.owner, h.frames.zero_swapBacked, h.frames.clean,
      h.frames.zero_clean⟩
  refine ⟨hframes, h.peers.insert hnew rfl, ?_,
    ⟨?_, ?_, ?_, h.swap.nodup, h.swap.enough⟩, h.unused⟩
  · refine h.protect.insert (fun _ _ => rfl) rfl
      (fun other hother => Function.update_of_ne (hnew other hother) _ _) ?_
    have hentry : (s.addFilePage table vp).entries vp.entry =
        s.mapFileEntry vp.id := Function.update_self _ _ _
    rw [hentry]
    exact (matches_mapFileEntry h.frames hfile).congr rfl fun _ _ _ => ⟨rfl, rfl⟩
  · rintro a (rfl | ha) b (rfl | hb) haswap hsame
    · rfl
    · rw [hfile] at haswap
      cases haswap
    · rw [hsame, hfile] at haswap
      cases haswap
    · exact h.swap.owner a ha b hb haswap hsame
  · rintro a (rfl | ha) haswap
    · rw [hfile] at haswap
      cases haswap
    · exact h.swap.unnamed a ha haswap
  · rintro a (rfl | ha) haswap
    · rw [hfile] at haswap
      cases haswap
    · exact h.swap.free a ha haswap

end Pager
end Eecs482
