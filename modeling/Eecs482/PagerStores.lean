import Eecs482.PagerNames

/-!
# The contents of pages when pages come and go

A new swap-backed page is zero, a new file-backed page is the block as the other
processes see it, and destroying pages takes nothing from the pages that stay.
A store of the application changes one byte of one page.
-/

namespace Eecs482
namespace Pager

variable {W : Type} {io : FileIo W} {store : BlockStore io}
variable {P : Set VirtualPage} {s s' : State W} {vp : VirtualPage} {table : ℕ}

/-! ## New pages -/

theorem stored_addSwapPage
    {block : ℕ} {rest : List ℕ} (hstored : Stored store ∅ P s)
    (hid : vp.id = swapId block) :
    Stored store ∅ (Insert.insert vp P) (s.addSwapPage table vp rest) ∧
      (content store (s.addSwapPage table vp rest) vp.id = fun _ => 0) ∧
      ∀ id, id ≠ vp.id →
        content store (s.addSwapPage table vp rest) id = content store s id := by
  have hself : (s.addSwapPage table vp rest).peerInPhys vp.id = some 0 :=
    Function.update_self _ _ _
  have hother : ∀ id, id ≠ vp.id →
      (s.addSwapPage table vp rest).peerInPhys id = s.peerInPhys id :=
    fun id hne => Function.update_of_ne hne _ _
  have hcanonical : vp.id.Canonical := by
    rw [hid]
    rfl
  have hnotClean : ¬UpToDate (s.addSwapPage table vp rest) vp.id :=
    fun hupToDate => (hupToDate 0 hself).1 rfl
  have hclean : ∀ id, UpToDate (s.addSwapPage table vp rest) id →
      id ≠ vp.id ∧ UpToDate s id := by
    intro id hupToDate
    have hne : id ≠ vp.id := by
      rintro rfl
      exact hnotClean hupToDate
    refine ⟨hne, fun p hp => hupToDate p ?_⟩
    rw [hother id hne]
    exact hp
  refine ⟨⟨hstored.memory, hstored.zero, ?_, ?_, ?_, ?_⟩, ?_, ?_⟩
  · rintro other (rfl | hotherP)
    · exact hcanonical
    · exact hstored.canonical other hotherP
  · intro id p hp
    by_cases hne : id = vp.id
    · rw [hne]
      exact hcanonical
    · rw [hother id hne] at hp
      exact hstored.resident_canonical id p hp
  · intro id hX hupToDate p hp
    obtain ⟨hne, hold⟩ := hclean id hupToDate
    rw [hother id hne] at hp
    exact hstored.clean id hX hold p hp
  · rintro other (rfl | hotherP) hX hswap hupToDate
    · exact absurd hupToDate hnotClean
    · exact hstored.readable other hotherP hX hswap (hclean _ hupToDate).2
  · rw [content_of_some hself]
    exact hstored.zero
  · intro id hne
    rw [content, content, hother id hne]
    rfl

theorem sameStore_addFilePage : SameStore s (s.addFilePage table vp) :=
  ⟨rfl, rfl, rfl, rfl, fun _ => id⟩

theorem stored_addFilePage
    (hstored : Stored store ∅ P s) (hcanonical : vp.id.Canonical)
    (hfile : vp.id.swapBacked = false) :
    Stored store ∅ (Insert.insert vp P) (s.addFilePage table vp) := by
  have hsame : Stored store ∅ P (s.addFilePage table vp) :=
    hstored.of_same sameStore_addFilePage
  refine ⟨hsame.memory, hsame.zero, ?_, hsame.resident_canonical, hsame.clean, ?_⟩
  · rintro other (rfl | hother)
    · exact hcanonical
    · exact hsame.canonical other hother
  · rintro other (rfl | hother) hX hswap
    · rw [hfile] at hswap
      cases hswap
    · exact hsame.readable other hother hX hswap

/-! ## Pages that go -/

/-- What one round of `vm_destroy` does to the places of pages: the swap page
gives up its frame, or nothing happens. -/
structure Vacated (vp : VirtualPage) (s s' : State W) : Prop where
  physmem : s'.physmem = s.physmem
  world : s'.world = s.world
  numMemoryPages : s'.numMemoryPages = s.numMemoryPages
  absent : ∀ ppage, s'.peerInPhys vp.id = some ppage →
    s.peerInPhys vp.id = some ppage
  other : ∀ id, id ≠ vp.id → s'.peerInPhys id = s.peerInPhys id
  dirty : ∀ id ppage, s'.peerInPhys id = some ppage → ppage ≠ 0 →
    (s'.physicalTable ppage).dirty = (s.physicalTable ppage).dirty
  file : vp.id.swapBacked = false → s'.peerInPhys = s.peerInPhys

theorem vacated_destroyPage (hcoherent : Coherent P s) (hvp : vp ∈ P) :
    Vacated vp s (s.destroyPage vp) := by
  rw [destroyPage_eq]
  by_cases hreleased : (s.checkResidence vp && (s.entries vp.entry).ppage != 0 &&
      vp.id.swapBacked) = true
  · obtain ⟨hresident, hswap⟩ := Bool.and_eq_true_iff.mp hreleased
    have hplace :=
      hcoherent.protect.place hvp (Bool.and_eq_true_iff.mp hresident).1
    simp only
    rw [if_pos hreleased, if_pos hswap]
    refine ⟨rfl, rfl, rfl, fun ppage hp => ?_, fun id hid =>
      Function.update_of_ne hid _ _, fun id ppage hp hzero => ?_, fun hfile => ?_⟩
    · exact absurd hp (by simp [giveBack, State.releaseFrame, dropPeer])
    · have hid : id ≠ vp.id := by
        rintro rfl
        exact absurd hp (by simp [giveBack, State.releaseFrame, dropPeer])
      have hp' : s.peerInPhys id = some ppage :=
        (Function.update_of_ne hid _ _).symm.trans hp
      have hne : ppage ≠ (s.entries vp.entry).ppage := by
        rintro rfl
        exact hid (hcoherent.frames.resident_injective hp' hplace hzero)
      simp [giveBack, State.releaseFrame, dropPeer, State.setPhysical, hne]
    · rw [hswap] at hfile
      cases hfile
  · simp only
    rw [if_neg hreleased]
    split <;>
      exact ⟨rfl, rfl, rfl, fun _ => id, fun _ _ => rfl, fun _ _ _ _ => rfl,
        fun _ => rfl⟩

theorem stored_destroyPage
    (hcoherent : Coherent P s) (hstored : Stored store ∅ P s) (hvp : vp ∈ P) :
    Stored store ∅ (P \ {vp}) (s.destroyPage vp) ∧
      ∀ id, (vp.id.swapBacked = true → id ≠ vp.id) →
        content store (s.destroyPage vp) id = content store s id := by
  have hvacated := vacated_destroyPage hcoherent hvp
  have hkept : ∀ id p, (s.destroyPage vp).peerInPhys id = some p →
      s.peerInPhys id = some p := by
    intro id p hp
    by_cases hid : id = vp.id
    · subst hid
      exact hvacated.absent p hp
    · rwa [hvacated.other id hid] at hp
  have hplace : ∀ id, (vp.id.swapBacked = true → id ≠ vp.id) →
      (s.destroyPage vp).peerInPhys id = s.peerInPhys id := by
    intro id hid
    cases hswap : vp.id.swapBacked with
    | true => exact hvacated.other id (hid hswap)
    | false => rw [hvacated.file hswap]
  have hframe : ∀ p, (s.destroyPage vp).frame p = s.frame p := by
    intro p
    rw [State.frame, hvacated.physmem, State.frame]
  refine ⟨⟨hvacated.numMemoryPages.trans_le hstored.memory,
    (hframe 0).trans hstored.zero, fun other hother => hstored.canonical other hother.1,
    fun id p hp => hstored.resident_canonical id p (hkept id p hp), ?_, ?_⟩, ?_⟩
  · intro id hX hupToDate p hp
    rw [hframe, hvacated.world]
    refine hstored.clean id hX (fun q hq => ?_) p (hkept id p hp)
    have hpq : p = q := Option.some.inj ((hkept id p hp).symm.trans hq)
    subst hpq
    obtain ⟨hzero, hdirty⟩ := hupToDate p hp
    exact ⟨hzero, by rw [← hvacated.dirty id p hp hzero]; exact hdirty⟩
  · intro other hother hX hswap hupToDate
    rw [hvacated.world]
    have hid : other.id ≠ vp.id := fun heq => hother.2
      (hcoherent.swap.owner other hother.1 vp hvp hswap heq)
    refine hstored.readable other hother.1 hX hswap fun p hp => ?_
    rw [← hvacated.other _ hid] at hp
    obtain ⟨hzero, hdirty⟩ := hupToDate p hp
    exact ⟨hzero, by rw [← hvacated.dirty _ p hp hzero]; exact hdirty⟩
  · intro id hid
    rw [content, content, hplace id hid, hvacated.world]
    cases s.peerInPhys id with
    | none => rfl
    | some p => exact hframe p

theorem stored_destroyPages
    {pages : List VirtualPage} (hcoherent : Coherent P s)
    (hstored : Stored store ∅ P s) (hpages : ∀ vp ∈ pages, vp ∈ P)
    (hnodup : pages.Nodup) :
    Stored store ∅ (P \ {vp | vp ∈ pages}) (pages.foldl State.destroyPage s) ∧
      ∀ id, (∀ vp ∈ pages, vp.id.swapBacked = true → id ≠ vp.id) →
        content store (pages.foldl State.destroyPage s) id = content store s id := by
  induction pages generalizing s P with
  | nil => simpa using hstored
  | cons vp pages ih =>
      rw [List.nodup_cons] at hnodup
      have hvp := hpages vp List.mem_cons_self
      have hrest : ∀ other ∈ pages, other ∈ P \ {vp} := by
        intro other hother
        refine ⟨hpages other (List.mem_cons_of_mem _ hother), ?_⟩
        rintro rfl
        exact hnodup.1 hother
      obtain ⟨hstored', hsame⟩ := stored_destroyPage hcoherent hstored hvp
      obtain ⟨hlast, hlastSame⟩ :=
        ih (hcoherent.destroyPage hvp) hstored' hrest hnodup.2
      rw [List.foldl_cons, sdiff_cons]
      refine ⟨hlast, fun id hid => ?_⟩
      exact (hlastSame id fun other hother =>
        hid other (List.mem_cons_of_mem _ hother)).trans
          (hsame id (hid vp List.mem_cons_self))

/-! ## Stores of the application -/

theorem frame_apply (q : ℕ) (i : Fin vmPagesize) :
    s.frame q i = s.physmem (q * vmPagesize + i.val) :=
  rfl

theorem setByte_physmem (address : ℕ) (value : Byte) (i : ℕ) :
    (s.setByte address value).physmem i =
      if i = address then value else s.physmem i :=
  Function.update_apply ..

/-- A frame after a store to one of its bytes. -/
theorem frame_update
    {ppage offset : ℕ} {value : Byte} (hoffset : offset < vmPagesize) (q : ℕ) :
    (s.setByte (frameByte ppage offset) value).frame q =
      if q = ppage then Function.update (s.frame q) ⟨offset, hoffset⟩ value
      else s.frame q := by
  funext i
  have hi := i.isLt
  have haddr : q * vmPagesize + i.val = frameByte ppage offset ↔
      q = ppage ∧ i.val = offset := by
    change i.val < 65536 at hi
    change offset < 65536 at hoffset
    rw [frameByte]
    change q * 65536 + i.val = ppage * 65536 + offset ↔ _
    omega
  have hbyte : (s.setByte (frameByte ppage offset) value).frame q i =
      if q * vmPagesize + i.val = frameByte ppage offset then value
      else s.frame q i := by
    rw [frame_apply, setByte_physmem, frame_apply]
  simp only [hbyte, haddr]
  by_cases hq : q = ppage
  · rw [if_pos hq, Function.update_apply]
    simp only [hq, true_and, Fin.ext_iff]
  · rw [if_neg hq, if_neg fun h => hq h.1]

/-- A permitted store changes its byte of its page and nothing else. -/
theorem stored_store
    {offset : ℕ} {value : Byte} (hcoherent : Coherent P s)
    (hstored : Stored store ∅ P s) (hvp : vp ∈ P)
    (hwrite : (s.entries vp.entry).writeEnable = true)
    (hoffset : offset < vmPagesize) :
    Stored store ∅ P
        (s.setByte (frameByte (s.entries vp.entry).ppage offset) value) ∧
      ∀ id, content store
          (s.setByte (frameByte (s.entries vp.entry).ppage offset) value) id =
        if id = vp.id then
          Function.update (content store s id) ⟨offset, hoffset⟩ value
        else content store s id := by
  have hmatches := hcoherent.protect vp hvp
  obtain ⟨hplace, hzero, hdirty⟩ : s.peerInPhys vp.id =
        some (s.entries vp.entry).ppage ∧ (s.entries vp.entry).ppage ≠ 0 ∧
      (s.physicalTable (s.entries vp.entry).ppage).dirty = true := by
    cases hplace : s.peerInPhys vp.id with
    | none =>
        rw [((matches_none hplace).mp hmatches).2] at hwrite
        cases hwrite
    | some ppage =>
        by_cases hzero : ppage = 0
        · subst hzero
          rw [((matches_zero hplace).mp hmatches).2.2] at hwrite
          cases hwrite
        · obtain ⟨hppage, _, hbits⟩ := (matches_frame hplace hzero).mp hmatches
          rw [hwrite] at hbits
          rw [hppage]
          exact ⟨rfl, hzero, (Bool.and_eq_true_iff.mp hbits.symm).2⟩
  generalize (s.entries vp.entry).ppage = ppage at hplace hzero hdirty ⊢
  have hframe : ∀ q, (s.setByte (frameByte ppage offset) value).frame q =
      if q = ppage then Function.update (s.frame q) ⟨offset, hoffset⟩ value
      else s.frame q := frame_update hoffset
  refine ⟨⟨hstored.memory, ?_, hstored.canonical, hstored.resident_canonical, ?_,
    hstored.readable⟩, fun id => ?_⟩
  · rw [hframe, if_neg (Ne.symm hzero)]
    exact hstored.zero
  · intro id hX hupToDate p hp
    have hne : p ≠ ppage := by
      rintro rfl
      have hclean : (s.physicalTable p).dirty = false := (hupToDate p hp).2
      rw [hclean] at hdirty
      cases hdirty
    rw [hframe, if_neg hne]
    exact hstored.clean id hX hupToDate p hp
  · by_cases hid : id = vp.id
    · subst hid
      have hafter : content store (s.setByte (frameByte ppage offset) value) vp.id =
          (s.setByte (frameByte ppage offset) value).frame ppage :=
        content_of_some hplace
      have hbefore : content store s vp.id = s.frame ppage := content_of_some hplace
      rw [if_pos rfl, hafter, hbefore, hframe, if_pos rfl]
    · rw [if_neg hid]
      cases hp : s.peerInPhys id with
      | none =>
          have hafter : content store (s.setByte (frameByte ppage offset) value) id =
              store.contents s.world id.key :=
            content_of_none hp
          rw [hafter, content_of_none hp]
      | some p =>
          have hne : p ≠ ppage := by
            rintro rfl
            exact hid (hcoherent.frames.resident_injective hp hplace hzero)
          have hafter : content store (s.setByte (frameByte ppage offset) value) id =
              (s.setByte (frameByte ppage offset) value).frame p :=
            content_of_some hp
          rw [hafter, content_of_some hp, hframe, if_neg hne]

end Pager
end Eecs482
