import Eecs482.PagerInvariant

/-!
# Residency and protection of pages

The two laws about page table entries read off the invariant of legal runs.
They refer to the processes and pages the kernel sees, not to the sets of the
invariant.
-/

namespace Eecs482
namespace Pager

variable {W : Type} {io : FileIo W} {c : Config W}

/-- Every frame is free or in the clock, the maps agree about what the frames
hold, and no page table entry leads to the page of somebody else. -/
structure Residency (memoryPages : ℕ) (c : Config W) : Prop where
  /-- Frames 1 to `memoryPages - 1` are in one of the two queues, once each. -/
  partition : (c.state.availablePhysicalPages ++ c.state.clockQueue).Perm
    (List.range' 1 (memoryPages - 1))
  clock : ∀ ppage, 1 ≤ ppage → ppage < memoryPages →
    (ppage ∈ c.state.clockQueue ↔
      c.state.peerInPhys (c.state.physicalTable ppage).id = some ppage)
  distinct : ∀ id id' ppage, ppage ≠ 0 → c.state.peerInPhys id = some ppage →
    c.state.peerInPhys id' = some ppage → id = id'
  resident : ∀ vp, c.LivePage vp → ∀ ppage,
    c.state.peerInPhys vp.id = some ppage → (c.state.entries vp.entry).ppage = ppage
  isolated : ∀ pid ∈ c.live, ∃ table, c.state.tables pid = some table ∧
    ∀ i, ((c.state.entries (table, i)).readEnable = true ∨
        (c.state.entries (table, i)).writeEnable = true) →
      ∃ vp, (c.state.heap table).vps[i]? = some vp ∧ vp.entry = (table, i) ∧
        c.state.peerInPhys vp.id = some (c.state.entries (table, i)).ppage ∧
        ((c.state.entries (table, i)).ppage = 0 →
          vp.id.swapBacked = true ∧ vp.entry ∉ c.written) ∧
        ((c.state.entries (table, i)).ppage ≠ 0 →
          (c.state.physicalTable (c.state.entries (table, i)).ppage).id = vp.id)

/-- An enabled entry belongs to a virtual page that is in memory. -/
theorem Invariant.enabled
    {pid table i : ℕ} (h : Invariant c) (htable : c.state.tables pid = some table)
    (henabled : (c.state.entries (table, i)).readEnable = true ∨
      (c.state.entries (table, i)).writeEnable = true) :
    ∃ vp ∈ c.state.pages, (c.state.heap table).vps[i]? = some vp ∧
      vp.entry = (table, i) ∧
      c.state.peerInPhys vp.id = some (c.state.entries (table, i)).ppage := by
  have hi : i < (c.state.heap table).cnt := by
    by_contra hi
    have hcleared := h.cleared pid table htable i (Nat.le_of_not_lt hi)
    rw [hcleared.1, hcleared.2] at henabled
    simp at henabled
  obtain ⟨vp, hvp, hentry⟩ := (h.tables.mem_pages_iff htable i).mpr hi
  obtain ⟨_, _, hpage⟩ := h.tables.page_entry hvp
  rw [hentry] at hpage
  have hmatches := h.coherent.protect vp hvp
  rw [hentry] at hmatches
  refine ⟨vp, hvp, hpage, hentry, ?_⟩
  cases hplace : c.state.peerInPhys vp.id with
  | none =>
      rw [matches_none hplace] at hmatches
      rw [hmatches.1, hmatches.2] at henabled
      simp at henabled
  | some ppage => rw [hmatches.ppage hplace]

theorem Invariant.residency
    {memoryPages : ℕ} (h : Invariant c)
    (hmemory : c.state.numMemoryPages = memoryPages) : Residency memoryPages c := by
  have hframes := h.coherent.frames
  constructor
  case partition =>
      rw [← hmemory]
      exact hframes.partition
  case clock =>
      intro ppage hlower _
      refine ⟨hframes.owner ppage, fun hplace => ?_⟩
      exact (hframes.resident _ ppage hplace (by omega)).1
  case distinct =>
      intro id id' ppage hzero hid hid'
      exact hframes.resident_injective hid hid' hzero
  case resident =>
      intro vp hvp ppage hplace
      exact (h.coherent.protect vp ((h.livePage_iff vp).mp hvp)).ppage hplace
  case isolated =>
      intro pid hlive
      obtain ⟨table, htable⟩ := Option.isSome_iff_exists.mp ((h.live pid).mp hlive)
      refine ⟨table, htable, fun i henabled => ?_⟩
      obtain ⟨vp, hvp, hpage, hentry, hplace⟩ := h.enabled htable henabled
      refine ⟨vp, hpage, hentry, hplace, fun hzero => ?_, fun hzero => ?_⟩
      · rw [hzero] at hplace
        have hswap := hframes.zero_swapBacked _ hplace
        exact ⟨hswap, (h.zero vp hvp hswap).mpr hplace⟩
      · exact (hframes.resident _ _ hplace hzero).2

/-- Residency and isolation, in every state of a legal run. -/
theorem residency_of_reachable
    {memoryPages swapBlocks : ℕ} {physmem : ℕ → Byte} {entries : EntryRef → Entry}
    {world : W} (hlower : 2 ≤ memoryPages) (hupper : memoryPages ≤ 2 ^ 20)
    (hreach : (system io).Reachable
      (Config.init memoryPages swapBlocks physmem entries world) c) :
    Residency memoryPages c :=
  (invariant_of_reachable hlower hupper hreach).residency
    (processes_of_reachable hreach).2

/-- A process writes to the first page it maps. -/
theorem exists_write_fault :
    ∃ c s, (system blockFiles).Reachable (freshConfig 2 1) c ∧ c.current = some 7 ∧
      c.state.vmFault blockFiles vmArenaBaseaddr true = some (true, s) ∧
      ∃ c', (system blockFiles).Reachable (freshConfig 2 1) c' ∧ c'.state = s ∧
        s.clockQueue = [1] := by
  have hstart : (system blockFiles).Reachable (freshConfig 2 1) (freshConfig 2 1) :=
    .refl
  have hcreate := hstart.step
    (@Step.create _ blockFiles (freshConfig 2 1) 0 7 _ _ (by decide) rfl)
  have hswitch := hcreate.step (@Step.switch _ blockFiles _ 7 _ (by decide) rfl)
  have hmap := hswitch.step (@Step.map _ blockFiles _ none 0 7 _ _ rfl rfl)
  have hfault := hmap.step
    (@Step.fault _ blockFiles _ vmArenaBaseaddr true _ 7 _ rfl rfl)
  exact ⟨_, _, hmap, rfl, rfl, _, hfault, rfl, rfl⟩

theorem residency_of_write_fault :
    ∃ c, (system blockFiles).Reachable (freshConfig 2 1) c ∧
      c.state.clockQueue = [1] ∧ Residency 2 c := by
  obtain ⟨_, s, _, _, _, c, hreach, rfl, hclock⟩ := exists_write_fault
  exact ⟨c, hreach, hclock, residency_of_reachable (by decide) (by decide) hreach⟩

/-- The protection bits of all page table entries are determined by what is in
the frames. -/
structure Protection (c : Config W) : Prop where
  framed : ∀ vp, c.LivePage vp → ∀ ppage,
    c.state.peerInPhys vp.id = some ppage → ppage ≠ 0 →
      c.state.entries vp.entry =
        { ppage := ppage
          readEnable := (c.state.physicalTable ppage).referenced
          writeEnable := (c.state.physicalTable ppage).referenced &&
            (c.state.physicalTable ppage).dirty }
  peers : ∀ vp vp', c.LivePage vp → c.LivePage vp' → vp.id = vp'.id →
    c.state.peerInPhys vp.id ≠ none →
    c.state.entries vp.entry = c.state.entries vp'.entry
  unwritten : ∀ vp, c.LivePage vp → vp.id.swapBacked = true →
    vp.entry ∉ c.written →
    c.state.entries vp.entry =
      { ppage := 0, readEnable := true, writeEnable := false }
  absent : ∀ vp, c.LivePage vp → c.state.peerInPhys vp.id = none →
    (c.state.entries vp.entry).readEnable = false ∧
    (c.state.entries vp.entry).writeEnable = false
  beyond : ∀ pid ∈ c.live, ∃ table, c.state.tables pid = some table ∧
    ∀ i, (c.state.heap table).cnt ≤ i →
      (c.state.entries (table, i)).readEnable = false ∧
      (c.state.entries (table, i)).writeEnable = false
  clean : ∀ ppage ∈ c.state.availablePhysicalPages,
    (c.state.physicalTable ppage).dirty = false

theorem Matches.eq_of_zero
    {s : State W} {id : FileId} {entry : Entry} (h : Matches s id entry)
    (hid : s.peerInPhys id = some 0) :
    entry = { ppage := 0, readEnable := true, writeEnable := false } := by
  obtain ⟨hppage, hread, hwrite⟩ := (matches_zero hid).mp h
  rw [← hppage, ← hread, ← hwrite]

theorem Matches.eq_of_frame
    {s : State W} {id : FileId} {entry : Entry} {ppage : ℕ} (h : Matches s id entry)
    (hid : s.peerInPhys id = some ppage) (hzero : ppage ≠ 0) :
    entry = { ppage := ppage
              readEnable := (s.physicalTable ppage).referenced
              writeEnable := (s.physicalTable ppage).referenced &&
                (s.physicalTable ppage).dirty } := by
  obtain ⟨hppage, hread, hwrite⟩ := (matches_frame hid hzero).mp h
  rw [← hwrite, ← hread, ← hppage]

theorem Invariant.protection (h : Invariant c) : Protection c := by
  have hmatches : ∀ vp, c.LivePage vp →
      Matches c.state vp.id (c.state.entries vp.entry) :=
    fun vp hvp => h.coherent.protect vp ((h.livePage_iff vp).mp hvp)
  constructor
  case framed =>
      intro vp hvp ppage hplace hzero
      exact (hmatches vp hvp).eq_of_frame hplace hzero
  case peers =>
      intro vp vp' hvp hvp' hid hresident
      obtain ⟨ppage, hplace⟩ := Option.ne_none_iff_exists'.mp hresident
      have hplace' : c.state.peerInPhys vp'.id = some ppage := hid ▸ hplace
      by_cases hzero : ppage = 0
      · subst hzero
        rw [(hmatches vp hvp).eq_of_zero hplace,
          (hmatches vp' hvp').eq_of_zero hplace']
      · rw [(hmatches vp hvp).eq_of_frame hplace hzero,
          (hmatches vp' hvp').eq_of_frame hplace' hzero]
  case unwritten =>
      intro vp hvp hswap hunwritten
      refine (hmatches vp hvp).eq_of_zero ?_
      exact (h.zero vp ((h.livePage_iff vp).mp hvp) hswap).mp hunwritten
  case absent =>
      intro vp hvp hplace
      exact (matches_none hplace).mp (hmatches vp hvp)
  case beyond =>
      intro pid hlive
      obtain ⟨table, htable⟩ := Option.isSome_iff_exists.mp ((h.live pid).mp hlive)
      exact ⟨table, htable, h.cleared pid table htable⟩
  case clean => exact h.coherent.frames.clean

/-- The access that faulted is permitted now: the entry of its page allows it,
and that is the entry the hardware uses. -/
structure Retried (addr : UInt64) (write : Bool) (s : State W) : Prop where
  entry : ∃ table, s.curTable = some table ∧
    (s.entries (table, (vpn addr).toNat)).readEnable = true ∧
    (write = true →
      (s.entries (table, (vpn addr).toNat)).writeEnable = true ∧
      (s.entries (table, (vpn addr).toNat)).ppage ≠ 0)
  translated : ∀ entry offset, s.translate addr = some (entry, offset) →
    entry.readEnable = true ∧
    (write = true → entry.writeEnable = true ∧ entry.ppage ≠ 0)

/-- Inside the arena the page number of the pager is the true one. -/
theorem arenaPage_eq
    {addr : UInt64} {index offset : ℕ}
    (harena : arenaPage addr = some (index, offset)) :
    (vpn addr).toNat = index := by
  unfold arenaPage at harena
  split at harena
  case isFalse => cases harena
  case isTrue hin =>
      rw [Option.some.injEq, Prod.mk.injEq] at harena
      rw [← harena.1, vpn_toNat, UInt64.toNat_sub]
      have haddr := addr.toNat_lt
      change 0x600000000 ≤ addr.toNat ∧ addr.toNat < 0x600000000 + 0x01000000 at hin
      change (2 ^ 64 - 0x600000000 + addr.toNat) % 2 ^ 64 / 65536 % 2 ^ 32 =
        (addr.toNat - 0x600000000) / 65536
      omega

theorem translate_eq
    {s : State W} {addr : UInt64} {entry : Entry} {offset : ℕ}
    (htranslate : s.translate addr = some (entry, offset)) :
    ∃ table, s.pageTableBaseRegister = some table ∧
      arenaPage addr = some ((vpn addr).toNat, offset) ∧
      entry = s.entries (table, (vpn addr).toNat) := by
  obtain ⟨table, hptbr, htranslate⟩ := Option.bind_eq_some_iff.mp htranslate
  obtain ⟨⟨index, offset'⟩, harena, hentry⟩ := Option.bind_eq_some_iff.mp htranslate
  cases hentry
  have hindex := arenaPage_eq harena
  subst hindex
  exact ⟨table, hptbr, harena, rfl⟩

theorem Invariant.retried
    {pid : ℕ} {addr : UInt64} {write : Bool} {s : State W} (h : Invariant c)
    (hcurrent : c.current = some pid)
    (hcall : c.state.vmFault io addr write = some (true, s)) :
    Retried addr write s := by
  obtain ⟨table, hcur, htable, _, hptbr⟩ := h.exists_table hcurrent
  obtain ⟨ok, s', hrun, hcases⟩ :=
    vmFault_spec io h.coherent h.tables hcur addr write
  rw [hcall, Option.some.injEq, Prod.mk.injEq] at hrun
  obtain ⟨rfl, rfl⟩ := hrun
  rcases hcases with ⟨_, hfalse, _⟩ | ⟨vp, _, hpage, _, _, _, hfaulted⟩
  · cases hfalse
  · have hentry := h.tables.entry pid table htable _ vp hpage
    have hsame := SameTables.of_arenas hfaulted.arenas
    obtain ⟨hread, hwrite, hnonzero⟩ := hfaulted.accessible rfl
    rw [hentry] at hread hwrite hnonzero
    refine ⟨⟨table, hsame.curTable.trans hcur, hread,
      fun hflag => ⟨hwrite hflag, hnonzero hflag⟩⟩, fun entry offset htranslate => ?_⟩
    obtain ⟨table', hptbr', _, rfl⟩ := translate_eq htranslate
    rw [hsame.pageTableBaseRegister, hptbr, Option.some.injEq] at hptbr'
    subst hptbr'
    exact ⟨hread, fun hflag => ⟨hwrite hflag, hnonzero hflag⟩⟩

/-- The protection bits in every state of a legal run, and after a fault that
was served from there. -/
theorem protection_of_reachable
    {memoryPages swapBlocks : ℕ} {physmem : ℕ → Byte} {entries : EntryRef → Entry}
    {world : W} (hlower : 2 ≤ memoryPages) (hupper : memoryPages ≤ 2 ^ 20)
    (hreach : (system io).Reachable
      (Config.init memoryPages swapBlocks physmem entries world) c) :
    Protection c ∧
      ∀ addr write s, c.current ≠ none →
        c.state.vmFault io addr write = some (true, s) → Retried addr write s := by
  have h := invariant_of_reachable hlower hupper hreach
  refine ⟨h.protection, fun addr write s hcurrent hcall => ?_⟩
  obtain ⟨pid, hpid⟩ := Option.ne_none_iff_exists'.mp hcurrent
  exact h.retried hpid hcall

theorem protection_of_write_fault :
    ∃ c s, (system blockFiles).Reachable (freshConfig 2 1) c ∧ Protection c ∧
      c.state.vmFault blockFiles vmArenaBaseaddr true = some (true, s) ∧
      Retried vmArenaBaseaddr true s := by
  obtain ⟨c, s, hreach, hcurrent, hcall, _⟩ := exists_write_fault
  obtain ⟨hprotection, hretried⟩ :=
    protection_of_reachable (by decide) (by decide) hreach
  refine ⟨c, s, hreach, hprotection, hcall, hretried _ _ s ?_ hcall⟩
  rw [hcurrent]
  exact Option.some_ne_none 7

end Pager
end Eecs482
