import Eecs482.PagerCalls
import Eecs482.PagerMachine

/-!
# Every reachable state of the pager

`Processes` connects the page tables with the processes the kernel knows.  It
holds for any size of the memory.  `Invariant` adds the coherence of the pages,
for which the frame numbers have to fit in a page table entry.
-/

namespace Eecs482
namespace Pager

variable {W : Type} {io : FileIo W} {c c' : Config W} {event : Event}

/-- The processes with a page table are the live ones, and the current process
owns the current table. -/
structure Processes (c : Config W) : Prop where
  tables : Tables c.state
  live : ∀ pid, pid ∈ c.live ↔ (c.state.tables pid).isSome = true
  used : c.live ⊆ c.used
  last : ∀ pid : ℕ, c.state.curPid = pid → pid ∈ c.used
  current : ∀ pid, c.current = some pid → pid ∈ c.live ∧
    c.state.curPid = pid ∧ c.state.curTable = c.state.tables pid

theorem Processes.exists_table
    (h : Processes c) {pid : ℕ} (hcurrent : c.current = some pid) :
    ∃ table, c.state.curTable = some table ∧ c.state.tables pid = some table ∧
      c.state.curPid = pid ∧ c.state.pageTableBaseRegister = some table := by
  obtain ⟨hlive, hpid, hcur⟩ := h.current pid hcurrent
  obtain ⟨table, htable⟩ := Option.isSome_iff_exists.mp ((h.live pid).mp hlive)
  rw [htable] at hcur
  exact ⟨table, hcur, htable, hpid, (h.tables.current table hcur).1⟩

theorem Processes.no_table
    (h : Processes c) {pid : ℕ} (hfresh : pid ∉ c.used) :
    c.state.tables pid = none := by
  cases htable : c.state.tables pid with
  | none => rfl
  | some table =>
      exact absurd (h.used ((h.live pid).mpr (by rw [htable]; rfl))) hfresh

theorem Processes.curPid_ne
    (h : Processes c) {pid : ℕ} (hfresh : pid ∉ c.used) :
    c.state.curPid ≠ pid :=
  fun hpid => hfresh (h.last pid hpid)

theorem Processes.livePage_iff (h : Processes c) (vp : VirtualPage) :
    c.LivePage vp ↔ vp ∈ c.state.pages := by
  constructor
  · rintro ⟨pid, _, table, htable, hmem⟩
    exact ⟨pid, table, htable, hmem⟩
  · rintro ⟨pid, table, htable, hmem⟩
    exact ⟨pid, (h.live pid).mpr (by rw [htable]; rfl), table, htable, hmem⟩

/-- Calls that leave the tables alone, or add a page to one. -/
theorem Processes.of_tables
    {s : State W} {written : Finset EntryRef} (h : Processes c) (htables : Tables s)
    (hsame : s.tables = c.state.tables) (hcur : s.curTable = c.state.curTable)
    (hpid : s.curPid = c.state.curPid) :
    Processes { c with state := s, written := written } where
  tables := htables
  live pid := by
    rw [h.live pid, hsame]
  used := h.used
  last := by
    rw [hpid]
    exact h.last
  current pid hcurrent := by
    obtain ⟨hlive, hcurPid, hcurTable⟩ := h.current pid hcurrent
    exact ⟨hlive, hpid.trans hcurPid, hcur.trans (hcurTable.trans (by rw [hsame]))⟩

theorem vmCreate_tables
    {parent child : ℕ} {s s' : State W} {ok : Bool}
    (hcall : s.vmCreate parent child = (ok, s')) :
    (ok = false ∧ s' = s) ∨
      (ok = true ∧ ∃ num, s' = State.newTable child { s with numSwapBlocks := num }) := by
  unfold State.vmCreate at hcall
  split at hcall
  · split at hcall
    · cases hcall
      exact .inl ⟨rfl, rfl⟩
    · cases hcall
      exact .inr ⟨rfl, _, rfl⟩
  · cases hcall
    exact .inr ⟨rfl, s.numSwapBlocks, rfl⟩

theorem Tables.setNum {s : State W} (h : Tables s) (num : ℕ) :
    Tables { s with numSwapBlocks := num } :=
  ⟨h.allocated, h.injective, h.length, h.bound, h.entry, h.occupied, h.current,
    h.stale⟩

theorem Processes.create
    {parent child : ℕ} {ok : Bool} {s : State W} (h : Processes c)
    (hfresh : child ∉ c.used) (hcall : c.state.vmCreate parent child = (ok, s)) :
    Processes { c with
      state := s
      used := insert child c.used
      live := if ok then insert child c.live else c.live } := by
  have hgrow : c.used ⊆ insert child c.used := Finset.subset_insert _ _
  rcases vmCreate_tables hcall with ⟨rfl, rfl⟩ | ⟨rfl, num, rfl⟩
  · exact ⟨h.tables, h.live, h.used.trans hgrow, fun pid hpid => hgrow (h.last pid hpid),
      h.current⟩
  · have htable : ∀ pid, pid ≠ child →
        (State.newTable child { c.state with numSwapBlocks := num }).tables pid =
          c.state.tables pid := fun pid hpid => Function.update_of_ne hpid _ _
    refine ⟨(h.tables.setNum num).newTable (h.no_table hfresh) (h.curPid_ne hfresh),
      fun pid => ?_, ?_, fun pid hpid => hgrow (h.last pid hpid),
      fun pid hcurrent => ?_⟩
    · change pid ∈ insert child c.live ↔ _
      rw [Finset.mem_insert]
      by_cases hpid : pid = child
      · subst hpid
        have hnew : (State.newTable pid { c.state with numSwapBlocks := num }).tables pid =
            some c.state.nextTable := Function.update_self _ _ _
        simp only [true_or, true_iff]
        rw [hnew]
        rfl
      · simp only [hpid, false_or]
        rw [htable pid hpid]
        exact h.live pid
    · exact Finset.insert_subset_insert _ h.used
    · obtain ⟨hlive, hcurPid, hcurTable⟩ := h.current pid hcurrent
      refine ⟨Finset.mem_insert_of_mem hlive, hcurPid, ?_⟩
      have hne : pid ≠ child := by
        rintro rfl
        exact hfresh (h.used hlive)
      exact hcurTable.trans (htable pid hne).symm

theorem Processes.switch
    {pid : ℕ} {s : State W} (h : Processes c) (hlive : pid ∈ c.live)
    (hcall : c.state.vmSwitch pid = some s) :
    Processes { c with state := s, current := some pid } ∧
      ∃ table, c.state.tables pid = some table ∧
        s = { c.state with
          curTable := some table
          pageTableBaseRegister := some table
          curPid := pid } := by
  obtain ⟨table, htable⟩ := Option.isSome_iff_exists.mp ((h.live pid).mp hlive)
  obtain ⟨s', hrun, hs'⟩ := h.tables.vmSwitch htable
  rw [hcall, Option.some.injEq] at hrun
  subst hrun
  refine ⟨⟨?_, fun pid' => ?_, h.used, fun pid' hpid' => ?_, fun pid' hpid' => ?_⟩,
    table, htable, hs'⟩
  · rw [hs']
    exact h.tables.switched htable
  · rw [hs']
    exact h.live pid'
  · rw [hs'] at hpid'
    have hsame : pid = pid' := by
      change (pid : ℤ) = pid' at hpid'
      omega
    exact hsame ▸ h.used hlive
  · cases hpid'
    rw [hs']
    exact ⟨hlive, rfl, htable.symm⟩

theorem Processes.destroy
    {pid table : ℕ} (h : Processes c) (hcurrent : c.current = some pid) :
    Processes { c with
      state := eraseCurrent table
        ((c.state.heap table).vps.foldl State.destroyPage c.state)
      live := c.live.erase pid
      current := none } := by
  obtain ⟨hlive, hcurPid, _⟩ := h.current pid hcurrent
  obtain ⟨hsame, _⟩ := destroyPages_same (s := c.state) (c.state.heap table).vps
  refine ⟨(h.tables.of_same hsame).eraseCurrent, fun pid' => ?_,
    (Finset.erase_subset _ _).trans h.used, fun pid' hpid' => ?_, nofun⟩
  · rw [Finset.mem_erase, h.live pid', eraseCurrent_tables, hsame.curPid,
      hsame.tables, hcurPid]
    by_cases hpid' : pid' = pid
    · simp [hpid']
    · have hne : (pid : ℤ) ≠ pid' := by omega
      simp [hpid', hne]
  · exact h.last pid' (hsame.curPid.symm.trans hpid')

theorem Processes.fault
    {addr : UInt64} {write ok : Bool} {s : State W} {written : Finset EntryRef}
    (h : Processes c) (hcall : c.state.vmFault io addr write = some (ok, s)) :
    Processes { c with state := s, written := written } := by
  have hsame := SameTables.of_arenas (vmFault_arenas hcall)
  exact h.of_tables (h.tables.of_same hsame) hsame.tables hsame.curTable hsame.curPid

/-- `vm_map` for the current process, seen from its tables only. -/
theorem Processes.mapped
    {filename : Option UInt64} {block pid : ℕ} {result : Option UInt64}
    {s : State W} (h : Processes c) (hcurrent : c.current = some pid)
    (hcall : c.state.vmMap io filename block = some (result, s)) :
    ∃ table, c.state.tables pid = some table ∧
      Mapped (fun _ _ s t => t.arenas = s.arenas) table c.state filename block
        result s := by
  obtain ⟨table, hcur, htable, _, hptbr⟩ := h.exists_table hcurrent
  exact ⟨table, htable,
    vmMap_cases hcur hptbr (fun _ _ _ => readFilename_arenas) hcall⟩

theorem Processes.map
    {filename : Option UInt64} {block pid : ℕ} {result : Option UInt64}
    {s : State W} (h : Processes c) (hcurrent : c.current = some pid)
    (hcall : c.state.vmMap io filename block = some (result, s)) :
    Processes { c with state := s } := by
  obtain ⟨table, _, hmapped⟩ := h.mapped hcurrent hcall
  cases hmapped with
  | refused => exact h
  | unreadable harenas =>
      have hsame := SameTables.of_arenas harenas
      exact h.of_tables (h.tables.of_same hsame) hsame.tables hsame.curTable
        hsame.curPid
  | swap _ _ hroom =>
      exact h.of_tables (h.tables.grown (grown_addSwapPage _ _ _ _ rfl) hroom rfl)
        rfl rfl rfl
  | @file _ _ t name harenas hroom =>
      have hsame := SameTables.of_arenas harenas
      have hgrown := grown_addFilePage t table ⟨(table, (c.state.heap table).cnt),
        { filename := name, block := block, swapBacked := false }⟩ rfl
      refine h.of_tables ((h.tables.of_same hsame).grown hgrown ?_ ?_)
        hsame.tables hsame.curTable hsame.curPid
      · rw [hsame.heap]
        exact hroom
      · rw [hsame.heap]

theorem Processes.setPhysmem (h : Processes c) (physmem : ℕ → Byte) :
    Processes { c with state := { c.state with physmem := physmem } } :=
  h.of_tables ⟨h.tables.allocated, h.tables.injective, h.tables.length,
    h.tables.bound, h.tables.entry, h.tables.occupied, h.tables.current,
    h.tables.stale⟩ rfl rfl rfl

/-- Every step keeps the processes and their tables together. -/
theorem Processes.step (h : Processes c) (hstep : Step io c event c') :
    Processes c' := by
  cases hstep with
  | create hfresh hcall => exact h.create hfresh hcall
  | switch hlive hcall => exact (h.switch hlive hcall).1
  | fault _ hcall => exact h.fault hcall
  | map hcurrent hcall => exact h.map hcurrent hcall
  | destroy hcurrent hcall =>
      obtain ⟨table, hcur, _⟩ := h.exists_table hcurrent
      rw [vmDestroy_eq hcur, Option.some.injEq] at hcall
      subst hcall
      exact h.destroy hcurrent
  | load => exact h
  | store => exact h.setPhysmem _

/-- The size of the memory never changes. -/
theorem Processes.numMemoryPages (h : Processes c) (hstep : Step io c event c') :
    c'.state.numMemoryPages = c.state.numMemoryPages := by
  cases hstep with
  | create hfresh hcall =>
      rcases vmCreate_tables hcall with ⟨_, rfl⟩ | ⟨_, num, rfl⟩ <;> rfl
  | switch hlive hcall =>
      obtain ⟨_, _, _, rfl⟩ := h.switch hlive hcall
      rfl
  | fault _ hcall =>
      exact (SameTables.of_arenas (vmFault_arenas hcall)).numMemoryPages
  | map hcurrent hcall =>
      obtain ⟨table, _, hmapped⟩ := h.mapped hcurrent hcall
      cases hmapped with
      | refused => rfl
      | unreadable harenas => exact (SameTables.of_arenas harenas).numMemoryPages
      | swap => rfl
      | file harenas => exact (SameTables.of_arenas harenas).numMemoryPages
  | destroy hcurrent hcall =>
      obtain ⟨table, hcur, _⟩ := h.exists_table hcurrent
      rw [vmDestroy_eq hcur, Option.some.injEq] at hcall
      subst hcall
      exact (destroyPages_same _).1.numMemoryPages
  | load => rfl
  | store => rfl

theorem processes_init
    (memoryPages swapBlocks : ℕ) (physmem : ℕ → Byte) (entries : EntryRef → Entry)
    (world : W) :
    Processes (Config.init memoryPages swapBlocks physmem entries world) where
  tables :=
    { allocated := nofun
      injective := nofun
      length := nofun
      bound := nofun
      entry := nofun
      occupied := nofun
      current := nofun
      stale := fun _ _ _ => rfl }
  live pid := by
    change pid ∈ (∅ : Finset ℕ) ↔ (none : Option ℕ).isSome = true
    simp
  used := Finset.Subset.refl _
  last pid hpid := by
    change (-1 : ℤ) = pid at hpid
    omega
  current := nofun

/-! ## The invariant of legal runs -/

/-- A swap-backed page is mapped to the zero page until its first write
fault. -/
def ZeroUntilWritten (written : Finset EntryRef) (s : State W) : Prop :=
  ∀ vp ∈ s.pages, vp.id.swapBacked = true →
    (vp.entry ∉ written ↔ s.peerInPhys vp.id = some 0)

structure Invariant (c : Config W) : Prop extends Processes c where
  coherent : Coherent c.state.pages c.state
  cleared : Cleared c.state
  zero : ZeroUntilWritten c.written c.state
  written_bound : ∀ ref ∈ c.written,
    ref.1 < c.state.nextTable ∧ ref.2 < (c.state.heap ref.1).cnt

section Keeps

variable {s s' : State W} {vp : VirtualPage} {table : ℕ}

theorem Cleared.settled
    (h : Cleared s) (htables : Tables s)
    (hsettled : Settled s.pages s.pages s s') : Cleared s' := by
  have hsame := SameTables.of_arenas hsettled.arenas
  intro pid table htable i hi
  rw [hsame.tables] at htable
  rw [hsame.heap] at hi
  rw [hsettled.outside.entries (table, i) fun vp hvp hentry => ?_]
  · exact h pid table htable i hi
  · have := (htables.mem_pages_iff htable i).mp ⟨vp, hvp, hentry⟩
    omega

theorem Cleared.newTable
    {child num : ℕ} (h : Cleared s) :
    Cleared (State.newTable child { s with numSwapBlocks := num }) := by
  intro pid table htable i hi
  change Function.update s.tables child (some s.nextTable) pid = _ at htable
  change (Function.update s.heap s.nextTable {} table).cnt ≤ i at hi
  change (ite _ _ _ : Entry).readEnable = false ∧ (ite _ _ _ : Entry).writeEnable = false
  by_cases hnew : table = s.nextTable
  · rw [if_pos hnew]
    exact ⟨rfl, rfl⟩
  · rw [if_neg hnew]
    rw [Function.update_of_ne hnew] at hi
    refine h pid table ?_ i hi
    by_cases hpid : pid = child
    · subst hpid
      rw [Function.update_self, Option.some.injEq] at htable
      exact absurd htable.symm hnew
    · rwa [Function.update_of_ne hpid] at htable

theorem Cleared.grown
    (h : Cleared s) (hgrown : Grown table vp s s')
    (hentry : vp.entry = (table, (s.heap table).cnt))
    (hentries : ∀ ref, ref ≠ vp.entry → s'.entries ref = s.entries ref) :
    Cleared s' := by
  intro pid table' htable i hi
  rw [hgrown.tables] at htable
  have hcnt : (s.heap table').cnt ≤ i ∧ (table', i) ≠ vp.entry := by
    rw [hentry]
    by_cases heq : table' = table
    · subst heq
      rw [hgrown.cnt] at hi
      refine ⟨by omega, fun hsame => ?_⟩
      have hi' : i = (s.heap table').cnt := congrArg Prod.snd hsame
      omega
    · rw [hgrown.other table' heq] at hi
      exact ⟨hi, fun hsame => heq (congrArg Prod.fst hsame)⟩
  rw [hentries _ hcnt.2]
  exact h pid table' htable i hcnt.1

theorem ZeroUntilWritten.settled
    {written : Finset EntryRef} (h : ZeroUntilWritten written s)
    (hpages : s'.pages = s.pages) (hleaves : LeavesZero ∅ s s') :
    ZeroUntilWritten written s' := by
  intro vp hvp hswap
  rw [hpages] at hvp
  rw [h vp hvp hswap, hleaves vp.id]
  simp

theorem destroyPages_peerInPhys
    {pages : List VirtualPage} {id : FileId} (hid : ∀ vp ∈ pages, vp.id ≠ id) :
    (pages.foldl State.destroyPage s).peerInPhys id = s.peerInPhys id := by
  induction pages generalizing s with
  | nil => rfl
  | cons vp pages ih =>
      rw [List.foldl_cons, ih fun other hother => hid other (List.mem_cons_of_mem _ hother),
        destroyPage_eq]
      have hne := (hid vp List.mem_cons_self).symm
      simp only
      split <;> split <;>
        first
        | rfl
        | exact Function.update_of_ne hne _ _

end Keeps

theorem Invariant.create
    {parent child : ℕ} {ok : Bool} {s : State W} (h : Invariant c)
    (hfresh : child ∉ c.used) (hcall : c.state.vmCreate parent child = (ok, s)) :
    Invariant { c with
      state := s
      used := insert child c.used
      live := if ok then insert child c.live else c.live } := by
  have hspec := vmCreate_spec parent h.coherent h.tables
    (h.no_table hfresh) (h.curPid_ne hfresh)
  rw [hcall] at hspec
  obtain ⟨hcoherent, _, hpages⟩ := hspec
  refine ⟨h.toProcesses.create hfresh hcall, hcoherent, ?_, ?_, ?_⟩
  · rcases vmCreate_tables hcall with ⟨_, rfl⟩ | ⟨_, num, rfl⟩
    · exact h.cleared
    · exact h.cleared.newTable
  · intro vp hvp hswap
    change vp ∈ s.pages at hvp
    rw [hpages] at hvp
    rcases vmCreate_tables hcall with ⟨_, rfl⟩ | ⟨_, num, rfl⟩ <;>
      exact h.zero vp hvp hswap
  · intro ref href
    obtain ⟨hnext, hcnt⟩ := h.written_bound ref href
    rcases vmCreate_tables hcall with ⟨_, rfl⟩ | ⟨_, num, rfl⟩
    · exact ⟨hnext, hcnt⟩
    · refine ⟨Nat.lt_succ_of_lt hnext, ?_⟩
      change ref.2 < (Function.update c.state.heap c.state.nextTable {} ref.1).cnt
      rwa [Function.update_of_ne hnext.ne]

theorem Invariant.switch
    {pid : ℕ} {s : State W} (h : Invariant c) (hlive : pid ∈ c.live)
    (hcall : c.state.vmSwitch pid = some s) :
    Invariant { c with state := s, current := some pid } := by
  obtain ⟨hprocesses, table, _, rfl⟩ := h.toProcesses.switch hlive hcall
  obtain ⟨hframes, hpeers, hprotect, hswap, hunused⟩ := h.coherent
  refine ⟨hprocesses, ⟨?_, ⟨hpeers.listed, hpeers.entry_injective⟩, ?_,
    ⟨hswap.owner, hswap.unnamed, hswap.free, hswap.nodup, hswap.enough⟩, hunused⟩,
    h.cleared, h.zero, h.written_bound⟩
  · exact ⟨hframes.memory_lower, hframes.memory_upper, hframes.partition,
      hframes.resident, hframes.owner, hframes.zero_swapBacked, hframes.clean,
      hframes.zero_clean⟩
  · exact fun vp hvp => (hprotect vp hvp).congr rfl fun _ _ _ => ⟨rfl, rfl⟩

/-- The page of a fault is the one that counts as written to. -/
theorem mem_faultRef
    {s : State W} {vp : VirtualPage} {table : ℕ} {addr : UInt64}
    (hcur : s.curTable = some table) (hentry : vp.entry = (table, (vpn addr).toNat))
    (hvalid : (vpn addr).toNat < (s.heap table).cnt) :
    s.faultRef addr = {vp.entry} := by
  rw [State.faultRef, hcur, hentry]
  simp only [if_pos hvalid]

theorem Invariant.fault
    {addr : UInt64} {write ok : Bool} {pid : ℕ} {s : State W} (h : Invariant c)
    (hcurrent : c.current = some pid)
    (hcall : c.state.vmFault io addr write = some (ok, s)) :
    Invariant { c with
      state := s
      written :=
        if write then c.written ∪ c.state.faultRef addr else c.written } := by
  obtain ⟨table, hcur, htable, _⟩ := h.toProcesses.exists_table hcurrent
  obtain ⟨ok', s', hrun, hcases⟩ :=
    vmFault_spec io h.coherent h.tables hcur addr write
  rw [hcall, Option.some.injEq, Prod.mk.injEq] at hrun
  obtain ⟨rfl, rfl⟩ := hrun
  have hprocesses : Processes { c with
      state := s
      written := if write then c.written ∪ c.state.faultRef addr else c.written } :=
    h.toProcesses.fault hcall
  rcases hcases with ⟨hinvalid, _, rfl⟩ | ⟨vp, hvalid, hpage, hvp, _, hcoherent, hfaulted⟩
  · have hnone : c.state.faultRef addr = ∅ := by
      rw [State.faultRef, hcur]
      simp only [if_neg (Nat.not_lt.mpr hinvalid)]
    have hwritten :
        (if write then c.written ∪ c.state.faultRef addr else c.written) =
          c.written := by
      rw [hnone, Finset.union_empty, ite_self]
    rw [hwritten] at hprocesses ⊢
    exact ⟨hprocesses, h.coherent, h.cleared, h.zero, h.written_bound⟩
  · have hentry := h.tables.entry pid table htable _ vp hpage
    have hsame := SameTables.of_arenas hfaulted.arenas
    have href := mem_faultRef hcur hentry hvalid
    refine ⟨hprocesses, hsame.pages.symm ▸ hcoherent,
      h.cleared.settled h.tables hfaulted.toSettled, ?_, ?_⟩
    · intro other hother hswap
      rw [hsame.pages] at hother
      rw [hfaulted.leaves other.id, ← h.zero other hother hswap]
      have hsameEntry : other.entry = vp.entry ↔ other.id = vp.id := by
        constructor
        · intro heq
          exact congrArg _ (h.coherent.peers.entry_injective other hother vp hvp heq)
        · intro heq
          exact congrArg _ (h.coherent.swap.owner other hother vp hvp hswap heq)
      cases write with
      | false => simp [faultGone]
      | true =>
          rw [if_pos rfl, href]
          simp [faultGone, hsameEntry, and_comm]
    · intro ref hmem
      change ref.1 < s.nextTable ∧ ref.2 < (s.heap ref.1).cnt
      rw [hsame.nextTable, hsame.heap]
      have hold : ref ∈ c.written ∨ ref = vp.entry := by
        change ref ∈ (if write then _ else _) at hmem
        split at hmem
        · rwa [href, Finset.mem_union, Finset.mem_singleton] at hmem
        · exact .inl hmem
      rcases hold with hold | rfl
      · exact h.written_bound ref hold
      · rw [hentry]
        exact ⟨h.tables.allocated pid table htable, hvalid⟩

theorem Invariant.grown
    {s : State W} {vp : VirtualPage} {table : ℕ} (h : Invariant c)
    (hgrown : Grown table vp c.state s) :
    ∀ ref ∈ c.written, ref.1 < s.nextTable ∧ ref.2 < (s.heap ref.1).cnt := by
  intro ref href
  obtain ⟨hnext, hcnt⟩ := h.written_bound ref href
  rw [hgrown.nextTable]
  refine ⟨hnext, ?_⟩
  by_cases htable : ref.1 = table
  · rw [htable, hgrown.cnt]
    rw [htable] at hcnt
    omega
  · rwa [hgrown.other _ htable]

theorem Invariant.read
    {s : State W} (h : Invariant c) (hread : ReadPages c.state s) :
    Invariant { c with state := s } := by
  have hsame := SameTables.of_arenas hread.arenas
  refine ⟨h.toProcesses.of_tables (h.tables.of_same hsame) hsame.tables hsame.curTable
    hsame.curPid, hsame.pages.symm ▸ hread.coherent,
    h.cleared.settled h.tables hread.toSettled, h.zero.settled hsame.pages hread.leaves,
    ?_⟩
  change ∀ ref ∈ c.written, ref.1 < s.nextTable ∧ ref.2 < (s.heap ref.1).cnt
  rw [hsame.nextTable, hsame.heap]
  exact h.written_bound

theorem Invariant.addSwapPage
    {table block pid : ℕ} {rest : List ℕ} (h : Invariant c)
    (htable : c.state.tables pid = some table)
    (hblocks : c.state.availableSwapBlocks = block :: rest)
    (hroom : (c.state.heap table).cnt < maxPageNum) :
    Invariant { c with
      state := c.state.addSwapPage table
        ⟨(table, (c.state.heap table).cnt), swapId block⟩ rest } := by
  have hgrown := grown_addSwapPage c.state table
    ⟨(table, (c.state.heap table).cnt), swapId block⟩ rest rfl
  have hpages := hgrown.pages htable
  refine ⟨h.toProcesses.of_tables (h.tables.grown hgrown hroom rfl) rfl rfl rfl,
    hpages.symm ▸ h.coherent.addSwapPage hblocks rfl (h.tables.entry_ne_next htable),
    h.cleared.grown hgrown rfl fun ref href => Function.update_of_ne href _ _, ?_,
    h.grown hgrown⟩
  intro vp hvp hswap
  change vp ∈ State.pages _ at hvp
  rw [hpages] at hvp
  rcases hvp with rfl | hvp
  · refine iff_of_true ?_ (Function.update_self _ _ _)
    intro hwritten
    exact absurd (h.written_bound _ hwritten).2 (lt_irrefl _)
  · have hne : vp.id ≠ swapId block := by
      intro heq
      have hfree := h.coherent.swap.free vp hvp hswap
      rw [heq, hblocks] at hfree
      exact hfree List.mem_cons_self
    exact (h.zero vp hvp hswap).trans
      (Eq.congr_left (Function.update_of_ne hne _ _).symm)

theorem Invariant.addFilePage
    {table block pid : ℕ} {name : Name} (h : Invariant c)
    (htable : c.state.tables pid = some table)
    (hroom : (c.state.heap table).cnt < maxPageNum) :
    Invariant { c with
      state := c.state.addFilePage table ⟨(table, (c.state.heap table).cnt),
        { filename := name, block := block, swapBacked := false }⟩ } := by
  have hgrown := grown_addFilePage c.state table ⟨(table, (c.state.heap table).cnt),
    { filename := name, block := block, swapBacked := false }⟩ rfl
  have hpages := hgrown.pages htable
  refine ⟨h.toProcesses.of_tables (h.tables.grown hgrown hroom rfl) rfl rfl rfl,
    hpages.symm ▸ h.coherent.addFilePage rfl (h.tables.entry_ne_next htable),
    h.cleared.grown hgrown rfl fun ref href => Function.update_of_ne href _ _, ?_,
    h.grown hgrown⟩
  intro vp hvp hswap
  change vp ∈ State.pages _ at hvp
  rw [hpages] at hvp
  rcases hvp with rfl | hvp
  · cases hswap
  · exact h.zero vp hvp hswap

theorem Invariant.map
    {filename : Option UInt64} {block pid : ℕ} {result : Option UInt64}
    {s : State W} (h : Invariant c) (hcurrent : c.current = some pid)
    (hcall : c.state.vmMap io filename block = some (result, s)) :
    Invariant { c with state := s } := by
  obtain ⟨table, hcur, htable, _⟩ := h.toProcesses.exists_table hcurrent
  obtain ⟨result', s', hrun, hmapped⟩ :=
    vmMap_spec io h.coherent h.tables hcur filename block
  rw [hcall, Option.some.injEq, Prod.mk.injEq] at hrun
  obtain ⟨rfl, rfl⟩ := hrun
  cases hmapped with
  | refused => exact h
  | unreadable hread => exact h.read hread
  | swap hblocks _ hroom => exact h.addSwapPage htable hblocks hroom
  | @file _ _ t name hread hroom =>
      have hsame := SameTables.of_arenas hread.arenas
      rw [← hsame.heap] at hroom ⊢
      exact (h.read hread).addFilePage (hsame.tables ▸ htable) hroom

theorem Invariant.destroy
    {pid : ℕ} {s : State W} (h : Invariant c) (hcurrent : c.current = some pid)
    (hcall : c.state.vmDestroy = some s) :
    Invariant { c with state := s, live := c.live.erase pid, current := none } := by
  obtain ⟨table, hcur, htable, _⟩ := h.toProcesses.exists_table hcurrent
  obtain ⟨s', hrun, hcoherent, _, hpages⟩ :=
    vmDestroy_spec h.coherent h.tables hcur
  rw [hcall, Option.some.injEq] at hrun
  subst hrun
  rw [vmDestroy_eq hcur, Option.some.injEq] at hcall
  subst hcall
  obtain ⟨hsame, hentries⟩ :=
    destroyPages_same (s := c.state) (c.state.heap table).vps
  refine ⟨h.toProcesses.destroy hcurrent, hcoherent, ?_, ?_, ?_⟩
  · intro pid' table' htable' i hi
    rw [eraseCurrent_tables] at htable'
    split at htable'
    · cases htable'
    · rw [hsame.tables] at htable'
      have hheap : (eraseCurrent table
          ((c.state.heap table).vps.foldl State.destroyPage c.state)).heap =
          c.state.heap := hsame.heap
      rw [hheap] at hi
      have hentries' : (eraseCurrent table
          ((c.state.heap table).vps.foldl State.destroyPage c.state)).entries =
          c.state.entries := hentries
      rw [hentries']
      exact h.cleared pid' table' htable' i hi
  · intro vp hvp hswap
    change vp ∈ State.pages _ at hvp
    rw [hpages] at hvp
    refine (h.zero vp hvp.1 hswap).trans (Eq.congr_left ?_)
    refine (destroyPages_peerInPhys fun other hother heq => hvp.2 ?_).symm
    have := h.coherent.swap.owner vp hvp.1 other ⟨pid, table, htable, hother⟩ hswap
      heq.symm
    exact this ▸ hother
  · intro ref href
    change ref.1 < State.nextTable (List.foldl _ _ _) ∧
      ref.2 < (State.heap (List.foldl _ _ _) ref.1).cnt
    rw [hsame.nextTable, hsame.heap]
    exact h.written_bound ref href

/-- Every step keeps the invariant. -/
theorem Invariant.step (h : Invariant c) (hstep : Step io c event c') :
    Invariant c' := by
  cases hstep with
  | create hfresh hcall => exact h.create hfresh hcall
  | switch hlive hcall => exact h.switch hlive hcall
  | fault hcurrent hcall => exact h.fault hcurrent hcall
  | map hcurrent hcall => exact h.map hcurrent hcall
  | destroy hcurrent hcall => exact h.destroy hcurrent hcall
  | load => exact h
  | store =>
      obtain ⟨hframes, hpeers, hprotect, hswap, hunused⟩ := h.coherent
      refine ⟨h.toProcesses.setPhysmem _, ⟨?_,
        ⟨hpeers.listed, hpeers.entry_injective⟩, ?_, ⟨hswap.owner, hswap.unnamed,
          hswap.free, hswap.nodup, hswap.enough⟩, hunused⟩,
        h.cleared, h.zero, h.written_bound⟩
      · exact hframes.setMemory c.state.world _
      · exact fun vp hvp => (hprotect vp hvp).congr rfl fun _ _ _ => ⟨rfl, rfl⟩

theorem invariant_init
    {memoryPages : ℕ} (hlower : 2 ≤ memoryPages) (hupper : memoryPages ≤ ppageLimit)
    (swapBlocks : ℕ) (physmem : ℕ → Byte) (entries : EntryRef → Entry) (world : W) :
    Invariant (Config.init memoryPages swapBlocks physmem entries world) := by
  have hpages : ∀ vp,
      vp ∉ (Config.init memoryPages swapBlocks physmem entries world).state.pages := by
    rintro vp ⟨pid, table, htable, _⟩
    cases htable
  refine ⟨processes_init memoryPages swapBlocks physmem entries world,
    ⟨⟨hlower, hupper, ?_, nofun, nofun, nofun, fun _ _ => rfl, rfl⟩, ⟨?_, ?_⟩, ?_,
      ⟨?_, ?_, ?_, List.nodup_range, ?_⟩, nofun⟩, nofun, ?_, nofun⟩
  · exact List.Perm.of_eq (List.append_nil _)
  · intro id vp
    exact iff_of_false (Finset.notMem_empty vp) fun h => hpages vp h.1
  · exact fun vp hvp => absurd hvp (hpages vp)
  · exact fun vp hvp => absurd hvp (hpages vp)
  · exact fun vp hvp => absurd hvp (hpages vp)
  · exact fun vp hvp => absurd hvp (hpages vp)
  · exact fun vp hvp => absurd hvp (hpages vp)
  · change swapBlocks ≤ (List.range swapBlocks).length
    rw [List.length_range]
  · exact fun vp hvp => absurd hvp (hpages vp)

/-- Every state of a legal run satisfies the invariant. -/
theorem invariant_of_reachable
    {memoryPages swapBlocks : ℕ} {physmem : ℕ → Byte} {entries : EntryRef → Entry}
    {world : W} (hlower : 2 ≤ memoryPages) (hupper : memoryPages ≤ ppageLimit)
    (hreach : (system io).Reachable
      (Config.init memoryPages swapBlocks physmem entries world) c) :
    Invariant c :=
  hreach.invariant Invariant
    (invariant_init hlower hupper swapBlocks physmem entries world)
    fun _ _ _ h hstep => h.step hstep

theorem processes_of_reachable
    {memoryPages swapBlocks : ℕ} {physmem : ℕ → Byte} {entries : EntryRef → Entry}
    {world : W}
    (hreach : (system io).Reachable
      (Config.init memoryPages swapBlocks physmem entries world) c) :
    Processes c ∧ c.state.numMemoryPages = memoryPages := by
  refine hreach.invariant
    (fun c => Processes c ∧ c.state.numMemoryPages = memoryPages)
    ⟨processes_init memoryPages swapBlocks physmem entries world, rfl⟩ ?_
  rintro a event b ⟨h, hmemory⟩ hstep
  exact ⟨h.step hstep, (h.numMemoryPages hstep).trans hmemory⟩

end Pager
end Eecs482
