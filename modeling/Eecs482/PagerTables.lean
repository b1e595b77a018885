import Eecs482.PagerPages

/-!
# Page tables and the current process

Every live process has a page table of its own, whose entries are in the order
of its virtual pages, and the current table belongs to the pid last switched
to.  None of this depends on which page is in which frame: a page fault, served
or not, leaves the tables alone.
-/

namespace Eecs482
namespace Pager

variable {W : Type} {io : FileIo W}

/-- The virtual pages of the processes with a page table. -/
def State.pages (s : State W) : Set VirtualPage :=
  {vp | ∃ pid table, s.tables pid = some table ∧ vp ∈ (s.heap table).vps}

/-- The page tables of the live processes are well formed, and the registers
belong to the process last switched to unless it was destroyed since. -/
structure Tables (s : State W) : Prop where
  allocated : ∀ pid table, s.tables pid = some table → table < s.nextTable
  injective : ∀ pid pid' table, s.tables pid = some table →
    s.tables pid' = some table → pid = pid'
  length : ∀ pid table, s.tables pid = some table →
    (s.heap table).vps.length = (s.heap table).cnt
  bound : ∀ pid table, s.tables pid = some table →
    (s.heap table).cnt ≤ maxPageNum
  entry : ∀ pid table, s.tables pid = some table → ∀ i (vp : VirtualPage),
    (s.heap table).vps[i]? = some vp → vp.entry = (table, i)
  occupied : ∀ pid table, s.tables pid = some table →
    (s.heap table).occupiedSwapBlocks =
      (s.heap table).vps.countP fun vp => vp.id.swapBacked
  current : ∀ table, s.curTable = some table →
    s.pageTableBaseRegister = some table ∧
      ∃ pid : ℕ, s.curPid = pid ∧ s.tables pid = some table
  stale : s.curTable = none → ∀ pid : ℕ, s.curPid = pid → s.tables pid = none

/-- Entries no virtual page has been mapped to yet permit nothing. -/
def Cleared (s : State W) : Prop :=
  ∀ pid table, s.tables pid = some table → ∀ i, (s.heap table).cnt ≤ i →
    (s.entries (table, i)).readEnable = false ∧
    (s.entries (table, i)).writeEnable = false

variable {P : Set VirtualPage} {s s' : State W} {vp : VirtualPage} {table : ℕ}

/-- The parts of the state on which the tables rest are the same. -/
structure SameTables (s s' : State W) : Prop where
  tables : s'.tables = s.tables
  heap : s'.heap = s.heap
  nextTable : s'.nextTable = s.nextTable
  curTable : s'.curTable = s.curTable
  pageTableBaseRegister : s'.pageTableBaseRegister = s.pageTableBaseRegister
  curPid : s'.curPid = s.curPid
  numSwapBlocks : s'.numSwapBlocks = s.numSwapBlocks
  numMemoryPages : s'.numMemoryPages = s.numMemoryPages

theorem SameTables.refl : SameTables s s :=
  ⟨rfl, rfl, rfl, rfl, rfl, rfl, rfl, rfl⟩

theorem SameTables.of_arenas (harenas : s'.arenas = s.arenas) :
    SameTables s s' where
  tables := congrArg Arenas.tables harenas
  heap := congrArg Arenas.heap harenas
  nextTable := congrArg Arenas.nextTable harenas
  curTable := congrArg Arenas.curTable harenas
  pageTableBaseRegister := congrArg Arenas.pageTableBaseRegister harenas
  curPid := congrArg Arenas.curPid harenas
  numSwapBlocks := congrArg Arenas.numSwapBlocks harenas
  numMemoryPages := congrArg Arenas.numMemoryPages harenas

theorem Tables.of_same (h : Tables s) (hsame : SameTables s s') : Tables s' := by
  constructor
  case allocated =>
      rw [hsame.tables, hsame.nextTable]
      exact h.allocated
  case injective =>
      rw [hsame.tables]
      exact h.injective
  case length =>
      rw [hsame.tables, hsame.heap]
      exact h.length
  case bound =>
      rw [hsame.tables, hsame.heap]
      exact h.bound
  case entry =>
      rw [hsame.tables, hsame.heap]
      exact h.entry
  case occupied =>
      rw [hsame.tables, hsame.heap]
      exact h.occupied
  case current =>
      rw [hsame.curTable, hsame.pageTableBaseRegister, hsame.curPid, hsame.tables]
      exact h.current
  case stale =>
      rw [hsame.curTable, hsame.curPid, hsame.tables]
      exact h.stale

theorem SameTables.pages (hsame : SameTables s s') : s'.pages = s.pages := by
  rw [State.pages, State.pages, hsame.tables, hsame.heap]

/-- A virtual page is known by its place in its table. -/
theorem Tables.mem_pages_iff
    (h : Tables s) {pid : ℕ} (htable : s.tables pid = some table) (i : ℕ) :
    (∃ vp ∈ s.pages, vp.entry = (table, i)) ↔ i < (s.heap table).cnt := by
  constructor
  · rintro ⟨vp, ⟨pid', table', htable', hmem⟩, hentry⟩
    obtain ⟨j, hj⟩ := List.mem_iff_getElem?.mp hmem
    have hsame := h.entry pid' table' htable' j vp hj
    rw [hentry, Prod.mk.injEq] at hsame
    obtain ⟨rfl, rfl⟩ := hsame
    rw [← h.length pid' table htable']
    exact (List.getElem?_eq_some_iff.mp hj).1
  · intro hi
    rw [← h.length pid table htable] at hi
    refine ⟨(s.heap table).vps[i], ⟨pid, table, htable, List.getElem_mem hi⟩, ?_⟩
    exact h.entry pid table htable i _ (List.getElem?_eq_getElem hi)

theorem Tables.page_entry
    (h : Tables s) (hvp : vp ∈ s.pages) :
    ∃ pid, s.tables pid = some vp.entry.1 ∧
      (s.heap vp.entry.1).vps[vp.entry.2]? = some vp := by
  obtain ⟨pid, table, htable, hmem⟩ := hvp
  obtain ⟨j, hj⟩ := List.mem_iff_getElem?.mp hmem
  have hentry := h.entry pid table htable j vp hj
  rw [hentry]
  exact ⟨pid, htable, hj⟩

/-! ## Faults leave the tables alone -/

theorem getFreePhysicalPageLoop_arenas
    {fuel : ℕ} (hrun : State.getFreePhysicalPageLoop io fuel s = some s') :
    s'.arenas = s.arenas := by
  induction fuel generalizing s with
  | zero => cases hrun
  | succ fuel ih =>
      rw [State.getFreePhysicalPageLoop] at hrun
      split at hrun
      · cases hrun
        rfl
      · split at hrun
        · cases hrun
        · split at hrun
          · have hrest := ih hrun
            exact hrest
          · cases hrun
            rfl

theorem setPhysicalPage_arenas
    {ok : Bool} (hrun : s.setPhysicalPage io vp = some (ok, s')) :
    s'.arenas = s.arenas := by
  unfold State.setPhysicalPage at hrun
  split at hrun
  · cases hrun
  · split at hrun
    · cases hrun
      rw [install_arenas, copyInto_arenas]
    · simp only at hrun
      split at hrun
      · cases hrun
        rw [install_arenas, readInto_arenas]
      · cases hrun
        exact readInto_arenas _

theorem bringIn_arenas
    {ok : Bool} (hrun : s.bringIn io vp = some (ok, s')) :
    s'.arenas = s.arenas := by
  obtain ⟨t, hget, hset⟩ := Option.bind_eq_some_iff.mp hrun
  exact (setPhysicalPage_arenas hset).trans (getFreePhysicalPageLoop_arenas hget)

theorem faultPage_arenas
    {write ok : Bool} (hrun : s.faultPage io vp write = some (ok, s')) :
    s'.arenas = s.arenas := by
  obtain ⟨⟨served, t⟩, hbranch, hfinish⟩ := Option.map_eq_some_iff.mp hrun
  have ht : t.arenas = s.arenas := by
    cases write with
    | true =>
        rw [if_pos rfl, State.writeFault] at hbranch
        split at hbranch
        · obtain ⟨⟨loaded, u⟩, hbring, hmark⟩ := Option.map_eq_some_iff.mp hbranch
          have hu := bringIn_arenas hbring
          cases loaded <;> cases hmark <;> exact hu
        · cases hbranch
          rfl
    | false =>
        rw [if_neg Bool.false_ne_true, State.readFault] at hbranch
        split at hbranch
        · exact bringIn_arenas hbranch
        · split at hbranch <;> cases hbranch <;> rfl
  cases served <;> cases hfinish <;> exact ht

theorem vmFault_arenas
    {addr : UInt64} {write ok : Bool}
    (hrun : s.vmFault io addr write = some (ok, s')) :
    s'.arenas = s.arenas := by
  obtain ⟨table, _, hrun⟩ := Option.bind_eq_some_iff.mp hrun
  split at hrun
  · cases hrun
    rfl
  · obtain ⟨page, _, hfault⟩ := Option.bind_eq_some_iff.mp hrun
    exact faultPage_arenas hfault

theorem readFilename_arenas
    {filename : UInt64} {fuel temp : ℕ} {read : Name} {name : Option Name}
    (hrun : s.readFilename io table filename fuel temp read = some (name, s')) :
    s'.arenas = s.arenas := by
  induction fuel generalizing s temp read with
  | zero => cases hrun
  | succ fuel ih =>
      rw [State.readFilename] at hrun
      split at hrun
      · cases hrun
        rfl
      · obtain ⟨page, _, hrun⟩ := Option.bind_eq_some_iff.mp hrun
        obtain ⟨⟨ok, t⟩, hfault, hrun⟩ := Option.bind_eq_some_iff.mp hrun
        have ht : t.arenas = s.arenas := by
          split at hfault
          · cases hfault
            rfl
          · exact vmFault_arenas hfault
        simp only at hrun
        split at hrun
        · split at hrun
          · cases hrun
            exact ht
          · exact (ih hrun).trans ht
        · cases hrun
          exact ht

/-! ## Processes -/

theorem Tables.newTable
    {childPid : ℕ} (h : Tables s) (hchild : s.tables childPid = none)
    (hpid : s.curPid ≠ childPid) : Tables (s.newTable childPid) := by
  have htables : ∀ pid table, (s.newTable childPid).tables pid = some table →
      (pid = childPid ∧ table = s.nextTable) ∨
        (pid ≠ childPid ∧ s.tables pid = some table) := by
    intro pid table htable
    change Function.update s.tables childPid (some s.nextTable) pid = _ at htable
    by_cases hpid : pid = childPid
    · subst hpid
      rw [Function.update_self, Option.some.injEq] at htable
      exact .inl ⟨rfl, htable.symm⟩
    · rw [Function.update_of_ne hpid] at htable
      exact .inr ⟨hpid, htable⟩
  have hnew : (s.newTable childPid).heap s.nextTable = {} :=
    Function.update_self _ _ _
  have hold : ∀ pid table, s.tables pid = some table →
      (s.newTable childPid).heap table = s.heap table := by
    intro pid table htable
    exact Function.update_of_ne (h.allocated pid table htable).ne _ _
  constructor
  case allocated =>
      intro pid table htable
      change table < s.nextTable + 1
      rcases htables pid table htable with ⟨_, hnext⟩ | ⟨_, htable⟩
      · omega
      · have := h.allocated pid table htable
        omega
  case injective =>
      intro pid pid' table htable htable'
      rcases htables pid table htable with ⟨hpid, hnew⟩ | ⟨_, hold⟩ <;>
        rcases htables pid' table htable' with ⟨hpid', hnew'⟩ | ⟨_, hold'⟩
      · exact hpid.trans hpid'.symm
      · exact absurd (h.allocated pid' table hold') (by omega)
      · exact absurd (h.allocated pid table hold) (by omega)
      · exact h.injective pid pid' table hold hold'
  case length =>
      intro pid table htable
      rcases htables pid table htable with ⟨rfl, rfl⟩ | ⟨_, htable⟩
      · rw [hnew]
        rfl
      · rw [hold pid table htable]
        exact h.length pid table htable
  case bound =>
      intro pid table htable
      rcases htables pid table htable with ⟨rfl, rfl⟩ | ⟨_, htable⟩
      · rw [hnew]
        exact Nat.zero_le _
      · rw [hold pid table htable]
        exact h.bound pid table htable
  case entry =>
      intro pid table htable i vp hvp
      rcases htables pid table htable with ⟨rfl, rfl⟩ | ⟨_, htable⟩
      · rw [hnew] at hvp
        cases hvp
      · rw [hold pid table htable] at hvp
        exact h.entry pid table htable i vp hvp
  case occupied =>
      intro pid table htable
      rcases htables pid table htable with ⟨rfl, rfl⟩ | ⟨_, htable⟩
      · rw [hnew]
        rfl
      · rw [hold pid table htable]
        exact h.occupied pid table htable
  case current =>
      intro table htable
      obtain ⟨hptbr, pid, hcur, htable'⟩ := h.current table htable
      have hne : pid ≠ childPid := by
        rintro rfl
        exact hpid hcur
      exact ⟨hptbr, pid, hcur, (Function.update_of_ne hne _ _).trans htable'⟩
  case stale =>
      intro hnone pid hcur
      have hne : pid ≠ childPid := by
        rintro rfl
        exact hpid hcur
      exact (Function.update_of_ne hne _ _).trans (h.stale hnone pid hcur)

theorem pages_newTable
    {childPid : ℕ} (h : Tables s) (hchild : s.tables childPid = none) :
    (s.newTable childPid).pages = s.pages := by
  ext vp
  constructor
  · rintro ⟨pid, table, htable, hmem⟩
    change Function.update s.tables childPid (some s.nextTable) pid = _ at htable
    change vp ∈ (Function.update s.heap s.nextTable {} table).vps at hmem
    by_cases hpid : pid = childPid
    · subst hpid
      rw [Function.update_self, Option.some.injEq] at htable
      subst htable
      rw [Function.update_self] at hmem
      cases hmem
    · rw [Function.update_of_ne hpid] at htable
      rw [Function.update_of_ne (h.allocated pid table htable).ne] at hmem
      exact ⟨pid, table, htable, hmem⟩
  · rintro ⟨pid, table, htable, hmem⟩
    have hpid : pid ≠ childPid := by
      rintro rfl
      rw [hchild] at htable
      cases htable
    refine ⟨pid, table, (Function.update_of_ne hpid _ _).trans htable, ?_⟩
    change vp ∈ (Function.update s.heap s.nextTable {} table).vps
    rwa [Function.update_of_ne (h.allocated pid table htable).ne]

/-- Whether or not it takes the fast path, `vm_switch` to a live process makes
its table the current one. -/
theorem Tables.vmSwitch
    {pid : ℕ} (h : Tables s) (htable : s.tables pid = some table) :
    ∃ s', s.vmSwitch pid = some s' ∧
      s' = { s with
        curTable := some table
        pageTableBaseRegister := some table
        curPid := pid } := by
  by_cases hpid : s.curPid = pid
  · refine ⟨s, by rw [State.vmSwitch, if_neg (not_not.mpr hpid)], ?_⟩
    cases hcur : s.curTable with
    | none =>
        rw [h.stale hcur pid hpid] at htable
        cases htable
    | some table' =>
        obtain ⟨hptbr, pid', hpid', htable'⟩ := h.current table' hcur
        obtain rfl : pid = pid' := by omega
        obtain rfl : table = table' := by
          rw [htable, Option.some.injEq] at htable'
          exact htable'
        cases s
        simp only at hcur hptbr hpid
        subst hcur hptbr hpid
        rfl
  · exact ⟨_, by rw [State.vmSwitch, if_pos hpid, htable]; rfl, rfl⟩

theorem Tables.switched
    {pid : ℕ} (h : Tables s) (htable : s.tables pid = some table) :
    Tables { s with
      curTable := some table
      pageTableBaseRegister := some table
      curPid := pid } where
  allocated := h.allocated
  injective := h.injective
  length := h.length
  bound := h.bound
  entry := h.entry
  occupied := h.occupied
  current table' htable' := by
    cases htable'
    exact ⟨rfl, pid, rfl, htable⟩
  stale hnone := by cases hnone

/-! ## The end of a process -/

theorem destroyPages_same (pages : List VirtualPage) :
    SameTables s (pages.foldl State.destroyPage s) ∧
      (pages.foldl State.destroyPage s).entries = s.entries := by
  induction pages generalizing s with
  | nil => exact ⟨.refl, rfl⟩
  | cons vp pages ih =>
      have hone : SameTables s (s.destroyPage vp) ∧
          (s.destroyPage vp).entries = s.entries := by
        rw [destroyPage_eq]
        simp only
        split <;> split <;> exact ⟨⟨rfl, rfl, rfl, rfl, rfl, rfl, rfl, rfl⟩, rfl⟩
      obtain ⟨hsame, hentries⟩ := hone
      obtain ⟨hrest, hrestEntries⟩ := ih (s := s.destroyPage vp)
      refine ⟨⟨?_, ?_, ?_, ?_, ?_, ?_, ?_, ?_⟩, hrestEntries.trans hentries⟩
      · exact hrest.tables.trans hsame.tables
      · exact hrest.heap.trans hsame.heap
      · exact hrest.nextTable.trans hsame.nextTable
      · exact hrest.curTable.trans hsame.curTable
      · exact hrest.pageTableBaseRegister.trans hsame.pageTableBaseRegister
      · exact hrest.curPid.trans hsame.curPid
      · exact hrest.numSwapBlocks.trans hsame.numSwapBlocks
      · exact hrest.numMemoryPages.trans hsame.numMemoryPages

/-- `vm_destroy` gives the swap blocks of all pages back. -/
theorem destroyPages_availableSwapBlocks (pages : List VirtualPage) :
    (pages.foldl State.destroyPage s).availableSwapBlocks =
      s.availableSwapBlocks ++
        (pages.filter fun vp => vp.id.swapBacked).map fun vp => vp.id.block := by
  induction pages generalizing s with
  | nil => simp
  | cons vp pages ih =>
      rw [List.foldl_cons, ih, destroyPage_eq]
      cases hswap : vp.id.swapBacked with
      | false =>
          simp only [Bool.and_false, Bool.false_eq_true, if_false,
            List.filter_cons, hswap]
          rfl
      | true =>
          simp only [if_true, List.filter_cons, hswap, List.map_cons]
          rw [List.append_cons]
          congr 1
          simp only [giveBack]
          split <;> rfl

/-- `tables.erase(cur_pid); cur_table.reset()`, after the swap blocks of `table`
are counted again. -/
def eraseCurrent (table : ℕ) (s : State W) : State W :=
  { s with
    numSwapBlocks := s.numSwapBlocks + (s.heap table).occupiedSwapBlocks
    tables := fun pid => if s.curPid = pid then none else s.tables pid
    curTable := none }

theorem eraseCurrent_tables (pid : ℕ) :
    (eraseCurrent table s).tables pid =
      if s.curPid = pid then none else s.tables pid := rfl

theorem vmDestroy_eq (hcur : s.curTable = some table) :
    s.vmDestroy =
      some (eraseCurrent table
        ((s.heap table).vps.foldl State.destroyPage s)) := by
  rw [State.vmDestroy, hcur]
  rfl

theorem Tables.eraseCurrent (h : Tables s) :
    Tables (Pager.eraseCurrent table s) := by
  have htables : ∀ pid table',
      (Pager.eraseCurrent table s).tables pid = some table' →
        s.tables pid = some table' := by
    intro pid table' htable
    change (if s.curPid = pid then none else s.tables pid) = _ at htable
    split at htable
    · cases htable
    · exact htable
  constructor
  case allocated => exact fun pid t ht => h.allocated pid t (htables pid t ht)
  case injective =>
      exact fun pid pid' t ht ht' =>
        h.injective pid pid' t (htables pid t ht) (htables pid' t ht')
  case length => exact fun pid t ht => h.length pid t (htables pid t ht)
  case bound => exact fun pid t ht => h.bound pid t (htables pid t ht)
  case entry => exact fun pid t ht => h.entry pid t (htables pid t ht)
  case occupied => exact fun pid t ht => h.occupied pid t (htables pid t ht)
  case current =>
      intro t ht
      cases ht
  case stale =>
      intro _ pid hpid
      exact if_pos hpid

theorem pages_eraseCurrent
    (h : Tables s) (hcur : s.curTable = some table) :
    (eraseCurrent table s).pages = s.pages \ {vp | vp ∈ (s.heap table).vps} := by
  obtain ⟨_, cur, hcurPid, htable⟩ := h.current table hcur
  ext vp
  simp only [Set.mem_sdiff, Set.mem_ofPred_eq]
  constructor
  · rintro ⟨pid, table', htable', hmem⟩
    change (if s.curPid = pid then none else s.tables pid) = _ at htable'
    split at htable'
    case isTrue => cases htable'
    case isFalse hpid =>
        refine ⟨⟨pid, table', htable', hmem⟩, fun hmem' => hpid ?_⟩
        obtain ⟨i, hi⟩ := List.mem_iff_getElem?.mp hmem
        obtain ⟨j, hj⟩ := List.mem_iff_getElem?.mp hmem'
        have hentry := h.entry pid table' htable' i vp hi
        rw [h.entry cur table htable j vp hj, Prod.mk.injEq] at hentry
        rw [hcurPid, h.injective pid cur table' htable' (hentry.1 ▸ htable)]
  · rintro ⟨⟨pid, table', htable', hmem⟩, hnot⟩
    refine ⟨pid, table', ?_, hmem⟩
    have hpid : s.curPid ≠ pid := by
      intro hpid
      rw [hcurPid] at hpid
      obtain rfl : cur = pid := by omega
      rw [htable, Option.some.injEq] at htable'
      subst htable'
      exact hnot hmem
    exact (if_neg hpid).trans htable'

/-! ## A new page -/

/-- `page` is the new last page of `table`. -/
structure Grown (table : ℕ) (page : VirtualPage) (s s' : State W) : Prop where
  tables : s'.tables = s.tables
  nextTable : s'.nextTable = s.nextTable
  curTable : s'.curTable = s.curTable
  pageTableBaseRegister : s'.pageTableBaseRegister = s.pageTableBaseRegister
  curPid : s'.curPid = s.curPid
  numMemoryPages : s'.numMemoryPages = s.numMemoryPages
  other : ∀ table', table' ≠ table → s'.heap table' = s.heap table'
  vps : (s'.heap table).vps = (s.heap table).vps ++ [page]
  cnt : (s'.heap table).cnt = (s.heap table).cnt + 1
  occupied : (s'.heap table).occupiedSwapBlocks =
    (s.heap table).occupiedSwapBlocks + if page.id.swapBacked then 1 else 0

theorem grown_addSwapPage
    (s : State W) (table : ℕ) (vp : VirtualPage) (rest : List ℕ)
    (hswap : vp.id.swapBacked = true) :
    Grown table vp s (s.addSwapPage table vp rest) := by
  refine ⟨rfl, rfl, rfl, rfl, rfl, rfl, fun t ht => ?_, ?_, ?_, ?_⟩
  · exact (Function.update_of_ne ht _ _).trans (Function.update_of_ne ht _ _)
  · simp [State.addSwapPage, State.addPage, State.setEntry]
  · simp [State.addSwapPage, State.addPage, State.setEntry]
  · simp [State.addSwapPage, State.addPage, State.setEntry, hswap]

theorem grown_addFilePage
    (s : State W) (table : ℕ) (vp : VirtualPage)
    (hfile : vp.id.swapBacked = false) :
    Grown table vp s (s.addFilePage table vp) := by
  refine ⟨rfl, rfl, rfl, rfl, rfl, rfl, fun t ht => Function.update_of_ne ht _ _,
    ?_, ?_, ?_⟩
  · simp [State.addFilePage, State.addPage, State.setEntry]
  · simp [State.addFilePage, State.addPage, State.setEntry]
  · simp [State.addFilePage, State.addPage, State.setEntry, hfile]

theorem Tables.grown
    (h : Tables s) (hgrown : Grown table vp s s')
    (hroom : (s.heap table).cnt < maxPageNum)
    (hentry : vp.entry = (table, (s.heap table).cnt)) : Tables s' := by
  constructor
  case allocated =>
      rw [hgrown.tables, hgrown.nextTable]
      exact h.allocated
  case injective =>
      rw [hgrown.tables]
      exact h.injective
  case length =>
      intro pid t ht
      rw [hgrown.tables] at ht
      by_cases htable : t = table
      · subst htable
        rw [hgrown.vps, hgrown.cnt, List.length_append, h.length pid t ht]
        rfl
      · rw [hgrown.other t htable]
        exact h.length pid t ht
  case bound =>
      intro pid t ht
      rw [hgrown.tables] at ht
      by_cases htable : t = table
      · subst htable
        rw [hgrown.cnt]
        exact hroom
      · rw [hgrown.other t htable]
        exact h.bound pid t ht
  case entry =>
      intro pid t ht i page hpage
      rw [hgrown.tables] at ht
      by_cases htable : t = table
      · subst htable
        rw [hgrown.vps] at hpage
        by_cases hi : i < (s.heap t).vps.length
        · rw [List.getElem?_append_left hi] at hpage
          exact h.entry pid t ht i page hpage
        · rw [List.getElem?_append_right (Nat.le_of_not_lt hi),
            List.getElem?_singleton] at hpage
          split at hpage
          case isTrue hzero =>
              cases hpage
              have hlength := h.length pid t ht
              have hi : i = (s.heap t).cnt := by omega
              rw [hentry, hi]
          case isFalse => cases hpage
      · rw [hgrown.other t htable] at hpage
        exact h.entry pid t ht i page hpage
  case occupied =>
      intro pid t ht
      rw [hgrown.tables] at ht
      by_cases htable : t = table
      · subst htable
        rw [hgrown.vps, hgrown.occupied, List.countP_append, List.countP_singleton,
          h.occupied pid t ht]
      · rw [hgrown.other t htable]
        exact h.occupied pid t ht
  case current =>
      rw [hgrown.curTable, hgrown.pageTableBaseRegister, hgrown.curPid,
        hgrown.tables]
      exact h.current
  case stale =>
      rw [hgrown.curTable, hgrown.curPid, hgrown.tables]
      exact h.stale

theorem Grown.pages
    {pid : ℕ} (hgrown : Grown table vp s s')
    (htable : s.tables pid = some table) :
    s'.pages = Insert.insert vp s.pages := by
  ext page
  constructor
  · rintro ⟨pid', t, ht, hmem⟩
    rw [hgrown.tables] at ht
    by_cases heq : t = table
    · subst heq
      rw [hgrown.vps, List.mem_append, List.mem_singleton] at hmem
      rcases hmem with hmem | rfl
      · exact .inr ⟨pid', t, ht, hmem⟩
      · exact .inl rfl
    · rw [hgrown.other t heq] at hmem
      exact .inr ⟨pid', t, ht, hmem⟩
  · rintro (rfl | ⟨pid', t, ht, hmem⟩)
    · refine ⟨pid, table, by rw [hgrown.tables]; exact htable, ?_⟩
      rw [hgrown.vps]
      simp
    · refine ⟨pid', t, by rw [hgrown.tables]; exact ht, ?_⟩
      by_cases heq : t = table
      · subst heq
        rw [hgrown.vps]
        exact List.mem_append_left _ hmem
      · rwa [hgrown.other t heq]

/-- The next entry of the table of a live process belongs to no page yet. -/
theorem Tables.entry_ne_next
    (h : Tables s) {pid : ℕ} (htable : s.tables pid = some table) :
    ∀ page ∈ s.pages, page.entry ≠ (table, (s.heap table).cnt) := by
  intro page hpage hentry
  have hlt := (h.mem_pages_iff htable (s.heap table).cnt).mp ⟨page, hpage, hentry⟩
  omega

end Pager
end Eecs482
