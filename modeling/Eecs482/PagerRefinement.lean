import Eecs482.FlatMemory
import Eecs482.PagerResidency
import Eecs482.PagerStores

/-!
# The pager is memory without paging

`Represents` reads the memory the processes see off the page tables and the
contents of pages.  Every step of the pager is a step of that memory with the
same event, a fault being invisible, so the loads of a run of the pager return
what they return without paging.
-/

namespace Eecs482
namespace Pager

variable {W : Type} {io : FileIo W} {store : BlockStore io}
variable {c : Config W} {f : Flat} {s : State W} {pid table : ℕ}

/-- What a page stands for. -/
def VirtualPage.backing (vp : VirtualPage) : Backing :=
  if vp.id.swapBacked then .anon else .file (cStr vp.id.filename) vp.id.block

/-- What the pages of `table` stand for. -/
def State.arena (s : State W) (table : ℕ) : List Backing :=
  (s.heap table).vps.map VirtualPage.backing

/-- The id of the pages mapped to a block of a file. -/
def blockId (name : Name) (block : ℕ) : FileId where
  filename := name ++ [0]
  block := block
  swapBacked := false

theorem blockId_canonical {name : Name} (hname : 0 ∉ name) (block : ℕ) :
    (blockId name block).Canonical :=
  ⟨name, hname, rfl⟩

/-- The id of a file-backed page is that of its backing. -/
theorem FileId.Canonical.eq_blockId
    {id : FileId} (h : id.Canonical) (hfile : id.swapBacked = false) :
    0 ∉ cStr id.filename ∧ id = blockId (cStr id.filename) id.block := by
  obtain ⟨filename, block, swapBacked⟩ := id
  obtain rfl : swapBacked = false := hfile
  obtain ⟨name, hname, rfl⟩ := h
  rw [cStr_append_nul hname]
  exact ⟨hname, rfl⟩

variable (store) in
/-- The memory `f` is what the processes see of the state of the pager. -/
structure Represents (c : Config W) (f : Flat) : Prop where
  invariant : Invariant c
  stored : Stored store ∅ c.state.pages c.state
  current : f.current = c.current
  arena : ∀ pid, f.arena pid = (c.state.tables pid).map c.state.arena
  anon : ∀ pid table i vp, c.state.tables pid = some table →
    (c.state.heap table).vps[i]? = some vp → vp.id.swapBacked = true →
      f.anon pid i = content store c.state vp.id
  files : ∀ name block, 0 ∉ name →
    f.files name block = content store c.state (blockId name block)

/-! ## What the processes see -/

/-- The pages of `f` have the contents of the pages of the pager. -/
theorem Represents.page
    {i : ℕ} {vp : VirtualPage} (h : Represents store c f)
    (htable : c.state.tables pid = some table)
    (hpage : (c.state.heap table).vps[i]? = some vp) :
    f.page pid i vp.backing = content store c.state vp.id := by
  cases hswap : vp.id.swapBacked with
  | true =>
      rw [VirtualPage.backing, if_pos hswap]
      exact h.anon pid table i vp htable hpage hswap
  | false =>
      have hcanonical := h.stored.canonical vp
        ⟨pid, table, htable, List.mem_of_getElem? hpage⟩
      obtain ⟨hname, hid⟩ := hcanonical.eq_blockId hswap
      rw [VirtualPage.backing, hswap, if_neg Bool.false_ne_true]
      exact (h.files _ _ hname).trans (congrArg _ hid.symm)

theorem Represents.arena_eq
    (h : Represents store c f) (htable : c.state.tables pid = some table) :
    f.arena pid = some (c.state.arena table) := by
  rw [h.arena pid, htable, Option.map_some]

theorem State.arena_getElem? (i : ℕ) :
    (s.arena table)[i]? = ((s.heap table).vps[i]?).map VirtualPage.backing :=
  List.getElem?_map ..

/-- The current process sees the bytes of its pages. -/
theorem Represents.byte
    (h : Represents store c f) (hcurrent : c.current = some pid)
    (htable : c.state.tables pid = some table) (i offset : ℕ) :
    f.byte i offset = pageByte store c.state table i offset := by
  have hcur : f.current = some pid := h.current.trans hcurrent
  have harena := h.arena_eq htable
  rw [Flat.byte, hcur]
  change (f.arena pid).bind _ = _
  rw [harena]
  change ((c.state.arena table)[i]?).bind _ = _
  rw [State.arena_getElem?, pageByte]
  cases hpage : (c.state.heap table).vps[i]? with
  | none => rfl
  | some vp =>
      simp only [Option.map_some, Option.bind_some, h.page htable hpage]
      rfl

/-- The name `vm_map` finds is in the memory the process sees. -/
theorem Represents.cString
    {pointer : UInt64} {name : Name} (h : Represents store c f)
    (hcurrent : c.current = some pid) (htable : c.state.tables pid = some table)
    (hname : NameAt store c.state table pointer 0 name) : f.CString pointer name := by
  obtain ⟨hchars, hend⟩ := hname
  simp only [Nat.zero_add] at hchars hend
  constructor
  · intro k hk
    rw [h.byte hcurrent htable]
    exact hchars k hk
  · rw [h.byte hcurrent htable]
    exact hend

theorem newAddr_eq_pageAddr {cnt : ℕ} (hcnt : cnt < maxPageNum) :
    State.newAddr cnt = Flat.pageAddr cnt := by
  have hlt : cnt < 256 := hcnt
  have hmod : cnt * vmPagesize % 2 ^ 32 = cnt * vmPagesize := by
    change cnt * 65536 % 2 ^ 32 = cnt * 65536
    omega
  rw [State.newAddr, Flat.pageAddr, hmod, UInt64.ofNat_add, UInt64.ofNat_toNat]

/-! ## Steps that change nothing the processes see -/

theorem Represents.of_contents
    {s : State W} {written : Finset EntryRef} (h : Represents store c f)
    (hinvariant : Invariant { c with state := s, written := written })
    (hsame : SameTables c.state s) (hstored : Stored store ∅ c.state.pages s)
    (hcontents : SameContents store c.state s) :
    Represents store { c with state := s, written := written } f where
  invariant := hinvariant
  stored := by
    change Stored store ∅ s.pages s
    rw [hsame.pages]
    exact hstored
  current := h.current
  arena pid := by
    change _ = (s.tables pid).map s.arena
    have harena : s.arena = c.state.arena := by
      funext table
      rw [State.arena, hsame.heap, State.arena]
    rw [h.arena pid, hsame.tables, harena]
  anon pid table i vp htable hpage hswap := by
    change s.tables pid = some table at htable
    change (s.heap table).vps[i]? = some vp at hpage
    rw [hsame.tables] at htable
    rw [hsame.heap] at hpage
    have hcanonical := h.stored.canonical vp
      ⟨pid, table, htable, List.mem_of_getElem? hpage⟩
    exact (h.anon pid table i vp htable hpage hswap).trans
      (hcontents _ hcanonical).symm
  files name block hname :=
    (h.files name block hname).trans
      (hcontents _ (blockId_canonical hname block)).symm

theorem Represents.fault
    {addr : UInt64} {write ok : Bool} (h : Represents store c f)
    (hcurrent : c.current = some pid)
    (hcall : c.state.vmFault io addr write = some (ok, s)) :
    Represents store
      { c with
        state := s
        written := if write then c.written ∪ c.state.faultRef addr else c.written }
      f := by
  obtain ⟨table, hcur, _⟩ := h.invariant.exists_table hcurrent
  obtain ⟨hstored, hcontents⟩ := stored_vmFault h.invariant.coherent
    h.invariant.tables hcur h.stored hcall
  exact h.of_contents (h.invariant.fault hcurrent hcall)
    (.of_arenas (vmFault_arenas hcall)) hstored hcontents

theorem Represents.switch
    (h : Represents store c f) (hlive : pid ∈ c.live)
    (hcall : c.state.vmSwitch pid = some s) :
    Represents store { c with state := s, current := some pid }
      { f with current := some pid } := by
  have hinvariant := h.invariant.switch hlive hcall
  obtain ⟨_, table, _, rfl⟩ := h.invariant.toProcesses.switch hlive hcall
  exact ⟨hinvariant, h.stored.of_same ⟨rfl, rfl, rfl, rfl, fun _ => id⟩, rfl, h.arena,
    h.anon, h.files⟩

/-! ## Processes -/

theorem sameStore_newTable (child num : ℕ) :
    SameStore s (State.newTable child { s with numSwapBlocks := num }) :=
  ⟨rfl, rfl, rfl, rfl, fun _ => id⟩

theorem Represents.create
    {parent child : ℕ} {ok : Bool} (h : Represents store c f)
    (hfresh : child ∉ c.used) (hcall : c.state.vmCreate parent child = (ok, s)) :
    ∃ f', Flat.Step f (.create parent child ok) f' ∧
      Represents store
        { c with
          state := s
          used := insert child c.used
          live := if ok then insert child c.live else c.live } f' := by
  have hinvariant := h.invariant.create hfresh hcall
  rcases vmCreate_tables hcall with ⟨rfl, rfl⟩ | ⟨rfl, num, rfl⟩
  · exact ⟨f, .notCreated, hinvariant, h.stored, h.current, h.arena, h.anon, h.files⟩
  have hpages : (State.newTable child { c.state with numSwapBlocks := num }).pages =
      c.state.pages :=
    pages_newTable (h.invariant.tables.setNum num) (h.invariant.no_table hfresh)
  have htables : ∀ pid table,
      (State.newTable child { c.state with numSwapBlocks := num }).tables pid =
        some table →
      (pid = child ∧ table = c.state.nextTable) ∨
        (pid ≠ child ∧ table ≠ c.state.nextTable ∧
          c.state.tables pid = some table) := by
    intro pid table htable
    change Function.update c.state.tables child (some c.state.nextTable) pid = _
      at htable
    by_cases hpid : pid = child
    · rw [hpid, Function.update_self, Option.some.injEq] at htable
      exact .inl ⟨hpid, htable.symm⟩
    · rw [Function.update_of_ne hpid] at htable
      exact .inr ⟨hpid, (h.invariant.tables.allocated pid table htable).ne, htable⟩
  have hheap : ∀ table, table ≠ c.state.nextTable →
      (State.newTable child { c.state with numSwapBlocks := num }).heap table =
        c.state.heap table :=
    fun table htable => Function.update_of_ne htable _ _
  have hnew : (State.newTable child { c.state with numSwapBlocks := num }).heap
      c.state.nextTable = {} :=
    Function.update_self _ _ _
  refine ⟨_, .created, hinvariant, ?_, h.current, ?_, ?_, h.files⟩
  case refine_1 =>
      change Stored store ∅ (State.pages (State.newTable child _)) _
      rw [hpages]
      exact h.stored.of_same (sameStore_newTable child num)
  case refine_2 =>
      intro pid
      change Function.update f.arena child (some []) pid =
        ((State.newTable child { c.state with numSwapBlocks := num }).tables pid).map _
      cases htable : (State.newTable child
          { c.state with numSwapBlocks := num }).tables pid with
      | none =>
          have hpid : pid ≠ child := by
            rintro rfl
            change Function.update c.state.tables pid (some c.state.nextTable) pid = _
              at htable
            rw [Function.update_self] at htable
            cases htable
          have hnone : c.state.tables pid = none :=
            (Function.update_of_ne hpid _ _).symm.trans htable
          rw [Function.update_of_ne hpid, h.arena pid, hnone]
          rfl
      | some table =>
          rcases htables pid table htable with ⟨rfl, rfl⟩ | ⟨hpid, hne, hold⟩
          · rw [Function.update_self, Option.map_some, State.arena, hnew]
            rfl
          · rw [Function.update_of_ne hpid, h.arena pid, hold, Option.map_some,
              Option.map_some, State.arena, State.arena, hheap table hne]
  case refine_3 =>
      intro pid table i vp htable hpage hswap
      change ((State.newTable child
        { c.state with numSwapBlocks := num }).heap table).vps[i]? = _ at hpage
      rcases htables pid table htable with ⟨rfl, rfl⟩ | ⟨_, hne, hold⟩
      · rw [hnew] at hpage
        cases hpage
      · rw [hheap table hne] at hpage
        exact h.anon pid table i vp hold hpage hswap

theorem Represents.destroy
    (h : Represents store c f) (hcurrent : c.current = some pid)
    (hcall : c.state.vmDestroy = some s) :
    Represents store
      { c with state := s, live := c.live.erase pid, current := none }
      { f with arena := Function.update f.arena pid none, current := none } := by
  have hinvariant := h.invariant.destroy hcurrent hcall
  obtain ⟨table, hcur, htable, hcurPid, _⟩ := h.invariant.exists_table hcurrent
  have htables := h.invariant.tables
  rw [vmDestroy_eq hcur, Option.some.injEq] at hcall
  subst hcall
  obtain ⟨hsame, _⟩ := destroyPages_same (s := c.state) (c.state.heap table).vps
  obtain ⟨hstored, hcontents⟩ := stored_destroyPages h.invariant.coherent h.stored
    (fun vp hvp => ⟨pid, table, htable, hvp⟩) (htables.vps_nodup htable)
  have hpages := pages_eraseCurrent (htables.of_same hsame)
    (hsame.curTable.trans hcur)
  rw [hsame.pages, hsame.heap] at hpages
  generalize (c.state.heap table).vps.foldl State.destroyPage c.state = t at *
  have hmine : ∀ other, (eraseCurrent table t).tables other =
      if other = pid then none else c.state.tables other := by
    intro other
    rw [eraseCurrent_tables, hsame.curPid, hsame.tables, hcurPid]
    simp only [Int.natCast_inj, eq_comm]
  have hstore : SameStore t (eraseCurrent table t) :=
    ⟨rfl, rfl, rfl, rfl, fun _ => id⟩
  refine ⟨hinvariant, ?_, rfl, ?_, ?_, ?_⟩
  · change Stored store ∅ (eraseCurrent table t).pages (eraseCurrent table t)
    rw [hpages]
    exact hstored.of_same hstore
  · intro other
    change Function.update f.arena pid none other =
      ((eraseCurrent table t).tables other).map t.arena
    have harena : t.arena = c.state.arena := by
      funext table
      rw [State.arena, hsame.heap, State.arena]
    rw [hmine, harena]
    by_cases hother : other = pid
    · rw [hother, Function.update_self, if_pos rfl]
      rfl
    · rw [Function.update_of_ne hother, if_neg hother, h.arena other]
  · intro other table' i vp htable' hpage hswap
    change (eraseCurrent table t).tables other = _ at htable'
    change (t.heap table').vps[i]? = some vp at hpage
    rw [hmine] at htable'
    rw [hsame.heap] at hpage
    split at htable'
    case isTrue => cases htable'
    case isFalse hother =>
        have hmem : vp ∈ c.state.pages :=
          ⟨other, table', htable', List.mem_of_getElem? hpage⟩
        refine (h.anon other table' i vp htable' hpage hswap).trans
          (hcontents vp.id fun vp' hvp' hswap' hid => hother ?_).symm
        have heq := h.invariant.coherent.swap.owner vp hmem vp'
          ⟨pid, table, htable, hvp'⟩ hswap hid
        subst heq
        have hentry := htables.entry other table' htable' i vp hpage
        obtain ⟨j, hj⟩ := List.mem_iff_getElem?.mp hvp'
        rw [htables.entry pid table htable j vp hj, Prod.mk.injEq] at hentry
        exact htables.injective other pid table' htable' (hentry.1 ▸ htable)
  · intro name block hname
    refine (h.files name block hname).trans (hcontents _ fun vp _ hswap hid => ?_).symm
    rw [← hid] at hswap
    cases hswap

/-! ## Loads and stores -/

theorem arenaPage_offset_lt
    {addr : UInt64} {index offset : ℕ}
    (harena : arenaPage addr = some (index, offset)) : offset < vmPagesize := by
  unfold arenaPage at harena
  split at harena
  case isFalse => cases harena
  case isTrue =>
      rw [Option.some.injEq, Prod.mk.injEq] at harena
      rw [← harena.2]
      exact Nat.mod_lt _ (by decide)

/-- The page a permitted access of the current process is about. -/
theorem Represents.accessed
    {addr : UInt64} {entry : Entry} {offset : ℕ} (h : Represents store c f)
    (hcurrent : c.current = some pid)
    (htranslate : c.state.translate addr = some (entry, offset))
    (henabled : entry.readEnable = true ∨ entry.writeEnable = true) :
    ∃ table index vp, c.state.tables pid = some table ∧
      arenaPage addr = some (index, offset) ∧
      (c.state.heap table).vps[index]? = some vp ∧ vp ∈ c.state.pages ∧
      entry = c.state.entries vp.entry := by
  obtain ⟨table, _, htable, _, hptbr⟩ := h.invariant.exists_table hcurrent
  obtain ⟨table', hptbr', harena, rfl⟩ := translate_eq htranslate
  rw [hptbr, Option.some.injEq] at hptbr'
  subst hptbr'
  obtain ⟨vp, hvp, hpage, hentry, _⟩ := h.invariant.enabled htable henabled
  exact ⟨table, _, vp, htable, harena, hpage, hvp, by rw [hentry]⟩

theorem Represents.loads
    {addr : UInt64} {entry : Entry} {offset : ℕ} (h : Represents store c f)
    (hcurrent : c.current = some pid)
    (htranslate : c.state.translate addr = some (entry, offset))
    (henable : entry.readEnable = true) :
    Flat.Step f (.load addr (c.state.physmem (frameByte entry.ppage offset))) f := by
  obtain ⟨table, index, vp, htable, harena, hpage, hvp, rfl⟩ :=
    h.accessed hcurrent htranslate (.inl henable)
  have hoffset := arenaPage_offset_lt harena
  refine .load harena ?_
  rw [h.byte hcurrent htable, pageByte, hpage, Option.bind_some, dif_pos hoffset,
    physmem_eq_content store h.invariant.coherent.protect hvp henable hoffset]

theorem blockId_inj {name name' : Name} {block block' : ℕ} :
    blockId name block = blockId name' block' ↔ name = name' ∧ block = block' := by
  simp [blockId]

theorem blockId_ne
    {id : FileId} (hswap : id.swapBacked = true) (name : Name) (block : ℕ) :
    blockId name block ≠ id := by
  rintro rfl
  cases hswap

/-- Two swap pages with the same id are the same page of the same process. -/
theorem Invariant.swap_owner
    {pid' table' i i' : ℕ} {vp vp' : VirtualPage} (h : Invariant c)
    (htable : c.state.tables pid = some table)
    (hpage : (c.state.heap table).vps[i]? = some vp)
    (htable' : c.state.tables pid' = some table')
    (hpage' : (c.state.heap table').vps[i']? = some vp')
    (hswap : vp.id.swapBacked = true) (hid : vp.id = vp'.id) :
    pid' = pid ∧ i' = i := by
  have heq := h.coherent.swap.owner vp ⟨pid, table, htable, List.mem_of_getElem? hpage⟩
    vp' ⟨pid', table', htable', List.mem_of_getElem? hpage'⟩ hswap hid
  subst heq
  have hentry := h.tables.entry pid table htable i vp hpage
  rw [h.tables.entry pid' table' htable' i' vp hpage', Prod.mk.injEq] at hentry
  exact ⟨h.tables.injective pid' pid table' htable' (hentry.1 ▸ htable), hentry.2⟩

/-- A page of the current process changes, and with it the page of `f`. -/
theorem Represents.setPage
    {index : ℕ} {vp : VirtualPage} {page : Page} (h : Represents store c f)
    (htable : c.state.tables pid = some table)
    (hpage : (c.state.heap table).vps[index]? = some vp)
    (hinvariant : Invariant { c with state := s })
    (hsame : SameTables c.state s) (hstored : Stored store ∅ c.state.pages s)
    (hcontents : ∀ id, content store s id =
      if id = vp.id then page else content store c.state id) :
    Represents store { c with state := s } (f.setPage pid index page vp.backing) := by
  have harenas : s.arena = c.state.arena := by
    funext table
    rw [State.arena, hsame.heap, State.arena]
  have hpages : Stored store ∅ s.pages s := hsame.pages.symm ▸ hstored
  have harena : ∀ other, f.arena other = (s.tables other).map s.arena := by
    intro other
    rw [h.arena other, hsame.tables, harenas]
  have hanon : ∀ pid' table' i vp', s.tables pid' = some table' →
      (s.heap table').vps[i]? = some vp' → vp'.id.swapBacked = true →
        content store s vp'.id =
          if vp'.id = vp.id then page else f.anon pid' i := by
    intro pid' table' i vp' htable' hpage' hswap
    rw [hsame.tables] at htable'
    rw [hsame.heap] at hpage'
    rw [hcontents, h.anon pid' table' i vp' htable' hpage' hswap]
  have hfiles : ∀ name block, 0 ∉ name → content store s (blockId name block) =
      if blockId name block = vp.id then page else f.files name block := by
    intro name block hname
    rw [hcontents, h.files name block hname]
  cases hswap : vp.id.swapBacked with
  | true =>
      rw [VirtualPage.backing, if_pos hswap]
      refine ⟨hinvariant, hpages, h.current, harena, ?_, ?_⟩
      · intro pid' table' i vp' htable' hpage' hswap'
        have hold := h.invariant.swap_owner htable hpage (hsame.tables ▸ htable')
          (hsame.heap ▸ hpage') hswap
        change Function.update f.anon pid (Function.update (f.anon pid) index page)
          pid' i = content store s vp'.id
        rw [hanon pid' table' i vp' htable' hpage' hswap']
        by_cases hid : vp'.id = vp.id
        · obtain ⟨rfl, rfl⟩ := hold hid.symm
          rw [if_pos hid, Function.update_self, Function.update_self]
        · rw [if_neg hid]
          by_cases hpid : pid' = pid
          · subst hpid
            have hindex : i ≠ index := by
              rintro rfl
              have hsameTable : table = table' :=
                Option.some.inj (htable.symm.trans (hsame.tables ▸ htable'))
              subst hsameTable
              rw [hsame.heap, hpage] at hpage'
              cases hpage'
              exact hid rfl
            rw [Function.update_self, Function.update_of_ne hindex]
          · rw [Function.update_of_ne hpid]
      · intro name block hname
        rw [hfiles name block hname, if_neg (blockId_ne hswap name block)]
        rfl
  | false =>
      have hcanonical := h.stored.canonical vp
        ⟨pid, table, htable, List.mem_of_getElem? hpage⟩
      have hid : ∀ name block, blockId name block = vp.id ↔
          name = cStr vp.id.filename ∧ block = vp.id.block := by
        intro name block
        rw [(hcanonical.eq_blockId hswap).2, blockId_inj]
        simp [blockId, cStr_append_nul (hcanonical.eq_blockId hswap).1]
      rw [VirtualPage.backing, hswap, if_neg Bool.false_ne_true]
      refine ⟨hinvariant, hpages, h.current, harena, ?_, ?_⟩
      · intro pid' table' i vp' htable' hpage' hswap'
        have hne : vp'.id ≠ vp.id := by
          intro heq
          rw [heq, hswap] at hswap'
          cases hswap'
        rw [hanon pid' table' i vp' htable' hpage' hswap', if_neg hne]
        rfl
      · intro name block hname
        change Function.update f.files _ (Function.update (f.files _) _ page) name block =
          content store s (blockId name block)
        rw [hfiles name block hname]
        simp only [hid]
        by_cases hn : name = cStr vp.id.filename
        · rw [← hn, Function.update_self, Function.update_apply]
          simp only [true_and]
        · rw [Function.update_of_ne hn, if_neg fun heq => hn heq.1]

theorem Represents.stores
    {addr : UInt64} {value : Byte} {entry : Entry} {offset : ℕ}
    (h : Represents store c f) (hcurrent : c.current = some pid)
    (htranslate : c.state.translate addr = some (entry, offset))
    (henable : entry.writeEnable = true)
    (hinvariant : Invariant
      { c with state := c.state.setByte (frameByte entry.ppage offset) value }) :
    ∃ f', Flat.Step f (.store addr value) f' ∧
      Represents store
        { c with state := c.state.setByte (frameByte entry.ppage offset) value }
        f' := by
  obtain ⟨table, index, vp, htable, harena, hpage, hvp, rfl⟩ :=
    h.accessed hcurrent htranslate (.inr henable)
  have hoffset := arenaPage_offset_lt harena
  obtain ⟨hstored, hcontents⟩ : Stored store ∅ _ (State.setByte _ value _) ∧ _ :=
    stored_store h.invariant.coherent h.stored hvp henable hoffset
  have hbacking : (c.state.arena table)[index]? = some vp.backing := by
    rw [State.arena_getElem?, hpage, Option.map_some]
  have haddr : arenaPage addr =
      some (index, (⟨offset, hoffset⟩ : Fin vmPagesize).val) := harena
  refine ⟨_, .store haddr (h.current.trans hcurrent) (h.arena_eq htable) hbacking, ?_⟩
  refine h.setPage htable hpage hinvariant ⟨rfl, rfl, rfl, rfl, rfl, rfl, rfl, rfl⟩
    hstored fun id => ?_
  rw [hcontents, h.page htable hpage]
  by_cases hid : id = vp.id
  · rw [if_pos hid, if_pos hid, hid]
  · rw [if_neg hid, if_neg hid]

/-! ## New pages -/

theorem State.arena_length (s : State W) (table : ℕ) :
    (s.arena table).length = (s.heap table).vps.length :=
  List.length_map ..

/-- The page `vp` is new at the end of the arena of `pid`. -/
theorem Represents.grown
    {vp : VirtualPage} {anon : ℕ → ℕ → Page} (h : Represents store c f)
    (htable : c.state.tables pid = some table)
    (hgrown : Grown table vp c.state s)
    (hinvariant : Invariant { c with state := s }) (hstored : Stored store ∅ s.pages s)
    (hnew : vp.id.swapBacked = true →
      anon pid (c.state.arena table).length = content store s vp.id)
    (hold : ∀ pid' table' i vp', c.state.tables pid' = some table' →
      (c.state.heap table').vps[i]? = some vp' → vp'.id.swapBacked = true →
        anon pid' i = content store s vp'.id)
    (hfiles : ∀ name block, 0 ∉ name →
      f.files name block = content store s (blockId name block)) :
    Represents store { c with state := s }
      { f with
        arena := Function.update f.arena pid
          (some (c.state.arena table ++ [vp.backing]))
        anon := anon } := by
  refine ⟨hinvariant, hstored, h.current, ?_, ?_, hfiles⟩
  · intro other
    change Function.update f.arena pid _ other = (s.tables other).map s.arena
    rw [hgrown.tables]
    by_cases hother : other = pid
    · subst hother
      rw [Function.update_self, htable, Option.map_some, State.arena, State.arena,
        hgrown.vps, List.map_append]
      rfl
    · rw [Function.update_of_ne hother, h.arena other]
      cases hother' : c.state.tables other with
      | none => rfl
      | some table' =>
          have hne : table' ≠ table := by
            rintro rfl
            exact hother (h.invariant.tables.injective other pid _ hother' htable)
          rw [Option.map_some, Option.map_some, State.arena, State.arena,
            hgrown.other table' hne]
  · intro pid' table' i vp' htable' hpage hswap
    change s.tables pid' = _ at htable'
    change (s.heap table').vps[i]? = _ at hpage
    rw [hgrown.tables] at htable'
    by_cases hsame : table' = table
    · subst hsame
      have hpid := h.invariant.tables.injective pid' pid _ htable' htable
      subst hpid
      rw [hgrown.vps] at hpage
      by_cases hi : i < (c.state.heap table').vps.length
      · rw [List.getElem?_append_left hi] at hpage
        exact hold pid' table' i vp' htable' hpage hswap
      · have hlast : i = (c.state.heap table').vps.length := by
          have hlt := (List.getElem?_eq_some_iff.mp hpage).1
          rw [List.length_append, List.length_singleton] at hlt
          omega
        subst hlast
        rw [List.getElem?_concat_length, Option.some.injEq] at hpage
        subst hpage
        rw [State.arena_length] at hnew
        exact hnew hswap
    · rw [hgrown.other table' hsame] at hpage
      exact hold pid' table' i vp' htable' hpage hswap

theorem Represents.addSwapPage
    {swapBlock : ℕ} {rest : List ℕ} (h : Represents store c f)
    (htable : c.state.tables pid = some table)
    (hblocks : c.state.availableSwapBlocks = swapBlock :: rest)
    (hinvariant : Invariant { c with
      state := c.state.addSwapPage table
        ⟨(table, (c.state.heap table).cnt), swapId swapBlock⟩ rest }) :
    Represents store
      { c with
        state := c.state.addSwapPage table
          ⟨(table, (c.state.heap table).cnt), swapId swapBlock⟩ rest }
      { f with
        arena := Function.update f.arena pid (some (c.state.arena table ++ [.anon]))
        anon := Function.update f.anon pid (Function.update (f.anon pid)
          (c.state.arena table).length fun _ => 0) } := by
  have hgrown := grown_addSwapPage c.state table
    ⟨(table, (c.state.heap table).cnt), swapId swapBlock⟩ rest rfl
  obtain ⟨hstored, hzero, hother⟩ :=
    @stored_addSwapPage _ _ _ _ _ ⟨(table, (c.state.heap table).cnt), swapId swapBlock⟩
      table swapBlock rest h.stored rfl
  rw [← hgrown.pages htable] at hstored
  refine h.grown htable hgrown hinvariant hstored ?_ ?_ ?_
  · intro _
    rw [Function.update_self, Function.update_self, hzero]
  · intro pid' table' i vp htable' hpage hswap
    have hne : vp.id ≠ swapId swapBlock := by
      intro hid
      refine h.invariant.coherent.swap.free vp
        ⟨pid', table', htable', List.mem_of_getElem? hpage⟩ hswap ?_
      rw [hid, hblocks]
      exact List.mem_cons_self
    rw [hother vp.id hne, ← h.anon pid' table' i vp htable' hpage hswap]
    by_cases hpid : pid' = pid
    · subst hpid
      have hsame : table = table' := Option.some.inj (htable.symm.trans htable')
      subst hsame
      have hi : i ≠ (c.state.arena table).length := by
        have hlt := (List.getElem?_eq_some_iff.mp hpage).1
        rw [State.arena_length]
        exact hlt.ne
      rw [Function.update_self, Function.update_of_ne hi]
    · rw [Function.update_of_ne hpid]
  · intro name block hname
    rw [hother _ (blockId_ne rfl name block)]
    exact h.files name block hname

theorem Represents.addFilePage
    {name : Name} {block : ℕ} (h : Represents store c f)
    (htable : c.state.tables pid = some table) (hname : 0 ∉ name)
    (hinvariant : Invariant { c with
      state := c.state.addFilePage table
        ⟨(table, (c.state.heap table).cnt), blockId name block⟩ }) :
    Represents store
      { c with
        state := c.state.addFilePage table
          ⟨(table, (c.state.heap table).cnt), blockId name block⟩ }
      { f with
        arena := Function.update f.arena pid
          (some (c.state.arena table ++ [.file name block])) } := by
  have hgrown := grown_addFilePage c.state table
    ⟨(table, (c.state.heap table).cnt), blockId name block⟩ rfl
  have hstored :=
    @stored_addFilePage _ _ _ _ _ ⟨(table, (c.state.heap table).cnt), blockId name block⟩
      table h.stored (blockId_canonical hname block) rfl
  rw [← hgrown.pages htable] at hstored
  have hbacking : VirtualPage.backing
      ⟨(table, (c.state.heap table).cnt), blockId name block⟩ = .file name block := by
    simp [VirtualPage.backing, blockId, cStr_append_nul hname]
  rw [← hbacking]
  exact h.grown htable hgrown hinvariant hstored nofun h.anon h.files

/-- What the loop over the file name did, for the simulation. -/
theorem Represents.read
    {pointer : UInt64} {name : Option Name} (h : Represents store c f)
    (hcur : c.state.curTable = some table)
    (hname : c.state.readFilename io table pointer (vmArenaSize + 1) 0 [] =
      some (name, s)) :
    Represents store { c with state := s } f ∧
      ∀ full, name = some full → ∃ rest, full = rest ++ [0] ∧
        NameAt store c.state table pointer 0 rest := by
  obtain ⟨name', s', hname', hpages⟩ := readFilename_spec io h.invariant.coherent
    h.invariant.tables hcur (Nat.lt_succ_of_le (Nat.sub_le _ _))
  rw [hname, Option.some.injEq, Prod.mk.injEq] at hname'
  obtain ⟨rfl, rfl⟩ := hname'
  have hread := nameRead_readFilename h.invariant.coherent h.invariant.tables hcur
    h.stored hname
  exact ⟨h.of_contents (h.invariant.read hpages) (.of_arenas hpages.arenas)
    hread.stored hread.same, hread.found⟩

theorem NameAt.nul_notMem
    {pointer : UInt64} {temp : ℕ} {name : Name}
    (h : NameAt store s table pointer temp name) : 0 ∉ name := by
  intro hmem
  obtain ⟨k, hk, hzero⟩ := List.mem_iff_getElem.mp hmem
  exact (h.1 k hk).1 hzero

theorem Represents.map
    {filename : Option UInt64} {block : ℕ} {result : Option UInt64}
    (h : Represents store c f) (hcurrent : c.current = some pid)
    (hcall : c.state.vmMap io filename block = some (result, s)) :
    ∃ f', Flat.Step f (.map filename block result) f' ∧
      Represents store { c with state := s } f' := by
  have hinvariant := h.invariant.map hcurrent hcall
  obtain ⟨table, hcur, htable, _, hptbr⟩ := h.invariant.exists_table hcurrent
  have hcur' : f.current = some pid := h.current.trans hcurrent
  have hlength : (c.state.arena table).length = (c.state.heap table).cnt := by
    rw [State.arena_length, h.invariant.tables.length pid table htable]
  have hmapped : Mapped (fun pointer name _ t =>
      Represents store { c with state := t } f ∧ t.arenas = c.state.arenas ∧
        ∀ full, name = some full → ∃ rest, full = rest ++ [0] ∧
          NameAt store c.state table pointer 0 rest)
      table c.state filename block result s :=
    vmMap_cases hcur hptbr (fun pointer name t hname =>
      ⟨(h.read hcur hname).1, readFilename_arenas hname, (h.read hcur hname).2⟩) hcall
  cases hmapped with
  | refused => exact ⟨f, .notMapped, h⟩
  | unreadable hread => exact ⟨f, .notMapped, hread.1⟩
  | swap hblocks _ hroom =>
      refine ⟨_, ?_, h.addSwapPage htable hblocks hinvariant⟩
      rw [newAddr_eq_pageAddr hroom, ← hlength]
      exact .mapAnon hcur' (h.arena_eq htable)
  | @file pointer block t name hread hroom =>
      obtain ⟨hrel, harenas, hfound⟩ := hread
      obtain ⟨rest, rfl, hname⟩ := hfound name rfl
      have hsame := SameTables.of_arenas harenas
      have harena : t.arena table = c.state.arena table := by
        rw [State.arena, hsame.heap, State.arena]
      rw [newAddr_eq_pageAddr hroom]
      have hheap : (c.state.heap table).cnt = (t.heap table).cnt := by
        rw [hsame.heap]
      rw [hheap] at hinvariant ⊢
      refine ⟨_, ?_, hrel.addFilePage (hsame.tables ▸ htable) hname.nul_notMem
        hinvariant⟩
      rw [← hheap, ← hlength]
      change Flat.Step f _ { f with
        arena := Function.update f.arena pid
          (some (t.arena table ++ [.file rest block])) }
      rw [harena]
      exact .mapFile hcur' (h.arena_eq htable) (h.cString hcurrent htable hname)

/-! ## Runs -/

/-- Every step of the pager is a step of memory without paging. -/
theorem simulates_flat : (system io).Simulates Flat.system (Represents store) := by
  intro c event c' f h hstep
  have hinvariant := h.invariant.step hstep
  cases hstep with
  | create hfresh hcall => exact h.create hfresh hcall
  | switch hlive hcall => exact ⟨_, .switch, h.switch hlive hcall⟩
  | fault hcurrent hcall => exact ⟨f, .fault, h.fault hcurrent hcall⟩
  | map hcurrent hcall => exact h.map hcurrent hcall
  | destroy hcurrent hcall =>
      exact ⟨_, .destroy (h.current.trans hcurrent), h.destroy hcurrent hcall⟩
  | load hcurrent htranslate henable =>
      exact ⟨f, h.loads hcurrent htranslate henable, h⟩
  | store hcurrent htranslate henable =>
      exact h.stores hcurrent htranslate henable hinvariant

/-- The files before anything is mapped. -/
def BlockStore.files (store : BlockStore io) (world : W) (name : Name) (block : ℕ) :
    Page :=
  store.contents world (some name, block)

theorem represents_init
    {memoryPages : ℕ} (hlower : 2 ≤ memoryPages) (hupper : memoryPages ≤ 2 ^ 16)
    (swapBlocks : ℕ) (physmem : ℕ → Byte) (entries : EntryRef → Entry) (world : W) :
    Represents store (Config.init memoryPages swapBlocks physmem entries world)
      (Flat.init (store.files world)) := by
  have hlimit : memoryPages ≤ ppageLimit := hupper.trans (by decide)
  refine ⟨invariant_init hlower hlimit swapBlocks physmem entries world,
    ⟨hupper, ?_, ?_, nofun, ?_, ?_⟩, rfl, fun _ => rfl, nofun, ?_⟩
  · have hzero := loadPage_storePage physmem 0 fun _ => 0
    rw [State.frame, Nat.zero_mul]
    exact hzero
  · rintro vp ⟨pid, table, htable, _⟩
    cases htable
  · intro id _ _ ppage hid
    cases hid
  · rintro vp ⟨pid, table, htable, _⟩
    cases htable
  · intro name block hname
    change store.contents world (some name, block) =
      store.contents world (some (cStr (name ++ [0])), block)
    rw [cStr_append_nul hname]

variable (store) in
/-- What the processes see in a run of the pager, loads included, they may also
see without paging. -/
theorem flat_run_of_run
    {memoryPages swapBlocks : ℕ} {physmem : ℕ → Byte} {entries : EntryRef → Entry}
    {world : W} {trace : List Event} (hlower : 2 ≤ memoryPages)
    (hupper : memoryPages ≤ 65536)
    (hrun : (system io).Run
      (Config.init memoryPages swapBlocks physmem entries world) trace c) :
    ∃ f, Flat.system.Run (Flat.init (store.files world)) trace f := by
  obtain ⟨f, hflat, _⟩ := simulates_flat.run
    (represents_init hlower hupper swapBlocks physmem entries world) hrun
  exact ⟨f, hflat⟩

/-- The blocks of `blockFiles` are a store. -/
def blockFilesStore : BlockStore blockFiles where
  contents files := files
  readable _ _ := True
  read_contents _ _ _ := rfl
  read_succeeds _ _ _ := rfl
  contents_read _ _ := rfl
  readable_read _ _ _ _ := trivial
  write_succeeds _ _ _ := rfl
  contents_write _ _ _ := rfl
  readable_write _ _ _ _ _ := trivial

/-- A process maps a page, writes to it and reads back what it wrote. -/
theorem flat_run_of_store :
    ∃ f, Flat.system.Run (Flat.init (blockFilesStore.files fun _ _ => 0))
      [.create 0 7 true, .switch 7, .map none 0 (some vmArenaBaseaddr),
        .fault vmArenaBaseaddr true true, .store vmArenaBaseaddr 5,
        .load vmArenaBaseaddr 5] f := by
  have hstart : (system blockFiles).Run (freshConfig 2 1) [] (freshConfig 2 1) := .nil
  have hcreate := hstart.snoc
    (@Step.create _ blockFiles (freshConfig 2 1) 0 7 _ _ (by decide) rfl)
  have hswitch := hcreate.snoc (@Step.switch _ blockFiles _ 7 _ (by decide) rfl)
  have hmap := hswitch.snoc
    (@Step.map _ blockFiles _ none 0 7 (some (State.newAddr 0)) _ rfl rfl)
  have hfault := hmap.snoc
    (@Step.fault _ blockFiles _ vmArenaBaseaddr true _ 7 _ rfl rfl)
  have hstore := hfault.snoc
    (@Step.store _ blockFiles _ vmArenaBaseaddr 5 7 0 ⟨1, true, true⟩ rfl rfl rfl)
  have hload := hstore.snoc
    (@Step.load _ blockFiles _ vmArenaBaseaddr 7 0 ⟨1, true, true⟩ rfl rfl rfl)
  have haddr : State.newAddr 0 = vmArenaBaseaddr := by decide
  rw [setByte_physmem, if_pos rfl, haddr] at hload
  exact flat_run_of_run blockFilesStore (by decide) (by decide) hload

end Pager
end Eecs482
