import Eecs482.PagerTables

/-!
# The calls of the pager keep its pages coherent

Each call made for a live current process returns, and leaves the pages of all
processes coherent.  The loop of `vm_map` over the file name ends because the
addresses it visits stay inside the arena.
-/

namespace Eecs482
namespace Pager

variable {W : Type} {io : FileIo W}
variable {s s' : State W} {vp : VirtualPage} {table : ℕ}

/-! ## Addresses of the name loop -/

theorem vpn_toNat (addr : UInt64) :
    (vpn addr).toNat =
      (addr - vmArenaBaseaddr).toNat / vmPagesize % 2 ^ 32 := by
  rw [vpn, UInt64.toNat_toUInt32, UInt64.toNat_shiftRight,
    Nat.shiftRight_eq_div_pow]
  rfl

/-- Distance into the arena, up to the 48 bits the page number keeps. -/
def arenaDistance (addr : UInt64) : ℕ :=
  (addr - vmArenaBaseaddr).toNat % 2 ^ 48

theorem arenaDistance_lt
    {addr : UInt64} (hvpn : (vpn addr).toNat < maxPageNum) :
    arenaDistance addr < vmArenaSize := by
  rw [vpn_toNat] at hvpn
  change _ / 65536 % 2 ^ 32 < 256 at hvpn
  change _ % 2 ^ 48 < 0x01000000
  omega

theorem arenaDistance_succ
    {addr : UInt64} (haddr : arenaDistance addr < vmArenaSize) :
    arenaDistance (addr + 1) = arenaDistance addr + 1 := by
  rw [arenaDistance, UInt64.toNat_sub] at haddr
  rw [arenaDistance, arenaDistance, UInt64.toNat_sub, UInt64.toNat_sub,
    UInt64.toNat_add]
  change (2 ^ 64 - 0x600000000 + addr.toNat) % 2 ^ 64 % 2 ^ 48 < 0x01000000 at haddr
  change (2 ^ 64 - 0x600000000 + (addr.toNat + 1) % 2 ^ 64) % 2 ^ 64 % 2 ^ 48 =
    (2 ^ 64 - 0x600000000 + addr.toNat) % 2 ^ 64 % 2 ^ 48 + 1
  omega

theorem add_ofNat_succ (addr : UInt64) (k : ℕ) :
    addr + UInt64.ofNat (k + 1) = addr + UInt64.ofNat k + 1 := by
  rw [UInt64.ofNat_add]
  exact (UInt64.add_assoc _ _ _).symm

/-! ## `vm_fault` -/

variable (io) in
/-- A fault outside the valid pages fails at once, any other one is a fault on
the page at that address. -/
theorem vmFault_spec
    (hcoherent : Coherent s.pages s) (htables : Tables s)
    (hcur : s.curTable = some table) (addr : UInt64) (write : Bool) :
    ∃ ok s', s.vmFault io addr write = some (ok, s') ∧
      (((s.heap table).cnt ≤ (vpn addr).toNat ∧ ok = false ∧ s' = s) ∨
        ∃ vp, (vpn addr).toNat < (s.heap table).cnt ∧
          (s.heap table).vps[(vpn addr).toNat]? = some vp ∧ vp ∈ s.pages ∧
          s.faultPage io vp write = some (ok, s') ∧
          Coherent s.pages s' ∧ Faulted s.pages vp write s ok s') := by
  obtain ⟨_, pid, _, htable⟩ := htables.current table hcur
  rw [State.vmFault, hcur, Option.bind_some]
  by_cases hvalid : (s.heap table).cnt ≤ (vpn addr).toNat
  · exact ⟨false, s, by rw [if_pos hvalid], .inl ⟨hvalid, rfl, rfl⟩⟩
  · have hlt : (vpn addr).toNat < (s.heap table).vps.length := by
      rw [htables.length pid table htable]
      omega
    have hpage : (s.heap table).vps[(vpn addr).toNat]? =
        some (s.heap table).vps[(vpn addr).toNat] := List.getElem?_eq_getElem hlt
    have hmem : (s.heap table).vps[(vpn addr).toNat] ∈ s.pages :=
      ⟨pid, table, htable, List.getElem_mem hlt⟩
    obtain ⟨ok, s', hrun, hcoherent', hfaulted⟩ :=
      hcoherent.faultPage io hmem write
    refine ⟨ok, s', ?_, .inr ⟨_, by omega, hpage, hmem, hrun, hcoherent', hfaulted⟩⟩
    rw [if_neg hvalid, hpage]
    exact hrun

/-- A read fault leaves no page out of the zero page. -/
theorem LeavesZero.of_readFault
    (h : LeavesZero (faultGone vp false) s s') : LeavesZero ∅ s s' := by
  have hgone : faultGone vp false = ∅ := by
    ext id
    simp [faultGone]
  rwa [hgone] at h

/-- What reading a file name does to the state. -/
structure ReadPages (s s' : State W) : Prop
    extends Settled s.pages s.pages s s' where
  coherent : Coherent s.pages s'
  leaves : LeavesZero ∅ s s'

theorem ReadPages.refl (h : Coherent s.pages s) : ReadPages s s :=
  ⟨.refl h.frames h.protect, h, .refl⟩

theorem ReadPages.trans
    {s'' : State W} (h : ReadPages s s') (h' : ReadPages s' s'') :
    ReadPages s s'' := by
  have hpages : s'.pages = s.pages := (SameTables.of_arenas h.arenas).pages
  obtain ⟨hsettled, hcoherent, hleaves⟩ := h'
  rw [hpages] at hsettled hcoherent
  exact ⟨h.toSettled.trans hsettled, hcoherent,
    by simpa using h.leaves.trans hleaves⟩

variable (io) in
/-- One character: the page of the address is made readable if it is not. -/
theorem readable_spec
    (hcoherent : Coherent s.pages s) (htables : Tables s)
    (hcur : s.curTable = some table) {addr : UInt64}
    (hpage : (s.heap table).vps[(vpn addr).toNat]? = some vp)
    (hvalid : (vpn addr).toNat < (s.heap table).cnt) :
    ∃ ok s', (if (s.entries vp.entry).readEnable then some (true, s)
        else s.vmFault io addr false) = some (ok, s') ∧
      ReadPages s s' ∧
      (ok = true → (s'.entries vp.entry).readEnable = true) := by
  by_cases hreadable : (s.entries vp.entry).readEnable = true
  · exact ⟨true, s, by rw [if_pos hreadable], .refl hcoherent, fun _ => hreadable⟩
  · obtain ⟨ok, s', hrun, hcases⟩ :=
      vmFault_spec io hcoherent htables hcur addr false
    rw [if_neg hreadable]
    rcases hcases with ⟨hinvalid, _, _⟩ | ⟨vp', _, hpage', _, _, hcoherent', hfaulted⟩
    · omega
    · rw [hpage, Option.some.injEq] at hpage'
      subst hpage'
      exact ⟨ok, s', hrun, ⟨hfaulted.toSettled, hcoherent',
        hfaulted.leaves.of_readFault⟩, fun hok => (hfaulted.accessible hok).readEnable⟩

variable (io) in
/-- The loop ends: every character read brings it closer to the end of the
arena. -/
theorem readFilename_spec
    {filename : UInt64} {fuel temp : ℕ} {read : Name}
    (hcoherent : Coherent s.pages s) (htables : Tables s)
    (hcur : s.curTable = some table)
    (hfuel : vmArenaSize - arenaDistance (filename + UInt64.ofNat temp) <
      fuel) :
    ∃ name s', s.readFilename io table filename fuel temp read = some (name, s') ∧
      ReadPages s s' := by
  induction fuel generalizing s temp read with
  | zero => omega
  | succ fuel ih =>
      obtain ⟨_, pid, _, htable⟩ := htables.current table hcur
      rw [State.readFilename]
      by_cases hvalid :
          (s.heap table).cnt ≤ (vpn (filename + UInt64.ofNat temp)).toNat
      · exact ⟨none, s, by rw [if_pos hvalid], .refl hcoherent⟩
      have hlt : (vpn (filename + UInt64.ofNat temp)).toNat <
          (s.heap table).vps.length := by
        rw [htables.length pid table htable]
        omega
      obtain ⟨ok, t, hread, hpages, hreadable⟩ := readable_spec io hcoherent
        htables hcur (List.getElem?_eq_getElem hlt) (by omega)
      rw [if_neg hvalid, List.getElem?_eq_getElem hlt, Option.bind_some, hread,
        Option.bind_some]
      cases ok with
      | false => exact ⟨none, t, rfl, hpages⟩
      | true =>
          simp only [if_true]
          split
          · exact ⟨_, t, rfl, hpages⟩
          · have hin := arenaDistance_lt
              ((Nat.lt_of_not_le hvalid).trans_le (htables.bound pid table htable))
            have hsame := SameTables.of_arenas hpages.arenas
            have hfuel' : vmArenaSize -
                arenaDistance (filename + UInt64.ofNat (temp + 1)) < fuel := by
              rw [add_ofNat_succ, arenaDistance_succ hin]
              omega
            obtain ⟨name, s', hrun, hrest⟩ := ih (hsame.pages.symm ▸ hpages.coherent)
              (htables.of_same hsame) (hsame.curTable.trans hcur) hfuel'
            exact ⟨name, s', hrun, hpages.trans hrest⟩

/-! ## `vm_map` -/

/-- What a call of `vm_map` did.  It may only have read the file name, which
`Read` describes, or it added a page at the end of the current table. -/
inductive Mapped (Read : UInt64 → Option Name → State W → State W → Prop)
    (table : ℕ) (s : State W) :
    Option UInt64 → ℕ → Option UInt64 → State W → Prop
  | refused {filename : Option UInt64} {block : ℕ} :
      Mapped Read table s filename block none s
  | unreadable {pointer : UInt64} {block : ℕ} {s' : State W}
      (hread : Read pointer none s s') :
      Mapped Read table s (some pointer) block none s'
  | swap {block : ℕ} {swapBlock : ℕ} {rest : List ℕ}
      (hblocks : s.availableSwapBlocks = swapBlock :: rest)
      (hnum : s.numSwapBlocks ≠ 0)
      (hroom : (s.heap table).cnt < maxPageNum) :
      Mapped Read table s none block (some (State.newAddr (s.heap table).cnt))
        (s.addSwapPage table ⟨(table, (s.heap table).cnt), swapId swapBlock⟩ rest)
  | file {pointer : UInt64} {block : ℕ} {t : State W} {name : Name}
      (hread : Read pointer (some name) s t)
      (hroom : (s.heap table).cnt < maxPageNum) :
      Mapped Read table s (some pointer) block
        (some (State.newAddr (s.heap table).cnt))
        (t.addFilePage table ⟨(table, (s.heap table).cnt),
          { filename := name, block := block, swapBacked := false }⟩)

theorem vmMap_cases
    {Read : UInt64 → Option Name → State W → State W → Prop}
    {filename : Option UInt64} {block : ℕ}
    {result : Option UInt64} (hcur : s.curTable = some table)
    (hptbr : s.pageTableBaseRegister = some table)
    (hread : ∀ pointer name t,
      s.readFilename io table pointer (vmArenaSize + 1) 0 [] = some (name, t) →
        Read pointer name s t)
    (hrun : s.vmMap io filename block = some (result, s')) :
    Mapped Read table s filename block result s' := by
  rw [State.vmMap, hcur, Option.bind_some] at hrun
  by_cases hfull : maxPageNum ≤ (s.heap table).cnt
  · rw [if_pos hfull] at hrun
    cases hrun
    exact .refused
  rw [if_neg hfull] at hrun
  cases filename with
  | none =>
      simp only [State.mapSwap] at hrun
      by_cases hnum : s.numSwapBlocks = 0
      · rw [if_pos hnum] at hrun
        cases hrun
        exact .refused
      · rw [if_neg hnum, hptbr, Option.bind_some] at hrun
        cases hblocks : s.availableSwapBlocks with
        | nil =>
            rw [hblocks] at hrun
            cases hrun
        | cons block rest =>
            rw [hblocks] at hrun
            cases hrun
            exact .swap hblocks hnum (by omega)
  | some pointer =>
      obtain ⟨⟨name, t⟩, hname, hmap⟩ := Option.bind_eq_some_iff.mp hrun
      have hsame := SameTables.of_arenas (readFilename_arenas hname)
      cases name with
      | none =>
          cases hmap
          exact .unreadable (hread pointer none s' hname)
      | some name =>
          simp only [State.mapFile] at hmap
          rw [hsame.pageTableBaseRegister, hptbr, hsame.heap] at hmap
          cases hmap
          exact .file (hread pointer (some name) t hname) (by omega)

variable (io) in
theorem vmMap_spec
    (hcoherent : Coherent s.pages s) (htables : Tables s)
    (hcur : s.curTable = some table) (filename : Option UInt64) (block : ℕ) :
    ∃ result s', s.vmMap io filename block = some (result, s') ∧
      Mapped (fun _ _ => ReadPages) table s filename block result s' := by
  obtain ⟨hptbr, pid, _, htable⟩ := htables.current table hcur
  have hnames : ∀ pointer, ∃ name t,
      s.readFilename io table pointer (vmArenaSize + 1) 0 [] = some (name, t) ∧
        ReadPages s t := fun pointer =>
    readFilename_spec io hcoherent htables hcur (Nat.lt_succ_of_le (Nat.sub_le _ _))
  have hreturns : ∃ result s', s.vmMap io filename block = some (result, s') := by
    rw [State.vmMap, hcur, Option.bind_some]
    split
    · exact ⟨_, _, rfl⟩
    cases filename with
    | none =>
        simp only [State.mapSwap]
        split
        · exact ⟨_, _, rfl⟩
        · have henough := hcoherent.swap.enough
          rw [hptbr, Option.bind_some]
          cases hblocks : s.availableSwapBlocks with
          | nil =>
              rw [hblocks, List.length_nil] at henough
              omega
          | cons block rest => exact ⟨_, _, rfl⟩
    | some pointer =>
        obtain ⟨name, t, hname, hread⟩ := hnames pointer
        simp only
        rw [hname, Option.bind_some]
        cases name with
        | none => exact ⟨_, _, rfl⟩
        | some name =>
            have hsame := SameTables.of_arenas hread.arenas
            simp only [State.mapFile]
            rw [hsame.pageTableBaseRegister, hptbr]
            exact ⟨_, _, rfl⟩
  obtain ⟨result, s', hrun⟩ := hreturns
  refine ⟨result, s', hrun, vmMap_cases hcur hptbr ?_ hrun⟩
  intro pointer name t hname
  obtain ⟨name', t', hname', hread⟩ := hnames pointer
  rw [hname] at hname'
  cases hname'
  exact hread

/-- The pages after a call of `vm_map` are coherent. -/
theorem Mapped.coherent
    {filename : Option UInt64} {block : ℕ} {result : Option UInt64}
    (h : Mapped (fun _ _ => ReadPages) table s filename block result s')
    (hcoherent : Coherent s.pages s) (htables : Tables s)
    (hcur : s.curTable = some table) : Coherent s'.pages s' ∧ Tables s' := by
  obtain ⟨_, pid, _, htable⟩ := htables.current table hcur
  have hnew := htables.entry_ne_next htable
  cases h with
  | refused => exact ⟨hcoherent, htables⟩
  | unreadable hread =>
      have hsame := SameTables.of_arenas hread.arenas
      rw [hsame.pages]
      exact ⟨hread.coherent, htables.of_same hsame⟩
  | swap hblocks _ hroom =>
      rw [(grown_addSwapPage s table _ _ rfl).pages htable]
      exact ⟨hcoherent.addSwapPage hblocks rfl hnew,
        htables.grown (grown_addSwapPage s table _ _ rfl) hroom rfl⟩
  | file hread hroom =>
      have hsame := SameTables.of_arenas hread.arenas
      have htable' := hsame.tables ▸ htable
      rw [(grown_addFilePage _ table _ rfl).pages htable', hsame.pages]
      refine ⟨hread.coherent.addFilePage rfl hnew, ?_⟩
      refine (htables.of_same hsame).grown (grown_addFilePage _ table _ rfl) ?_ ?_
      · rw [hsame.heap]
        exact hroom
      · rw [hsame.heap]

/-! ## `vm_destroy`, `vm_create` -/

theorem Tables.vps_nodup
    (h : Tables s) {pid : ℕ} (htable : s.tables pid = some table) :
    (s.heap table).vps.Nodup := by
  rw [List.nodup_iff_getElem?_ne_getElem?]
  intro i j hij hj heq
  have hi : (s.heap table).vps[i]? = some (s.heap table).vps[i] :=
    List.getElem?_eq_getElem (hij.trans hj)
  have hentry := h.entry pid table htable i _ hi
  rw [h.entry pid table htable j _ (heq ▸ hi), Prod.mk.injEq] at hentry
  omega

theorem vmDestroy_spec
    (hcoherent : Coherent s.pages s) (htables : Tables s)
    (hcur : s.curTable = some table) :
    ∃ s', s.vmDestroy = some s' ∧ Coherent s'.pages s' ∧ Tables s' ∧
      s'.pages = s.pages \ {vp | vp ∈ (s.heap table).vps} := by
  obtain ⟨_, pid, _, htable⟩ := htables.current table hcur
  obtain ⟨hsame, _⟩ := destroyPages_same (s := s) (s.heap table).vps
  have hdestroyed := hcoherent.destroyPages
    (fun vp hvp => ⟨pid, table, htable, hvp⟩) (htables.vps_nodup htable)
  have htables' := htables.of_same hsame
  have hpages := pages_eraseCurrent htables' (hsame.curTable.trans hcur)
  rw [hsame.pages, hsame.heap] at hpages
  refine ⟨_, vmDestroy_eq hcur, ?_, htables'.eraseCurrent, hpages⟩
  rw [hpages]
  obtain ⟨hframes, hpeers, hprotect, hswap, hunused⟩ := hdestroyed
  refine ⟨?_, ⟨hpeers.listed, hpeers.entry_injective⟩, ?_,
    ⟨hswap.owner, hswap.unnamed, hswap.free, hswap.nodup, ?_⟩, hunused⟩
  · exact ⟨hframes.memory_lower, hframes.memory_upper, hframes.partition,
      hframes.resident, hframes.owner, hframes.zero_swapBacked, hframes.clean,
      hframes.zero_clean⟩
  · exact fun vp hvp => (hprotect vp hvp).congr rfl fun _ _ _ => ⟨rfl, rfl⟩
  · have henough := hcoherent.swap.enough
    have hoccupied := htables.occupied pid table htable
    change _ + _ ≤
      ((s.heap table).vps.foldl State.destroyPage s).availableSwapBlocks.length
    rw [destroyPages_availableSwapBlocks, hsame.numSwapBlocks, hsame.heap,
      List.length_append, List.length_map, ← List.countP_eq_length_filter]
    omega

theorem vmCreate_spec
    (parentPid : ℕ) {childPid : ℕ} (hcoherent : Coherent s.pages s) (htables : Tables s)
    (hchild : s.tables childPid = none) (hpid : s.curPid ≠ childPid) :
    Coherent (s.vmCreate parentPid childPid).2.pages
        (s.vmCreate parentPid childPid).2 ∧
      Tables (s.vmCreate parentPid childPid).2 ∧
      (s.vmCreate parentPid childPid).2.pages = s.pages := by
  have hnew : ∀ num ≤ s.numSwapBlocks,
      Coherent s.pages (State.newTable childPid { s with numSwapBlocks := num }) := by
    intro num hnum
    obtain ⟨hframes, hpeers, hprotect, hswap, hunused⟩ := hcoherent
    refine ⟨?_, ⟨hpeers.listed, hpeers.entry_injective⟩, ?_,
      ⟨hswap.owner, hswap.unnamed, hswap.free, hswap.nodup,
        hnum.trans hswap.enough⟩, hunused⟩
    · exact ⟨hframes.memory_lower, hframes.memory_upper, hframes.partition,
        hframes.resident, hframes.owner, hframes.zero_swapBacked, hframes.clean,
        hframes.zero_clean⟩
    · intro vp hvp
      obtain ⟨pid, htable, _⟩ := htables.page_entry hvp
      have hentry : (State.newTable childPid
          { s with numSwapBlocks := num }).entries vp.entry = s.entries vp.entry :=
        if_neg (htables.allocated pid _ htable).ne
      rw [hentry]
      exact (hprotect vp hvp).congr rfl fun _ _ _ => ⟨rfl, rfl⟩
  have htables' : ∀ num, Tables { s with numSwapBlocks := num } := fun num =>
    ⟨htables.allocated, htables.injective, htables.length, htables.bound,
      htables.entry, htables.occupied, htables.current, htables.stale⟩
  have hpages : ∀ num,
      (State.newTable childPid { s with numSwapBlocks := num }).pages = s.pages :=
    fun num => pages_newTable (htables' num) hchild
  rw [State.vmCreate]
  split
  · split
    · exact ⟨hcoherent, htables, rfl⟩
    · exact ⟨(hpages _).symm ▸ hnew _ (Nat.sub_le _ _),
        (htables' _).newTable hchild hpid, hpages _⟩
  · exact ⟨(hpages _).symm ▸ hnew _ (le_refl _),
      (htables' _).newTable hchild hpid, hpages _⟩

end Pager
end Eecs482
