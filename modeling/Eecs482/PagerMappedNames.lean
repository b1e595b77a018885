import Eecs482.PagerAddresses
import Eecs482.PagerFailures

/-!
# Names in the arena and the files they map

`vm_map` maps a block of a file exactly when the bytes from the pointer to the
first NUL are those of valid pages which can all be read in.  The name is the
one the process sees there, also when reading in one of its pages evicts
another.
-/

namespace Eecs482
namespace Pager

variable {W : Type} {io : FileIo W} {store : BlockStore io}
variable {s s' t : State W} {table index : ℕ} {addr pointer : UInt64} {name : Name}

/-! ## What the process sees -/

variable (store) in
/-- The byte at `addr`, if it lies in a valid page. -/
def loadByte (s : State W) (table : ℕ) (addr : UInt64) : Option Byte :=
  (arenaPage addr).bind fun place => pageByte store s table place.1 place.2

variable (store) in
/-- The bytes from `addr` on are `name` and a NUL, all in valid pages. -/
def NameIn (s : State W) (table : ℕ) (addr : UInt64) : Name → Prop
  | [] => loadByte store s table addr = some 0
  | byte :: name =>
      byte ≠ 0 ∧ loadByte store s table addr = some byte ∧
        NameIn s table (addr + 1) name

/-- The pages that `length + 1` bytes from `addr` on are in. -/
def namePages (addr : UInt64) (length : ℕ) : List ℕ :=
  let first := (addr.toNat - vmArenaBaseaddr.toNat) / vmPagesize
  let last := (addr.toNat + length - vmArenaBaseaddr.toNat) / vmPagesize
  List.range' first (last + 1 - first)

variable (io) in
/-- A page is made readable by a read fault, unless it is readable. -/
def State.touch (table index : ℕ) (s : State W) : Option (Bool × State W) :=
  if (s.entries (table, index)).readEnable then some (true, s)
  else s.vmFault io (Flat.pageAddr index) false

variable (io) in
/-- The pages are made readable one after the other. -/
inductive Loads (table : ℕ) : List ℕ → State W → State W → Prop
  | nil {s : State W} : Loads table [] s s
  | cons {index : ℕ} {pages : List ℕ} {s t s' : State W}
      (hfirst : s.touch io table index = some (true, t))
      (hrest : Loads table pages t s') : Loads table (index :: pages) s s'

/-! ## Addresses of the name -/

theorem arenaPage_eq_some_iff (addr : UInt64) :
    arenaPage addr = some ((vpn addr).toNat, (pageOffset addr).toNat) ↔
      InArena maxPageNum addr := by
  unfold arenaPage InArena
  change (if vmArenaBaseaddr.toNat ≤ addr.toNat ∧
    addr.toNat < vmArenaBaseaddr.toNat + maxPageNum * vmPagesize then _ else _) = _ ↔ _
  constructor
  · intro hpage
    by_contra hout
    rw [if_neg hout] at hpage
    cases hpage
  · intro hin
    have hsplit := split_of_inArena le_rfl hin
    have hoffset := pageOffset_lt addr
    rw [if_pos hin, hsplit]
    unfold vmPagesize at *
    rw [Option.some.injEq, Prod.mk.injEq]
    omega

theorem arenaPage_eq_none (hout : ¬InArena maxPageNum addr) : arenaPage addr = none :=
  if_neg hout

theorem inArena_of_vpn
    (hvpn : (vpn addr).toNat < maxPageNum) (haddr : addr.toNat < 2 ^ 48) :
    InArena maxPageNum addr := by
  rcases (vpn_lt_iff le_rfl).mp hvpn with hin | ⟨multiple, hpos, hle, -⟩
  · exact hin
  · omega

/-- The code takes the addresses of user space apart as the hardware does. -/
theorem pageByte_eq_loadByte
    (hlength : (s.heap table).vps.length ≤ maxPageNum) (haddr : addr.toNat < 2 ^ 48) :
    pageByte store s table (vpn addr).toNat (pageOffset addr).toNat =
      loadByte store s table addr := by
  rw [loadByte]
  by_cases hin : InArena maxPageNum addr
  · rw [(arenaPage_eq_some_iff addr).mpr hin, Option.bind_some]
  · have hvpn : ¬(vpn addr).toNat < maxPageNum := fun hvpn =>
      hin (inArena_of_vpn hvpn haddr)
    rw [arenaPage_eq_none hin, Option.bind_none, pageByte,
      List.getElem?_eq_none (by omega), Option.bind_none]

theorem toNat_add_one {cnt : ℕ} (hcnt : cnt ≤ maxPageNum) (hin : InArena cnt addr) :
    (addr + 1).toNat = addr.toNat + 1 := by
  have hlt := hin.2
  have hbase : vmArenaBaseaddr.toNat = 0x600000000 := by decide
  rw [UInt64.toNat_add]
  unfold vmPagesize at hlt
  change cnt ≤ 256 at hcnt
  change (addr.toNat + 1) % 2 ^ 64 = addr.toNat + 1
  omega

/-- The number of the page an address of the arena is in. -/
theorem page_of_inArena (hin : InArena maxPageNum addr) :
    (addr.toNat - vmArenaBaseaddr.toNat) / vmPagesize = (vpn addr).toNat := by
  have hsplit := split_of_inArena le_rfl hin
  have hoffset := pageOffset_lt addr
  unfold vmPagesize at *
  omega

theorem namePages_zero (hin : InArena maxPageNum addr) :
    namePages addr 0 = [(vpn addr).toNat] := by
  simp only [namePages, Nat.add_zero]
  rw [Nat.add_sub_cancel_left, page_of_inArena hin]
  rfl

theorem exists_namePages (hin : InArena maxPageNum addr) (length : ℕ) :
    ∃ pages, namePages addr length = (vpn addr).toNat :: pages := by
  have hpage := page_of_inArena hin
  simp only [namePages]
  rw [← hpage]
  generalize vmArenaBaseaddr.toNat = base
  have hle : (addr.toNat - base) / vmPagesize ≤
      (addr.toNat + length - base) / vmPagesize :=
    Nat.div_le_div_right (by omega)
  rw [Nat.succ_sub hle, List.range'_succ]
  exact ⟨_, rfl⟩

/-- Without its first byte a name is in the same pages, or in one less. -/
theorem namePages_succ (hin : InArena maxPageNum addr) (length : ℕ) :
    (namePages addr (length + 1) = namePages (addr + 1) length ∧
        InArena maxPageNum (addr + 1) ∧ (vpn (addr + 1)).toNat = (vpn addr).toNat) ∨
      namePages addr (length + 1) = (vpn addr).toNat :: namePages (addr + 1) length := by
  have hfirst := page_of_inArena hin
  have hnext := toNat_add_one le_rfl hin
  have hlast : addr.toNat + (length + 1) = (addr + 1).toNat + length := by omega
  simp only [namePages]
  rw [hfirst, hlast]
  by_cases hpage :
      ((addr + 1).toNat - vmArenaBaseaddr.toNat) / vmPagesize = (vpn addr).toNat
  · left
    have hin' : InArena maxPageNum (addr + 1) := by
      have hvpn := (vpn_lt_iff le_rfl).mpr (.inl hin)
      rw [InArena] at hin ⊢
      unfold vmPagesize at *
      omega
    rw [hpage]
    exact ⟨rfl, hin', (page_of_inArena hin').symm.trans hpage⟩
  · right
    have hlower := hin.1
    generalize vmArenaBaseaddr.toNat = base at *
    have hcrossed : ((addr + 1).toNat - base) / vmPagesize = (vpn addr).toNat + 1 := by
      unfold vmPagesize at *
      omega
    have hle : (vpn addr).toNat + 1 ≤
        ((addr + 1).toNat + length - base) / vmPagesize := by
      rw [← hcrossed]
      exact Nat.div_le_div_right (by omega)
    rw [hcrossed, Nat.succ_sub (by omega), List.range'_succ]
    congr 2
    omega

/-! ## Pages of the name -/

theorem loads_cons_iff {pages : List ℕ} :
    Loads io table (index :: pages) s s' ↔
      ∃ t, s.touch io table index = some (true, t) ∧ Loads io table pages t s' := by
  constructor
  · intro hloads
    cases hloads with
    | cons hfirst hrest => exact ⟨_, hfirst, hrest⟩
  · intro ⟨t, hfirst, hrest⟩
    exact .cons hfirst hrest

theorem loads_nil_iff : Loads io table [] s s' ↔ s' = s := by
  constructor
  · intro hloads
    cases hloads
    rfl
  · rintro rfl
    exact .nil

/-- After the first page is read in, the rest of the name needs the rest of the
pages. -/
theorem loads_namePages_succ
    (hin : InArena maxPageNum addr)
    (htouch : s.touch io table (vpn addr).toNat = some (true, t))
    (hreadable : (t.entries (table, (vpn addr).toNat)).readEnable = true) (length : ℕ) :
    Loads io table (namePages addr (length + 1)) s s' ↔
      Loads io table (namePages (addr + 1) length) t s' := by
  have hagain : t.touch io table (vpn addr).toNat = some (true, t) := if_pos hreadable
  rcases namePages_succ hin length with ⟨hpages, hin', hsame⟩ | hpages
  · obtain ⟨pages, hcons⟩ := exists_namePages hin' length
    rw [hpages, hcons, hsame, loads_cons_iff, loads_cons_iff, htouch, hagain]
  · rw [hpages, loads_cons_iff, htouch]
    simp only [Option.some.injEq, Prod.mk.injEq, true_and, exists_eq_left']

theorem vpn_pageAddr (hindex : index < maxPageNum) :
    (vpn (Flat.pageAddr index)).toNat = index := by
  have hbase : vmArenaBaseaddr.toNat = 0x600000000 := by decide
  have hlt : index < 256 := hindex
  have haddr : (Flat.pageAddr index).toNat = vmArenaBaseaddr.toNat + index * vmPagesize := by
    rw [Flat.pageAddr, UInt64.toNat_ofNat', hbase]
    unfold vmPagesize
    exact Nat.mod_eq_of_lt (by omega)
  have hin : InArena maxPageNum (Flat.pageAddr index) := by
    rw [InArena, haddr]
    change _ ∧ _ < _ + 256 * 65536
    unfold vmPagesize
    omega
  rw [← page_of_inArena hin, haddr, Nat.add_sub_cancel_left]
  exact Nat.mul_div_cancel _ (by decide)

/-- Reading one character makes its page readable. -/
theorem touch_eq (hvpn : (vpn addr).toNat < maxPageNum) :
    (if (s.entries (table, (vpn addr).toNat)).readEnable then some (true, s)
      else s.vmFault io addr false) = s.touch io table (vpn addr).toNat := by
  have hsame : vpn (Flat.pageAddr (vpn addr).toNat) = vpn addr :=
    UInt32.toNat_inj.mp (vpn_pageAddr hvpn)
  rw [State.touch, State.vmFault, State.vmFault, hsame]

/-- A page that is not readable can be read in unless it is not in memory and its
file cannot be read once there is a frame for it. -/
theorem exists_touch_iff
    {vp : VirtualPage} (hcoherent : Coherent s.pages s) (hcur : s.curTable = some table)
    (hvalid : index < (s.heap table).cnt) (hindex : index < maxPageNum)
    (hpage : (s.heap table).vps[index]? = some vp)
    (hunreadable : (s.entries (table, index)).readEnable = false) :
    (∃ t, s.touch io table index = some (true, t)) ↔
      s.checkResidence vp = true ∨ vp.id.swapBacked = true ∨
        ∃ t, s.getFreePhysicalPage io = some t ∧
          (io.read vp.id.key t.world).1.1 = true := by
  have htouch : s.touch io table index = (s.readFault io vp).map fun answer =>
      if answer.1 then (true, answer.2.finishFault vp) else (false, answer.2) := by
    rw [State.touch, hunreadable, State.vmFault, hcur, Option.bind_some,
      vpn_pageAddr hindex, if_neg (Nat.not_le_of_lt hvalid), hpage]
    rfl
  rw [htouch]
  cases hresidence : s.checkResidence vp with
  | true =>
      refine iff_of_true ?_ (.inl rfl)
      rw [State.readFault, hresidence]
      split
      · contradiction
      · split <;> exact ⟨_, rfl⟩
  | false =>
      obtain ⟨t, hget, hfreed⟩ := getFreePhysicalPage_spec io hcoherent.frames
        hcoherent.peers hcoherent.protect
      have habsent : t.checkResidence vp = false := by
        rw [State.checkResidence, hfreed.absent _ (peerInPhys_of_not_resident hresidence)]
        rfl
      obtain ⟨ppage, rest, hfree⟩ := List.exists_cons_of_ne_nil hfreed.free
      have hread : s.readFault io vp = t.setPhysicalPage io vp := by
        rw [State.readFault, hresidence, State.bringIn, hget]
        rfl
      have hgot : (∃ t', s.getFreePhysicalPage io = some t' ∧
          (io.read vp.id.key t'.world).1.1 = true) ↔
            (t.readInto io vp ppage).1 = true := by
        rw [hget]
        simp only [Option.some.injEq, exists_eq_left']
        rfl
      rw [hread, hgot, Bool.false_eq_true, false_or, or_comm, ← Bool.or_eq_true]
      cases hok : (t.readInto io vp ppage).1 || vp.id.swapBacked with
      | true =>
          rw [setPhysicalPage_of_read hfree habsent hok]
          exact iff_of_true ⟨_, rfl⟩ rfl
      | false =>
          rw [setPhysicalPage_of_failed_read hfree habsent hok]
          simp

theorem NameIn.of_same
    {P : Set VirtualPage} (hcontents : SameContents store s t) (hheap : t.heap = s.heap)
    (hcanonical : ∀ vp ∈ P, vp.id.Canonical)
    (hpages : ∀ vp ∈ (s.heap table).vps, vp ∈ P) :
    NameIn store t table addr name ↔ NameIn store s table addr name := by
  have hbyte : ∀ addr, loadByte store t table addr = loadByte store s table addr := by
    intro addr
    simp only [loadByte, hcontents.pageByte hheap hcanonical hpages]
  induction name generalizing addr with
  | nil => rw [NameIn, NameIn, hbyte]
  | cons byte name ih =>
      rw [NameIn, NameIn, hbyte]
      exact and_congr_right fun _ => and_congr_right fun _ => ih

/-- The first byte of a name, or its NUL, is in a valid page. -/
theorem NameIn.valid (h : NameIn store s table addr name) :
    InArena maxPageNum addr ∧ (vpn addr).toNat < (s.heap table).vps.length := by
  have hsome : ∃ byte, loadByte store s table addr = some byte := by
    cases name with
    | nil => exact ⟨_, h⟩
    | cons byte name => exact ⟨_, h.2.1⟩
  obtain ⟨byte, hbyte⟩ := hsome
  have hin : InArena maxPageNum addr := by
    by_contra hout
    rw [loadByte, arenaPage_eq_none hout] at hbyte
    cases hbyte
  rw [loadByte, (arenaPage_eq_some_iff addr).mpr hin, Option.bind_some, pageByte] at hbyte
  obtain ⟨vp, hpage, -⟩ := Option.bind_eq_some_iff.mp hbyte
  exact ⟨hin, (List.getElem?_eq_some_iff.mp hpage).1⟩

theorem nameIn_zero (hbyte : loadByte store s table addr = some 0) :
    NameIn store s table addr name ↔ name = [] := by
  cases name with
  | nil => exact iff_of_true hbyte rfl
  | cons byte name =>
      refine iff_of_false (fun h => h.1 ?_) (List.cons_ne_nil byte name)
      exact (Option.some.inj (hbyte.symm.trans h.2.1)).symm

theorem nameIn_ne_zero
    {byte : Byte} (hbyte : loadByte store s table addr = some byte) (hne : byte ≠ 0) :
    NameIn store s table addr name ↔
      ∃ rest, name = byte :: rest ∧ NameIn store s table (addr + 1) rest := by
  constructor
  · intro h
    cases name with
    | nil => exact absurd (Option.some.inj (hbyte.symm.trans h)) hne
    | cons first rest =>
        have hfirst := Option.some.inj (hbyte.symm.trans h.2.1)
        exact ⟨rest, by rw [hfirst], h.2.2⟩
  · intro ⟨rest, hname, hrest⟩
    rw [hname]
    exact ⟨hne, hbyte, hrest⟩

theorem NameIn.unique
    {name' : Name} (h : NameIn store s table addr name)
    (h' : NameIn store s table addr name') : name = name' := by
  induction name generalizing addr name' with
  | nil => exact ((nameIn_zero h).mp h').symm
  | cons byte name ih =>
      obtain ⟨rest, rfl, hrest⟩ := (nameIn_ne_zero h.2.1 h.1).mp h'
      rw [ih h.2.2 hrest]

/-! ## The loop over the name -/

variable (store) in
/-- The loop finds the names that lie in pages which can be read in. -/
theorem readFilename_iff
    {fuel temp : ℕ} {read full : Name} (hcoherent : Coherent s.pages s)
    (htables : Tables s) (hcur : s.curTable = some table)
    (hstored : Stored store ∅ s.pages s)
    (haddr : (pointer + UInt64.ofNat temp).toNat < 2 ^ 48)
    (hfuel : vmArenaSize - arenaDistance (pointer + UInt64.ofNat temp) < fuel) :
    s.readFilename io table pointer fuel temp read = some (some full, s') ↔
      ∃ name, full = read ++ name ++ [0] ∧
        NameIn store s table (pointer + UInt64.ofNat temp) name ∧
        Loads io table (namePages (pointer + UInt64.ofNat temp) name.length) s s' := by
  induction fuel generalizing s temp read with
  | zero => omega
  | succ fuel ih =>
      obtain ⟨_, pid, _, htable⟩ := htables.current table hcur
      have hbound := htables.bound pid table htable
      have hlength := htables.length pid table htable
      by_cases hvalid :
          (vpn (pointer + UInt64.ofNat temp)).toNat < (s.heap table).cnt
      case neg =>
          rw [State.readFilename, if_pos (Nat.le_of_not_lt hvalid)]
          refine iff_of_false (by simp) ?_
          rintro ⟨name, _, hname, _⟩
          exact hvalid (hname.valid.2.trans_eq hlength)
      have hin := inArena_of_vpn (hvalid.trans_le hbound) haddr
      have hnext := add_ofNat_succ pointer temp
      obtain ⟨ok, t, hround⟩ := exists_round hcoherent htables hcur hstored hvalid
      have htouched : s.touch io table (vpn (pointer + UInt64.ofNat temp)).toNat =
          some (ok, t) := (touch_eq (hvalid.trans_le hbound)).symm.trans hround.reading
      cases ok with
      | false =>
          rw [hround.failed rfl]
          refine iff_of_false (by simp) ?_
          rintro ⟨name, _, _, hloads⟩
          obtain ⟨pages, hpages⟩ := exists_namePages hin name.length
          rw [hpages, loads_cons_iff, htouched] at hloads
          obtain ⟨_, hfirst, _⟩ := hloads
          cases hfirst
      | true =>
          obtain ⟨hreadable, byte, hbyte, hrun⟩ := hround.read rfl
          rw [pageByte_eq_loadByte (hlength.trans_le hbound) haddr] at hbyte
          rw [hrun]
          by_cases hnul : byte = 0
          case pos =>
            subst hnul
            have hloads : Loads io table (namePages (pointer + UInt64.ofNat temp) 0) s s' ↔
                s' = t := by
              rw [namePages_zero hin, loads_cons_iff, htouched]
              simp only [Option.some.injEq, Prod.mk.injEq, true_and, exists_eq_left',
                loads_nil_iff]
            rw [if_pos rfl]
            simp only [nameIn_zero hbyte]
            constructor
            · rintro ⟨⟩
              exact ⟨[], by rw [List.append_nil], rfl, hloads.mpr rfl⟩
            · rintro ⟨_, rfl, rfl, hfirst⟩
              rw [hloads.mp hfirst, List.append_nil]
          case neg =>
            have hsame := SameTables.of_arenas hround.arenas
            have hfuel' : vmArenaSize -
                arenaDistance (pointer + UInt64.ofNat (temp + 1)) < fuel := by
              have hdistance := arenaDistance_lt (hvalid.trans_le hbound)
              rw [hnext, arenaDistance_succ hdistance]
              omega
            have haddr' : (pointer + UInt64.ofNat (temp + 1)).toNat < 2 ^ 48 := by
              have hlt := hin.2
              rw [hnext, toNat_add_one le_rfl hin]
              change _ < 0x600000000 + 256 * 65536 at hlt
              omega
            have hnames : ∀ rest,
                NameIn store t table (pointer + UInt64.ofNat temp + 1) rest ↔
                  NameIn store s table (pointer + UInt64.ofNat temp + 1) rest :=
              fun rest => NameIn.of_same hround.same hsame.heap hstored.canonical
                fun vp hvp => ⟨pid, table, htable, hvp⟩
            rw [if_neg hnul, ih (hsame.pages.symm ▸ hround.coherent)
              (htables.of_same hsame) (hsame.curTable.trans hcur)
              (hsame.pages.symm ▸ hround.stored) haddr' hfuel', hnext]
            simp only [nameIn_ne_zero hbyte hnul, hnames]
            constructor
            · rintro ⟨rest, rfl, hname, hloads⟩
              refine ⟨byte :: rest, by rw [List.append_cons read byte rest],
                ⟨rest, rfl, hname⟩, ?_⟩
              exact (loads_namePages_succ hin htouched hreadable _).mpr hloads
            · rintro ⟨_, rfl, ⟨rest, rfl, hname⟩, hloads⟩
              refine ⟨rest, by rw [List.append_cons read byte rest], hname, ?_⟩
              exact (loads_namePages_succ hin htouched hreadable _).mp hloads

/-! ## `vm_map` -/

variable {c : Config W}

variable (store) in
/-- A call of `vm_map` that returned `result`, for the name at `pointer`. -/
structure MapsName
    (c : Config W) (table : ℕ) (pointer : UInt64) (block : ℕ) (result : Option UInt64)
    (s : State W) : Prop where
  /-- The name consists of what loads return. -/
  loads : ∀ addr value c', Step io c (.load addr value) c' →
    loadByte store c.state table addr = some value
  succeeds : result ≠ none ↔ ∃ name t, NameIn store c.state table pointer name ∧
    Loads io table (namePages pointer name.length) c.state t
  mapped : ∀ name, NameIn store c.state table pointer name → result ≠ none →
    result = some (State.newAddr (c.state.heap table).cnt) ∧
    (s.heap table).vps = (c.state.heap table).vps ++
      [⟨(table, (c.state.heap table).cnt), blockId name block⟩]

theorem Represents.loadByte
    {f : Flat} {pid : ℕ} {value : Byte} {c' : Config W} (h : Represents store c f)
    (hcurrent : c.current = some pid) (htable : c.state.tables pid = some table)
    (hstep : Step io c (.load addr value) c') :
    Pager.loadByte store c.state table addr = some value := by
  cases hstep with
  | load hcurrent' htranslate henable =>
      have hload := h.loads hcurrent' htranslate henable
      cases hload with
      | load harena hbyte =>
          rw [Pager.loadByte, harena, Option.bind_some, ← h.byte hcurrent htable]
          exact hbyte

theorem addFilePage_vps
    (s : State W) (table : ℕ) (page : VirtualPage) :
    ((s.addFilePage table page).heap table).vps = (s.heap table).vps ++ [page] := by
  simp [State.addFilePage, State.addPage, State.setEntry]

theorem Represents.mapsName
    {f : Flat} {pid : ℕ} (h : Represents store c f) (hcurrent : c.current = some pid)
    (htable : c.state.tables pid = some table)
    (hroom : (c.state.heap table).cnt < maxPageNum) (hpointer : pointer.toNat < 2 ^ 47)
    (block : ℕ) :
    ∃ result s, c.state.vmMap io (some pointer) block = some (result, s) ∧
      MapsName store c table pointer block result s := by
  have hinvariant := h.invariant
  obtain ⟨table', hcur, htable', _, hptbr⟩ := hinvariant.exists_table hcurrent
  obtain rfl : table' = table := Option.some.inj (htable'.symm.trans htable)
  have hzero : pointer + UInt64.ofNat 0 = pointer := UInt64.add_zero pointer
  have hfuel : vmArenaSize - arenaDistance (pointer + UInt64.ofNat 0) < vmArenaSize + 1 :=
    Nat.lt_succ_of_le (Nat.sub_le _ _)
  have hnames : ∀ full s',
      c.state.readFilename io table' pointer (vmArenaSize + 1) 0 [] =
          some (some full, s') ↔
        ∃ name, full = name ++ [0] ∧ NameIn store c.state table' pointer name ∧
          Loads io table' (namePages pointer name.length) c.state s' := by
    intro full s'
    rw [readFilename_iff store hinvariant.coherent hinvariant.tables hcur h.stored
      (by rw [hzero]; omega) hfuel]
    simp only [hzero, List.nil_append]
  obtain ⟨found, t, hfound, hpages⟩ : ∃ found t,
      c.state.readFilename io table' pointer (vmArenaSize + 1) 0 [] = some (found, t) ∧
        ReadPages c.state t :=
    readFilename_spec io hinvariant.coherent hinvariant.tables hcur hfuel
  have hsame := SameTables.of_arenas hpages.arenas
  have hcall : c.state.vmMap io (some pointer) block =
      found.elim (some (none, t)) (t.mapFile table' block) := by
    rw [State.vmMap, hcur, Option.bind_some, if_neg (Nat.not_le_of_lt hroom)]
    simp only [hfound, Option.bind_some]
    cases found <;> rfl
  cases found with
  | none =>
      refine ⟨none, t, hcall, fun _ _ _ => h.loadByte hcurrent htable, ?_,
        fun _ _ hsome => absurd rfl hsome⟩
      refine iff_of_false (fun hsome => hsome rfl) ?_
      rintro ⟨name, s', hname, hloads⟩
      have hrun := (hnames _ s').mpr ⟨name, rfl, hname, hloads⟩
      rw [hfound] at hrun
      cases hrun
  | some full =>
      obtain ⟨name, rfl, hname, hloads⟩ := (hnames full t).mp hfound
      have hmap : t.mapFile table' block (name ++ [0]) =
          some (some (State.newAddr (c.state.heap table').cnt), t.addFilePage table'
            ⟨(table', (c.state.heap table').cnt), blockId name block⟩) := by
        rw [State.mapFile, hsame.pageTableBaseRegister, hptbr, hsame.heap]
        rfl
      refine ⟨_, _, hcall.trans hmap, fun _ _ _ => h.loadByte hcurrent htable,
        iff_of_true (Option.some_ne_none _) ⟨name, t, hname, hloads⟩,
        fun name' hname' _ => ⟨rfl, ?_⟩⟩
      rw [addFilePage_vps, hsame.heap, hname'.unique hname]

variable (store) in
/-- The names `vm_map` reads, in every state of a legal run. -/
theorem mapsName_of_reachable
    {memoryPages swapBlocks pid : ℕ} {physmem : ℕ → Byte} {entries : EntryRef → Entry}
    {world : W} (hlower : 2 ≤ memoryPages) (hupper : memoryPages ≤ 65536)
    (hreach : (system io).Reachable
      (Config.init memoryPages swapBlocks physmem entries world) c)
    (hcurrent : c.current = some pid) (htable : c.state.tables pid = some table)
    (hroom : (c.state.heap table).cnt < maxPageNum) (hpointer : pointer.toNat < 2 ^ 47)
    (block : ℕ) :
    ∃ result s, c.state.vmMap io (some pointer) block = some (result, s) ∧
      MapsName store c table pointer block result s := by
  obtain ⟨f, hf⟩ := represents_of_reachable store hlower hupper hreach
  exact hf.mapsName hcurrent htable hroom hpointer block

/-- A process stores a name of one byte in its first page and maps that file. -/
theorem mapsName_of_stored_name :
    ∃ c result s, (system blockFiles).Reachable (freshConfig 2 1) c ∧
      c.state.vmMap blockFiles (some vmArenaBaseaddr) 3 = some (result, s) ∧
      result = some (State.newAddr 1) ∧
      (∃ vps, (s.heap 0).vps = vps ++ [⟨(0, 1), blockId [97] 3⟩]) ∧
      MapsName blockFilesStore c 0 vmArenaBaseaddr 3 result s := by
  have hstart : (system blockFiles).Reachable (freshConfig 2 1) (freshConfig 2 1) :=
    .refl
  have hcreate := hstart.step
    (@Step.create _ blockFiles (freshConfig 2 1) 0 7 _ _ (by decide) rfl)
  have hswitch := hcreate.step (@Step.switch _ blockFiles _ 7 _ (by decide) rfl)
  have hmap := hswitch.step (@Step.map _ blockFiles _ none 0 7 _ _ rfl rfl)
  have hfault := hmap.step
    (@Step.fault _ blockFiles _ vmArenaBaseaddr true _ 7 _ rfl rfl)
  have hstore := hfault.step
    (@Step.store _ blockFiles _ vmArenaBaseaddr 97 7 0 ⟨1, true, true⟩ rfl rfl rfl)
  have hpointer : vmArenaBaseaddr.toNat < 2 ^ 47 := by decide
  obtain ⟨result, s, hcall, hmaps⟩ := mapsName_of_reachable blockFilesStore
    (by decide) (by decide) hstore rfl rfl (by decide) hpointer 3
  have hsome : result = some (State.newAddr 1) := by
    cases hcall
    rfl
  have hresult : result ≠ none := hsome ▸ Option.some_ne_none _
  refine ⟨_, result, s, hstore, hcall, hsome,
    ⟨_, (hmaps.mapped [97] ⟨by decide, rfl, ?_⟩ hresult).2⟩, hmaps⟩
  change loadByte blockFilesStore _ 0 (vmArenaBaseaddr + 1) = some 0
  decide +kernel

end Pager
end Eecs482
