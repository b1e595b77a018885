import Eecs482.PagerContents

/-!
# The file name `vm_map` reads

`vm_map` reads the name of a file from the arena of the process, character by
character through the page table, while it makes the pages readable one after
the other.  The characters are the bytes that were there when the call began.
-/

namespace Eecs482
namespace Pager

variable {W : Type} {io : FileIo W} {store : BlockStore io}
variable {s s' : State W} {vp : VirtualPage} {table : ℕ}

variable (store) in
/-- The byte at an offset of a page of `table`. -/
def pageByte (s : State W) (table index offset : ℕ) : Option Byte :=
  (s.heap table).vps[index]?.bind fun vp =>
    if h : offset < vmPagesize then some (content store s vp.id ⟨offset, h⟩)
    else none

theorem pageOffset_toNat (addr : UInt64) :
    (pageOffset addr).toNat = (addr - vmArenaBaseaddr).toNat % vmPagesize := by
  have hshift : (vpn addr <<< 16).toUInt64.toNat =
      (vpn addr).toNat * 2 ^ 16 % 2 ^ 32 := by
    rw [UInt32.toNat_toUInt64, UInt32.toNat_shiftLeft, Nat.shiftLeft_eq]
    rfl
  rw [pageOffset, UInt64.toNat_toUInt32, UInt64.toNat_sub, hshift, vpn_toNat]
  have hlt := (addr - vmArenaBaseaddr).toNat_lt
  change (2 ^ 64 - (addr - vmArenaBaseaddr).toNat / 65536 % 2 ^ 32 * 2 ^ 16 % 2 ^ 32 +
    (addr - vmArenaBaseaddr).toNat) % 2 ^ 64 % 2 ^ 32 =
      (addr - vmArenaBaseaddr).toNat % 65536
  omega

theorem pageOffset_lt (addr : UInt64) : (pageOffset addr).toNat < vmPagesize := by
  rw [pageOffset_toNat]
  exact Nat.mod_lt _ (by decide)

variable (store) in
/-- A permitted access finds the byte of the page in its frame. -/
theorem physmem_eq_content
    {P : Set VirtualPage} {offset : ℕ} (hprotect : Protected P s)
    (hvp : vp ∈ P) (hread : (s.entries vp.entry).readEnable = true)
    (hoffset : offset < vmPagesize) :
    s.physmem (frameByte (s.entries vp.entry).ppage offset) =
      content store s vp.id ⟨offset, hoffset⟩ := by
  have hmatches := hprotect vp hvp
  cases hplace : s.peerInPhys vp.id with
  | none =>
      rw [((matches_none hplace).mp hmatches).1] at hread
      cases hread
  | some ppage =>
      rw [hmatches.ppage hplace, content_of_some hplace]
      rfl

theorem SameContents.pageByte
    {P : Set VirtualPage} (hcontents : SameContents store s s')
    (hheap : s'.heap = s.heap) (hcanonical : ∀ vp ∈ P, vp.id.Canonical)
    (hpages : ∀ vp ∈ (s.heap table).vps, vp ∈ P) (index offset : ℕ) :
    pageByte store s' table index offset = pageByte store s table index offset := by
  rw [Pager.pageByte, Pager.pageByte, hheap]
  cases hpage : (s.heap table).vps[index]? with
  | none => rfl
  | some vp =>
      have hvp := hpages vp (List.mem_of_getElem? hpage)
      simp only [Option.bind_some]
      rw [hcontents vp.id (hcanonical vp hvp)]

/-- The address `vm_map` forms for a character does not wrap. -/
theorem name_byte_address
    (hcoherent : Coherent s.pages s) (hmemory : s.numMemoryPages ≤ 2 ^ 16)
    (hvp : vp ∈ s.pages) (hread : (s.entries vp.entry).readEnable = true)
    (addr : UInt64) :
    (frameStart (s.entries vp.entry).ppage + (pageOffset addr).toNat) % 2 ^ 32 =
      frameByte (s.entries vp.entry).ppage (pageOffset addr).toNat := by
  have hoffset := pageOffset_lt addr
  have hmatches := hcoherent.protect vp hvp
  have hlt : (s.entries vp.entry).ppage < s.numMemoryPages := by
    cases hplace : s.peerInPhys vp.id with
    | none =>
        rw [((matches_none hplace).mp hmatches).1] at hread
        cases hread
    | some ppage =>
        rw [hmatches.ppage hplace]
        exact hcoherent.frames.resident_lt hplace
  rw [frameStart_of_lt (hlt.trans_le hmemory), frameByte]
  change _ < 65536 at hoffset
  change (_ * 65536 + _) % 2 ^ 32 = _ * 65536 + _
  omega

/-- A fault on a page of some process changes no page of any process. -/
theorem stored_vmFault
    {addr : UInt64} {write ok : Bool} (hcoherent : Coherent s.pages s)
    (htables : Tables s) (hcur : s.curTable = some table)
    (hstored : Stored store ∅ s.pages s)
    (hrun : s.vmFault io addr write = some (ok, s')) :
    Stored store ∅ s.pages s' ∧ SameContents store s s' := by
  obtain ⟨ok', t, hrun', hcases⟩ := vmFault_spec io hcoherent htables hcur addr write
  rw [hrun] at hrun'
  cases hrun'
  rcases hcases with ⟨_, _, rfl⟩ | ⟨vp, _, _, hvp, hfault, _, _⟩
  · exact ⟨hstored, .refl⟩
  · exact stored_faultPage hcoherent hstored hvp hfault

variable (store) in
/-- The bytes from the `temp`-th character on are `name` and a NUL. -/
def NameAt (s : State W) (table : ℕ) (pointer : UInt64) (temp : ℕ) (name : Name) :
    Prop :=
  (∀ k (hk : k < name.length), name[k] ≠ 0 ∧
    pageByte store s table (vpn (pointer + UInt64.ofNat (temp + k))).toNat
      (pageOffset (pointer + UInt64.ofNat (temp + k))).toNat = some name[k]) ∧
  pageByte store s table (vpn (pointer + UInt64.ofNat (temp + name.length))).toNat
    (pageOffset (pointer + UInt64.ofNat (temp + name.length))).toNat = some 0

theorem NameAt.cons
    {pointer : UInt64} {temp : ℕ} {byte : Byte} {name : Name} (hbyte : byte ≠ 0)
    (hfirst : pageByte store s table (vpn (pointer + UInt64.ofNat temp)).toNat
      (pageOffset (pointer + UInt64.ofNat temp)).toNat = some byte)
    (hrest : NameAt store s table pointer (temp + 1) name) :
    NameAt store s table pointer temp (byte :: name) := by
  refine ⟨fun k hk => ?_, ?_⟩
  · cases k with
    | zero => exact ⟨hbyte, hfirst⟩
    | succ k =>
        have hnext := hrest.1 k (by simpa using hk)
        rw [Nat.add_assoc, Nat.add_comm 1 k] at hnext
        exact hnext
  · have hlast := hrest.2
    rw [Nat.add_assoc, Nat.add_comm 1] at hlast
    exact hlast

/-- What the loop over the file name leaves and finds. -/
structure NameRead (store : BlockStore io) (table : ℕ) (pointer : UInt64) (temp : ℕ)
    (read : Name) (s : State W) (name : Option Name) (s' : State W) : Prop where
  stored : Stored store ∅ s.pages s'
  same : SameContents store s s'
  found : ∀ full, name = some full →
    ∃ rest, full = read ++ rest ++ [0] ∧ NameAt store s table pointer temp rest

theorem stored_readable
    {ok : Bool} {addr : UInt64} (hcoherent : Coherent s.pages s)
    (htables : Tables s) (hcur : s.curTable = some table)
    (hstored : Stored store ∅ s.pages s)
    (hread : (if (s.entries vp.entry).readEnable then some (true, s)
      else s.vmFault io addr false) = some (ok, s')) :
    Stored store ∅ s.pages s' ∧ SameContents store s s' := by
  split at hread
  case isTrue =>
      cases hread
      exact ⟨hstored, .refl⟩
  case isFalse => exact stored_vmFault hcoherent htables hcur hstored hread

/-- One round of the loop, for a character in a valid page: the page is made
readable, and the character is the byte of the page. -/
structure Round (store : BlockStore io) (table : ℕ) (pointer : UInt64) (s : State W)
    (temp : ℕ) (ok : Bool) (t : State W) : Prop extends ReadPages s t where
  stored : Stored store ∅ s.pages t
  same : SameContents store s t
  reading :
    (if (s.entries (table, (vpn (pointer + UInt64.ofNat temp)).toNat)).readEnable then
      some (true, s) else s.vmFault io (pointer + UInt64.ofNat temp) false) =
    some (ok, t)
  failed : ok = false → ∀ fuel read,
    s.readFilename io table pointer (fuel + 1) temp read = some (none, t)
  read : ok = true →
    (t.entries (table, (vpn (pointer + UInt64.ofNat temp)).toNat)).readEnable = true ∧
    ∃ byte, pageByte store s table (vpn (pointer + UInt64.ofNat temp)).toNat
        (pageOffset (pointer + UInt64.ofNat temp)).toNat = some byte ∧
      ∀ fuel read, s.readFilename io table pointer (fuel + 1) temp read =
        if byte = 0 then some (some (read ++ [byte]), t)
        else t.readFilename io table pointer fuel (temp + 1) (read ++ [byte])

theorem exists_round
    {pointer : UInt64} {temp : ℕ} (hcoherent : Coherent s.pages s) (htables : Tables s)
    (hcur : s.curTable = some table) (hstored : Stored store ∅ s.pages s)
    (hvalid : (vpn (pointer + UInt64.ofNat temp)).toNat < (s.heap table).cnt) :
    ∃ ok t, Round store table pointer s temp ok t := by
  obtain ⟨_, pid, _, htable⟩ := htables.current table hcur
  have hlength := htables.length pid table htable
  generalize haddress : pointer + UInt64.ofNat temp = addr at *
  have hlt : (vpn addr).toNat < (s.heap table).vps.length := by omega
  have hpage := List.getElem?_eq_getElem hlt
  generalize (s.heap table).vps[(vpn addr).toNat] = vp at hpage
  have hvp : vp ∈ s.pages := ⟨pid, table, htable, List.mem_of_getElem? hpage⟩
  have hentry := htables.entry pid table htable _ vp hpage
  obtain ⟨ok, t, hread, hpages, hreadable⟩ :=
    readable_spec io hcoherent htables hcur hpage hvalid
  obtain ⟨hstored', hsame⟩ := stored_readable hcoherent htables hcur hstored hread
  have hsameTables := SameTables.of_arenas hpages.arenas
  refine ⟨ok, t, hpages, hstored', hsame, ?_, ?_, ?_⟩
  · rw [haddress, ← hentry]
    exact hread
  · rintro rfl fuel read
    rw [State.readFilename, haddress, if_neg (Nat.not_le_of_lt hvalid), hpage,
      Option.bind_some, hread]
    rfl
  · rintro rfl
    have henable := hreadable rfl
    have hbyte : pageByte store s table (vpn addr).toNat (pageOffset addr).toNat =
        some (t.physmem ((frameStart (t.entries vp.entry).ppage +
          (pageOffset addr).toNat) % 2 ^ 32)) := by
      rw [name_byte_address (hsameTables.pages.symm ▸ hpages.coherent) hstored'.memory
          (hsameTables.pages.symm ▸ hvp) henable addr,
        physmem_eq_content store hpages.protect hvp henable (pageOffset_lt addr),
        hsame _ (hstored.canonical vp hvp)]
      rw [pageByte, hpage, Option.bind_some, dif_pos (pageOffset_lt addr)]
    rw [haddress]
    refine ⟨hentry ▸ henable, _, hbyte, fun fuel read => ?_⟩
    rw [State.readFilename, haddress, if_neg (Nat.not_le_of_lt hvalid), hpage,
      Option.bind_some, hread]
    rfl

/-- The loop reads the bytes that were in memory when it started. -/
theorem nameRead_readFilename
    {pointer : UInt64} {fuel temp : ℕ} {read : Name} {name : Option Name}
    (hcoherent : Coherent s.pages s) (htables : Tables s)
    (hcur : s.curTable = some table) (hstored : Stored store ∅ s.pages s)
    (hrun : s.readFilename io table pointer fuel temp read = some (name, s')) :
    NameRead store table pointer temp read s name s' := by
  induction fuel generalizing s temp read with
  | zero => cases hrun
  | succ fuel ih =>
      by_cases hvalid :
          (vpn (pointer + UInt64.ofNat temp)).toNat < (s.heap table).cnt
      case neg =>
          rw [State.readFilename, if_pos (Nat.le_of_not_lt hvalid)] at hrun
          cases hrun
          exact ⟨hstored, .refl, (by simp)⟩
      obtain ⟨ok, t, hround⟩ := exists_round hcoherent htables hcur hstored hvalid
      cases ok with
      | false =>
          rw [hround.failed rfl] at hrun
          cases hrun
          exact ⟨hround.stored, hround.same, (by simp)⟩
      | true =>
          obtain ⟨_, byte, hbyte, hnext⟩ := hround.read rfl
          rw [hnext] at hrun
          by_cases hnul : byte = 0
          case pos =>
              rw [if_pos hnul] at hrun
              cases hrun
              refine ⟨hround.stored, hround.same, ?_⟩
              rintro full ⟨⟩
              refine ⟨[], by rw [hnul, List.append_nil], (by simp), ?_⟩
              rw [hnul] at hbyte
              exact hbyte
          case neg =>
              obtain ⟨_, pid, _, htable⟩ := htables.current table hcur
              have hsame := SameTables.of_arenas hround.arenas
              rw [if_neg hnul] at hrun
              have hrest := ih (hsame.pages.symm ▸ hround.coherent)
                (htables.of_same hsame) (hsame.curTable.trans hcur)
                (hsame.pages.symm ▸ hround.stored) hrun
              refine ⟨hsame.pages ▸ hrest.stored, hround.same.trans hrest.same, ?_⟩
              intro full hfull
              obtain ⟨rest, hfull, hname⟩ := hrest.found full hfull
              refine ⟨byte :: rest, ?_, NameAt.cons hnul hbyte ?_⟩
              · rw [hfull, List.append_cons read byte rest]
              · have hbytes := hround.same.pageByte hsame.heap hstored.canonical
                  (fun vp hvp => ⟨pid, table, htable, hvp⟩)
                unfold NameAt at hname ⊢
                simpa only [hbytes] using hname

end Pager
end Eecs482
