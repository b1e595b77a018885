import Mathlib.Data.Prod.Basic
import Mathlib.Data.Sum.Order
import Eecs482.OrderedMap
import Eecs482.PagerInvariant

/-!
# The order of file ids

`peer_in_phys` and `peer_map` are ordered by a comparison of file ids which
looks at the file name for pages of files only.  It ranks a file id by the page
of the backing store which it denotes.
-/

namespace Eecs482
namespace Pager

open Relation

/-! ## The comparison -/

/-- `file_id::operator<`, which compares strings by their bytes as unsigned
characters. -/
def FileId.lt (id id' : FileId) : Bool :=
  if id.swapBacked && id'.swapBacked then decide (id.block < id'.block)
  else if !id.swapBacked && !id'.swapBacked then
    if id.filename ≠ id'.filename then decide (id.filename < id'.filename)
    else decide (id.block < id'.block)
  else if id.swapBacked && !id'.swapBacked then false
  else true

instance : LT FileId where
  lt id id' := id.lt id' = true

instance : DecidableRel (α := FileId) (· < ·) :=
  fun id id' => inferInstanceAs (Decidable (id.lt id' = true))

/-- Both denote the same block of the swap file, or the same block of the same
file. -/
def FileId.SamePage (id id' : FileId) : Prop :=
  (id.swapBacked = true ∧ id'.swapBacked = true ∧ id.block = id'.block) ∨
    (id.swapBacked = false ∧ id'.swapBacked = false ∧
      id.filename = id'.filename ∧ id.block = id'.block)

/-- A block of a file, or a block of the swap file. -/
abbrev BackingPage := (Name × ℕ) ⊕ ℕ

def FileId.backingPage (id : FileId) : BackingPage :=
  if id.swapBacked then .inr id.block else .inl (id.filename, id.block)

/-- Pages of files by name and block, then the pages of the swap file. -/
abbrev PageLess : BackingPage → BackingPage → Prop :=
  Sum.Lex (Prod.Lex (· < ·) (· < ·)) (· < ·)

theorem FileId.lt_iff (id id' : FileId) :
    id < id' ↔ PageLess id.backingPage id'.backingPage := by
  change id.lt id' = true ↔ _
  obtain ⟨filename, block, swapBacked⟩ := id
  obtain ⟨filename', block', swapBacked'⟩ := id'
  cases swapBacked <;> cases swapBacked'
  · by_cases hname : filename = filename'
    · simp [lt, backingPage, PageLess, Prod.lex_iff, hname]
    · simp [lt, backingPage, PageLess, Prod.lex_iff, hname]
  · simp [lt, backingPage, PageLess]
  · simp [lt, backingPage, PageLess]
  · simp [lt, backingPage, PageLess]

theorem FileId.backingPage_eq_iff (id id' : FileId) :
    id.backingPage = id'.backingPage ↔ id.SamePage id' := by
  rw [SamePage, backingPage, backingPage]
  cases id.swapBacked <;> cases id'.swapBacked <;> simp

instance : IsStrictWeakOrder FileId (· < ·) :=
  isStrictWeakOrder_of_rank FileId.lt_iff

theorem FileId.incompRel_iff_samePage (id id' : FileId) :
    IncompRel (· < ·) id id' ↔ id.SamePage id' :=
  (incompRel_iff_rank_eq lt_iff id id').trans (backingPage_eq_iff id id')

/-- The comparison is a strict weak order, and it does not tell two file ids
apart exactly when they denote the same page. -/
theorem FileId.pageOrder :
    IsStrictWeakOrder FileId (· < ·) ∧
      ∀ id id' : FileId, (¬id < id' ∧ ¬id' < id) ↔ id.SamePage id' :=
  ⟨inferInstance, incompRel_iff_samePage⟩

/-! ## The keys of the maps -/

/-- The file ids which the pager makes: that of a page of the swap file has no
name. -/
def properIds : Set FileId :=
  {id | id.swapBacked = true → id.filename = []}

/-- The maps take no two pages for one. -/
theorem separates_properIds : Separates (· < ·) properIds := by
  intro id hid id' hid' hincomp
  obtain ⟨filename, block, swapBacked⟩ := id
  obtain ⟨filename', block', swapBacked'⟩ := id'
  rcases (FileId.incompRel_iff_samePage _ _).mp hincomp with
    ⟨hswap, hswap', hblock⟩ | ⟨hfile, hfile', hname, hblock⟩
  · obtain rfl : filename = [] := hid hswap
    obtain rfl : filename' = [] := hid' hswap'
    simp_all
  · simp_all

variable {W : Type} {io : FileIo W} {s s' : State W} {vp : VirtualPage}
variable {c c' : Config W} {event : Event} {table ppage : ℕ} {rest : List ℕ}

theorem Coherent.mem_properIds
    {P : Set VirtualPage} (h : Coherent P s) (hvp : vp ∈ P) : vp.id ∈ properIds :=
  h.swap.unnamed vp hvp

/-- The entries of both maps are changed one by one. -/
structure Rekeyed (s s' : State W) : Prop where
  peerInPhys : ReflTransGen (Updates properIds none) s.peerInPhys s'.peerInPhys
  peerMap : ReflTransGen (Updates properIds ∅) s.peerMap s'.peerMap

theorem Rekeyed.refl : Rekeyed s s :=
  ⟨.refl, .refl⟩

theorem Rekeyed.trans
    {s'' : State W} (h : Rekeyed s s') (h' : Rekeyed s' s'') : Rekeyed s s'' :=
  ⟨h.peerInPhys.trans h'.peerInPhys, h.peerMap.trans h'.peerMap⟩

theorem Rekeyed.of_eq
    (hplace : s'.peerInPhys = s.peerInPhys) (hpeers : s'.peerMap = s.peerMap) :
    Rekeyed s s' := by
  constructor
  · rw [hplace]
  · rw [hpeers]

theorem Rekeyed.of_arenas
    (hplace : s'.peerInPhys = s.peerInPhys) (harenas : s'.arenas = s.arenas) :
    Rekeyed s s' :=
  .of_eq hplace (congrArg Arenas.peerMap harenas)

/-- One page comes into memory or leaves it. -/
theorem Rekeyed.place
    {id : FileId} {place : Option ℕ} (hid : id ∈ properIds ∨ s.peerInPhys id ≠ none)
    (hplace : s'.peerInPhys = Function.update s.peerInPhys id place)
    (hpeers : s'.peerMap = s.peerMap) : Rekeyed s s' := by
  constructor
  · exact .single ⟨id, place, hid, hplace⟩
  · rw [hpeers]

/-- One virtual page joins its peers or leaves them. -/
theorem Rekeyed.peers
    {id : FileId} {peers : Finset VirtualPage} (hid : id ∈ properIds)
    (hplace : s'.peerInPhys = s.peerInPhys)
    (hpeers : s'.peerMap = Function.update s.peerMap id peers) : Rekeyed s s' := by
  constructor
  · rw [hplace]
  · exact .single ⟨id, peers, .inl hid, hpeers⟩

/-! ## Page faults -/

theorem rekeyed_getFreePhysicalPageLoop
    {fuel : ℕ} (hframes : Frames s)
    (hrun : State.getFreePhysicalPageLoop io fuel s = some s') : Rekeyed s s' := by
  induction fuel generalizing s with
  | zero => cases hrun
  | succ fuel ih =>
      rw [State.getFreePhysicalPageLoop] at hrun
      split at hrun
      case isTrue =>
          cases hrun
          exact .refl
      case isFalse =>
          split at hrun
          case h_1 => cases hrun
          case h_2 ppage rest hclock =>
              split at hrun
              case isTrue =>
                  have hpassed : Rekeyed s (s.passOver ppage rest) := .of_eq rfl rfl
                  exact hpassed.trans (ih (hframes.passOver hclock) hrun)
              case isFalse =>
                  cases hrun
                  have howner := hframes.owner ppage (by simp [hclock])
                  exact .place (.inr (by simp [howner])) rfl rfl

theorem rekeyed_copyInto : Rekeyed s (s.copyInto vp ppage) :=
  .of_arenas (copyInto_peerInPhys ppage) (copyInto_arenas ppage)

theorem rekeyed_readInto : Rekeyed s (s.readInto io vp ppage).2 :=
  .of_arenas (readInto_peerInPhys ppage) (readInto_arenas ppage)

theorem rekeyed_install (hid : vp.id ∈ properIds) :
    Rekeyed s (s.install vp ppage rest) :=
  .place (.inl hid) rfl rfl

theorem rekeyed_setPhysicalPage
    {ok : Bool} (hid : vp.id ∈ properIds)
    (hrun : s.setPhysicalPage io vp = some (ok, s')) : Rekeyed s s' := by
  unfold State.setPhysicalPage at hrun
  split at hrun
  · cases hrun
  · split at hrun
    · cases hrun
      exact rekeyed_copyInto.trans (rekeyed_install hid)
    · simp only at hrun
      split at hrun
      · cases hrun
        exact rekeyed_readInto.trans (rekeyed_install hid)
      · cases hrun
        exact rekeyed_readInto

theorem rekeyed_bringIn
    {ok : Bool} (hframes : Frames s) (hid : vp.id ∈ properIds)
    (hrun : s.bringIn io vp = some (ok, s')) : Rekeyed s s' := by
  obtain ⟨t, hget, hset⟩ := Option.bind_eq_some_iff.mp hrun
  exact (rekeyed_getFreePhysicalPageLoop hframes hget).trans
    (rekeyed_setPhysicalPage hid hset)

theorem rekeyed_faultPage
    {write ok : Bool} (hframes : Frames s) (hid : vp.id ∈ properIds)
    (hrun : s.faultPage io vp write = some (ok, s')) : Rekeyed s s' := by
  obtain ⟨⟨served, t⟩, hbranch, hfinish⟩ := Option.map_eq_some_iff.mp hrun
  have ht : Rekeyed s t := by
    cases write with
    | true =>
        rw [if_pos rfl, State.writeFault] at hbranch
        split at hbranch
        · obtain ⟨⟨loaded, u⟩, hbring, hmark⟩ := Option.map_eq_some_iff.mp hbranch
          have hu := rekeyed_bringIn hframes hid hbring
          cases loaded <;> cases hmark <;> exact hu.trans (.of_eq rfl rfl)
        · cases hbranch
          exact .of_eq rfl rfl
    | false =>
        rw [if_neg Bool.false_ne_true, State.readFault] at hbranch
        split at hbranch
        · exact rekeyed_bringIn hframes hid hbranch
        · split at hbranch <;> cases hbranch <;> exact .of_eq rfl rfl
  cases served <;> cases hfinish <;> exact ht.trans (.of_eq rfl rfl)

theorem rekeyed_vmFault
    {addr : UInt64} {write ok : Bool} (hcoherent : Coherent s.pages s)
    (htables : Tables s) (hcur : s.curTable = some table)
    (hrun : s.vmFault io addr write = some (ok, s')) : Rekeyed s s' := by
  obtain ⟨ok', t, hrun', hcases⟩ := vmFault_spec io hcoherent htables hcur addr write
  rw [hrun] at hrun'
  cases hrun'
  rcases hcases with ⟨_, _, rfl⟩ | ⟨vp, _, _, hvp, hfault, _, _⟩
  · exact .refl
  · exact rekeyed_faultPage hcoherent.frames (hcoherent.mem_properIds hvp) hfault

/-! ## Mapping and destroying pages -/

theorem rekeyed_readFilename
    {pointer : UInt64} {fuel temp : ℕ} {read : Name} {name : Option Name}
    (hcoherent : Coherent s.pages s) (htables : Tables s)
    (hcur : s.curTable = some table)
    (hrun : s.readFilename io table pointer fuel temp read = some (name, s')) :
    Rekeyed s s' := by
  induction fuel generalizing s temp read with
  | zero => cases hrun
  | succ fuel ih =>
      rw [State.readFilename] at hrun
      split at hrun
      case isTrue =>
          cases hrun
          exact .refl
      case isFalse hvalid =>
          obtain ⟨page, hpage, hrun⟩ := Option.bind_eq_some_iff.mp hrun
          obtain ⟨⟨ok, t⟩, hread, hrun⟩ := Option.bind_eq_some_iff.mp hrun
          obtain ⟨ok', t', hread', hpages, _⟩ := readable_spec io hcoherent htables
            hcur hpage (Nat.lt_of_not_le hvalid)
          rw [hread] at hread'
          cases hread'
          have ht : Rekeyed s t := by
            split at hread
            case isTrue =>
                cases hread
                exact .refl
            case isFalse => exact rekeyed_vmFault hcoherent htables hcur hread
          have hsame := SameTables.of_arenas hpages.arenas
          simp only at hrun
          split at hrun
          · split at hrun
            · cases hrun
              exact ht
            · exact ht.trans (ih (hsame.pages.symm ▸ hpages.coherent)
                (htables.of_same hsame) (hsame.curTable.trans hcur) hrun)
          · cases hrun
            exact ht

theorem rekeyed_addSwapPage {page : VirtualPage} (hid : page.id ∈ properIds) :
    Rekeyed s (s.addSwapPage table page rest) := by
  have hadd : Rekeyed s (s.addPage table page) := .peers hid rfl rfl
  exact hadd.trans (.place (.inl hid) rfl rfl)

theorem rekeyed_addFilePage {page : VirtualPage} (hid : page.id ∈ properIds) :
    Rekeyed s (s.addFilePage table page) :=
  .peers hid rfl rfl

theorem rekeyed_vmMap
    {filename : Option UInt64} {block : ℕ} {result : Option UInt64}
    (hcoherent : Coherent s.pages s) (htables : Tables s)
    (hcur : s.curTable = some table)
    (hrun : s.vmMap io filename block = some (result, s')) : Rekeyed s s' := by
  obtain ⟨hptbr, _⟩ := htables.current table hcur
  have hmapped : Mapped (fun _ _ => Rekeyed) table s filename block result s' :=
    vmMap_cases hcur hptbr
      (fun _ _ _ => rekeyed_readFilename hcoherent htables hcur) hrun
  cases hmapped with
  | refused => exact .refl
  | unreadable hread => exact hread
  | swap => exact rekeyed_addSwapPage fun _ => rfl
  | file hread =>
      refine hread.trans (rekeyed_addFilePage fun hswap => ?_)
      cases hswap

theorem rekeyed_destroyPage (hid : vp.id ∈ properIds) :
    Rekeyed s (s.destroyPage vp) := by
  have hdropped : Rekeyed s (dropPeer vp s) := .peers hid rfl rfl
  rw [destroyPage_eq]
  simp only
  split
  · split
    · exact hdropped.trans (.place (.inl hid) rfl rfl)
    · exact hdropped.trans (.of_eq rfl rfl)
  · split
    · exact hdropped.trans (.place (.inl hid) rfl rfl)
    · exact hdropped

theorem rekeyed_destroyPages
    {pages : List VirtualPage} (hids : ∀ vp ∈ pages, vp.id ∈ properIds) :
    Rekeyed s (pages.foldl State.destroyPage s) := by
  induction pages generalizing s with
  | nil => exact .refl
  | cons vp pages ih =>
      have hvp : Rekeyed s (s.destroyPage vp) :=
        rekeyed_destroyPage (hids vp List.mem_cons_self)
      exact hvp.trans (ih fun other hother => hids other (List.mem_cons_of_mem _ hother))

/-! ## Runs -/

theorem rekeyed_step (h : Invariant c) (hstep : Step io c event c') :
    Rekeyed c.state c'.state := by
  cases hstep with
  | @create parent child ok s _ hcall =>
      rw [State.vmCreate] at hcall
      split at hcall
      · split at hcall
        · cases hcall
          exact .refl
        · cases hcall
          exact .of_eq rfl rfl
      · cases hcall
        exact .of_eq rfl rfl
  | switch _ hcall =>
      rw [State.vmSwitch] at hcall
      split at hcall
      · obtain ⟨table, _, rfl⟩ := Option.map_eq_some_iff.mp hcall
        exact .of_eq rfl rfl
      · cases hcall
        exact .refl
  | fault hcurrent hcall =>
      obtain ⟨table, hcur, _⟩ := h.toProcesses.exists_table hcurrent
      exact rekeyed_vmFault h.coherent h.tables hcur hcall
  | map hcurrent hcall =>
      obtain ⟨table, hcur, _⟩ := h.toProcesses.exists_table hcurrent
      exact rekeyed_vmMap h.coherent h.tables hcur hcall
  | @destroy pid s hcurrent hcall =>
      obtain ⟨table, hcur, htable, _⟩ := h.toProcesses.exists_table hcurrent
      rw [vmDestroy_eq hcur] at hcall
      cases hcall
      have hids : ∀ vp ∈ (c.state.heap table).vps, vp.id ∈ properIds :=
        fun vp hvp => h.coherent.mem_properIds ⟨pid, table, htable, hvp⟩
      exact (rekeyed_destroyPages hids).trans (.of_eq rfl rfl)
  | load => exact .refl
  | store => exact .of_eq rfl rfl

/-- `map<file_id, unsigned int>`. -/
abbrev PlaceMap := OrderedMap FileId ℕ (· < ·)

/-- `map<file_id, set<virtual_page *>>`. -/
abbrev PeerMap := OrderedMap FileId (Finset VirtualPage) (· < ·)

/-- The maps of the source, and the functions that stand for them. -/
structure Keyed (s : State W) (peerInPhys : PlaceMap) (peerMap : PeerMap) : Prop where
  peerInPhys : Agrees properIds id peerInPhys s.peerInPhys
  peerMap : Agrees properIds (Option.getD · ∅) peerMap s.peerMap

theorem keyed_init
    (memoryPages swapBlocks : ℕ) (physmem : ℕ → Byte) (entries : EntryRef → Entry)
    (world : W) :
    Keyed (Config.init memoryPages swapBlocks physmem entries world).state ∅ ∅ :=
  ⟨agrees_empty, agrees_empty⟩

/-- The maps follow the pager. -/
theorem Keyed.rekeyed
    {peerInPhys : PlaceMap} {peerMap : PeerMap} (h : Keyed s peerInPhys peerMap)
    (hrekeyed : Rekeyed s s') :
    ∃ peerInPhys' peerMap', ReflTransGen (Edits properIds) peerInPhys peerInPhys' ∧
      ReflTransGen (Edits properIds) peerMap peerMap' ∧
      Keyed s' peerInPhys' peerMap' := by
  have hgetD : Function.Surjective
      (Option.getD · ∅ : Option (Finset VirtualPage) → Finset VirtualPage) :=
    fun peers => ⟨some peers, rfl⟩
  obtain ⟨peerInPhys', hplaces, hagrees⟩ := h.peerInPhys.updates
    Function.surjective_id separates_properIds hrekeyed.peerInPhys
  obtain ⟨peerMap', hpeers, hagrees'⟩ := h.peerMap.updates
    hgetD separates_properIds hrekeyed.peerMap
  exact ⟨peerInPhys', peerMap', hplaces, hpeers, hagrees, hagrees'⟩

/-- Maps filled and emptied with the keys which the pager makes. -/
def Maintained (s : State W) : Prop :=
  ∃ peerInPhys peerMap, ReflTransGen (Edits properIds) ∅ peerInPhys ∧
    ReflTransGen (Edits properIds) ∅ peerMap ∧ Keyed s peerInPhys peerMap

theorem Maintained.rekeyed (h : Maintained s) (hrekeyed : Rekeyed s s') :
    Maintained s' := by
  obtain ⟨peerInPhys, peerMap, hplaces, hpeers, hkeyed⟩ := h
  obtain ⟨peerInPhys', peerMap', hplaces', hpeers', hkeyed'⟩ :=
    hkeyed.rekeyed hrekeyed
  exact ⟨peerInPhys', peerMap', hplaces.trans hplaces', hpeers.trans hpeers', hkeyed'⟩

theorem maintained_of_reachable
    {memoryPages swapBlocks : ℕ} {physmem : ℕ → Byte} {entries : EntryRef → Entry}
    {world : W} (hlower : 2 ≤ memoryPages) (hupper : memoryPages ≤ ppageLimit)
    (hreach : (system io).Reachable
      (Config.init memoryPages swapBlocks physmem entries world) c) :
    Maintained c.state := by
  refine (hreach.invariant (fun c => Invariant c ∧ Maintained c.state)
    ⟨invariant_init hlower hupper swapBlocks physmem entries world,
      ∅, ∅, .refl, .refl, keyed_init memoryPages swapBlocks physmem entries world⟩
    ?_).2
  rintro a event b ⟨h, hmaintained⟩ hstep
  exact ⟨h.step hstep, hmaintained.rekeyed (rekeyed_step h hstep)⟩

/-- In every state of a legal run the maps of the source have for each page what
the functions have for it. -/
theorem lookups_of_reachable
    {memoryPages swapBlocks : ℕ} {physmem : ℕ → Byte} {entries : EntryRef → Entry}
    {world : W} (hlower : 2 ≤ memoryPages) (hupper : memoryPages ≤ ppageLimit)
    (hreach : (system io).Reachable
      (Config.init memoryPages swapBlocks physmem entries world) c) :
    ∃ (peerInPhys : PlaceMap) (peerMap : PeerMap),
      ReflTransGen (Edits properIds) ∅ peerInPhys ∧
      ReflTransGen (Edits properIds) ∅ peerMap ∧
      ∀ vp ∈ c.state.pages,
        (peerInPhys[vp.id]?).isSome = c.state.checkResidence vp ∧
        peerInPhys[vp.id]? = c.state.peerInPhys vp.id ∧
        (peerMap[vp.id]?).getD ∅ = c.state.peerMap vp.id := by
  have hinvariant := invariant_of_reachable hlower hupper hreach
  obtain ⟨peerInPhys, peerMap, hplaces, hpeers, hkeyed⟩ :=
    maintained_of_reachable hlower hupper hreach
  refine ⟨peerInPhys, peerMap, hplaces, hpeers, fun vp hvp => ?_⟩
  have hid := hinvariant.coherent.mem_properIds hvp
  have hplace : peerInPhys[vp.id]? = c.state.peerInPhys vp.id :=
    hkeyed.peerInPhys.inside vp.id hid
  refine ⟨?_, hplace, hkeyed.peerMap.inside vp.id hid⟩
  rw [hplace, State.checkResidence]

end Pager
end Eecs482
