import Eecs482.PagerTraffic

/-!
# Blocks of the swap file are written before they are read

A swap-backed page starts as the zero page.  It leaves the zero page for a
write fault, so its frame is dirty until it has been written to its block.  The
pager therefore never reads a block of the swap file that it has not written.
-/

namespace Eecs482
namespace Pager

variable {W : Type} {io : FileIo W} {s s' : State (W × List FileCall)}
variable {vp : VirtualPage} {ppage table : ℕ} {rest : List ℕ}
variable {old : List FileCall} {blocks : Set ℕ} {X : Set FileId} {P : Set VirtualPage}

/-- Each of the `blocks` of the swap file that is read has been written before. -/
def WrittenBeforeRead (blocks : Set ℕ) (calls : List FileCall) : Prop :=
  ∀ before after, ∀ block ∈ blocks, calls = before ++ .read (none, block) :: after →
    .write (none, block) ∈ before

theorem writtenBeforeRead_nil : WrittenBeforeRead blocks [] := by
  intro before after block _ hcalls
  simp at hcalls

theorem WrittenBeforeRead.append
    {calls : List FileCall} {call : FileCall} (h : WrittenBeforeRead blocks calls)
    (hcall : ∀ block ∈ blocks, call = .read (none, block) →
      .write (none, block) ∈ calls) :
    WrittenBeforeRead blocks (calls ++ [call]) := by
  intro before after block hblock hcalls
  rcases List.eq_nil_or_concat after with rfl | ⟨middle, last, rfl⟩
  · obtain ⟨rfl, hlast⟩ := List.append_inj' hcalls rfl
    exact hcall block hblock (List.singleton_injective hlast)
  · rw [List.concat_eq_append, ← List.cons_append, ← List.append_assoc] at hcalls
    obtain ⟨hbefore, _⟩ := List.append_inj' hcalls rfl
    exact h before middle block hblock hbefore

/-- The calls after those in `old`. -/
def State.callsSince (s : State (W × List FileCall)) (old : List FileCall) :
    List FileCall :=
  s.record.drop old.length

/-- A page in one of the `blocks` which is in no dirty frame and is not the zero
page has been written after the calls in `old`.  The pages in `X` are about to be
marked dirty. -/
structure Backed (old : List FileCall) (blocks : Set ℕ) (X : Set FileId)
    (P : Set VirtualPage) (s : State (W × List FileCall)) : Prop where
  kept : old <+: s.record
  reads : WrittenBeforeRead blocks (s.callsSince old)
  written : ∀ vp ∈ P, vp.id ∉ X → vp.id.swapBacked = true → vp.id.block ∈ blocks →
    UpToDate s vp.id → .write (none, vp.id.block) ∈ s.callsSince old

theorem key_of_swapBacked {id : FileId} (hswap : id.swapBacked = true) :
    id.key = (none, id.block) := by
  rw [FileId.key, if_pos hswap]

theorem swapBacked_of_key {id : FileId} {block : ℕ} (hkey : id.key = (none, block)) :
    id.swapBacked = true ∧ id.block = block := by
  cases hswap : id.swapBacked with
  | true =>
      rw [key_of_swapBacked hswap, Prod.mk.injEq] at hkey
      exact ⟨rfl, hkey.2⟩
  | false => simp [FileId.key, hswap] at hkey

/-- No call is made, and no other page can do without its frame now. -/
theorem Backed.of_record
    {Y : Set FileId} {Q : Set VirtualPage} (h : Backed old blocks X P s)
    (hrecord : s'.record = s.record)
    (hpages : ∀ vp ∈ Q, vp.id ∉ Y → vp.id.swapBacked = true → UpToDate s' vp.id →
      vp ∈ P ∧ vp.id ∉ X ∧ UpToDate s vp.id) :
    Backed old blocks Y Q s' := by
  have hcalls : s'.callsSince old = s.callsSince old := by
    rw [State.callsSince, hrecord, State.callsSince]
  constructor
  case kept =>
      rw [hrecord]
      exact h.kept
  case reads =>
      rw [hcalls]
      exact h.reads
  case written =>
      intro vp hvp hY hswap hblock hupToDate
      obtain ⟨hP, hX, hbefore⟩ := hpages vp hvp hY hswap hupToDate
      rw [hcalls]
      exact h.written vp hP hX hswap hblock hbefore

/-- One call is made, and the pages that can do without their frames now are
those that could or those which it writes. -/
theorem Backed.of_append
    {call : FileCall} (h : Backed old blocks X P s)
    (hrecord : s'.record = s.record ++ [call])
    (hcall : ∀ block ∈ blocks, call = .read (none, block) →
      .write (none, block) ∈ s.callsSince old)
    (hpages : ∀ vp ∈ P, vp.id ∉ X → vp.id.swapBacked = true → UpToDate s' vp.id →
      UpToDate s vp.id ∨ call = .write vp.id.key) :
    Backed old blocks X P s' := by
  have hcalls : s'.callsSince old = s.callsSince old ++ [call] := by
    rw [State.callsSince, hrecord, List.drop_append_of_le_length h.kept.length_le,
      State.callsSince]
  constructor
  case kept =>
      rw [hrecord]
      exact h.kept.trans (List.prefix_append _ _)
  case reads =>
      rw [hcalls]
      exact h.reads.append hcall
  case written =>
      intro vp hvp hX hswap hblock hupToDate
      rw [hcalls, List.mem_append]
      rcases hpages vp hvp hX hswap hupToDate with hbefore | hwrite
      · exact .inl (h.written vp hvp hX hswap hblock hbefore)
      · right
        rw [hwrite, key_of_swapBacked hswap]
        exact List.mem_singleton_self _

theorem Backed.of_same (h : Backed old blocks X P s) (hsame : SameStore s s') :
    Backed old blocks X P s' := by
  apply h.of_record (congrArg Prod.snd hsame.world)
  intro vp hvp hX _ hupToDate
  exact ⟨hvp, hX, .of_same hsame hupToDate⟩

/-! ## Page faults -/

theorem backed_evict
    (hframes : Frames s) (hbacked : Backed old blocks ∅ P s)
    (hclock : s.clockQueue = ppage :: rest) :
    Backed old blocks ∅ P (s.evict io.recorded ppage rest) := by
  have hmem : ppage ∈ s.clockQueue := by simp [hclock]
  have howner := hframes.owner ppage hmem
  have hpos := (hframes.clock_bounds hmem).1
  have hother : ∀ id, id ≠ (s.physicalTable ppage).id →
      UpToDate (s.evict io.recorded ppage rest) id → UpToDate s id := by
    intro id hid hupToDate p hp
    obtain ⟨hzero, hclean⟩ := hupToDate p ((Function.update_of_ne hid _ _).trans hp)
    have hne : p ≠ ppage := by
      intro heq
      subst heq
      exact hid (hframes.resident_injective hp howner hzero)
    exact ⟨hzero, by simpa [State.evict, State.setPhysical, hne] using hclean⟩
  cases hdirty : (s.physicalTable ppage).dirty with
  | true =>
      have hrecord : (s.evict io.recorded ppage rest).record =
          s.record ++ [.write (s.physicalTable ppage).id.key] := by
        rw [record_evict, if_pos hdirty]
      apply hbacked.of_append hrecord
      · intro block _ hcall
        cases hcall
      · intro vp _ _ _ hupToDate
        by_cases hid : vp.id = (s.physicalTable ppage).id
        · right
          rw [hid]
        · exact .inl (hother vp.id hid hupToDate)
  | false =>
      have hrecord : (s.evict io.recorded ppage rest).record = s.record := by
        rw [record_evict, hdirty]
        rfl
      apply hbacked.of_record hrecord
      intro vp hvp hX _ hupToDate
      refine ⟨hvp, hX, ?_⟩
      by_cases hid : vp.id = (s.physicalTable ppage).id
      · intro p hp
        rw [hid, howner, Option.some.injEq] at hp
        subst hp
        exact ⟨by omega, hdirty⟩
      · exact hother vp.id hid hupToDate

theorem backed_getFreePhysicalPageLoop
    {fuel : ℕ} (hframes : Frames s) (hbacked : Backed old blocks ∅ P s)
    (hrun : State.getFreePhysicalPageLoop io.recorded fuel s = some s') :
    Backed old blocks ∅ P s' := by
  induction fuel generalizing s with
  | zero => cases hrun
  | succ fuel ih =>
      rw [State.getFreePhysicalPageLoop] at hrun
      split at hrun
      case isTrue =>
          cases hrun
          exact hbacked
      case isFalse =>
          split at hrun
          case h_1 => cases hrun
          case h_2 ppage rest hclock =>
              split at hrun
              case isTrue =>
                  have hsame : SameStore s (s.passOver ppage rest) := sameStore_passOver
                  exact ih (hframes.passOver hclock) (hbacked.of_same hsame) hrun
              case isFalse =>
                  cases hrun
                  exact backed_evict hframes hbacked hclock

/-- A page which was the zero page until now has yet to be marked dirty. -/
theorem backed_install
    (rest : List ℕ) (hbacked : Backed old blocks ∅ P s) (hunplaced : Unplaced s vp) :
    Backed old blocks (dirtySoon vp s) P (s.install vp ppage rest) := by
  have hrecord : (s.install vp ppage rest).record = s.record := rfl
  apply hbacked.of_record hrecord
  intro other hother hX _ hupToDate
  refine ⟨hother, Set.notMem_empty _, fun p hp => ?_⟩
  by_cases hid : other.id = vp.id
  · rw [hid] at hp hX
    rcases hunplaced with hplace | hplace
    · rw [hplace] at hp
      cases hp
    · exact absurd ⟨rfl, hplace⟩ hX
  · have hplace : (s.install vp ppage rest).peerInPhys other.id = some p :=
      (install_peerInPhys_of_ne hid).trans hp
    obtain ⟨hzero, hclean⟩ := hupToDate p hplace
    refine ⟨hzero, ?_⟩
    by_cases hne : p = ppage
    · rw [hne, install_physicalTable_self] at hclean
      rw [hne]
      exact hclean
    · rwa [install_physicalTable_of_ne hne] at hclean

theorem upToDate_setMemory
    {W : Type} {s : State W} {id : FileId} (world : W) (physmem : ℕ → Byte)
    (h : UpToDate { s with world := world, physmem := physmem } id) : UpToDate s id :=
  fun ppage hplace => h ppage hplace

/-- Bringing in a page that is not in memory reads its block. -/
theorem backed_readInto
    (hbacked : Backed old blocks ∅ P s) (hvp : vp ∈ P) (hnone : s.peerInPhys vp.id = none) :
    Backed old blocks ∅ P (s.readInto io.recorded vp ppage).2 := by
  apply hbacked.of_append record_readInto
  · intro block hblock hcall
    obtain ⟨hswap, rfl⟩ := swapBacked_of_key (FileCall.read.inj hcall)
    refine hbacked.written vp hvp (Set.notMem_empty _) hswap hblock fun p hp => ?_
    rw [hnone] at hp
    cases hp
  · exact fun _ _ _ _ hupToDate => .inl (upToDate_setMemory _ _ hupToDate)

theorem backed_copyInto (hbacked : Backed old blocks ∅ P s) :
    Backed old blocks ∅ P (s.copyInto vp ppage) := by
  apply hbacked.of_record record_copyInto
  intro other hother hX _ hupToDate
  exact ⟨hother, hX, upToDate_setMemory s.world _ hupToDate⟩

theorem unplaced_of_peerInPhys
    (hunplaced : Unplaced s vp) (hplace : s'.peerInPhys = s.peerInPhys) :
    Unplaced s' vp := by
  unfold Unplaced
  rw [hplace]
  exact hunplaced

theorem backed_setPhysicalPage
    {ok : Bool} (hbacked : Backed old blocks ∅ P s) (hvp : vp ∈ P) (hunplaced : Unplaced s vp)
    (hrun : s.setPhysicalPage io.recorded vp = some (ok, s')) :
    Backed old blocks (dirtySoon vp s) P s' := by
  unfold State.setPhysicalPage at hrun
  split at hrun
  case h_1 => cases hrun
  case h_2 ppage rest hfree =>
      split at hrun
      case isTrue =>
          cases hrun
          have hplace : (s.copyInto vp ppage).peerInPhys = s.peerInPhys :=
            copyInto_peerInPhys ppage
          rw [← dirtySoon_of_same hplace]
          exact backed_install rest (backed_copyInto hbacked)
            (unplaced_of_peerInPhys hunplaced hplace)
      case isFalse hresidence =>
          have hnone := peerInPhys_of_not_resident (Bool.eq_false_iff.mpr hresidence)
          have hread : Backed old blocks ∅ P (s.readInto io.recorded vp ppage).2 :=
            backed_readInto hbacked hvp hnone
          simp only at hrun
          split at hrun
          case isTrue =>
              cases hrun
              have hplace : (s.readInto io.recorded vp ppage).2.peerInPhys =
                  s.peerInPhys :=
                readInto_peerInPhys ppage
              rw [← dirtySoon_of_same hplace]
              exact backed_install rest hread (unplaced_of_peerInPhys hunplaced hplace)
          case isFalse =>
              cases hrun
              exact ⟨hread.kept, hread.reads, fun other hother _ =>
                hread.written other hother (Set.notMem_empty _)⟩

theorem backed_bringIn
    {ok : Bool} (hframes : Frames s) (hpeers : Peers P s) (hprotect : Protected P s)
    (hbacked : Backed old blocks ∅ P s) (hvp : vp ∈ P) (hunplaced : Unplaced s vp)
    (hrun : s.bringIn io.recorded vp = some (ok, s')) :
    Backed old blocks (dirtySoon vp s) P s' := by
  obtain ⟨t, hget, hset⟩ := Option.bind_eq_some_iff.mp hrun
  obtain ⟨t', hget', hfreed⟩ :=
    getFreePhysicalPage_spec io.recorded hframes hpeers hprotect
  rw [hget, Option.some.injEq] at hget'
  subst hget'
  have hzero : t.peerInPhys vp.id = some 0 ↔ s.peerInPhys vp.id = some 0 := by
    simpa using hfreed.leaves vp.id
  have hunplaced' : Unplaced t vp :=
    hunplaced.imp (hfreed.absent vp.id) hzero.mpr
  have hsoon : dirtySoon vp t = dirtySoon vp s := by
    ext id
    simp only [dirtySoon, Set.mem_ofPred_eq, hzero]
  rw [← hsoon]
  exact backed_setPhysicalPage (backed_getFreePhysicalPageLoop hframes hbacked hget)
    hvp hunplaced' hset

/-- The page that has left the zero page is now in a dirty frame. -/
theorem backed_markWritten
    (hbacked : Backed old blocks (dirtySoon vp s) P s')
    (hplace : s'.peerInPhys vp.id = some (s'.entries vp.entry).ppage) :
    Backed old blocks ∅ P (s'.markWritten vp) := by
  have hsame := hbacked.of_same (sameStore_markWritten s' vp)
  apply hsame.of_record rfl
  intro other hother _ _ hupToDate
  refine ⟨hother, fun hX => ?_, hupToDate⟩
  rw [hX.1] at hupToDate
  have hclean := (hupToDate _ hplace).2
  simp [State.markWritten, State.setPhysical, State.setEntry] at hclean

theorem backed_writeFault
    {ok : Bool} (hframes : Frames s) (hpeers : Peers P s) (hprotect : Protected P s)
    (hbacked : Backed old blocks ∅ P s) (hvp : vp ∈ P)
    (hrun : s.writeFault io.recorded vp = some (ok, s')) : Backed old blocks ∅ P s' := by
  rw [State.writeFault] at hrun
  split at hrun
  case isTrue hneeded =>
      have hunplaced := unplaced_of_needed hprotect hvp hneeded
      obtain ⟨⟨loaded, t⟩, hbring, hmark⟩ := Option.map_eq_some_iff.mp hrun
      have ht := backed_bringIn hframes hpeers hprotect hbacked hvp hunplaced hbring
      obtain ⟨loaded', t', hbring', hloaded, hfailed⟩ :=
        bringIn_spec io.recorded hframes hpeers hprotect hvp hunplaced
      rw [hbring] at hbring'
      cases hbring'
      cases loaded with
      | false =>
          cases hmark
          have hfile := (hfailed rfl).1
          apply ht.of_record rfl
          intro other hother _ hswap hupToDate
          refine ⟨hother, fun hX => ?_, hupToDate⟩
          rw [hX.1, hfile] at hswap
          cases hswap
      | true =>
          cases hmark
          obtain ⟨ppage, hplace, hppage, _⟩ := (hloaded rfl).place
          exact backed_markWritten ht (by rw [hppage]; exact hplace)
  case isFalse =>
      cases hrun
      exact hbacked.of_same (sameStore_markWritten _ _)

theorem backed_readFault
    {ok : Bool} (hframes : Frames s) (hpeers : Peers P s) (hprotect : Protected P s)
    (hbacked : Backed old blocks ∅ P s) (hvp : vp ∈ P)
    (hrun : s.readFault io.recorded vp = some (ok, s')) : Backed old blocks ∅ P s' := by
  rw [State.readFault] at hrun
  split at hrun
  case isTrue hneeded =>
      have hresidence : s.checkResidence vp = false := by simpa using hneeded
      have hnone := peerInPhys_of_not_resident hresidence
      have ht := backed_bringIn hframes hpeers hprotect hbacked hvp (.inl hnone) hrun
      have hsoon : dirtySoon vp s = ∅ := by
        ext id
        simp [dirtySoon, hnone]
      rwa [hsoon] at ht
  case isFalse =>
      split at hrun
      case isTrue =>
          cases hrun
          exact hbacked.of_same ⟨rfl, rfl, rfl, rfl, fun _ => id⟩
      case isFalse =>
          cases hrun
          exact hbacked

theorem backed_faultPage
    {write ok : Bool} (hcoherent : Coherent P s) (hbacked : Backed old blocks ∅ P s)
    (hvp : vp ∈ P) (hrun : s.faultPage io.recorded vp write = some (ok, s')) :
    Backed old blocks ∅ P s' := by
  obtain ⟨⟨served, t⟩, hbranch, hfinish⟩ := Option.map_eq_some_iff.mp hrun
  obtain ⟨hframes, hpeers, hprotect, _, _⟩ := hcoherent
  have ht : Backed old blocks ∅ P t := by
    cases write with
    | true => exact backed_writeFault hframes hpeers hprotect hbacked hvp hbranch
    | false => exact backed_readFault hframes hpeers hprotect hbacked hvp hbranch
  cases served with
  | false =>
      cases hfinish
      exact ht
  | true =>
      cases hfinish
      exact ht.of_same sameStore_finishFault

theorem backed_vmFault
    {addr : UInt64} {write ok : Bool} (hcoherent : Coherent s.pages s)
    (htables : Tables s) (hcur : s.curTable = some table)
    (hbacked : Backed old blocks ∅ s.pages s)
    (hrun : s.vmFault io.recorded addr write = some (ok, s')) :
    Backed old blocks ∅ s.pages s' := by
  obtain ⟨ok', t, hrun', hcases⟩ :=
    vmFault_spec io.recorded hcoherent htables hcur addr write
  rw [hrun] at hrun'
  cases hrun'
  rcases hcases with ⟨_, _, rfl⟩ | ⟨vp, _, _, hvp, hfault, _, _⟩
  · exact hbacked
  · exact backed_faultPage hcoherent hbacked hvp hfault

/-! ## Mapping and destroying pages -/

theorem backed_readFilename
    {pointer : UInt64} {fuel temp : ℕ} {read : Name} {name : Option Name}
    (hcoherent : Coherent s.pages s) (htables : Tables s)
    (hcur : s.curTable = some table) (hbacked : Backed old blocks ∅ s.pages s)
    (hrun : s.readFilename io.recorded table pointer fuel temp read =
      some (name, s')) :
    Backed old blocks ∅ s.pages s' := by
  induction fuel generalizing s temp read with
  | zero => cases hrun
  | succ fuel ih =>
      rw [State.readFilename] at hrun
      split at hrun
      case isTrue =>
          cases hrun
          exact hbacked
      case isFalse hvalid =>
          obtain ⟨page, hpage, hrun⟩ := Option.bind_eq_some_iff.mp hrun
          obtain ⟨⟨ok, t⟩, hread, hrun⟩ := Option.bind_eq_some_iff.mp hrun
          obtain ⟨ok', t', hread', hpages, _⟩ := readable_spec io.recorded hcoherent
            htables hcur hpage (Nat.lt_of_not_le hvalid)
          rw [hread] at hread'
          cases hread'
          have ht : Backed old blocks ∅ s.pages t := by
            split at hread
            case isTrue =>
                cases hread
                exact hbacked
            case isFalse => exact backed_vmFault hcoherent htables hcur hbacked hread
          have hsame := SameTables.of_arenas hpages.arenas
          simp only at hrun
          split at hrun
          · split at hrun
            · cases hrun
              exact ht
            · rw [← hsame.pages]
              exact ih (hsame.pages.symm ▸ hpages.coherent) (htables.of_same hsame)
                (hsame.curTable.trans hcur) (hsame.pages.symm ▸ ht) hrun
          · cases hrun
            exact ht

theorem backed_addSwapPage (hbacked : Backed old blocks ∅ P s) :
    Backed old blocks ∅ (Insert.insert vp P) (s.addSwapPage table vp rest) := by
  have hself : (s.addSwapPage table vp rest).peerInPhys vp.id = some 0 :=
    Function.update_self _ _ _
  have hrecord : (s.addSwapPage table vp rest).record = s.record := rfl
  apply hbacked.of_record hrecord
  intro other hother hX _ hupToDate
  have hne : other.id ≠ vp.id := by
    intro heq
    rw [heq] at hupToDate
    exact (hupToDate 0 hself).1 rfl
  refine ⟨hother.resolve_left fun heq => hne (congrArg VirtualPage.id heq), hX,
    fun p hp => ?_⟩
  exact hupToDate p ((Function.update_of_ne hne _ _).trans hp)

theorem backed_addFilePage
    (hbacked : Backed old blocks ∅ P s) (hfile : vp.id.swapBacked = false) :
    Backed old blocks ∅ (Insert.insert vp P) (s.addFilePage table vp) := by
  have hrecord : (s.addFilePage table vp).record = s.record := rfl
  apply hbacked.of_record hrecord
  intro other hother hX hswap hupToDate
  refine ⟨hother.resolve_left fun heq => ?_, hX, hupToDate⟩
  rw [heq, hfile] at hswap
  cases hswap

theorem backed_destroyPage
    (hcoherent : Coherent P s) (hbacked : Backed old blocks ∅ P s) (hvp : vp ∈ P) :
    Backed old blocks ∅ (P \ {vp}) (s.destroyPage vp) := by
  have hvacated := vacated_destroyPage hcoherent hvp
  have hrecord : (s.destroyPage vp).record = s.record :=
    congrArg Prod.snd hvacated.world
  apply hbacked.of_record hrecord
  intro other hother hX hswap hupToDate
  have hid : other.id ≠ vp.id := fun heq => hother.2
    (hcoherent.swap.owner other hother.1 vp hvp hswap heq)
  refine ⟨hother.1, hX, fun p hp => ?_⟩
  rw [← hvacated.other _ hid] at hp
  obtain ⟨hzero, hclean⟩ := hupToDate p hp
  exact ⟨hzero, by rw [← hvacated.dirty _ p hp hzero]; exact hclean⟩

theorem backed_destroyPages
    {pages : List VirtualPage} (hcoherent : Coherent P s) (hbacked : Backed old blocks ∅ P s)
    (hpages : ∀ vp ∈ pages, vp ∈ P) (hnodup : pages.Nodup) :
    Backed old blocks ∅ (P \ {vp | vp ∈ pages}) (pages.foldl State.destroyPage s) := by
  induction pages generalizing s P with
  | nil => simpa using hbacked
  | cons vp pages ih =>
      rw [List.nodup_cons] at hnodup
      have hvp := hpages vp List.mem_cons_self
      have hrest : ∀ other ∈ pages, other ∈ P \ {vp} := by
        intro other hother
        refine ⟨hpages other (List.mem_cons_of_mem _ hother), fun heq => ?_⟩
        exact hnodup.1 (heq ▸ hother)
      rw [List.foldl_cons, sdiff_cons]
      exact ih (hcoherent.destroyPage hvp) (backed_destroyPage hcoherent hbacked hvp)
        hrest hnodup.2

/-! ## Runs -/

variable {c c' : Config (W × List FileCall)} {event : Event}

theorem backed_map
    {filename : Option UInt64} {block pid : ℕ} {result : Option UInt64}
    (h : Invariant c) (hbacked : Backed old blocks ∅ c.state.pages c.state)
    (hcurrent : c.current = some pid)
    (hcall : c.state.vmMap io.recorded filename block = some (result, s)) :
    Backed old blocks ∅ s.pages s := by
  obtain ⟨table, hcur, htable, _⟩ := h.toProcesses.exists_table hcurrent
  obtain ⟨hptbr, _⟩ := h.tables.current table hcur
  have hmapped : Mapped (fun _ _ s t => t.arenas = s.arenas ∧ Backed old blocks ∅ s.pages t)
      table c.state filename block result s :=
    vmMap_cases hcur hptbr (fun _ _ _ hrun => ⟨readFilename_arenas hrun,
      backed_readFilename h.coherent h.tables hcur hbacked hrun⟩) hcall
  cases hmapped with
  | refused => exact hbacked
  | unreadable hread =>
      rw [(SameTables.of_arenas hread.1).pages]
      exact hread.2
  | @swap _ swapBlock rest =>
      have hgrown := grown_addSwapPage c.state table
        ⟨(table, (c.state.heap table).cnt), swapId swapBlock⟩ rest rfl
      rw [hgrown.pages htable]
      exact backed_addSwapPage hbacked
  | @file _ _ t name hread =>
      have hsame := SameTables.of_arenas hread.1
      have hgrown := grown_addFilePage t table ⟨(table, (c.state.heap table).cnt),
        { filename := name, block := block, swapBacked := false }⟩ rfl
      rw [hgrown.pages (hsame.tables ▸ htable), hsame.pages]
      exact backed_addFilePage hread.2 rfl

theorem backed_destroy
    {pid : ℕ} (h : Invariant c) (hbacked : Backed old blocks ∅ c.state.pages c.state)
    (hcurrent : c.current = some pid) (hcall : c.state.vmDestroy = some s) :
    Backed old blocks ∅ s.pages s := by
  obtain ⟨table, hcur, htable, _⟩ := h.toProcesses.exists_table hcurrent
  have htables := h.tables
  rw [vmDestroy_eq hcur, Option.some.injEq] at hcall
  subst hcall
  obtain ⟨hsame, _⟩ := destroyPages_same (s := c.state) (c.state.heap table).vps
  have hlast := backed_destroyPages h.coherent hbacked
    (fun vp hvp => ⟨pid, table, htable, hvp⟩) (htables.vps_nodup htable)
  have hpages := pages_eraseCurrent (htables.of_same hsame)
    (hsame.curTable.trans hcur)
  rw [hsame.pages, hsame.heap] at hpages
  rw [hpages]
  exact ⟨hlast.kept, hlast.reads, hlast.written⟩

theorem backed_step
    (h : Invariant c) (hbacked : Backed old blocks ∅ c.state.pages c.state)
    (hstep : Step io.recorded c event c') :
    Backed old blocks ∅ c'.state.pages c'.state := by
  cases hstep with
  | @create parent child ok s hfresh hcall =>
      have hspec := vmCreate_spec parent h.coherent h.tables (h.no_table hfresh)
        (h.curPid_ne hfresh)
      rw [hcall] at hspec
      change Backed old blocks ∅ s.pages s
      rw [hspec.2.2]
      rcases vmCreate_tables hcall with ⟨_, rfl⟩ | ⟨_, num, rfl⟩
      · exact hbacked
      · exact ⟨hbacked.kept, hbacked.reads, hbacked.written⟩
  | switch hlive hcall =>
      obtain ⟨_, table, _, rfl⟩ := h.toProcesses.switch hlive hcall
      exact ⟨hbacked.kept, hbacked.reads, hbacked.written⟩
  | @fault addr write ok pid s hcurrent hcall =>
      obtain ⟨table, hcur, _⟩ := h.toProcesses.exists_table hcurrent
      have hpages : s.pages = c.state.pages :=
        (SameTables.of_arenas (vmFault_arenas hcall)).pages
      change Backed old blocks ∅ s.pages s
      rw [hpages]
      exact backed_vmFault h.coherent h.tables hcur hbacked hcall
  | map hcurrent hcall => exact backed_map h hbacked hcurrent hcall
  | destroy hcurrent hcall => exact backed_destroy h hbacked hcurrent hcall
  | load => exact hbacked
  | store => exact ⟨hbacked.kept, hbacked.reads, hbacked.written⟩

/-- Whatever the files return, from any state of a legal run on the pager reads a
block of the swap file which is free there only after it has written it: what a
former owner left in the block is never read. -/
theorem writtenBeforeRead_of_run
    {memoryPages swapBlocks : ℕ} {physmem : ℕ → Byte} {entries : EntryRef → Entry}
    {world : W} {events : List Event}
    (hlower : 2 ≤ memoryPages) (hupper : memoryPages ≤ ppageLimit)
    (hreach : (system io.recorded).Reachable
      (Config.init memoryPages swapBlocks physmem entries (world, [])) c)
    (hrun : (system io.recorded).Run c events c') :
    ∃ calls, c'.state.record = c.state.record ++ calls ∧
      WrittenBeforeRead {block | block ∈ c.state.availableSwapBlocks} calls := by
  have hinvariant := invariant_of_reachable hlower hupper hreach
  have hstart : Backed c.state.record {block | block ∈ c.state.availableSwapBlocks} ∅
      c.state.pages c.state := by
    constructor
    case kept => exact List.prefix_refl _
    case reads =>
        rw [State.callsSince, List.drop_length]
        exact writtenBeforeRead_nil
    case written =>
        intro vp hvp _ hswap hblock
        exact absurd hblock (hinvariant.coherent.swap.free vp hvp hswap)
  have hbacked := (hrun.invariant
    (fun c' => Invariant c' ∧ Backed c.state.record
      {block | block ∈ c.state.availableSwapBlocks} ∅ c'.state.pages c'.state)
    ⟨hinvariant, hstart⟩
    fun _ _ _ h hstep => ⟨h.1.step hstep, backed_step h.1 h.2 hstep⟩).2
  exact ⟨c'.state.callsSince c.state.record,
    (List.prefix_iff_eq_append.mp hbacked.kept).symm, hbacked.reads⟩

/-- A process touches both its pages, and then the first one again. -/
theorem writtenBeforeRead_after_eviction :
    ∃ c, (system blockFiles.recorded).Reachable recordedConfig c ∧
      c.state.record = [.write (none, 0), .write (none, 1), .read (none, 0)] ∧
      ∃ calls, c.state.record = recordedConfig.state.record ++ calls ∧
        WrittenBeforeRead {block | block ∈ recordedConfig.state.availableSwapBlocks}
          calls := by
  have hstart : (system blockFiles.recorded).Run recordedConfig [] recordedConfig := .nil
  have hcreate := hstart.snoc
    (@Step.create _ blockFiles.recorded recordedConfig 0 7 _ _ (by decide) rfl)
  have hswitch := hcreate.snoc (@Step.switch _ blockFiles.recorded _ 7 _ (by decide) rfl)
  have hmap := hswitch.snoc (@Step.map _ blockFiles.recorded _ none 0 7 _ _ rfl rfl)
  have hmap' := hmap.snoc (@Step.map _ blockFiles.recorded _ none 0 7 _ _ rfl rfl)
  have hfault := hmap'.snoc
    (@Step.fault _ blockFiles.recorded _ vmArenaBaseaddr true _ 7 _ rfl rfl)
  have hfault' := hfault.snoc
    (@Step.fault _ blockFiles.recorded _ 0x600010000 true _ 7 _ rfl rfl)
  have hagain := hfault'.snoc
    (@Step.fault _ blockFiles.recorded _ vmArenaBaseaddr false _ 7 _ rfl rfl)
  exact ⟨_, ⟨_, hagain⟩, rfl,
    writtenBeforeRead_of_run (by decide) (by decide) .refl hagain⟩

end Pager
end Eecs482
