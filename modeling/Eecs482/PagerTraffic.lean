import Eecs482.PagerResidency
import Eecs482.PagerStores

/-!
# The file traffic of the pager

The pager writes a page to its file only when it evicts a dirty frame.  The
calls of `file_read` and `file_write` are recorded next to the files.  A block
which has been written, or has a dirty frame, has had a write fault for it, and
a block of the swap file is read only after it has been written.
-/

namespace Eecs482
namespace Pager

/-- A call of `file_read` or `file_write`. -/
inductive FileCall
  | read (key : BlockKey)
  | write (key : BlockKey)
deriving DecidableEq

/-- The files with a record of the calls, oldest first. -/
def FileIo.recorded {W : Type} (io : FileIo W) : FileIo (W × List FileCall) where
  read key world :=
    ((io.read key world.1).1, (io.read key world.1).2, world.2 ++ [.read key])
  write key page world :=
    ((io.write key page world.1).1, (io.write key page world.1).2,
      world.2 ++ [.write key])

variable {W : Type} {io : FileIo W} {s s' s'' : State (W × List FileCall)}
variable {vp : VirtualPage} {key : BlockKey} {ppage table : ℕ} {rest : List ℕ}
variable {P : Set VirtualPage}

namespace State

def record (s : State (W × List FileCall)) : List FileCall :=
  s.world.2

/-- How often the block has been written. -/
def writes (s : State (W × List FileCall)) (key : BlockKey) : ℕ :=
  s.record.count (.write key)

/-- The frames which are to be written to the block when they are evicted. -/
def dirtyFrames (s : State W) (key : BlockKey) : ℕ :=
  s.clockQueue.countP fun ppage =>
    (s.physicalTable ppage).dirty && decide ((s.physicalTable ppage).id.key = key)

/-- The writes made and those still to make. -/
def owed (s : State (W × List FileCall)) (key : BlockKey) : ℕ :=
  s.writes key + s.dirtyFrames key

end State

theorem dirtyFrames_congr
    {s s' : State W} (hqueue : s'.clockQueue.Perm s.clockQueue)
    (hsame : ∀ p ∈ s.clockQueue,
      (s'.physicalTable p).dirty = (s.physicalTable p).dirty ∧
      (s'.physicalTable p).id = (s.physicalTable p).id) :
    s'.dirtyFrames key = s.dirtyFrames key := by
  unfold State.dirtyFrames
  rw [hqueue.countP_eq]
  apply List.countP_congr
  intro p hp
  rw [(hsame p hp).1, (hsame p hp).2]

theorem owed_congr
    (hrecord : s'.record = s.record) (hqueue : s'.clockQueue.Perm s.clockQueue)
    (hsame : ∀ p ∈ s.clockQueue,
      (s'.physicalTable p).dirty = (s.physicalTable p).dirty ∧
      (s'.physicalTable p).id = (s.physicalTable p).id) :
    s'.owed key = s.owed key := by
  unfold State.owed State.writes
  rw [hrecord, dirtyFrames_congr hqueue hsame]

/-- The frames and the record are the same. -/
theorem owed_of_same
    (hrecord : s'.record = s.record) (hqueue : s'.clockQueue = s.clockQueue)
    (hphysical : s'.physicalTable = s.physicalTable) : s'.owed key = s.owed key := by
  apply owed_congr hrecord (by rw [hqueue])
  intro p _
  rw [hphysical]
  exact ⟨rfl, rfl⟩

/-! ## Page faults -/

theorem owed_passOver (hclock : s.clockQueue = ppage :: rest) :
    (s.passOver ppage rest).owed key = s.owed key := by
  have hrecord : (s.passOver ppage rest).record = s.record := rfl
  apply owed_congr hrecord
  · rw [hclock]
    exact List.perm_append_singleton ppage rest
  · intro p _
    by_cases hp : p = ppage
    · simp [State.passOver, State.setPhysical, State.setEntries, hp]
    · simp [State.passOver, State.setPhysical, State.setEntries, hp]

theorem record_evict :
    (s.evict io.recorded ppage rest).record =
      if (s.physicalTable ppage).dirty then
        s.record ++ [.write (s.physicalTable ppage).id.key]
      else s.record := by
  unfold State.record State.evict
  simp only
  split
  · rfl
  · rfl

/-- A dirty frame is written when it goes. -/
theorem owed_evict (hframes : Frames s) (hclock : s.clockQueue = ppage :: rest) :
    (s.evict io.recorded ppage rest).owed key = s.owed key := by
  have hnodup := hframes.clock_nodup
  rw [hclock, List.nodup_cons] at hnodup
  have hrest : (s.evict io.recorded ppage rest).dirtyFrames key =
      rest.countP fun p =>
        (s.physicalTable p).dirty && decide ((s.physicalTable p).id.key = key) := by
    apply List.countP_congr
    intro p hp
    have hne : p ≠ ppage := fun heq => hnodup.1 (heq ▸ hp)
    simp [State.evict, State.setPhysical, hne]
  unfold State.owed State.writes
  rw [hrest, record_evict, State.dirtyFrames, hclock, List.countP_cons]
  cases hdirty : (s.physicalTable ppage).dirty with
  | false => simp
  | true =>
      by_cases hkey : (s.physicalTable ppage).id.key = key
      · simp [hkey]
        omega
      · simp [hkey]

theorem owed_getFreePhysicalPageLoop
    {fuel : ℕ} (hframes : Frames s)
    (hrun : State.getFreePhysicalPageLoop io.recorded fuel s = some s') :
    s'.owed key = s.owed key := by
  induction fuel generalizing s with
  | zero => cases hrun
  | succ fuel ih =>
      rw [State.getFreePhysicalPageLoop] at hrun
      split at hrun
      case isTrue =>
          cases hrun
          rfl
      case isFalse =>
          split at hrun
          case h_1 => cases hrun
          case h_2 ppage rest hclock =>
              split at hrun
              case isTrue =>
                  rw [ih (hframes.passOver hclock) hrun]
                  exact owed_passOver hclock
              case isFalse =>
                  cases hrun
                  exact owed_evict hframes hclock

/-- The frame a page gets is clean. -/
theorem owed_install (hframes : Frames s)
    (hfree : s.availablePhysicalPages = ppage :: rest) :
    (s.install vp ppage rest).owed key = s.owed key := by
  have hmem : ppage ∈ s.availablePhysicalPages := by simp [hfree]
  have hclean := hframes.clean ppage hmem
  have hqueue : (s.install vp ppage rest).clockQueue = s.clockQueue ++ [ppage] := rfl
  have hold : s.clockQueue.countP (fun p =>
        ((s.install vp ppage rest).physicalTable p).dirty &&
          decide (((s.install vp ppage rest).physicalTable p).id.key = key)) =
      s.dirtyFrames key := by
    apply List.countP_congr
    intro p hp
    have hne : p ≠ ppage := fun heq => hframes.not_mem_clock hmem (heq ▸ hp)
    rw [install_physicalTable_of_ne hne]
  have hnew : ((s.install vp ppage rest).physicalTable ppage).dirty = false := by
    rw [install_physicalTable_self]
    exact hclean
  have hdirty : (s.install vp ppage rest).dirtyFrames key = s.dirtyFrames key := by
    rw [State.dirtyFrames, hqueue, List.countP_append, hold]
    simp [hnew]
  unfold State.owed
  rw [hdirty]
  rfl

theorem record_setMemory (world : W × List FileCall) (physmem : ℕ → Byte) :
    State.record { s with world := world, physmem := physmem } = world.2 := rfl

theorem dirtyFrames_setMemory
    {W : Type} {s : State W} (world : W) (physmem : ℕ → Byte) :
    State.dirtyFrames { s with world := world, physmem := physmem } key =
      s.dirtyFrames key := rfl

theorem record_copyInto : (s.copyInto vp ppage).record = s.record :=
  record_setMemory s.world _

theorem owed_copyInto : (s.copyInto vp ppage).owed key = s.owed key := by
  have hdirty : (s.copyInto vp ppage).dirtyFrames key = s.dirtyFrames key :=
    dirtyFrames_setMemory s.world _
  unfold State.owed State.writes
  rw [record_copyInto, hdirty]

theorem record_readInto :
    (s.readInto io.recorded vp ppage).2.record = s.record ++ [.read vp.id.key] := by
  have hworld : (s.readInto io.recorded vp ppage).2.world =
      ((io.read vp.id.key s.world.1).2, s.record ++ [.read vp.id.key]) := rfl
  rw [State.record, hworld]

theorem owed_readInto : (s.readInto io.recorded vp ppage).2.owed key = s.owed key := by
  have hdirty : (s.readInto io.recorded vp ppage).2.dirtyFrames key =
      s.dirtyFrames key :=
    dirtyFrames_setMemory _ _
  have hwrites : (s.readInto io.recorded vp ppage).2.writes key = s.writes key := by
    unfold State.writes
    rw [record_readInto, List.count_append]
    simp
  unfold State.owed
  rw [hwrites, hdirty]

theorem availablePhysicalPages_setMemory
    {W : Type} {s : State W} (world : W) (physmem : ℕ → Byte) :
    State.availablePhysicalPages { s with world := world, physmem := physmem } =
      s.availablePhysicalPages := rfl

theorem owed_setPhysicalPage
    {ok : Bool} (hframes : Frames s)
    (hrun : s.setPhysicalPage io.recorded vp = some (ok, s')) :
    s'.owed key = s.owed key := by
  unfold State.setPhysicalPage at hrun
  split at hrun
  case h_1 => cases hrun
  case h_2 ppage rest hfree =>
      split at hrun
      case isTrue =>
          cases hrun
          have hframes' : Frames (s.copyInto vp ppage) := hframes.setMemory s.world _
          have hfree' : (s.copyInto vp ppage).availablePhysicalPages = ppage :: rest :=
            (availablePhysicalPages_setMemory s.world _).trans hfree
          rw [owed_install hframes' hfree', owed_copyInto]
      case isFalse =>
          simp only at hrun
          split at hrun
          case isTrue =>
              cases hrun
              have hframes' : Frames (s.readInto io.recorded vp ppage).2 :=
                hframes.setMemory _ _
              have hfree' : (s.readInto io.recorded vp ppage).2.availablePhysicalPages =
                  ppage :: rest :=
                (availablePhysicalPages_setMemory _ _).trans hfree
              rw [owed_install hframes' hfree', owed_readInto]
          case isFalse =>
              cases hrun
              exact owed_readInto

theorem owed_bringIn
    {ok : Bool} (hframes : Frames s) (hpeers : Peers P s) (hprotect : Protected P s)
    (hrun : s.bringIn io.recorded vp = some (ok, s')) : s'.owed key = s.owed key := by
  obtain ⟨t, hget, hset⟩ := Option.bind_eq_some_iff.mp hrun
  obtain ⟨t', hget', hfreed⟩ :=
    getFreePhysicalPage_spec io.recorded hframes hpeers hprotect
  rw [hget, Option.some.injEq] at hget'
  subst hget'
  rw [owed_setPhysicalPage hfreed.frames hset]
  exact owed_getFreePhysicalPageLoop hframes hget

theorem countP_le_add_one
    {l : List ℕ} {p q : ℕ → Bool} {a : ℕ} (hnodup : l.Nodup)
    (himp : ∀ x ∈ l, x ≠ a → p x = q x) : l.countP p ≤ l.countP q + 1 := by
  by_cases ha : a ∈ l
  · have hperm := List.perm_cons_erase ha
    have hsame : (l.erase a).countP p = (l.erase a).countP q := by
      apply List.countP_congr
      intro x hx
      obtain ⟨hne, hmem⟩ := hnodup.mem_erase_iff.mp hx
      rw [himp x hmem hne]
    rw [hperm.countP_eq p, hperm.countP_eq q, List.countP_cons, List.countP_cons, hsame]
    split <;> omega
  · have hsame : l.countP p = l.countP q := by
      apply List.countP_congr
      intro x hx
      rw [himp x hx fun heq => ha (heq ▸ hx)]
    omega

/-- A frame may now have to be written. -/
theorem owed_markWritten (hframes : Frames s)
    (hid : (s.physicalTable (s.entries vp.entry).ppage).id = vp.id) :
    (s.markWritten vp).owed key ≤ s.owed key + if vp.id.key = key then 1 else 0 := by
  have hrecord : (s.markWritten vp).record = s.record := rfl
  by_cases hkey : vp.id.key = key
  · have hdirty : (s.markWritten vp).dirtyFrames key ≤ s.dirtyFrames key + 1 := by
      refine countP_le_add_one (a := (s.entries vp.entry).ppage) hframes.clock_nodup ?_
      intro p _ hp
      simp [State.markWritten, State.setPhysical, State.setEntry, hp]
    unfold State.owed State.writes
    rw [hrecord, if_pos hkey]
    omega
  · rw [if_neg hkey]
    have hdirty : (s.markWritten vp).dirtyFrames key = s.dirtyFrames key := by
      apply List.countP_congr
      intro p _
      by_cases hp : p = (s.entries vp.entry).ppage
      · simp [State.markWritten, State.setPhysical, State.setEntry, hp, hid, hkey]
      · simp [State.markWritten, State.setPhysical, State.setEntry, hp]
    unfold State.owed State.writes
    rw [hrecord, hdirty]
    rfl

theorem owed_finishFault : (s.finishFault vp).owed key = s.owed key := by
  have hrecord : (s.finishFault vp).record = s.record := rfl
  apply owed_congr hrecord
  · exact List.Perm.refl _
  · intro p _
    by_cases hp : p = (s.entries vp.entry).ppage
    · simp [State.finishFault, State.setPeer, State.setEntries, State.setPhysical,
        State.setEntry, hp]
    · simp [State.finishFault, State.setPeer, State.setEntries, State.setPhysical,
        State.setEntry, hp]

/-- Only a write fault which succeeds makes the pager owe one more write, of the
block of the page. -/
theorem owed_faultPage
    {write ok : Bool} (key : BlockKey) (hframes : Frames s) (hpeers : Peers P s)
    (hprotect : Protected P s) (hvp : vp ∈ P)
    (hrun : s.faultPage io.recorded vp write = some (ok, s')) :
    s'.owed key ≤
      s.owed key + if write = true ∧ ok = true ∧ vp.id.key = key then 1 else 0 := by
  obtain ⟨⟨served, t⟩, hbranch, hfinish⟩ := Option.map_eq_some_iff.mp hrun
  have ht : t.owed key ≤
      s.owed key + if write = true ∧ served = true ∧ vp.id.key = key then 1 else 0 := by
    cases write with
    | true =>
        rw [if_pos rfl, State.writeFault] at hbranch
        split at hbranch
        case isTrue hneeded =>
            have hunplaced := unplaced_of_needed hprotect hvp hneeded
            obtain ⟨⟨loaded, u⟩, hbring, hmark⟩ := Option.map_eq_some_iff.mp hbranch
            have hu : u.owed key = s.owed key :=
              owed_bringIn hframes hpeers hprotect hbring
            obtain ⟨loaded', u', hbring', hloaded, _⟩ :=
              bringIn_spec io.recorded hframes hpeers hprotect hvp hunplaced
            rw [hbring] at hbring'
            cases hbring'
            cases loaded with
            | false =>
                cases hmark
                omega
            | true =>
                cases hmark
                have hplaced := hloaded rfl
                obtain ⟨ppage, hplace, hppage, _⟩ := hplaced.place
                subst hppage
                have hid := (hplaced.frames.resident _ _ hplace hplaced.nonzero).2
                have hmarked : (u.markWritten vp).owed key ≤ _ :=
                  owed_markWritten hplaced.frames hid
                simpa [hu] using hmarked
        case isFalse hneeded =>
            cases hbranch
            have hneeded' : s.checkResidence vp = true ∧
                (s.entries vp.entry).ppage ≠ 0 := by
              simpa using hneeded
            have hplace := hprotect.place hvp hneeded'.1
            have hid := (hframes.resident _ _ hplace hneeded'.2).2
            have hmarked : (s.markWritten vp).owed key ≤ _ :=
              owed_markWritten hframes hid
            simpa using hmarked
    | false =>
        rw [if_neg Bool.false_ne_true, State.readFault] at hbranch
        split at hbranch
        · have ht : t.owed key = s.owed key :=
            owed_bringIn hframes hpeers hprotect hbranch
          omega
        · split at hbranch
          · cases hbranch
            have ht : (s.setEntry vp.entry ({ · with writeEnable := true })).owed key =
                s.owed key := rfl
            omega
          · cases hbranch
            omega
  cases served with
  | false =>
      cases hfinish
      exact ht
  | true =>
      cases hfinish
      rw [owed_finishFault]
      exact ht

/-- The page a fault at `addr` is about. -/
def State.faultedPage (s : State W) (addr : UInt64) : Option VirtualPage :=
  s.curTable.bind fun table => (s.heap table).vps[(vpn addr).toNat]?

theorem owed_vmFault
    {addr : UInt64} {write ok : Bool} (key : BlockKey) (hcoherent : Coherent s.pages s)
    (htables : Tables s) (hcur : s.curTable = some table)
    (hrun : s.vmFault io.recorded addr write = some (ok, s')) :
    s'.owed key ≤ s.owed key +
      if write = true ∧ ok = true ∧ (s.faultedPage addr).map (·.id.key) = some key then 1
      else 0 := by
  obtain ⟨ok', t, hrun', hcases⟩ :=
    vmFault_spec io.recorded hcoherent htables hcur addr write
  rw [hrun] at hrun'
  cases hrun'
  rcases hcases with ⟨_, _, rfl⟩ | ⟨vp, _, hpage, hvp, hfault, _, _⟩
  · omega
  · have hfaulted : s.faultedPage addr = some vp := by
      rw [State.faultedPage, hcur]
      exact hpage
    have howed := owed_faultPage key hcoherent.frames hcoherent.peers
      hcoherent.protect hvp hfault
    simpa [hfaulted] using howed

/-! ## Mapping and destroying pages -/

theorem owed_readFilename
    {pointer : UInt64} {fuel temp : ℕ} {read : Name} {name : Option Name}
    (hcoherent : Coherent s.pages s) (htables : Tables s)
    (hcur : s.curTable = some table)
    (hrun : s.readFilename io.recorded table pointer fuel temp read =
      some (name, s')) :
    s'.owed key ≤ s.owed key := by
  induction fuel generalizing s temp read with
  | zero => cases hrun
  | succ fuel ih =>
      rw [State.readFilename] at hrun
      split at hrun
      case isTrue =>
          cases hrun
          exact le_rfl
      case isFalse hvalid =>
          obtain ⟨page, hpage, hrun⟩ := Option.bind_eq_some_iff.mp hrun
          obtain ⟨⟨ok, t⟩, hread, hrun⟩ := Option.bind_eq_some_iff.mp hrun
          obtain ⟨ok', t', hread', hpages, _⟩ := readable_spec io.recorded hcoherent
            htables hcur hpage (Nat.lt_of_not_le hvalid)
          rw [hread] at hread'
          cases hread'
          have ht : t.owed key ≤ s.owed key := by
            split at hread
            case isTrue =>
                cases hread
                exact le_rfl
            case isFalse =>
                have hfault := owed_vmFault key hcoherent htables hcur hread
                simpa using hfault
          have hsame := SameTables.of_arenas hpages.arenas
          simp only at hrun
          split at hrun
          · split at hrun
            · cases hrun
              exact ht
            · have hrest := ih (hsame.pages.symm ▸ hpages.coherent)
                (htables.of_same hsame) (hsame.curTable.trans hcur) hrun
              omega
          · cases hrun
            exact ht

theorem owed_vmMap
    {filename : Option UInt64} {block : ℕ} {result : Option UInt64}
    (hcoherent : Coherent s.pages s) (htables : Tables s)
    (hcur : s.curTable = some table)
    (hrun : s.vmMap io.recorded filename block = some (result, s')) :
    s'.owed key ≤ s.owed key := by
  obtain ⟨hptbr, _⟩ := htables.current table hcur
  have hmapped :
      Mapped (fun _ _ s t => t.owed key ≤ s.owed key) table s filename block result s' :=
    vmMap_cases hcur hptbr
      (fun _ _ _ => owed_readFilename hcoherent htables hcur) hrun
  cases hmapped with
  | refused => exact le_rfl
  | unreadable hread => exact hread
  | swap => exact le_of_eq (owed_of_same rfl rfl rfl)
  | @file _ _ t _ hread =>
      exact (le_of_eq (owed_of_same rfl rfl rfl)).trans hread

/-- A frame which is given up is never written. -/
theorem owed_destroyPage : (s.destroyPage vp).owed key ≤ s.owed key := by
  have hreleased : ∀ t : State (W × List FileCall),
      (t.releaseFrame vp).dirtyFrames key ≤ t.dirtyFrames key := by
    intro t
    have hle : (t.releaseFrame vp).dirtyFrames key ≤
        t.clockQueue.countP fun p =>
          ((t.releaseFrame vp).physicalTable p).dirty &&
            decide (((t.releaseFrame vp).physicalTable p).id.key = key) :=
      List.Sublist.countP_le (List.erase_sublist ..)
    refine hle.trans (List.countP_mono_left fun p _ hp => ?_)
    by_cases hne : p = (t.entries vp.entry).ppage
    · simp [State.releaseFrame, State.setPhysical, hne] at hp
    · simpa [State.releaseFrame, State.setPhysical, hne] using hp
  rw [destroyPage_eq]
  simp only
  split
  · split
    · exact Nat.add_le_add_left (hreleased _) _
    · exact le_rfl
  · split
    · exact Nat.add_le_add_left (hreleased _) _
    · exact le_rfl

theorem owed_destroyPages (pages : List VirtualPage) :
    (pages.foldl State.destroyPage s).owed key ≤ s.owed key := by
  induction pages generalizing s with
  | nil => exact le_rfl
  | cons vp pages ih => exact ih.trans owed_destroyPage

/-! ## Runs -/

/-- The block which a granted write fault lets the process change. -/
def Config.granted (c : Config W) : Event → Option BlockKey
  | .fault addr true true => (c.state.faultedPage addr).map (·.id.key)
  | _ => none

/-- The steps of the pager, each with the block granted. -/
def granting (io : FileIo W) : EventSystem (Config W) (Event × Option BlockKey) where
  Step c event c' := Step io c event.1 c' ∧ event.2 = c.granted event.1

theorem granting_step
    {W : Type} {io : FileIo W} {c c' : Config W} {event : Event}
    (hstep : Step io c event c') :
    (granting io).Step c (event, c.granted event) c' :=
  ⟨hstep, rfl⟩

variable {c c' : Config (W × List FileCall)} {event : Event}

theorem owed_step (key : BlockKey) (h : Invariant c) (hstep : Step io.recorded c event c') :
    c'.state.owed key ≤
      c.state.owed key + if c.granted event = some key then 1 else 0 := by
  cases hstep with
  | @create parent child ok s _ hcall =>
      have hsame : s.owed key = c.state.owed key := by
        rw [State.vmCreate] at hcall
        split at hcall
        · split at hcall
          · cases hcall
            rfl
          · cases hcall
            exact owed_of_same rfl rfl rfl
        · cases hcall
          exact owed_of_same rfl rfl rfl
      exact le_of_eq_of_le hsame (Nat.le_add_right _ _)
  | @switch pid s _ hcall =>
      have hsame : s.owed key = c.state.owed key := by
        rw [State.vmSwitch] at hcall
        split at hcall
        · obtain ⟨table, _, rfl⟩ := Option.map_eq_some_iff.mp hcall
          exact owed_of_same rfl rfl rfl
        · cases hcall
          rfl
      exact le_of_eq_of_le hsame (Nat.le_add_right _ _)
  | @fault addr write ok pid s hcurrent hcall =>
      obtain ⟨table, hcur, _⟩ := h.toProcesses.exists_table hcurrent
      have hfault := owed_vmFault key h.coherent h.tables hcur hcall
      cases write <;> cases ok <;> simpa [Config.granted] using hfault
  | map hcurrent hcall =>
      obtain ⟨table, hcur, _⟩ := h.toProcesses.exists_table hcurrent
      exact (owed_vmMap h.coherent h.tables hcur hcall).trans (Nat.le_add_right _ _)
  | destroy hcurrent hcall =>
      obtain ⟨table, hcur, _⟩ := h.toProcesses.exists_table hcurrent
      rw [vmDestroy_eq hcur] at hcall
      cases hcall
      exact (owed_destroyPages _).trans (Nat.le_add_right _ _)
  | load => exact Nat.le_add_right _ _
  | store => exact Nat.le_add_right _ _

/-- Every run of the pager is a run with the blocks granted. -/
theorem exists_granting_run
    {W : Type} {io : FileIo W} {start c : Config W} {events : List Event}
    (hrun : (system io).Run start events c) :
    ∃ trace, trace.map Prod.fst = events ∧ (granting io).Run start trace c := by
  induction hrun with
  | nil => exact ⟨[], rfl, .nil⟩
  | @snoc events c c' event _ hstep ih =>
      obtain ⟨trace, rfl, htrace⟩ := ih
      refine ⟨trace ++ [(event, c.granted event)], by simp, htrace.snoc (granting_step hstep)⟩

/-- In every part of a legal run, a block is written at most once for each frame
that is dirty at the start and for each write fault granted for it. -/
theorem writes_le_of_run
    {memoryPages swapBlocks : ℕ} {physmem : ℕ → Byte} {entries : EntryRef → Entry}
    {world : W} {trace : List (Event × Option BlockKey)}
    (hlower : 2 ≤ memoryPages) (hupper : memoryPages ≤ ppageLimit)
    (hreach : (system io.recorded).Reachable
      (Config.init memoryPages swapBlocks physmem entries (world, [])) c)
    (hrun : (granting io.recorded).Run c trace c') (key : BlockKey) :
    c'.state.writes key + c'.state.dirtyFrames key ≤
      c.state.writes key + c.state.dirtyFrames key +
        (trace.map Prod.snd).count (some key) := by
  have hinvariant := invariant_of_reachable hlower hupper hreach
  have hkeeps : ∀ s event t, Invariant s →
      (granting io.recorded).Step s event t → Invariant t := by
    intro s event t h hstep
    exact h.step hstep.1
  have hraises : ∀ s event t, Invariant s → (granting io.recorded).Step s event t →
      t.state.owed key ≤ s.state.owed key + if event.2 == some key then 1 else 0 := by
    intro s event t h hstep
    have howed := owed_step key h hstep.1
    rw [← hstep.2] at howed
    simpa using howed
  rw [List.count, List.countP_map]
  exact hrun.le_add_countP Invariant hinvariant hkeeps hraises

/-- The pager right after `vm_init`, with two frames and blank files. -/
def recordedConfig : Config ((BlockKey → Page) × List FileCall) :=
  .init 2 2 (fun _ => 0) (fun _ => {}) (fun _ _ => 0, [])

/-- A process writes to its second page, which takes the frame of the first. -/
theorem writes_le_after_eviction :
    ∃ trace c, (granting blockFiles.recorded).Run recordedConfig trace c ∧
      c.state.record = [.write (none, 0)] ∧
      c.state.writes (none, 0) + c.state.dirtyFrames (none, 0) ≤
        recordedConfig.state.writes (none, 0) +
          recordedConfig.state.dirtyFrames (none, 0) +
          (trace.map Prod.snd).count (some (none, 0)) := by
  have hstart : (granting blockFiles.recorded).Run recordedConfig [] recordedConfig :=
    .nil
  have hcreate := hstart.snoc (granting_step
    (@Step.create _ blockFiles.recorded recordedConfig 0 7 _ _ (by decide) rfl))
  have hswitch := hcreate.snoc (granting_step
    (@Step.switch _ blockFiles.recorded _ 7 _ (by decide) rfl))
  have hmap := hswitch.snoc (granting_step
    (@Step.map _ blockFiles.recorded _ none 0 7 _ _ rfl rfl))
  have hmap' := hmap.snoc (granting_step
    (@Step.map _ blockFiles.recorded _ none 0 7 _ _ rfl rfl))
  have hfault := hmap'.snoc (granting_step
    (@Step.fault _ blockFiles.recorded _ vmArenaBaseaddr true _ 7 _ rfl rfl))
  have hfault' := hfault.snoc (granting_step
    (@Step.fault _ blockFiles.recorded _ 0x600010000 true _ 7 _ rfl rfl))
  exact ⟨_, _, hfault', rfl, writes_le_of_run (by decide) (by decide) .refl hfault' _⟩

end Pager
end Eecs482
