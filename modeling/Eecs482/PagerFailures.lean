import Eecs482.PagerRefinement

/-!
# Calls of the pager that fail

A call may notice late that it has to fail: a page was evicted for one that
cannot be read, or some pages of a file name have been read in.  The state has
changed by then, but no process can see it.
-/

namespace Eecs482
namespace Pager

variable {W : Type} {io : FileIo W} {store : BlockStore io}
variable {c c' : Config W} {event : Event} {s : State W} {table : ℕ}

/-- `vm_fault` returned -1, or `vm_map` returned `nullptr`. -/
inductive Event.Fails : Event → Prop
  | fault {addr : UInt64} {write : Bool} : Fails (.fault addr write false)
  | map {filename : Option UInt64} {block : ℕ} : Fails (.map filename block none)

variable (store) in
/-- No process can tell `c'` from `c`: the arenas have the same pages, kept in
the same blocks and with the same bytes. -/
structure Unseen (c c' : Config W) : Prop where
  live : c'.live = c.live
  current : c'.current = c.current
  tables : c'.state.tables = c.state.tables
  heap : c'.state.heap = c.state.heap
  numSwapBlocks : c'.state.numSwapBlocks = c.state.numSwapBlocks
  availableSwapBlocks : c'.state.availableSwapBlocks = c.state.availableSwapBlocks
  contents : ∀ vp, c.LivePage vp →
    content store c'.state vp.id = content store c.state vp.id
  represents : ∀ f, Represents store c f → Represents store c' f

/-- Calls that only bring pages into memory are not seen. -/
theorem Invariant.unseen
    {written : Finset EntryRef} (h : Invariant c)
    (hstored : Stored store ∅ c.state.pages c.state)
    (hinvariant : Invariant { c with state := s, written := written })
    (harenas : s.arenas = c.state.arenas) (hstored' : Stored store ∅ c.state.pages s)
    (hcontents : SameContents store c.state s) :
    Unseen store c { c with state := s, written := written } where
  live := rfl
  current := rfl
  tables := congrArg Arenas.tables harenas
  heap := congrArg Arenas.heap harenas
  numSwapBlocks := congrArg Arenas.numSwapBlocks harenas
  availableSwapBlocks := congrArg Arenas.availableSwapBlocks harenas
  contents vp hvp :=
    hcontents vp.id (hstored.canonical vp ((h.livePage_iff vp).mp hvp))
  represents _ hf := hf.of_contents hinvariant (.of_arenas harenas) hstored' hcontents

theorem Invariant.unseen_fault
    {pid : ℕ} {addr : UInt64} {write ok : Bool} (h : Invariant c)
    (hstored : Stored store ∅ c.state.pages c.state) (hcurrent : c.current = some pid)
    (hcall : c.state.vmFault io addr write = some (ok, s)) :
    Unseen store c
      { c with
        state := s
        written := if write then c.written ∪ c.state.faultRef addr else c.written } := by
  obtain ⟨table, hcur, _⟩ := h.exists_table hcurrent
  obtain ⟨hstored', hcontents⟩ :=
    stored_vmFault h.coherent h.tables hcur hstored hcall
  exact h.unseen hstored (h.fault hcurrent hcall) (vmFault_arenas hcall) hstored'
    hcontents

/-- A file name that cannot be read to its end. -/
theorem Invariant.unseen_map
    {pid block : ℕ} {filename : Option UInt64} (h : Invariant c)
    (hstored : Stored store ∅ c.state.pages c.state) (hcurrent : c.current = some pid)
    (hcall : c.state.vmMap io filename block = some (none, s)) :
    Unseen store c { c with state := s } := by
  obtain ⟨table, hcur, _, _, hptbr⟩ := h.exists_table hcurrent
  have hinvariant := h.map hcurrent hcall
  have hmapped : Mapped (fun pointer name t t' =>
      t.readFilename io table pointer (vmArenaSize + 1) 0 [] = some (name, t'))
      table c.state filename block none s :=
    vmMap_cases hcur hptbr (fun _ _ _ hname => hname) hcall
  cases hmapped with
  | refused => exact h.unseen hstored hinvariant rfl hstored .refl
  | unreadable hname =>
      have hread := nameRead_readFilename h.coherent h.tables hcur hstored hname
      exact h.unseen hstored hinvariant (readFilename_arenas hname) hread.stored
        hread.same

theorem Invariant.unseen_of_fails
    (h : Invariant c) (hstored : Stored store ∅ c.state.pages c.state)
    (hstep : Step io c event c') (hfails : event.Fails) : Unseen store c c' := by
  cases hfails with
  | fault =>
      cases hstep with
      | fault hcurrent hcall => exact h.unseen_fault hstored hcurrent hcall
  | map =>
      cases hstep with
      | map hcurrent hcall => exact h.unseen_map hstored hcurrent hcall

variable (store) in
theorem represents_of_reachable
    {memoryPages swapBlocks : ℕ} {physmem : ℕ → Byte} {entries : EntryRef → Entry}
    {world : W} (hlower : 2 ≤ memoryPages) (hupper : memoryPages ≤ 65536)
    (hreach : (system io).Reachable
      (Config.init memoryPages swapBlocks physmem entries world) c) :
    ∃ f, Represents store c f := by
  obtain ⟨trace, hrun⟩ := hreach
  have hinit : Represents store
      (Config.init memoryPages swapBlocks physmem entries world)
      (Flat.init (store.files world)) :=
    represents_init hlower hupper swapBlocks physmem entries world
  obtain ⟨f, _, hf⟩ := simulates_flat.run hinit hrun
  exact ⟨f, hf⟩

variable (store) in
theorem stored_of_reachable
    {memoryPages swapBlocks : ℕ} {physmem : ℕ → Byte} {entries : EntryRef → Entry}
    {world : W} (hlower : 2 ≤ memoryPages) (hupper : memoryPages ≤ 65536)
    (hreach : (system io).Reachable
      (Config.init memoryPages swapBlocks physmem entries world) c) :
    Stored store ∅ c.state.pages c.state := by
  obtain ⟨f, hf⟩ := represents_of_reachable store hlower hupper hreach
  exact hf.stored

variable (store) in
/-- A failing call in any state of a legal run. -/
theorem unseen_of_failing_call
    {memoryPages swapBlocks : ℕ} {physmem : ℕ → Byte} {entries : EntryRef → Entry}
    {world : W} (hlower : 2 ≤ memoryPages) (hupper : memoryPages ≤ 65536)
    (hreach : (system io).Reachable
      (Config.init memoryPages swapBlocks physmem entries world) c)
    (hstep : Step io c event c') (hfails : event.Fails) :
    Unseen store c c' ∧ Residency memoryPages c' := by
  have hlimit : memoryPages ≤ 2 ^ 20 := hupper.trans (by decide)
  have h := invariant_of_reachable hlower hlimit hreach
  constructor
  · exact h.unseen_of_fails (stored_of_reachable store hlower hupper hreach) hstep hfails
  · exact residency_of_reachable hlower hlimit (hreach.step hstep)

/-- Files whose blocks can be read once they have been written. -/
def sparseFiles : FileIo (BlockKey → Option Page) where
  read key files := (((files key).isSome, (files key).getD fun _ => 0), files)
  write key page files := (true, Function.update files key (some page))

/-- The written blocks of `sparseFiles` are a store. -/
def sparseFilesStore : BlockStore sparseFiles where
  contents files key := (files key).getD fun _ => 0
  readable files key := (files key).isSome = true
  read_contents _ _ _ := rfl
  read_succeeds _ _ hreadable := hreadable
  contents_read _ _ := rfl
  readable_read _ _ _ h := h.elim id fun h => h.1 ▸ h.2
  write_succeeds _ _ _ := rfl
  contents_write files key page := by
    funext other
    change (Function.update files key (some page) other).getD _ = _
    by_cases hkey : other = key <;> simp [hkey]
  readable_write files key page other h := by
    change (Function.update files key (some page) other).isSome = true
    by_cases hkey : other = key <;> simp_all

/-- The only frame is taken from one page for another that cannot be read. -/
theorem exists_evicting_fault :
    ∃ c, (system sparseFiles).Reachable
        (Config.init 2 1 (fun _ => 0) (fun _ => {}) fun _ => none) c ∧
      c.state.clockQueue = [1] ∧
      ∃ c', Step sparseFiles c (.fault (State.newAddr 1) false false) c' ∧
        c'.state.clockQueue = [] := by
  have hstart : (system sparseFiles).Reachable
      (Config.init 2 1 (fun _ => 0) (fun _ => {}) fun _ => none)
      (Config.init 2 1 (fun _ => 0) (fun _ => {}) fun _ => none) := .refl
  have hcreate := hstart.step
    (@Step.create _ sparseFiles _ 0 7 _ _ (by decide) rfl)
  have hswitch := hcreate.step (@Step.switch _ sparseFiles _ 7 _ (by decide) rfl)
  have hmap := hswitch.step (@Step.map _ sparseFiles _ none 0 7 _ _ rfl rfl)
  have hwrite := hmap.step
    (@Step.fault _ sparseFiles _ vmArenaBaseaddr true _ 7 _ rfl rfl)
  have hfile := hwrite.step
    (@Step.map _ sparseFiles _ (some vmArenaBaseaddr) 0 7 _ _ rfl rfl)
  exact ⟨_, hfile, rfl, _,
    @Step.fault _ sparseFiles _ (State.newAddr 1) false _ 7 _ rfl rfl, rfl⟩

theorem unseen_of_evicting_fault :
    ∃ c c', (system sparseFiles).Reachable
        (Config.init 2 1 (fun _ => 0) (fun _ => {}) fun _ => none) c ∧
      Step sparseFiles c (.fault (State.newAddr 1) false false) c' ∧
      c.state.clockQueue = [1] ∧ c'.state.clockQueue = [] ∧
      Unseen sparseFilesStore c c' ∧ Residency 2 c' := by
  obtain ⟨c, hreach, hbefore, c', hstep, hafter⟩ := exists_evicting_fault
  exact ⟨c, c', hreach, hstep, hbefore, hafter,
    unseen_of_failing_call sparseFilesStore (by decide) (by decide) hreach hstep .fault⟩

end Pager
end Eecs482
