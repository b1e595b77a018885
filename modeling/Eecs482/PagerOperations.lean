import Eecs482.PagerState

/-!
# The calls of the pager

The functions of the pager in source order: the clock algorithm and the helpers
of a page fault, then the six calls of the interface.  A result `none` is
undefined behaviour of the source: the front of an empty queue, a null table, a
pointer past the end.
-/

namespace Eecs482
namespace Pager

variable {W : Type} (io : FileIo W)

namespace State

/-- Assign to the entries of all `peers`. -/
def setEntries
    (peers : Finset VirtualPage) (assign : Entry → Entry) (s : State W) :
    State W :=
  { s with
    entries := fun ref =>
      if ∃ vp ∈ peers, vp.entry = ref then assign (s.entries ref)
      else s.entries ref }

/-- Assign to one entry. -/
def setEntry (ref : EntryRef) (assign : Entry → Entry) (s : State W) :
    State W :=
  { s with entries := Function.update s.entries ref (assign (s.entries ref)) }

/-- Assign to one physical page. -/
def setPhysical
    (ppage : ℕ) (assign : PhysicalPage → PhysicalPage) (s : State W) :
    State W :=
  { s with
    physicalTable :=
      Function.update s.physicalTable ppage (assign (s.physicalTable ppage)) }

/-- `virtual_page::check_residence`. -/
def checkResidence (s : State W) (page : VirtualPage) : Bool :=
  (s.peerInPhys page.id).isSome

/-! ## Helpers -/

/-- The page at the front of the clock was referenced: its peers lose their
permissions and it goes to the back. -/
def passOver (ppage : ℕ) (rest : List ℕ) (s : State W) : State W :=
  { (s.setEntries (s.peerMap (s.physicalTable ppage).id) fun entry =>
        { entry with readEnable := false, writeEnable := false }).setPhysical
      ppage ({ · with referenced := false }) with
    clockQueue := rest ++ [ppage] }

/-- The page at the front of the clock was not referenced: write it back if it
is dirty and free its frame. -/
def evict (ppage : ℕ) (rest : List ℕ) (s : State W) : State W :=
  let frame := s.physicalTable ppage
  let world :=
    if frame.dirty then
      (io.write frame.id.key (loadPage s.physmem (frameStart ppage)) s.world).2
    else s.world
  { s.setPhysical ppage ({ · with dirty := false }) with
    clockQueue := rest
    world := world
    peerInPhys := Function.update s.peerInPhys frame.id none
    availablePhysicalPages := s.availablePhysicalPages ++ [ppage] }

/-- At most `fuel` tests of the loop condition of `get_free_physical_page`. -/
def getFreePhysicalPageLoop : ℕ → State W → Option (State W)
  | 0, _ => none
  | fuel + 1, s =>
      if s.availablePhysicalPages ≠ [] then some s
      else
        match s.clockQueue with
        | [] => none
        | ppage :: rest =>
            if (s.physicalTable ppage).referenced then
              getFreePhysicalPageLoop fuel (s.passOver ppage rest)
            else some (s.evict io ppage rest)

/-- `get_free_physical_page`: every page is passed over at most once. -/
def getFreePhysicalPage (s : State W) : Option (State W) :=
  getFreePhysicalPageLoop io (s.clockQueue.length + 1) s

/-- The end of `set_physical_page`: `ppage` now belongs to `curPage`. -/
def install (curPage : VirtualPage) (ppage : ℕ) (rest : List ℕ) (s : State W) :
    State W :=
  { (s.setPhysical ppage ({ · with id := curPage.id })).setEntry curPage.entry
      ({ · with ppage := ppage % ppageLimit }) with
    availablePhysicalPages := rest
    clockQueue := s.clockQueue ++ [ppage]
    peerInPhys := Function.update s.peerInPhys curPage.id (some ppage) }

/-- Fill the frame `ppage` with what was read from the file of `curPage`. -/
def readInto (curPage : VirtualPage) (ppage : ℕ) (s : State W) :
    Bool × State W :=
  let result := io.read curPage.id.key s.world
  (result.1.1,
    { s with
      world := result.2
      physmem := storePage s.physmem (frameStart ppage) result.1.2 })

/-- Fill the frame `ppage` with the frame `curPage` is mapped to. -/
def copyInto (curPage : VirtualPage) (ppage : ℕ) (s : State W) : State W :=
  { s with
    physmem := storePage s.physmem (frameStart ppage)
      (loadPage s.physmem (frameStart (s.entries curPage.entry).ppage)) }

/-- `set_physical_page`; `true` is the return value 0.  A failing read of the
swap file goes unnoticed. -/
def setPhysicalPage (curPage : VirtualPage) (s : State W) :
    Option (Bool × State W) :=
  match s.availablePhysicalPages with
  | [] => none
  | ppage :: rest =>
      if s.checkResidence curPage then
        some (true, (s.copyInto curPage ppage).install curPage ppage rest)
      else
        let result := s.readInto io curPage ppage
        if result.1 || curPage.id.swapBacked then
          some (true, result.2.install curPage ppage rest)
        else some (false, result.2)

/-- `get_free_physical_page(); set_physical_page(cur_page)`. -/
def bringIn (curPage : VirtualPage) (s : State W) : Option (Bool × State W) :=
  (s.getFreePhysicalPage io).bind (setPhysicalPage io curPage)

/-- `set_peer(peer_map[cur_page->_id], cur_page)`. -/
def setPeer (curPage : VirtualPage) (s : State W) : State W :=
  s.setEntries (s.peerMap curPage.id) fun _ =>
    pte (s.entries curPage.entry).ppage true
      (s.entries curPage.entry).writeEnable

/-! ## Page faults -/

/-- The dirty bit and `write_enable` of a write fault. -/
def markWritten (curPage : VirtualPage) (s : State W) : State W :=
  (s.setPhysical (s.entries curPage.entry).ppage ({ · with dirty := true })).setEntry
    curPage.entry ({ · with writeEnable := true })

/-- The write fault branch of `vm_fault`. -/
def writeFault (curPage : VirtualPage) (s : State W) :
    Option (Bool × State W) :=
  if !s.checkResidence curPage || (s.entries curPage.entry).ppage == 0 then
    (s.bringIn io curPage).map fun (ok, s) =>
      if ok then (true, s.markWritten curPage) else (false, s)
  else some (true, s.markWritten curPage)

/-- The read fault branch of `vm_fault`. -/
def readFault (curPage : VirtualPage) (s : State W) : Option (Bool × State W) :=
  if !s.checkResidence curPage then s.bringIn io curPage
  else if (s.physicalTable (s.entries curPage.entry).ppage).dirty then
    some (true, s.setEntry curPage.entry ({ · with writeEnable := true }))
  else some (true, s)

/-- The end of `vm_fault`: `read_enable`, the referenced bit and the peers. -/
def finishFault (curPage : VirtualPage) (s : State W) : State W :=
  ((s.setEntry curPage.entry ({ · with readEnable := true })).setPhysical
    (s.entries curPage.entry).ppage ({ · with referenced := true })).setPeer
      curPage

/-- `vm_fault` once the page is found valid. -/
def faultPage (curPage : VirtualPage) (writeFlag : Bool) (s : State W) :
    Option (Bool × State W) :=
  (if writeFlag then s.writeFault io curPage else s.readFault io curPage).map
    fun (ok, s) => if ok then (true, s.finishFault curPage) else (false, s)

/-- `vm_fault`; `true` is the return value 0. -/
def vmFault (addr : UInt64) (writeFlag : Bool) (s : State W) :
    Option (Bool × State W) :=
  s.curTable.bind fun table =>
    if (s.heap table).cnt ≤ (vpn addr).toNat then some (false, s)
    else
      (s.heap table).vps[(vpn addr).toNat]?.bind fun curPage =>
        s.faultPage io curPage writeFlag

/-! ## Processes -/

/-- The state before `vm_init`: nothing is mapped, the memory holds anything. -/
def initial (physmem : ℕ → Byte) (entries : EntryRef → Entry) (world : W) :
    State W where
  physicalTable := fun _ => {}
  availablePhysicalPages := []
  clockQueue := []
  peerInPhys := fun _ => none
  peerMap := fun _ => ∅
  tables := fun _ => none
  curTable := none
  availableSwapBlocks := []
  numMemoryPages := 0
  numSwapBlocks := 0
  curPid := -1
  pageTableBaseRegister := none
  heap := fun _ => {}
  nextTable := 0
  entries := entries
  physmem := physmem
  world := world

/-- `vm_init`. -/
def vmInit (memoryPages swapBlocks : ℕ) (s : State W) : State W :=
  { s with
    numMemoryPages := memoryPages
    numSwapBlocks := swapBlocks
    physmem := storePage s.physmem 0 fun _ => 0
    availablePhysicalPages :=
      s.availablePhysicalPages ++ List.range' 1 (memoryPages - 1)
    availableSwapBlocks := s.availableSwapBlocks ++ List.range swapBlocks }

/-- `tables[child_pid] = new page_table{}`: the permissions of the new array are
cleared, the frame numbers are left as they are. -/
def newTable (childPid : ℕ) (s : State W) : State W :=
  { s with
    tables := Function.update s.tables childPid (some s.nextTable)
    heap := Function.update s.heap s.nextTable {}
    nextTable := s.nextTable + 1
    entries := fun ref =>
      if ref.1 = s.nextTable then
        { s.entries ref with readEnable := false, writeEnable := false }
      else s.entries ref }

/-- `vm_create`; `true` is the return value 0. -/
def vmCreate (parentPid childPid : ℕ) (s : State W) : Bool × State W :=
  match s.tables parentPid with
  | some table =>
      if (s.heap table).occupiedSwapBlocks > s.numSwapBlocks then (false, s)
      else
        (true, { s with
            numSwapBlocks :=
              s.numSwapBlocks - (s.heap table).occupiedSwapBlocks }.newTable
          childPid)
  | none => (true, s.newTable childPid)

/-- `vm_switch`. -/
def vmSwitch (pid : ℕ) (s : State W) : Option (State W) :=
  if s.curPid ≠ pid then
    (s.tables pid).map fun table =>
      { s with
        curTable := some table
        pageTableBaseRegister := some table
        curPid := pid }
  else some s

/-- Free the frame of a swap-backed page. -/
def releaseFrame (vp : VirtualPage) (s : State W) : State W :=
  let ppage := (s.entries vp.entry).ppage
  { s.setPhysical ppage ({ · with dirty := false }) with
    availablePhysicalPages := s.availablePhysicalPages ++ [ppage]
    clockQueue := s.clockQueue.erase ppage
    peerInPhys := Function.update s.peerInPhys vp.id none }

/-- One round of the loop of `vm_destroy`. -/
def destroyPage (s : State W) (vp : VirtualPage) : State W :=
  let s :=
    { s with
      peerMap := Function.update s.peerMap vp.id ((s.peerMap vp.id).erase vp) }
  let s :=
    if s.checkResidence vp && (s.entries vp.entry).ppage != 0 &&
        vp.id.swapBacked then
      s.releaseFrame vp
    else s
  if vp.id.swapBacked then
    { s with availableSwapBlocks := s.availableSwapBlocks ++ [vp.id.block] }
  else s

/-- `vm_destroy`. -/
def vmDestroy (s : State W) : Option (State W) :=
  s.curTable.map fun table =>
    let s := (s.heap table).vps.foldl destroyPage s
    { s with
      numSwapBlocks := s.numSwapBlocks + (s.heap table).occupiedSwapBlocks
      tables := fun pid => if s.curPid = pid then none else s.tables pid
      curTable := none }

/-! ## Mapping pages -/

/-- Append a virtual page to the current table. -/
def addPage (table : ℕ) (page : VirtualPage) (s : State W) : State W :=
  { s with
    heap := Function.update s.heap table
      { s.heap table with
        vps := (s.heap table).vps ++ [page]
        cnt := (s.heap table).cnt + 1 }
    peerMap := Function.update s.peerMap page.id
      (insert page (s.peerMap page.id)) }

/-- `VM_ARENA_BASEADDR + cur_table->cnt * VM_PAGESIZE`. -/
def newAddr (cnt : ℕ) : UInt64 :=
  vmArenaBaseaddr + UInt64.ofNat (cnt * vmPagesize % 2 ^ 32)

/-- A new swap-backed page, mapped to the zero page; `rest` are the swap blocks
left. -/
def addSwapPage (table : ℕ) (page : VirtualPage) (rest : List ℕ) (s : State W) :
    State W :=
  let mapped := (s.setEntry page.entry fun _ => pte 0 true false).addPage table page
  { mapped with
    availableSwapBlocks := rest
    numSwapBlocks := s.numSwapBlocks - 1
    peerInPhys := Function.update s.peerInPhys page.id (some 0)
    heap := Function.update mapped.heap table
      { mapped.heap table with
        occupiedSwapBlocks := (s.heap table).occupiedSwapBlocks + 1 } }

/-- The swap-backed branch of `vm_map`. -/
def mapSwap (table : ℕ) (s : State W) : Option (Option UInt64 × State W) :=
  if s.numSwapBlocks = 0 then some (none, s)
  else
    s.pageTableBaseRegister.bind fun ptbr =>
      match s.availableSwapBlocks with
      | [] => none
      | block :: rest =>
          let page : VirtualPage :=
            { entry := (ptbr, (s.heap table).cnt)
              id := { block := block, swapBacked := true } }
          some (some (newAddr (s.heap table).cnt), s.addSwapPage table page rest)

/-- The entry of a new file-backed page. -/
def mapFileEntry (id : FileId) (s : State W) : Entry :=
  match s.peerInPhys id with
  | none => pte s.numMemoryPages false false
  | some ppage =>
      pte ppage (s.physicalTable ppage).referenced
        ((s.physicalTable ppage).referenced && (s.physicalTable ppage).dirty)

/-- A new file-backed page. -/
def addFilePage (table : ℕ) (page : VirtualPage) (s : State W) : State W :=
  (s.setEntry page.entry fun _ => s.mapFileEntry page.id).addPage table page

/-- The loop of `vm_map` which reads the file name, `fuel` characters at most.
The name keeps its NUL; `some none` is a return of `nullptr`. -/
def readFilename (table : ℕ) (filename : UInt64) :
    ℕ → ℕ → Name → State W → Option (Option Name × State W)
  | 0, _, _, _ => none
  | fuel + 1, temp, tempFilename, s =>
      let addr := filename + UInt64.ofNat temp
      if (s.heap table).cnt ≤ (vpn addr).toNat then some (none, s)
      else
        (s.heap table).vps[(vpn addr).toNat]?.bind fun page =>
          (if (s.entries page.entry).readEnable then some (true, s)
            else s.vmFault io addr false).bind fun (ok, s) =>
              if ok then
                let tmp := s.physmem
                  ((frameStart (s.entries page.entry).ppage +
                    (pageOffset addr).toNat) % 2 ^ 32)
                if tmp = 0 then some (some (tempFilename ++ [tmp]), s)
                else
                  readFilename table filename fuel (temp + 1)
                    (tempFilename ++ [tmp]) s
              else some (none, s)

/-- The file-backed branch of `vm_map` after the file name is read. -/
def mapFile (table block : ℕ) (name : Name) (s : State W) :
    Option (Option UInt64 × State W) :=
  s.pageTableBaseRegister.map fun ptbr =>
    let page : VirtualPage :=
      { entry := (ptbr, (s.heap table).cnt)
        id := { filename := name, block := block, swapBacked := false } }
    (some (newAddr (s.heap table).cnt), s.addFilePage table page)

/-- `vm_map`. -/
def vmMap (filename : Option UInt64) (block : ℕ) (s : State W) :
    Option (Option UInt64 × State W) :=
  s.curTable.bind fun table =>
    if maxPageNum ≤ (s.heap table).cnt then some (none, s)
    else
      match filename with
      | none => s.mapSwap table
      | some filename =>
          (s.readFilename io table filename (vmArenaSize + 1) 0 []).bind
            fun (name, s) =>
              match name with
              | none => some (none, s)
              | some name => s.mapFile table block name

end State
end Pager
end Eecs482
