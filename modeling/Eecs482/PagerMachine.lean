import Eecs482.PagerOperations
import Eecs482.TraceRefinement

/-!
# Runs of the pager

Processes come and go, and the current one maps pages and touches its arena.
The hardware translates an address through the page table entry that the base
register leads to and lets the access pass if the entry permits it.  Otherwise
the infrastructure calls `vm_fault` and tries again, so faults are steps of
their own.
-/

namespace Eecs482
namespace Pager

/-- What happens in one step, with its result. -/
inductive Event
  | create (parent child : ℕ) (ok : Bool)
  | switch (pid : ℕ)
  | fault (addr : UInt64) (write ok : Bool)
  | map (filename : Option UInt64) (block : ℕ) (result : Option UInt64)
  | destroy
  | load (addr : UInt64) (value : Byte)
  | store (addr : UInt64) (value : Byte)

/-- The state of the pager, and what the kernel knows about the processes: the
pids used so far, the live ones and the current one.  `written` remembers the
pages that have had a write fault. -/
structure Config (W : Type) where
  state : State W
  used : Finset ℕ
  live : Finset ℕ
  current : Option ℕ
  written : Finset EntryRef

/-- Page number and offset of an address inside the arena. -/
def arenaPage (addr : UInt64) : Option (ℕ × ℕ) :=
  if vmArenaBaseaddr.toNat ≤ addr.toNat ∧
      addr.toNat < vmArenaBaseaddr.toNat + vmArenaSize then
    some ((addr.toNat - vmArenaBaseaddr.toNat) / vmPagesize,
      (addr.toNat - vmArenaBaseaddr.toNat) % vmPagesize)
  else none

variable {W : Type} (io : FileIo W)

/-- The page table entry that translates `addr`, and the offset. -/
def State.translate (s : State W) (addr : UInt64) : Option (Entry × ℕ) := do
  let ptbr ← s.pageTableBaseRegister
  let (index, offset) ← arenaPage addr
  return (s.entries (ptbr, index), offset)

/-- The byte of physical memory at `offset` of frame `ppage`. -/
def frameByte (ppage offset : ℕ) : ℕ :=
  ppage * vmPagesize + offset

/-- The hardware writes one byte of physical memory. -/
def State.setByte (address : ℕ) (value : Byte) (s : State W) : State W :=
  { s with physmem := Function.update s.physmem address value }

/-- The page a fault at `addr` is about, if it is valid. -/
def State.faultRef (s : State W) (addr : UInt64) : Finset EntryRef :=
  match s.curTable with
  | none => ∅
  | some table =>
      if (vpn addr).toNat < (s.heap table).cnt then {(table, (vpn addr).toNat)}
      else ∅

/-- The steps of a legal run.  A pid is created once, only a live process is
switched to, and the other calls are made for a live current process. -/
inductive Step : Config W → Event → Config W → Prop
  | create {c : Config W} {parent child : ℕ} {ok : Bool} {s : State W}
      (hfresh : child ∉ c.used)
      (hcall : c.state.vmCreate parent child = (ok, s)) :
      Step c (.create parent child ok)
        { c with
          state := s
          used := insert child c.used
          live := if ok then insert child c.live else c.live }
  | switch {c : Config W} {pid : ℕ} {s : State W}
      (hlive : pid ∈ c.live) (hcall : c.state.vmSwitch pid = some s) :
      Step c (.switch pid) { c with state := s, current := some pid }
  | fault {c : Config W} {addr : UInt64} {write ok : Bool} {pid : ℕ}
      {s : State W} (hcurrent : c.current = some pid)
      (hcall : c.state.vmFault io addr write = some (ok, s)) :
      Step c (.fault addr write ok)
        { c with
          state := s
          written :=
            if write then c.written ∪ c.state.faultRef addr else c.written }
  | map {c : Config W} {filename : Option UInt64} {block pid : ℕ}
      {result : Option UInt64} {s : State W}
      (hcurrent : c.current = some pid)
      (hcall : c.state.vmMap io filename block = some (result, s)) :
      Step c (.map filename block result) { c with state := s }
  | destroy {c : Config W} {pid : ℕ} {s : State W}
      (hcurrent : c.current = some pid)
      (hcall : c.state.vmDestroy = some s) :
      Step c .destroy
        { c with state := s, live := c.live.erase pid, current := none }
  | load {c : Config W} {addr : UInt64} {pid offset : ℕ} {entry : Entry}
      (hcurrent : c.current = some pid)
      (htranslate : c.state.translate addr = some (entry, offset))
      (henable : entry.readEnable = true) :
      Step c (.load addr (c.state.physmem (frameByte entry.ppage offset))) c
  | store {c : Config W} {addr : UInt64} {value : Byte} {pid offset : ℕ}
      {entry : Entry} (hcurrent : c.current = some pid)
      (htranslate : c.state.translate addr = some (entry, offset))
      (henable : entry.writeEnable = true) :
      Step c (.store addr value)
        { c with state := c.state.setByte (frameByte entry.ppage offset) value }

/-- The pager as a system of steps. -/
def system : EventSystem (Config W) Event where
  Step := Step io

/-- The configuration right after `vm_init`. -/
def Config.init
    (memoryPages swapBlocks : ℕ) (physmem : ℕ → Byte) (entries : EntryRef → Entry)
    (world : W) : Config W where
  state := (State.initial physmem entries world).vmInit memoryPages swapBlocks
  used := ∅
  live := ∅
  current := none
  written := ∅

/-- `vp` is a page of a live process. -/
def Config.LivePage (c : Config W) (vp : VirtualPage) : Prop :=
  ∃ pid ∈ c.live, ∃ table, c.state.tables pid = some table ∧
    vp ∈ (c.state.heap table).vps

/-- Files all of whose blocks can be read and written. -/
def blockFiles : FileIo (BlockKey → Page) where
  read key files := ((true, files key), files)
  write key page files := (true, Function.update files key page)

/-- The pager right after `vm_init`, with blank memory and blank files. -/
def freshConfig (memoryPages swapBlocks : ℕ) : Config (BlockKey → Page) :=
  .init memoryPages swapBlocks (fun _ => 0) (fun _ => {}) fun _ _ => 0

end Pager
end Eecs482
