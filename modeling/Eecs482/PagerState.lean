import Mathlib.Algebra.Group.Nat.Defs
import Mathlib.Data.Finset.Basic
import Mathlib.Data.Fintype.Basic
import Mathlib.Logic.Function.Basic
import Mathlib.Tactic.Common

/-!
# The data of the external pager

The pager manages the arenas of all processes.  Page table entries live in
arrays named by the page table that allocated them, and a virtual page is known
by the entry it points to and its file id.  A file id names the backing store of
a page: a block of the swap file, or a block of a named file.
-/

namespace Eecs482
namespace Pager

abbrev vmPagesize : ℕ := 65536
abbrev vmArenaBaseaddr : UInt64 := 0x600000000
abbrev vmArenaSize : ℕ := 0x01000000
abbrev maxPageNum : ℕ := vmArenaSize / vmPagesize

abbrev Byte := UInt8
abbrev Page := Fin vmPagesize → Byte

/-- The bytes of a `std::string`. -/
abbrev Name := List Byte

/-- What `file_read` and `file_write` are called with: the file name, none for
the swap file, and the block. -/
abbrev BlockKey := Option Name × ℕ

/-- `file_read` and `file_write`, provided by the infrastructure.  `W` is the
state of all files; a read leaves some bytes in the buffer also when it fails. -/
structure FileIo (W : Type) where
  read : BlockKey → W → (Bool × Page) × W
  write : BlockKey → Page → W → Bool × W

/-- `file_id`. -/
structure FileId where
  filename : Name := []
  block : ℕ := 0
  swapBacked : Bool := true
deriving DecidableEq

/-- `c_str()`: the bytes before the first NUL. -/
def cStr (name : Name) : Name :=
  name.takeWhile (· ≠ 0)

/-- The file block in which the page is kept. -/
def FileId.key (id : FileId) : BlockKey :=
  (if id.swapBacked then none else some (cStr id.filename), id.block)

/-- `page_table_entry_t`.  The field `ppage` has 20 bits: whatever is assigned
to it is first reduced modulo `2 ^ 20`. -/
structure Entry where
  ppage : ℕ := 0
  readEnable : Bool := false
  writeEnable : Bool := false
deriving DecidableEq

abbrev ppageLimit : ℕ := 2 ^ 20

/-- `{ .ppage = ppage, .read_enable = .., .write_enable = .. }`. -/
def pte (ppage : ℕ) (readEnable writeEnable : Bool) : Entry where
  ppage := ppage % ppageLimit
  readEnable := readEnable
  writeEnable := writeEnable

/-- A pointer to a page table entry: the page table and the index. -/
abbrev EntryRef := ℕ × ℕ

/-- `virtual_page`. -/
structure VirtualPage where
  entry : EntryRef
  id : FileId
deriving DecidableEq

/-- `physical_page`. -/
structure PhysicalPage where
  dirty : Bool := false
  referenced : Bool := false
  id : FileId := {}

/-- `page_table`, less the array of entries. -/
structure PageTable where
  vps : List VirtualPage := []
  cnt : ℕ := 0
  occupiedSwapBlocks : ℕ := 0

/-- The globals of the pager, the objects on its heap, the physical memory and
the files. -/
structure State (W : Type) where
  physicalTable : ℕ → PhysicalPage
  availablePhysicalPages : List ℕ
  clockQueue : List ℕ
  peerInPhys : FileId → Option ℕ
  peerMap : FileId → Finset VirtualPage
  tables : ℕ → Option ℕ
  curTable : Option ℕ
  availableSwapBlocks : List ℕ
  numMemoryPages : ℕ
  numSwapBlocks : ℕ
  curPid : ℤ
  pageTableBaseRegister : Option ℕ
  /-- The page tables allocated so far are those below `nextTable`. -/
  heap : ℕ → PageTable
  nextTable : ℕ
  entries : EntryRef → Entry
  physmem : ℕ → Byte
  world : W

/-! ## Addresses -/

/-- `(addr - VM_ARENA_BASEADDR) >> 16`, assigned to an `unsigned int`. -/
def vpn (addr : UInt64) : UInt32 :=
  ((addr - vmArenaBaseaddr) >>> 16).toUInt32

/-- `(addr - VM_ARENA_BASEADDR) - (vpn << 16)`, assigned to an `unsigned int`. -/
def pageOffset (addr : UInt64) : UInt32 :=
  ((addr - vmArenaBaseaddr) - (vpn addr <<< 16).toUInt64).toUInt32

/-- `ppage * VM_PAGESIZE` in 32-bit arithmetic. -/
def frameStart (ppage : ℕ) : ℕ :=
  ppage * vmPagesize % 2 ^ 32

/-- The page of memory from byte `start` on. -/
def loadPage (physmem : ℕ → Byte) (start : ℕ) : Page :=
  fun offset => physmem (start + offset)

/-- Overwrite the page of memory from byte `start` on. -/
def storePage (physmem : ℕ → Byte) (start : ℕ) (page : Page) : ℕ → Byte :=
  fun i =>
    if h : start ≤ i ∧ i - start < vmPagesize then page ⟨i - start, h.2⟩
    else physmem i

theorem loadPage_storePage (physmem : ℕ → Byte) (start : ℕ) (page : Page) :
    loadPage (storePage physmem start page) start = page := by
  funext offset
  have hin : start ≤ start + offset.val ∧
      start + offset.val - start < vmPagesize := by omega
  rw [loadPage, storePage, dif_pos hin]
  congr 1
  exact Fin.ext (by simp)

theorem loadPage_storePage_of_disjoint
    {start start' : ℕ} (physmem : ℕ → Byte) (page : Page)
    (hdisjoint : start + vmPagesize ≤ start' ∨ start' + vmPagesize ≤ start) :
    loadPage (storePage physmem start page) start' =
      loadPage physmem start' := by
  funext offset
  have hout : ¬(start ≤ start' + offset.val ∧
      start' + offset.val - start < vmPagesize) := by omega
  rw [loadPage, storePage, dif_neg hout, loadPage]

/-- Below `2 ^ 16` frames the product does not wrap. -/
theorem frameStart_of_lt {ppage : ℕ} (hppage : ppage < 2 ^ 16) :
    frameStart ppage = ppage * vmPagesize := by
  have hbound : ppage * vmPagesize < 2 ^ 32 :=
    calc ppage * vmPagesize < 2 ^ 16 * vmPagesize :=
          Nat.mul_lt_mul_of_pos_right hppage (by decide)
      _ = 2 ^ 32 := by decide
  exact Nat.mod_eq_of_lt hbound

end Pager
end Eecs482
