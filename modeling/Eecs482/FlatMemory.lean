import Eecs482.PagerMachine

/-!
# Memory without paging

What the processes may take the pager for: every process has an arena of pages,
each of which simply holds bytes.  A swap-backed page belongs to one process and
starts out as zeroes.  A file-backed page is the block of the file, so all pages
mapped to one block are the same page.
-/

namespace Eecs482
namespace Pager

/-- What a page of an arena stands for. -/
inductive Backing
  | anon
  | file (name : Name) (block : ℕ)
deriving DecidableEq

/-- The arenas of the live processes, the private pages by process and index,
and the files. -/
structure Flat where
  arena : ℕ → Option (List Backing)
  current : Option ℕ
  anon : ℕ → ℕ → Page
  files : Name → ℕ → Page

namespace Flat

def page (f : Flat) (pid index : ℕ) : Backing → Page
  | .anon => f.anon pid index
  | .file name block => f.files name block

/-- The byte the current process has at an offset of a page of its arena. -/
def byte (f : Flat) (index offset : ℕ) : Option Byte := do
  let pid ← f.current
  let pages ← f.arena pid
  let backing ← pages[index]?
  if h : offset < vmPagesize then
    return f.page pid index backing ⟨offset, h⟩
  else none

/-- Change one byte of a page. -/
def setPage (f : Flat) (pid index : ℕ) (page : Page) : Backing → Flat
  | .anon =>
      { f with
        anon := Function.update f.anon pid
          (Function.update (f.anon pid) index page) }
  | .file name block =>
      { f with
        files := Function.update f.files name
          (Function.update (f.files name) block page) }

/-- The bytes of memory from `pointer` on are `name` and a NUL.  A pointer is
taken apart into page and offset the way the pager does it. -/
def CString (f : Flat) (pointer : UInt64) (name : Name) : Prop :=
  (∀ k (hk : k < name.length), name[k] ≠ 0 ∧
    f.byte (vpn (pointer + UInt64.ofNat k)).toNat
      (pageOffset (pointer + UInt64.ofNat k)).toNat = some name[k]) ∧
  f.byte (vpn (pointer + UInt64.ofNat name.length)).toNat
    (pageOffset (pointer + UInt64.ofNat name.length)).toNat = some 0

/-- The lowest address of page `index` of the arena. -/
def pageAddr (index : ℕ) : UInt64 :=
  UInt64.ofNat (vmArenaBaseaddr.toNat + index * vmPagesize)

/-- One event as memory without paging shows it.  A process may not be created,
and a page not mapped, for lack of resources; page faults are invisible. -/
inductive Step : Flat → Event → Flat → Prop
  | created {f : Flat} {parent child : ℕ} :
      Step f (.create parent child true)
        { f with arena := Function.update f.arena child (some []) }
  | notCreated {f : Flat} {parent child : ℕ} :
      Step f (.create parent child false) f
  | switch {f : Flat} {pid : ℕ} :
      Step f (.switch pid) { f with current := some pid }
  | fault {f : Flat} {addr : UInt64} {write ok : Bool} :
      Step f (.fault addr write ok) f
  | notMapped {f : Flat} {filename : Option UInt64} {block : ℕ} :
      Step f (.map filename block none) f
  | mapAnon {f : Flat} {block pid : ℕ} {pages : List Backing}
      (hcurrent : f.current = some pid) (harena : f.arena pid = some pages) :
      Step f (.map none block (some (pageAddr pages.length)))
        { f with
          arena := Function.update f.arena pid (some (pages ++ [.anon]))
          anon := Function.update f.anon pid
            (Function.update (f.anon pid) pages.length fun _ => 0) }
  | mapFile {f : Flat} {pointer : UInt64} {block pid : ℕ} {pages : List Backing}
      {name : Name} (hcurrent : f.current = some pid)
      (harena : f.arena pid = some pages) (hname : f.CString pointer name) :
      Step f (.map (some pointer) block (some (pageAddr pages.length)))
        { f with
          arena := Function.update f.arena pid
            (some (pages ++ [.file name block])) }
  | destroy {f : Flat} {pid : ℕ} (hcurrent : f.current = some pid) :
      Step f .destroy
        { f with
          arena := Function.update f.arena pid none
          current := none }
  | load {f : Flat} {addr : UInt64} {index offset : ℕ} {value : Byte}
      (haddr : arenaPage addr = some (index, offset))
      (hbyte : f.byte index offset = some value) :
      Step f (.load addr value) f
  | store {f : Flat} {addr : UInt64} {value : Byte} {pid index : ℕ}
      {pages : List Backing} {backing : Backing} {offset : Fin vmPagesize}
      (haddr : arenaPage addr = some (index, offset.val))
      (hcurrent : f.current = some pid) (harena : f.arena pid = some pages)
      (hbacking : pages[index]? = some backing) :
      Step f (.store addr value)
        (f.setPage pid index
          (Function.update (f.page pid index backing) offset value) backing)

/-- Memory without paging as a system of steps. -/
def system : EventSystem Flat Event where
  Step := Step

/-- No process yet, and the files as they are. -/
def init (files : Name → ℕ → Page) : Flat where
  arena := fun _ => none
  current := none
  anon := fun _ _ _ => 0
  files := files

end Flat

end Pager
end Eecs482
