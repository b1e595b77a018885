import Eecs482.FileServerEffect
import Eecs482.FileServerMachine

/-!
# What the handlers agree on

The invariant of the shared state, and what one handler knows while the others
run: its locks, the inodes it has pinned under them, the queue of free blocks
while it holds its lock, the blocks in its hands and what it has written there.
A handler may rely on exactly this knowledge.
-/

namespace Eecs482
namespace FileServer

/-- The message which answers a request. -/
def Request.response (request : Request) (answer : Option Block) : List Byte :=
  let word (req : List Byte) : Name := ((extractWord req).map Prod.fst).getD []
  let username := request.fields.username
  let pathname := request.fields.pathname
  match request with
  | .readblock req _ =>
      responseHeader [readblockWord, username, pathname, word req] ++
        ((answer.map List.ofFn).getD [])
  | .writeblock req _ _ =>
      responseHeader [writeblockWord, username, pathname, word req]
  | .create req _ =>
      responseHeader [createWord, username, pathname, word req]
  | .delete _ =>
      responseHeader [deleteWord, username, pathname]

/-- What the events of one thread can be, given its request. -/
inductive Life (i : ℕ) : Option Request → List Event → Prop
  | idle : Life i none []
  | started {request : Request} : Life i (some request) [.start i]
  | committed {request : Request} {op : FsOp} {answer : Option Block}
      (hop : request.op = some op) :
      Life i (some request) [.start i, .commit i op answer]
  | responded {request : Request} {op : FsOp} {answer : Option Block}
      (hop : request.op = some op) :
      Life i (some request)
        [.start i, .commit i op answer, .respond i (request.response answer)]
  | refused {request : Request} :
      Life i (some request) [.start i, .close i]
  | answered {request : Request} {op : FsOp} {answer : Option Block}
      (hop : request.op = some op) :
      Life i (some request)
        [.start i, .commit i op answer, .respond i (request.response answer),
          .close i]

/-- Thread `i` holds the lock of block `b`. -/
def Locks (i : ℕ) (b : BlockNo) (s : Server) : Prop :=
  i ∈ (s.diskLocks b).readers ∨ (s.diskLocks b).writer = some i

/-- Every block but 0 is in the tree, in the queue or in one pair of hands. -/
structure Conserved (s : Server) : Prop where
  free_range : ∀ x ∈ s.freeBlocks, x ≠ 0 ∧ x.toNat < fsDiskSize
  free_nodup : s.freeBlocks.Nodup
  free_unused : ∀ x ∈ s.freeBlocks, ¬Used s.disk x
  hand_range : ∀ i, ∀ x ∈ s.hands i, x ≠ 0 ∧ x.toNat < fsDiskSize
  hand_nodup : ∀ i, (s.hands i).Nodup
  hand_unused : ∀ i, ∀ x ∈ s.hands i, ¬Used s.disk x
  hand_not_free : ∀ i, ∀ x ∈ s.hands i, x ∉ s.freeBlocks
  hand_unique : ∀ i j x, x ∈ s.hands i → x ∈ s.hands j → i = j
  complete : ∀ x, x ≠ 0 → x.toNat < fsDiskSize →
    x ∈ s.freeBlocks ∨ Used s.disk x ∨ ∃ i, x ∈ s.hands i

/-- The invariant of a server started on the image `initial`. -/
structure Inv (initial : Disk) (s : Server) : Prop where
  wf : WellFormed s.disk
  occupied : Occupied initial → Occupied s.disk
  replay : Replay (treeOf initial) (history s.events) (treeOf s.disk)
  conserved : Conserved s
  exclusive : ∀ b i, (s.diskLocks b).writer = some i →
    (s.diskLocks b).readers = []
  locked : ∀ i b, Locks i b s → Reach s.disk b ∨ b ∈ s.hands i
  life : ∀ i, Life i (s.request i) (eventsOf i s.events)

/-- What a handler knows. -/
structure Local where
  shared : List BlockNo := []
  excl : List BlockNo := []
  pins : List Pin := []
  /-- The queue of free blocks, while its lock is held. -/
  free : Option (List BlockNo) := none
  hand : List BlockNo := []
  written : List (BlockNo × Block) := []
  request : Option Request := none
  events : List Event := []

def Local.Locks (l : Local) (b : BlockNo) : Prop :=
  b ∈ l.shared ∨ b ∈ l.excl

/-- The knowledge `l` of thread `i` is true. -/
structure Owns (i : ℕ) (l : Local) (s : Server) : Prop where
  readers : ∀ b, (s.diskLocks b).readers.count i = l.shared.count b
  writer : ∀ b, (s.diskLocks b).writer = some i ↔ b ∈ l.excl
  pinned : ∀ pin ∈ l.pins, l.Locks pin.block ∧ pin.Holds s.disk
  freeLock : s.freeBlockLock = some i ↔ l.free.isSome
  freeBlocks : ∀ queue, l.free = some queue → s.freeBlocks = queue
  hand : s.hands i = l.hand
  written : ∀ w ∈ l.written, w.1 ∈ l.hand ∧ s.disk w.1 = w.2
  request : s.request i = l.request
  events : eventsOf i s.events = l.events

theorem Owns.locks_iff
    {i : ℕ} {l : Local} {s : Server} (h : Owns i l s) (b : BlockNo) :
    FileServer.Locks i b s ↔ l.Locks b := by
  unfold FileServer.Locks Local.Locks
  rw [h.writer b, ← List.count_pos_iff, h.readers b, List.count_pos_iff]

/-- Forget some pins and some of what has been written. -/
theorem Owns.weaken
    {i : ℕ} {l : Local} {s : Server} (h : Owns i l s)
    {pins : List Pin} {written : List (BlockNo × Block)}
    (hpins : pins ⊆ l.pins) (hwritten : written ⊆ l.written) :
    Owns i { l with pins := pins, written := written } s :=
  { h with
    pinned := fun pin hpin => h.pinned pin (hpins hpin)
    written := fun w hw => h.written w (hwritten hw) }

/-! ## The discipline -/

/-- Thread `i` may wait for the lock of `b`: it holds the lock of the parent of
`b` alone, or nothing when `b` is the root. -/
def MayWait (i : ℕ) (b : BlockNo) (s : Server) : Prop :=
  s.freeBlockLock ≠ some i ∧
    ((b = 0 ∧ ∀ c, ¬Locks i c s) ∨
      ∃ parent name, Reach s.disk parent ∧
        childOf s.disk parent name = some b ∧
        ∀ c, Locks i c s → c = parent)

/-- What must hold when thread `i` calls an operation.  Before the commit write it
writes to blocks in hand, and with it to the inode the request is about, or to a data
block of that, as the request asks. -/
def Guard (i : ℕ) : FsCall → Server → Prop
  | .lockShared b, s | .lock b, s => MayWait i b s
  | .unlockShared b, s => i ∈ (s.diskLocks b).readers
  | .unlock b, s => (s.diskLocks b).writer = some i
  | .lockFree, s => s.freeBlockLock ≠ some i
  | .unlockFree, s | .freeEmpty, s => s.freeBlockLock = some i
  | .freeFront, s | .freePop, s =>
      s.freeBlockLock = some i ∧ s.freeBlocks ≠ []
  | .freePush b, s => s.freeBlockLock = some i ∧ b ∈ s.hands i
  | .diskReadblock b _, _ => b.toNat < fsDiskSize
  | .diskWriteblock b _ none, s =>
      b ∈ s.hands i ∧ eventsOf i s.events = [.start i]
  | .diskWriteblock b block (some note), s =>
      (∃ request op p, s.request i = some request ∧ request.op = some op ∧
        resolve s.disk op.home = some p ∧
        (b = p ∨ b ∈ dataBlocks s.disk p) ∧
        Effect s.disk (Function.update s.disk b block) p op
          note.attached note.detached) ∧
        eventsOf i s.events = [.start i]
  | .sendResponse _, _ => True
  | .close, s => (∀ b, ¬Locks i b s) ∧ s.freeBlockLock ≠ some i

/-- What thread `i` may assume of the steps of the others. -/
structure Rely (initial : Disk) (i : ℕ) (s t : Server) : Prop where
  inv : Inv initial t
  owns : ∀ l, Owns i l s → Owns i l t

/-- The discipline of a server started on `initial`. -/
def discipline (initial : Disk) : Discipline machine where
  Inv := Inv initial
  Rely := Rely initial
  Guard := Guard
  Idle := fun i s => Owns i {} s
  rely_refl := fun _ _ hinv => ⟨hinv, fun _ h => h⟩
  rely_trans := fun _ _ _ _ hst htu =>
    ⟨htu.inv, fun l h => htu.owns l (hst.owns l h)⟩
  rely_inv := fun _ _ _ h => h.inv
  idle_rely := fun _ _ _ h hrely => hrely.owns _ h

theorem stable_owns (initial : Disk) (i : ℕ) (l : Local) :
    (discipline initial).Stable i (Owns i l) :=
  fun _ _ h hrely => hrely.owns l h

/-- A step of thread `i` seen by the others. -/
structure Quiet (i : ℕ) (s t : Server) : Prop where
  readers : ∀ j, j ≠ i → ∀ b,
    (t.diskLocks b).readers.count j = (s.diskLocks b).readers.count j
  writer : ∀ j, j ≠ i → ∀ b,
    (t.diskLocks b).writer = some j ↔ (s.diskLocks b).writer = some j
  steady : ∀ j, j ≠ i → ∀ b, Locks j b s → Reach s.disk b →
    Steady s.disk t.disk b
  freeLock : ∀ j, j ≠ i →
    (t.freeBlockLock = some j ↔ s.freeBlockLock = some j)
  freeBlocks : t.freeBlocks = s.freeBlocks ∨ s.freeBlockLock = some i
  hands : ∀ j, j ≠ i → t.hands j = s.hands j
  written : ∀ j, j ≠ i → ∀ x ∈ s.hands j, t.disk x = s.disk x
  request : ∀ j, j ≠ i → t.request j = s.request j
  events : ∀ j, j ≠ i → eventsOf j t.events = eventsOf j s.events

theorem Quiet.rely
    {initial : Disk} {i j : ℕ} {s t : Server} (h : Quiet i s t)
    (hinv : Inv initial t) (hj : j ≠ i) : Rely initial j s t := by
  refine ⟨hinv, fun l hl => ?_⟩
  constructor
  · intro b
    rw [h.readers j hj b, hl.readers b]
  · intro b
    rw [h.writer j hj b, hl.writer b]
  · intro pin hpin
    obtain ⟨hlock, hholds⟩ := hl.pinned pin hpin
    exact ⟨hlock, hholds.steady (h.steady j hj pin.block
      ((hl.locks_iff pin.block).mpr hlock) hholds.reach)⟩
  · rw [h.freeLock j hj, hl.freeLock]
  · intro queue hqueue
    rcases h.freeBlocks with hsame | hi
    · rw [hsame, hl.freeBlocks queue hqueue]
    · have hmine := hl.freeLock.mpr (by simp [hqueue])
      rw [hmine, Option.some.injEq] at hi
      exact absurd hi hj
  · rw [h.hands j hj, hl.hand]
  · intro w hw
    obtain ⟨hmem, hcontent⟩ := hl.written w hw
    refine ⟨hmem, ?_⟩
    rw [h.written j hj w.1 (by rw [hl.hand]; exact hmem), hcontent]
  · rw [h.request j hj, hl.request]
  · rw [h.events j hj, hl.events]

/-! ## Reasoning about one call -/

section Rules

variable {initial : Disk} {i : ℕ} {l : Local} {α : Type}
variable {Post : α → Server → Prop}

/-- A call whose answer and effect on the knowledge of the handler are known. -/
theorem triple_step
    (op : FsCall) {next : fsInterface.Answer op → FsProg α}
    (answer : fsInterface.Answer op) (l' : Local)
    (hop : Discipline.Atomic (discipline initial) i (Owns i l) op
      fun given s => given = answer ∧ Owns i l' s)
    (hnext : (discipline initial).Triple i (Owns i l') (next answer) Post) :
    (discipline initial).Triple i (Owns i l) (.call op next) Post := by
  refine Discipline.Triple.call _ hop fun given s hinv hs => ?_
  obtain ⟨rfl, howns⟩ := hs
  exact hnext s hinv howns

/-- What has to be shown about one call. -/
theorem atomic_of
    {op : FsCall} {Mid : fsInterface.Answer op → Server → Prop}
    (hguard : ∀ s, Inv initial s → Owns i l s → Guard i op s)
    (heffect : ∀ s answer t, Inv initial s → Owns i l s →
      Server.exec i op s = some (answer, t) →
      Inv initial t ∧ Quiet i s t ∧ Mid answer t) :
    Discipline.Atomic (discipline initial) i (Owns i l) op Mid := by
  refine ⟨stable_owns initial i l, hguard, fun s answer t hinv hs hexec => ?_⟩
  obtain ⟨hinvt, hquiet, hmid⟩ := heffect s answer t hinv hs hexec
  exact ⟨hinvt, fun j hj => hquiet.rely hinvt hj, hmid⟩

theorem triple_weaken
    {program : FsProg α} (pins : List Pin)
    (written : List (BlockNo × Block))
    (hpins : pins ⊆ l.pins) (hwritten : written ⊆ l.written)
    (h : (discipline initial).Triple i
      (Owns i { l with pins := pins, written := written }) program Post) :
    (discipline initial).Triple i (Owns i l) program Post :=
  fun s hinv hs => h s hinv (hs.weaken hpins hwritten)

end Rules

end FileServer
end Eecs482
