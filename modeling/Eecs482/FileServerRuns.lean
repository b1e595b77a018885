import Eecs482.FileServerInit
import Eecs482.FileServerParser
import Eecs482.FileServerReadWrite
import Eecs482.FileServerCreate
import Eecs482.FileServerDelete

/-!
# Runs of the server

A server is started on a well-formed image and any number of handlers run, one
call at a time in any order.  Every reachable state satisfies the invariant, so
no block is lost or used twice, and the disk always holds the tree obtained
from the committed requests.
-/

namespace Eecs482
namespace FileServer

open Discipline

/-- The server after `init_server` on a disk image. -/
def initServer (disk : Disk) : Option Server :=
  (initFreeBlocks disk fsDiskSize).map fun free =>
    { disk := disk, freeBlocks := free }

/-- The queue holds the blocks outside the tree. -/
structure FreeList (disk : Disk) (free : List BlockNo) : Prop where
  nodup : free.Nodup
  mem_iff : ∀ x, x ∈ free ↔ x ≠ 0 ∧ x.toNat < fsDiskSize ∧ ¬Used disk x

/-- The server on an image before the first request. -/
structure Started (disk : Disk) (boot : Server) : Prop where
  inv : Inv disk boot
  idle : ∀ i, Owns i {} boot

theorem started_of_freeList
    {disk : Disk} {free : List BlockNo} (hwf : WellFormed disk)
    (hfree : FreeList disk free) :
    Started disk { disk := disk, freeBlocks := free } := by
  refine ⟨{
    wf := hwf
    occupied := id
    replay := .nil
    conserved := {
      free_range := fun x hx =>
        ⟨((hfree.mem_iff x).mp hx).1, ((hfree.mem_iff x).mp hx).2.1⟩
      free_nodup := hfree.nodup
      free_unused := fun x hx => ((hfree.mem_iff x).mp hx).2.2
      hand_range := by simp
      hand_nodup := by simp
      hand_unused := by simp
      hand_not_free := by simp
      hand_unique := by simp
      complete := fun x hzero hrange => ?_ }
    exclusive := by simp
    locked := by simp [Locks]
    life := fun _ => .idle }, fun i => ?_⟩
  · by_cases hused : Used disk x
    · exact Or.inr (Or.inl hused)
    · exact Or.inl ((hfree.mem_iff x).mpr ⟨hzero, hrange, hused⟩)
  · constructor <;> simp [eventsOf]

/-- The blocks outside the tree can be found. -/
theorem exists_freeList {disk : Disk} (hwf : WellFormed disk) :
    ∃ free, initFreeBlocks disk fsDiskSize = some free ∧ FreeList disk free := by
  obtain ⟨free, hinit, hsublist, hmem⟩ :=
    initFreeBlocks_spec hwf (le_refl fsDiskSize)
  exact ⟨free, hinit, hsublist.nodup nodup_allBlocks, hmem⟩

/-- A well-formed image can be started, with the free blocks found on it. -/
theorem exists_started {disk : Disk} (hwf : WellFormed disk) :
    ∃ boot, initServer disk = some boot ∧ Started disk boot := by
  obtain ⟨free, hinit, hfree⟩ := exists_freeList hwf
  exact ⟨_, by rw [initServer, hinit, Option.map_some],
    started_of_freeList hwf hfree⟩

/-- Every handler may run alongside the others. -/
theorem verified (initial : Disk) :
    Discipline.Verified (discipline initial) Done := by
  refine ⟨fun i connection s hinv hidle => ?_⟩
  obtain ⟨request, stack⟩ := connection
  have hthread : ∀ j, j ≠ i → eventsOf j (s.events ++ [.start i]) =
      eventsOf j s.events := fun j hj =>
    eventsOf_append_of_ne (by simpa [Event.thread] using hj.symm)
  have hself : eventsOf i (s.events ++ [.start i]) = [.start i] := by
    have happend := eventsOf_append_self s.events (.start i)
    simp only [Event.thread, hidle.events, List.nil_append] at happend
    exact happend
  have hinv' : Inv initial (Server.arrive i ⟨request, stack⟩ s) := by
    refine { hinv with
      conserved := { hinv.conserved with }
      replay := ?_
      life := fun j => ?_ }
    · simpa [Server.arrive, history_append, history] using hinv.replay
    · by_cases hj : j = i
      · subst hj
        simp only [Server.arrive, Function.update_self, hself]
        exact .started
      · simp only [Server.arrive, Function.update_of_ne hj, hthread j hj]
        exact hinv.life j
  have hquiet : Quiet i s (Server.arrive i ⟨request, stack⟩ s) := by
    constructor
    · exact fun _ _ _ => rfl
    · exact fun _ _ _ => Iff.rfl
    · exact fun j _ b _ hb => steady_of_agree (fun _ _ => Agree.refl _ _) hb
    · exact fun _ _ => Iff.rfl
    · exact Or.inl rfl
    · exact fun _ _ => rfl
    · exact fun _ _ _ _ => rfl
    · exact fun j hj => Function.update_of_ne hj _ _
    · exact hthread
  have howns : Owns i (Local.start i request [])
      (Server.arrive i ⟨request, stack⟩ s) :=
    { hidle with
      request := Function.update_self _ _ _
      events := hself }
  refine ⟨hinv', fun j hj => hquiet.rely hinv' hj, ?_⟩
  cases request with
  | readblock req fields =>
      exact triple_handleReadblock req fields _ hinv' howns
  | writeblock req fields data =>
      exact triple_handleWriteblock req fields data _ hinv' howns
  | create req fields =>
      exact triple_handleCreate stack req fields _ hinv' howns
  | delete fields =>
      exact triple_handleDelete stack fields _ hinv' howns

section Run

variable {disk : Disk} {boot : Server} {c : Config fsInterface Server}
variable (hboot : Started disk boot)
variable (hreach : machine.Reachable boot c)
include hboot hreach

theorem run_invariant :
    Discipline.PoolInvariant (discipline disk) Done c := by
  exact Discipline.sound (D := discipline disk) (verified disk) hboot.inv
    hboot.idle hreach

theorem run_inv : Inv disk c.shared :=
  (run_invariant hboot hreach).inv

end Run

/-- The handler of thread `i` has been started and has not returned. -/
def InFlight (c : Config fsInterface Server) (i : ℕ) : Prop :=
  ∃ op next, c.thread i = some (.call op next)

/-- The handler of thread `i` has more to do than to respond and to close. -/
def Working (c : Config fsInterface Server) (i : ℕ) : Prop :=
  ∃ op next, c.thread i = some (.call op next) ∧ ¬op.Answers

theorem Working.inFlight
    {c : Config fsInterface Server} {i : ℕ} (h : Working c i) : InFlight c i := by
  obtain ⟨op, next, hthread, _⟩ := h
  exact ⟨op, next, hthread⟩

theorem not_inFlight_iff {c : Config fsInterface Server} {i : ℕ} :
    ¬InFlight c i ↔ c.thread i = none ∨ c.thread i = some (.ret ()) := by
  unfold InFlight
  cases hthread : c.thread i with
  | none => simp
  | some program =>
      cases program with
      | ret value => simp
      | call op next => simp

section Run

variable {disk : Disk} {boot : Server} {c : Config fsInterface Server}
variable (hboot : Started disk boot)
variable (hreach : machine.Reachable boot c)
include hboot hreach

/-- A handler that is not running owns nothing. -/
theorem owns_of_not_inFlight {i : ℕ} (hidle : ¬InFlight c i) :
    ∃ request events,
      Owns i { request := request, events := events } c.shared ∧
        (events = [] ∨ Event.close i ∈ events) := by
  have hpool := run_invariant hboot hreach
  rcases not_inFlight_iff.mp hidle with hnone | hret
  · exact ⟨none, [], hpool.idle i hnone, Or.inl rfl⟩
  · obtain ⟨request, events, _, hclose, howns⟩ := hpool.done hret
    exact ⟨some request, events, howns, Or.inr hclose⟩

theorem inFlight_of_hands {i : ℕ} {x : BlockNo} (hx : x ∈ c.shared.hands i) :
    InFlight c i := by
  by_contra hidle
  obtain ⟨request, events, howns, _⟩ :=
    owns_of_not_inFlight hboot hreach hidle
  rw [howns.hand] at hx
  simp at hx

theorem inFlight_of_locks {i : ℕ} {b : BlockNo} (hb : Locks i b c.shared) :
    InFlight c i := by
  by_contra hidle
  obtain ⟨request, events, howns, _⟩ :=
    owns_of_not_inFlight hboot hreach hidle
  rw [howns.locks_iff] at hb
  simp [Local.Locks] at hb

theorem inFlight_of_freeLock {i : ℕ} (hi : c.shared.freeBlockLock = some i) :
    InFlight c i := by
  by_contra hidle
  obtain ⟨request, events, howns, _⟩ :=
    owns_of_not_inFlight hboot hreach hidle
  have := howns.freeLock.mp hi
  simp at this

omit hboot in
theorem answering_of_reachable
    {i : ℕ} {program : FsProg Unit} (hthread : c.thread i = some program) :
    Answering program := by
  induction hreach generalizing i program with
  | start => cases hthread
  | step _ hstep ih =>
      cases hstep with
      | arrive j connection hfresh =>
          by_cases hij : i = j
          · subst hij
            simp only [Function.update_self, Option.some.injEq] at hthread
            rw [← hthread]
            exact answering_serve connection.stack connection.request
          · simp only [Function.update_of_ne hij] at hthread
            exact ih hthread
      | exec j op next answer shared hcall hexec =>
          by_cases hij : i = j
          · subst hij
            simp only [Function.update_self, Option.some.injEq] at hthread
            rw [← hthread]
            exact (ih hcall).2 answer
          · simp only [Function.update_of_ne hij] at hthread
            exact ih hthread

omit hboot in
/-- A handler that is about to respond only has its `close` after that. -/
theorem exists_answered
    {i : ℕ} {message : List Byte} {next : Unit → FsProg Unit}
    (hthread : c.thread i = some (.call (.sendResponse message) next)) :
    ∃ c', machine.Reachable boot c' ∧ ¬InFlight c' i ∧
      c'.shared.diskLocks = c.shared.diskLocks ∧
      c'.shared.freeBlockLock = c.shared.freeBlockLock ∧
      c'.shared.hands = c.shared.hands := by
  have hclose : next () = call .close :=
    (answering_of_reachable hreach hthread).1 trivial ()
  have hsent := hreach.step (Machine.Step.exec (M := machine) i (.sendResponse message) next ()
    (c.shared.log (.respond i message)) hthread rfl)
  have hclosed := hsent.step (Machine.Step.exec (M := machine) i .close .ret ()
    ((c.shared.log (.respond i message)).log (.close i))
    ((Function.update_self _ _ _).trans (congrArg some hclose)) rfl)
  refine ⟨_, hclosed, ?_, rfl, rfl, rfl⟩
  rw [not_inFlight_iff]
  exact Or.inr (Function.update_self _ _ _)

omit hboot in
/-- A handler that holds something is not yet about to respond. -/
theorem working_of_inFlight
    {i : ℕ} (Holds : Server → Prop) (hholds : Holds c.shared)
    (hsame : ∀ s : Server, s.diskLocks = c.shared.diskLocks →
      s.freeBlockLock = c.shared.freeBlockLock → s.hands = c.shared.hands → Holds s)
    (hflight : ∀ c', machine.Reachable boot c' → Holds c'.shared → InFlight c' i) :
    Working c i := by
  obtain ⟨op, next, hthread⟩ := hflight c hreach hholds
  refine ⟨op, next, hthread, fun hanswers => ?_⟩
  cases op with
  | sendResponse message =>
      obtain ⟨c', hreach', hidle, hdisk, hfree, hhands⟩ :=
        exists_answered hreach hthread
      exact hidle (hflight c' hreach' (hsame c'.shared hdisk hfree hhands))
  | _ => exact hanswers.elim

theorem working_of_hands {i : ℕ} {x : BlockNo} (hx : x ∈ c.shared.hands i) :
    Working c i := by
  apply working_of_inFlight hreach (fun s => x ∈ s.hands i) hx
  · intro s _ _ hhands
    rw [hhands]
    exact hx
  · exact fun c' hreach' hx' => inFlight_of_hands hboot hreach' hx'

theorem working_of_locks {i : ℕ} {b : BlockNo} (hb : Locks i b c.shared) :
    Working c i := by
  apply working_of_inFlight hreach (Locks i b) hb
  · intro s hlocks _ _
    unfold Locks
    rw [hlocks]
    exact hb
  · exact fun c' hreach' hb' => inFlight_of_locks hboot hreach' hb'

theorem working_of_freeLock {i : ℕ} (hi : c.shared.freeBlockLock = some i) :
    Working c i := by
  apply working_of_inFlight hreach (fun s => s.freeBlockLock = some i) hi
  · intro s _ hfree _
    rw [hfree]
    exact hi
  · exact fun c' hreach' hi' => inFlight_of_freeLock hboot hreach' hi'

end Run

/-! ## The empty file system -/

/-- A formatted disk: the root directory, unowned and empty. -/
def freshDisk : Disk := fun b =>
  if b = 0 then ofInode {
    type := dirType
    owner := fun _ => 0
    size := 0
    blocks := fun _ => 0 }
  else fun _ => 0

theorem inodeAt_freshDisk_zero :
    inodeAt freshDisk 0 =
      { type := dirType, owner := fun _ => 0, size := 0,
        blocks := fun _ => 0 } := by
  rw [inodeAt, freshDisk, if_pos rfl, asInode_ofInode]

theorem dataBlocks_freshDisk_zero : dataBlocks freshDisk 0 = [] := by
  rw [dataBlocks, inodeAt_freshDisk_zero]
  rfl

theorem direntries_freshDisk_zero : direntries freshDisk 0 = [] := by
  rw [direntries, dataBlocks_freshDisk_zero]
  simp

theorem reach_freshDisk {b : BlockNo} (hb : Reach freshDisk b) : b = 0 := by
  obtain ⟨path, hpath⟩ := hb
  cases path with
  | nil => simpa using hpath.symm
  | cons name rest =>
      have hnone : childOf freshDisk 0 name = none := by
        rw [childOf_eq_none_iff, direntries_freshDisk_zero]
        simp
      rw [LabelledWalk.walk_cons, hnone, Option.bind_none] at hpath
      cases hpath

theorem wellFormed_freshDisk : WellFormed freshDisk := by
  have hrefs : refs freshDisk 0 = [] := by
    rw [refs, dataBlocks_freshDisk_zero, direntries_freshDisk_zero]
    rfl
  constructor
  · rw [inodeAt_freshDisk_zero]
  · intro b hb
    rw [reach_freshDisk hb, inodeAt_freshDisk_zero]
    exact Or.inl rfl
  · intro b hb
    rw [reach_freshDisk hb, inodeAt_freshDisk_zero]
    exact Nat.zero_le _
  · intro b hb
    rw [reach_freshDisk hb, inodeAt_freshDisk_zero]
    exact ⟨0, rfl⟩
  · intro b hb
    rw [reach_freshDisk hb, direntries_freshDisk_zero]
    simp
  · intro b hb
    rw [reach_freshDisk hb, direntries_freshDisk_zero]
    simp
  · intro b hb
    rw [reach_freshDisk hb, hrefs]
    simp
  · intro b hb
    rw [reach_freshDisk hb, hrefs]
    simp
  · intro b c hb hc hne
    exact absurd ((reach_freshDisk hb).trans (reach_freshDisk hc).symm) hne

theorem occupied_freshDisk : Occupied freshDisk := by
  intro b hb _ x hx
  rw [reach_freshDisk hb, dataBlocks_freshDisk_zero] at hx
  cases hx

/-- The fields of a request of user `a` about the path `/a`. -/
def exampleFields : RequestFields where
  username := [97]
  pathname := [47, 97]
  username_ne_nil := by decide
  username_length := by decide
  username_noNul := by decide
  pathname_ne_nil := by decide
  pathname_length := by decide
  pathname_noNul := by decide

/-- The request `FS_CREATE a /a f`. -/
def createRequest : Request :=
  .create [32, 102] exampleFields

/-- The request `FS_DELETE a /a`. -/
def deleteRequest : Request :=
  .delete exampleFields

def freshStack : Stack where
  parentEntries := fun _ => { name := fun _ => 0, inodeBlock := 0 }
  newInode := inodeAt freshDisk 0

/-- The server on the empty file system, with blocks 1 and 2 at the front of the
queue. -/
def freshServer (rest : List BlockNo) : Server :=
  { disk := freshDisk, freeBlocks := 1 :: 2 :: rest }

theorem initFreeBlocks_freshDisk :
    ∃ rest, initFreeBlocks freshDisk fsDiskSize = some (1 :: 2 :: rest) := by
  have hrange : List.range (fsDiskSize - 1) = List.range (4093 + 2) := rfl
  refine ⟨((List.range 4093).map Nat.succ).map fun k => UInt32.ofNat (k + 1 + 1), ?_⟩
  have hblocks : (inodeAt freshDisk 0).dataBlocks = [] := dataBlocks_freshDisk_zero
  rw [initFreeBlocks, hblocks, allBlocks, hrange, List.range_succ_eq_map,
    List.range_succ_eq_map]
  simp [initLoop]

theorem exists_freeList_freshDisk : ∃ rest, FreeList freshDisk (1 :: 2 :: rest) := by
  obtain ⟨rest, hinit⟩ := initFreeBlocks_freshDisk
  obtain ⟨free, hfree, hlist⟩ := exists_freeList wellFormed_freshDisk
  obtain rfl : 1 :: 2 :: rest = free := Option.some.inj (hinit.symm.trans hfree)
  exact ⟨rest, hlist⟩

theorem exists_freshServer {P : Server → Prop}
    (h : ∃ boot, initServer freshDisk = some boot ∧ P boot) :
    ∃ rest, initServer freshDisk = some (freshServer rest) ∧ P (freshServer rest) := by
  obtain ⟨boot, hinit, hboot⟩ := h
  obtain ⟨rest, hfree⟩ := initFreeBlocks_freshDisk
  have hfresh : initServer freshDisk = some (freshServer rest) := by
    rw [initServer, hfree]
    rfl
  obtain rfl : freshServer rest = boot := Option.some.inj (hfresh.symm.trans hinit)
  exact ⟨rest, hfresh, hboot⟩

/-- Thread 0 is to create `/a` and thread 1 to delete it, and thread 0 makes its first
`n` calls. -/
def creating (n : ℕ) : List machine.Move :=
  .arrive 0 ⟨createRequest, freshStack⟩ :: .arrive 1 ⟨deleteRequest, freshStack⟩ ::
    List.replicate n (.exec 0)

def playFresh (rest : List BlockNo) (moves : List machine.Move) :
    Option (Config fsInterface Server) :=
  machine.play moves ⟨freshServer rest, fun _ => none⟩

theorem reachable_of_playFresh
    {rest : List BlockNo} {moves : List machine.Move} {c : Config fsInterface Server}
    (hplay : playFresh rest moves = some c) : machine.Reachable (freshServer rest) c :=
  Machine.reachable_of_play hplay .start

/-! ## Where the blocks are -/

/-- The block has one role in the tree: one inode refers to it, at one place. -/
def OneRole (disk : Disk) (x : BlockNo) : Prop :=
  ∃! place : BlockNo × ℕ,
    Reach disk place.1 ∧ (refs disk place.1)[place.2]? = some x

theorem WellFormed.oneRole
    {disk : Disk} (hwf : WellFormed disk) {x : BlockNo} (hused : Used disk x) :
    OneRole disk x := by
  obtain ⟨b, hb, hx⟩ := hused
  obtain ⟨k, hk, hget⟩ := List.getElem_of_mem hx
  refine ⟨(b, k), ⟨hb, by rw [List.getElem?_eq_getElem hk, hget]⟩, ?_⟩
  rintro ⟨b', k'⟩ ⟨hb', hget'⟩
  have hx' : x ∈ refs disk b' := List.mem_of_getElem? hget'
  have hbb : b' = b := by
    by_contra hne
    exact hwf.refs_disjoint b' b hb' hb hne hx' hx
  subst hbb
  obtain ⟨hk', hget'⟩ := List.getElem?_eq_some_iff.mp hget'
  have hkk : k' = k :=
    (hwf.refs_nodup b' hb').getElem_inj_iff.mp (hget'.trans hget.symm)
  rw [hkk]

/-- A block is in exactly one place: in the queue of free blocks, in the tree,
or in the hands of one running handler. -/
def InOnePlace (c : Config fsInterface Server) (x : BlockNo) : Prop :=
  (c.shared.freeBlocks.count x = 1 ∧ ¬Used c.shared.disk x ∧
    ∀ i, x ∉ c.shared.hands i) ∨
  (x ∉ c.shared.freeBlocks ∧ OneRole c.shared.disk x ∧
    ∀ i, x ∉ c.shared.hands i) ∨
  (x ∉ c.shared.freeBlocks ∧ ¬Used c.shared.disk x ∧
    ∃ i, InFlight c i ∧ (c.shared.hands i).count x = 1 ∧
      ∀ j, j ≠ i → x ∉ c.shared.hands j)

/-- No block is lost, freed twice or used twice, in any interleaving. -/
theorem blocks_inOnePlace (disk : Disk) (hwf : WellFormed disk) :
    ∃ boot, initServer disk = some boot ∧
      ∀ c, machine.Reachable boot c → ∀ x : BlockNo,
        x ≠ 0 → x.toNat < fsDiskSize → InOnePlace c x := by
  obtain ⟨boot, hinit, hboot⟩ := exists_started hwf
  refine ⟨boot, hinit, fun c hreach x hzero hrange => ?_⟩
  have hinv := run_inv hboot hreach
  have hconserved := hinv.conserved
  rcases hconserved.complete x hzero hrange with hfree | hused | ⟨i, hi⟩
  · refine Or.inl ⟨List.count_eq_one_of_mem hconserved.free_nodup hfree,
      hconserved.free_unused x hfree, fun i hi => ?_⟩
    exact hconserved.hand_not_free i x hi hfree
  · exact Or.inr (Or.inl ⟨fun hfree => hconserved.free_unused x hfree hused,
      hinv.wf.oneRole hused, fun i hi => hconserved.hand_unused i x hi hused⟩)
  · refine Or.inr (Or.inr ⟨hconserved.hand_not_free i x hi,
      hconserved.hand_unused i x hi, i, inFlight_of_hands hboot hreach hi,
      List.count_eq_one_of_mem (hconserved.hand_nodup i) hi, fun j hj hmem => ?_⟩)
    exact hj (hconserved.hand_unique j i x hmem hi)

/-- Thread 0 has taken block 1 for the new file. -/
theorem blocks_inOnePlace_freshDisk :
    ∃ rest c, initServer freshDisk = some (freshServer rest) ∧
      playFresh rest (creating 4) = some c ∧ InFlight c 0 ∧ InFlight c 1 ∧
      c.shared.hands 0 = [1] ∧ InOnePlace c 1 ∧ InOnePlace c 2 := by
  obtain ⟨rest, hinit, hplaces⟩ :=
    exists_freshServer (blocks_inOnePlace freshDisk wellFormed_freshDisk)
  obtain ⟨c, hplay, hcreates, hdeletes, hhand⟩ :
      ∃ c, playFresh rest (creating 4) = some c ∧ InFlight c 0 ∧ InFlight c 1 ∧
        c.shared.hands 0 = [1] := ⟨_, rfl, ⟨_, _, rfl⟩, ⟨_, _, rfl⟩, rfl⟩
  have hreach := reachable_of_playFresh hplay
  exact ⟨rest, c, hinit, hplay, hcreates, hdeletes, hhand,
    hplaces c hreach 1 (by decide) (by decide), hplaces c hreach 2 (by decide) (by decide)⟩

/-! ## The disk after a crash -/

theorem count_commitOrder (i : ℕ) (events : List Event) :
    (commitOrder events).count i =
      (commitOrder (eventsOf i events)).length := by
  induction events with
  | nil => rfl
  | cons event rest ih =>
      unfold commitOrder eventsOf at ih ⊢
      cases event with
      | commit j op answer =>
          by_cases hj : j = i
          · simp [Event.thread, hj, ih]
          · simp [Event.thread, hj, ih]
      | start j => by_cases hj : j = i <;> simp [Event.thread, hj, ih]
      | respond j message => by_cases hj : j = i <;> simp [Event.thread, hj, ih]
      | close j => by_cases hj : j = i <;> simp [Event.thread, hj, ih]

theorem Life.length_commitOrder
    {i : ℕ} {request : Option Request} {events : List Event}
    (h : Life i request events) : (commitOrder events).length ≤ 1 := by
  cases h <;> simp [commitOrder]

/-- A request takes effect at most once. -/
theorem Inv.nodup_commitOrder
    {initial : Disk} {s : Server} (hinv : Inv initial s) :
    (commitOrder s.events).Nodup := by
  rw [List.nodup_iff_count_le_one]
  intro i
  rw [count_commitOrder]
  exact (hinv.life i).length_commitOrder

theorem mem_commitOrder {i : ℕ} {events : List Event} :
    i ∈ commitOrder events ↔ ∃ op answer, Event.commit i op answer ∈ events := by
  rw [commitOrder, List.mem_filterMap]
  constructor
  · rintro ⟨event, hevent, heq⟩
    cases event with
    | commit j op answer =>
        have hj : j = i := by simpa using heq
        exact ⟨op, answer, hj ▸ hevent⟩
    | start j => simp at heq
    | respond j message => simp at heq
    | close j => simp at heq
  · rintro ⟨op, answer, hmem⟩
    exact ⟨_, hmem, rfl⟩

theorem mem_eventsOf {i : ℕ} {events : List Event} {event : Event} :
    event ∈ eventsOf i events ↔ event ∈ events ∧ event.thread = i := by
  simp [eventsOf]

/-- What holds between any two writes to the disk. -/
structure CrashConsistent
    (initial : Disk) (c : Config fsInterface Server) : Prop where
  wf : WellFormed c.shared.disk
  /-- The tree is the initial tree after the operations whose commit write has
  been issued, in that order. -/
  tree : Replay (treeOf initial)
    ((mutations (history c.shared.events)).map fun op => (op, none))
    (treeOf c.shared.disk)
  once : (commitOrder c.shared.events).Nodup
  requested : ∀ i op answer, Event.commit i op answer ∈ c.shared.events →
    (c.shared.request i).bind Request.op = some op
  /-- A handler writes to the disk only before its commit and to commit: before
  it to a block outside the tree, and then to an inode of the tree that its
  request is about or to a data block of that. -/
  writes : ∀ i b block mark next,
    c.thread i = some (.call (.diskWriteblock b block mark) next) →
    i ∉ commitOrder c.shared.events ∧
      match mark with
      | none => b ≠ 0 ∧ ¬Used c.shared.disk b
      | some _ => ∃ op p, (c.shared.request i).bind Request.op = some op ∧
          resolve c.shared.disk op.home = some p ∧
          (b = p ∨ b ∈ dataBlocks c.shared.disk p)

theorem Life.requested
    {i : ℕ} {request : Option Request} {events : List Event}
    (h : Life i request events) {op : FsOp} {answer : Option Block}
    (hmem : Event.commit i op answer ∈ events) :
    request.bind Request.op = some op := by
  cases h with
  | idle => simp at hmem
  | started => simp at hmem
  | refused => simp at hmem
  | committed hop =>
      simp only [List.mem_cons, reduceCtorEq, Event.commit.injEq, true_and,
        List.not_mem_nil, or_false, false_or] at hmem
      rw [hmem.1]
      exact hop
  | responded hop =>
      simp only [List.mem_cons, reduceCtorEq, Event.commit.injEq, true_and,
        List.not_mem_nil, or_false, false_or] at hmem
      rw [hmem.1]
      exact hop
  | answered hop =>
      simp only [List.mem_cons, reduceCtorEq, Event.commit.injEq, true_and,
        List.not_mem_nil, or_false, false_or] at hmem
      rw [hmem.1]
      exact hop

theorem Inv.requested
    {initial : Disk} {s : Server} (hinv : Inv initial s) {i : ℕ} {op : FsOp}
    {answer : Option Block} (hmem : Event.commit i op answer ∈ s.events) :
    (s.request i).bind Request.op = some op :=
  (hinv.life i).requested (mem_eventsOf.mpr ⟨hmem, rfl⟩)

/-- Whenever the server stops, the disk holds the tree of the committed
requests. -/
theorem crashConsistent (disk : Disk) (hwf : WellFormed disk) :
    ∃ boot, initServer disk = some boot ∧
      ∀ c, machine.Reachable boot c → CrashConsistent disk c := by
  obtain ⟨boot, hinit, hboot⟩ := exists_started hwf
  refine ⟨boot, hinit, fun c hreach => ?_⟩
  have hpool := run_invariant hboot hreach
  have hinv := run_inv hboot hreach
  refine ⟨hinv.wf, hinv.replay.mutations, hinv.nodup_commitOrder,
    fun i op answer hmem => hinv.requested hmem, ?_⟩
  intro i b block mark next hthread
  have hguard := hpool.guard hthread
  have hnone : eventsOf i c.shared.events = [.start i] →
      i ∉ commitOrder c.shared.events := by
    intro hevents hmem
    obtain ⟨op, answer, hmem⟩ := mem_commitOrder.mp hmem
    have hown := mem_eventsOf.mpr ⟨hmem, rfl⟩
    change _ ∈ eventsOf i c.shared.events at hown
    rw [hevents] at hown
    simp at hown
  cases mark with
  | none =>
      obtain ⟨hhand, hevents⟩ := hguard
      exact ⟨hnone hevents, (hinv.conserved.hand_range i b hhand).1,
        hinv.conserved.hand_unused i b hhand⟩
  | some note =>
      obtain ⟨⟨request, op, p, hrequest, hop, hhome, hb, _⟩, hevents⟩ := hguard
      exact ⟨hnone hevents, op, p, by rw [hrequest]; exact hop, hhome, hb⟩

/-- Thread 0 is about to commit, and then has committed, with thread 1 waiting. -/
theorem crashConsistent_freshDisk :
    ∃ rest c d, initServer freshDisk = some (freshServer rest) ∧
      playFresh rest (creating 14) = some c ∧ playFresh rest (creating 15) = some d ∧
      commitOrder c.shared.events = [] ∧ commitOrder d.shared.events = [0] ∧
      CrashConsistent freshDisk c ∧ CrashConsistent freshDisk d := by
  obtain ⟨rest, hinit, hconsistent⟩ :=
    exists_freshServer (crashConsistent freshDisk wellFormed_freshDisk)
  obtain ⟨c, d, hbefore, hafter, hnone, hcommit⟩ :
      ∃ c d, playFresh rest (creating 14) = some c ∧
        playFresh rest (creating 15) = some d ∧ commitOrder c.shared.events = [] ∧
        commitOrder d.shared.events = [0] := ⟨_, _, rfl, rfl, rfl, rfl⟩
  exact ⟨rest, c, d, hinit, hbefore, hafter, hnone, hcommit,
    hconsistent c (reachable_of_playFresh hbefore),
    hconsistent d (reachable_of_playFresh hafter)⟩

end FileServer
end Eecs482
