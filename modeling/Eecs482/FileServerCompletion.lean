import Eecs482.FileServerLocking
import Eecs482.FileServerProgress
import Eecs482.FileServerRefinement
import Eecs482.FileServerSend

/-!
# Every request is served

The server does not deadlock, and a handler makes only so many calls whatever
the others do.  So once the clients stop sending, all handlers return, but for those
whose clients do not take the answer: `send_response` does not return to them.
-/

namespace Eecs482
namespace FileServer

/-! ## Clients that come and go -/

/-- Execute one call of thread `i`, whose client is `peer i`. -/
def Server.execFor
    (peer : ℕ → Peer) (i : ℕ) :
    (op : FsCall) → Server → Option (fsInterface.Answer op × Server)
  | .sendResponse message, s =>
      if TakesAll (peer i) message then Server.exec i (.sendResponse message) s else none
  | op, s => Server.exec i op s

/-- The file server and its clients. -/
def clientMachine (peer : ℕ → Peer) : Machine fsInterface Server :=
  { machine with exec := Server.execFor peer }

variable {peer : ℕ → Peer} {boot : Server} {c : Config fsInterface Server}
  {arrivals calls i : ℕ}

theorem Server.exec_of_execFor
    {op : FsCall} {s : Server} {result : fsInterface.Answer op × Server}
    (hexec : Server.execFor peer i op s = some result) : Server.exec i op s = some result := by
  cases op with
  | sendResponse message =>
      rw [Server.execFor] at hexec
      split at hexec
      · exact hexec
      · cases hexec
  | _ => exact hexec

theorem Server.execFor_of_silent
    {op : FsCall} (s : Server) (hsilent : ¬op.Answers) :
    Server.execFor peer i op s = Server.exec i op s := by
  cases op with
  | sendResponse message => exact absurd trivial hsilent
  | _ => rfl

/-- `send_response` lets its handler go on if and only if it returns. -/
theorem Server.execFor_sendResponse (s : Server) (message : List Byte) :
    (Server.execFor peer i (.sendResponse message) s).isSome ↔
      ∃ n, SendEnds (peer i) message n := by
  rw [exists_sendEnds_iff, Server.execFor]
  split
  case isTrue htakes => exact iff_of_true rfl htakes
  case isFalse htakes => exact iff_of_false (by simp) htakes

/-- A run of the server with its clients is one of the server. -/
theorem run_of_clientMachine
    (hrun : (clientMachine peer).Run boot arrivals calls c) :
    machine.Run boot arrivals calls c := by
  induction hrun with
  | start => exact .start
  | arrive i request _ hfresh ih =>
      exact Machine.Run.arrive (M := machine) i request ih hfresh
  | exec i op next answer shared _ hthread hexec ih =>
      exact Machine.Run.exec (M := machine) i op next answer shared ih hthread
        (Server.exec_of_execFor hexec)

/-! ## The end of a run -/

/-- All requests have been served and nothing of them is left in memory, but for the
answers that a client does not take. -/
structure Settled (peer : ℕ → Peer) (c : Config fsInterface Server) : Prop where
  returned : ∀ i program, c.thread i = some program → program = .ret () ∨
    ∃ message next, program = .call (.sendResponse message) next ∧ ¬TakesAll (peer i) message
  closed : ∀ i, c.thread i = some (.ret ()) → Event.close i ∈ c.shared.events
  unlocked : c.shared.diskLocks = noLocks ∧ c.shared.freeBlockLock = none
  hands : ∀ i, c.shared.hands i = []
  freeList : FreeList c.shared.disk c.shared.freeBlocks

/-- The handler of a client that does not go away has returned. -/
theorem Settled.returned_of_stays
    {program : FsProg Unit} (h : Settled peer c) (hstays : (peer i).gone = none)
    (hthread : c.thread i = some program) : program = .ret () := by
  rcases h.returned i program hthread with hret | ⟨message, _, _, hleaves⟩
  · exact hret
  · refine absurd ?_ hleaves
    intro gone hgone
    rw [hstays] at hgone
    cases hgone

section Run

variable {disk : Disk} (hboot : Started disk boot)
variable (hreach : machine.Reachable boot c)
include hboot hreach

theorem not_working_of_rests (hrests : (clientMachine peer).Rests c) (i : ℕ) :
    ¬Working c i := by
  intro hworking
  obtain ⟨j, op, next, hthread, hsilent, _, hsome⟩ :=
    exists_working_progress hboot hreach hworking
  have hnone : Server.execFor peer j op c.shared = none := hrests j op next hthread
  rw [Server.execFor_of_silent _ hsilent] at hnone
  rw [hnone] at hsome
  cases hsome

theorem settled_of_rests (hrests : (clientMachine peer).Rests c) : Settled peer c := by
  have hdone := not_working_of_rests hboot hreach hrests
  constructor
  case returned =>
      intro i program hthread
      cases program with
      | ret value => exact .inl rfl
      | call op next =>
          have hanswers : op.Answers := by
            by_contra hsilent
            exact hdone i ⟨op, next, hthread, hsilent⟩
          cases op with
          | sendResponse message =>
              refine .inr ⟨message, next, rfl, fun htakes => ?_⟩
              have hnone : Server.execFor peer i (.sendResponse message) c.shared = none :=
                hrests i _ next hthread
              rw [Server.execFor, if_pos htakes] at hnone
              cases hnone
          | _ => exact hanswers.elim
  case closed =>
      intro i hthread
      obtain ⟨request, events, _, hclose, howns⟩ :=
        (run_invariant hboot hreach).done hthread
      have hevents : eventsOf i c.shared.events = events := howns.events
      rw [← hevents] at hclose
      exact (mem_eventsOf.mp hclose).1
  case unlocked => exact unlocked_of_not_working hboot hreach hdone
  case hands =>
      intro i
      rw [List.eq_nil_iff_forall_not_mem]
      intro x hx
      exact hdone i (working_of_hands hboot hreach hx)
  case freeList => exact freeList_of_not_working hboot hreach hdone

end Run

/-- Whatever the clients do, the handlers of any number of requests make at most 8448
calls each, and where none of them can go on all of them have returned but for those
that respond to a client that does not take the answer.  That point can be reached from
everywhere. -/
theorem allServed (disk : Disk) (hwf : WellFormed disk) (peer : ℕ → Peer) :
    ∃ boot, initServer disk = some boot ∧
      ∀ arrivals calls c, (clientMachine peer).Run boot arrivals calls c →
        calls ≤ arrivals * 8448 ∧ ((clientMachine peer).Rests c → Settled peer c) ∧
          ∃ c', Relation.ReflTransGen (clientMachine peer).Exec c c' ∧ Settled peer c' := by
  obtain ⟨boot, hinit, hboot⟩ := exists_started hwf
  have hbound : ∀ arrivals calls c, (clientMachine peer).Run boot arrivals calls c →
      calls ≤ arrivals * 8448 := fun arrivals calls c hrun =>
    Discipline.calls_le_of_run (verified disk) hboot.inv hboot.idle (budgeted disk)
      (run_of_clientMachine hrun)
  refine ⟨boot, hinit, fun arrivals calls c hrun => ⟨hbound _ _ _ hrun, ?_, ?_⟩⟩
  · exact settled_of_rests hboot (run_of_clientMachine hrun).reachable
  · obtain ⟨c', hcalls, hrests⟩ := hrun.exists_rests (hbound arrivals)
    obtain ⟨calls', hrun'⟩ := hrun.exists_run_of_exec hcalls
    exact ⟨c', hcalls, settled_of_rests hboot (run_of_clientMachine hrun').reachable hrests⟩

/-- The client of thread 0 stays, and the others are gone. -/
def firstStays : ℕ → Peer :=
  Function.update (fun _ => absentPeer) 0 stayingPeer

/-- Thread 0 is to create a file, and thread 1 to delete it. -/
theorem allServed_freshDisk :
    ∃ rest c c', initServer freshDisk = some (freshServer rest) ∧
      (clientMachine firstStays).Run (freshServer rest) 2 0 c ∧
      InFlight c 0 ∧ InFlight c 1 ∧
      Relation.ReflTransGen (clientMachine firstStays).Exec c c' ∧
      Settled firstStays c' ∧ c'.thread 0 = some (.ret ()) := by
  obtain ⟨rest, hinit, hserved⟩ :=
    exists_freshServer (allServed freshDisk wellFormed_freshDisk firstStays)
  have hstart : (clientMachine firstStays).Run (freshServer rest) 0 0 _ := .start
  have hfirst := hstart.arrive 0 (⟨createRequest, freshStack⟩ : Connection) rfl
  have hsecond := hfirst.arrive 1 (⟨deleteRequest, freshStack⟩ : Connection) rfl
  obtain ⟨c', hcalls, hsettled⟩ := (hserved 2 0 _ hsecond).2.2
  obtain ⟨program, hthread⟩ :=
    Option.isSome_iff_exists.mp (Machine.isSome_thread_of_exec (i := 0) hcalls rfl)
  obtain rfl := hsettled.returned_of_stays rfl hthread
  exact ⟨rest, _, c', hinit, hsecond, ⟨_, _, rfl⟩, ⟨_, _, rfl⟩, hcalls, hsettled, hthread⟩

end FileServer
end Eecs482
