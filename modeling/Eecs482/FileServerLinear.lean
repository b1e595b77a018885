import Eecs482.FileServerRuns

/-!
# Linearizability

The commit events of a run put the successful requests in one order.  Each
commit lies between the start and the end of its handler, replaying the
operations in this order on the initial path tree finds every condition met,
ends in the tree of the disk, and gives the answers that were sent.
-/

namespace Eecs482
namespace FileServer

/-- The run up to `c` is explained by the order of its commits. -/
structure Linearized
    (initial : Disk) (c : Config fsInterface Server) : Prop where
  /-- Each thread appears at most once in the order. -/
  once : (commitOrder c.shared.events).Nodup
  /-- The requests in the order are those with a response, and some whose
  handler has not returned. -/
  responded : ∀ i, (∃ message, Event.respond i message ∈ c.shared.events) →
    i ∈ commitOrder c.shared.events
  pending : ∀ i ∈ commitOrder c.shared.events,
    (∃ message, Event.respond i message ∈ c.shared.events) ∨ InFlight c i
  /-- A commit lies between the start and the end of its handler. -/
  placed : ∀ i op answer, Event.commit i op answer ∈ c.shared.events →
    ∃ before after,
      c.shared.events = before ++ .commit i op answer :: after ∧
        Event.start i ∈ before ∧ Event.close i ∉ before
  /-- The operation is what the thread was asked for, and what it sends is the
  response with the answer of the operation. -/
  requested : ∀ i op answer, Event.commit i op answer ∈ c.shared.events →
    (c.shared.request i).bind Request.op = some op
  answered : ∀ i message, Event.respond i message ∈ c.shared.events →
    ∃ request op answer, c.shared.request i = some request ∧
      Event.commit i op answer ∈ c.shared.events ∧
      message = request.response answer
  /-- Every operation applies at its turn, and the last tree is the one on the
  disk. -/
  replay : Replay (treeOf initial) (history c.shared.events)
    (treeOf c.shared.disk)
  /-- Where only the root is unowned, the directories above the target are the
  user's at its turn. -/
  owned : (treeOf initial).OnlyRootUnowned →
    ∀ before op answer after,
      history c.shared.events = before ++ (op, answer) :: after →
      ∃ tree tree', Replay (treeOf initial) before tree ∧
        op.Applies tree answer tree' ∧ tree.OwnedAbove op.user op.path

theorem Request.op_user
    {request : Request} {op : FsOp} (hop : request.op = some op) :
    op.user = request.fields.username := by
  cases request <;>
    simp only [Request.op, Option.bind_eq_bind, Option.bind_eq_some_iff,
      Option.some.injEq] at hop <;>
    grind [FsOp.user, Request.fields]

/-- A commit comes right after the start of its thread. -/
theorem Life.commit_placed
    {i : ℕ} {request : Option Request} {before after : List Event} {op : FsOp}
    {answer : Option Block}
    (h : Life i request (before ++ .commit i op answer :: after)) :
    before = [.start i] := by
  generalize hevents : before ++ Event.commit i op answer :: after = events at h
  cases before with
  | nil => cases h <;> simp at hevents
  | cons first rest =>
      cases rest with
      | nil => cases h <;> simp_all
      | cons second rest =>
          cases h <;> simp only [List.cons_append, List.cons.injEq,
            List.append_eq_nil_iff, reduceCtorEq, and_false] at hevents
          · obtain ⟨_, _, hrest⟩ := hevents
            cases rest <;> simp at hrest
          · obtain ⟨_, _, hrest⟩ := hevents
            cases rest with
            | nil => simp at hrest
            | cons third rest => cases rest <;> simp at hrest

/-- A response follows its commit. -/
theorem Life.respond_answered
    {i : ℕ} {request : Option Request} {events : List Event}
    (h : Life i request events) {message : List Byte}
    (hmem : Event.respond i message ∈ events) :
    ∃ request' op answer, request = some request' ∧
      Event.commit i op answer ∈ events ∧
      message = request'.response answer := by
  cases h with
  | idle => simp at hmem
  | started => simp at hmem
  | refused => simp at hmem
  | committed hop => simp at hmem
  | @responded request' op answer hop =>
      exact ⟨request', op, answer, rfl, by simp, by simpa using hmem⟩
  | @answered request' op answer hop =>
      exact ⟨request', op, answer, rfl, by simp, by simpa using hmem⟩

/-- A thread which has committed and ended has responded. -/
theorem Life.closed_responded
    {i : ℕ} {request : Option Request} {events : List Event}
    (h : Life i request events) {op : FsOp} {answer : Option Block}
    (hcommit : Event.commit i op answer ∈ events)
    (hclose : Event.close i ∈ events) :
    ∃ message, Event.respond i message ∈ events := by
  cases h with
  | idle => simp at hcommit
  | started => simp at hcommit
  | refused => simp at hcommit
  | committed hop => simp at hclose
  | responded hop => simp at hclose
  | @answered request' op' answer' hop =>
      exact ⟨request'.response answer', by simp⟩

theorem mem_history {op : FsOp} {answer : Option Block} {events : List Event} :
    (op, answer) ∈ history events ↔
      ∃ i, Event.commit i op answer ∈ events := by
  rw [history, List.mem_filterMap]
  constructor
  · rintro ⟨event, hevent, heq⟩
    cases event with
    | commit j op' answer' =>
        obtain ⟨rfl, rfl⟩ : op' = op ∧ answer' = answer := by simpa using heq
        exact ⟨j, hevent⟩
    | start j => simp at heq
    | respond j message => simp at heq
    | close j => simp at heq
  · rintro ⟨i, hmem⟩
    exact ⟨_, hmem, rfl⟩

/-- In every interleaving the successful requests linearize, and once all handlers
have returned the order is that of the responses. -/
theorem linearized (disk : Disk) (hwf : WellFormed disk) :
    ∃ boot, initServer disk = some boot ∧
      ∀ c, machine.Reachable boot c →
        Linearized disk c ∧
        ((∀ i, ¬InFlight c i) → ∀ i, i ∈ commitOrder c.shared.events ↔
          ∃ message, Event.respond i message ∈ c.shared.events) := by
  obtain ⟨boot, hinit, hboot⟩ := exists_started hwf
  refine ⟨boot, hinit, fun c hreach => ?_⟩
  have hinv := run_inv hboot hreach
  have hanswered : ∀ i message, Event.respond i message ∈ c.shared.events →
      ∃ request op answer, c.shared.request i = some request ∧
        Event.commit i op answer ∈ c.shared.events ∧
        message = request.response answer := by
    intro i message hmem
    obtain ⟨request, op, answer, hrequest, hcommit, hmessage⟩ :=
      (hinv.life i).respond_answered (mem_eventsOf.mpr ⟨hmem, rfl⟩)
    exact ⟨request, op, answer, hrequest, (mem_eventsOf.mp hcommit).1, hmessage⟩
  have hresponded : ∀ i,
      (∃ message, Event.respond i message ∈ c.shared.events) →
      i ∈ commitOrder c.shared.events := by
    rintro i ⟨message, hmem⟩
    obtain ⟨_, op, answer, _, hcommit, _⟩ := hanswered i message hmem
    exact mem_commitOrder.mpr ⟨op, answer, hcommit⟩
  have hpending : ∀ i ∈ commitOrder c.shared.events,
      (∃ message, Event.respond i message ∈ c.shared.events) ∨ InFlight c i := by
    intro i hi
    by_contra hnone
    obtain ⟨hsilent, hidle⟩ := not_or.mp hnone
    obtain ⟨op, answer, hcommit⟩ := mem_commitOrder.mp hi
    have hown := mem_eventsOf.mpr ⟨hcommit, rfl⟩
    change _ ∈ eventsOf i c.shared.events at hown
    obtain ⟨request, events, howns, hevents⟩ :=
      owns_of_not_inFlight hboot hreach hidle
    have hlife := hinv.life i
    have hsame : eventsOf i c.shared.events = events := howns.events
    rcases hevents with hempty | hclose
    · rw [hsame, hempty] at hown
      simp at hown
    · rw [← hsame] at hclose
      obtain ⟨message, hmessage⟩ := hlife.closed_responded hown hclose
      exact hsilent ⟨message, (mem_eventsOf.mp hmessage).1⟩
  refine ⟨{
    once := hinv.nodup_commitOrder
    responded := hresponded
    pending := hpending
    placed := fun i op answer hmem => ?_
    requested := fun i op answer hmem => hinv.requested hmem
    answered := hanswered
    replay := hinv.replay
    owned := fun hroot before op answer after hhistory => ?_ }, ?_⟩
  · obtain ⟨before, after, hsplit⟩ := List.append_of_mem hmem
    have hlife := hinv.life i
    have hown : eventsOf i c.shared.events =
        eventsOf i before ++ .commit i op answer :: eventsOf i after := by
      rw [hsplit]
      simp [eventsOf, Event.thread]
    rw [hown] at hlife
    have hbefore := hlife.commit_placed
    refine ⟨before, after, hsplit, ?_, fun hclose => ?_⟩
    · have hstart : Event.start i ∈ eventsOf i before := by simp [hbefore]
      exact (mem_eventsOf.mp hstart).1
    · have hmem : Event.close i ∈ eventsOf i before :=
        mem_eventsOf.mpr ⟨hclose, rfl⟩
      rw [hbefore] at hmem
      simp at hmem
  · have hreplay := hinv.replay
    rw [hhistory] at hreplay
    obtain ⟨tree, tree', hfirst, happly, _⟩ := hreplay.split
    refine ⟨tree, tree', hfirst, happly, happly.ownedAbove ?_⟩
    refine hfirst.onlyRootUnowned (fun entry hentry => ?_) hroot
    have hmem : entry ∈ history c.shared.events := by
      rw [hhistory]
      exact List.mem_append_left _ hentry
    obtain ⟨i, hcommit⟩ := mem_history.mp (show (entry.1, entry.2) ∈ _ from hmem)
    obtain ⟨request, _, hop⟩ := Option.bind_eq_some_iff.mp (hinv.requested hcommit)
    rw [Request.op_user hop]
    exact request.fields.username_ne_nil
  · intro hdone i
    refine ⟨fun hi => (hpending i hi).resolve_right (hdone i), hresponded i⟩

/-- Thread 0 has created the file and returned. -/
theorem linearized_freshDisk :
    ∃ rest c message, initServer freshDisk = some (freshServer rest) ∧
      playFresh rest (creating 18) = some c ∧ c.thread 0 = some (.ret ()) ∧
      Event.respond 0 message ∈ c.shared.events ∧ commitOrder c.shared.events = [0] ∧
      Linearized freshDisk c := by
  obtain ⟨rest, hinit, hlinear⟩ :=
    exists_freshServer (linearized freshDisk wellFormed_freshDisk)
  obtain ⟨c, hplay, hreturned, horder⟩ :
      ∃ c, playFresh rest (creating 18) = some c ∧ c.thread 0 = some (.ret ()) ∧
        commitOrder c.shared.events = [0] := ⟨_, rfl, rfl, rfl⟩
  have hlinearized := (hlinear c (reachable_of_playFresh hplay)).1
  have hmem : 0 ∈ commitOrder c.shared.events := by simp [horder]
  obtain ⟨message, hmessage⟩ := (hlinearized.pending 0 hmem).resolve_right
    (not_inFlight_iff.mpr (.inr hreturned))
  exact ⟨rest, c, message, hinit, hplay, hreturned, hmessage, horder, hlinearized⟩

end FileServer
end Eecs482
