import Eecs482.FileServerRuns

/-!
# Restarting the server

The free blocks are kept up to date by the handlers while the server runs, and
computed from the disk when it starts.  Between requests the two agree.
-/

namespace Eecs482
namespace FileServer

theorem FreeList.perm
    {disk : Disk} {free free' : List BlockNo} (h : FreeList disk free)
    (h' : FreeList disk free') : free.Perm free' := by
  rw [List.perm_ext_iff_of_nodup h.nodup h'.nodup]
  intro x
  rw [h.mem_iff, h'.mem_iff]

/-- While all handlers have returned or are about to respond, the queue holds the
blocks outside the tree. -/
theorem freeList_of_not_working
    {disk : Disk} {boot : Server} {c : Config fsInterface Server}
    (hboot : Started disk boot) (hreach : machine.Reachable boot c)
    (hdone : ∀ i, ¬Working c i) : FreeList c.shared.disk c.shared.freeBlocks := by
  have hconserved := (run_inv hboot hreach).conserved
  refine ⟨hconserved.free_nodup, fun x => ⟨fun hx => ?_, ?_⟩⟩
  · obtain ⟨hzero, hrange⟩ := hconserved.free_range x hx
    exact ⟨hzero, hrange, hconserved.free_unused x hx⟩
  · rintro ⟨hzero, hrange, hunused⟩
    rcases hconserved.complete x hzero hrange with hfree | hused | ⟨i, hi⟩
    · exact hfree
    · exact absurd hused hunused
    · exact absurd (working_of_hands hboot hreach hi) (hdone i)

theorem freeList_of_idle
    {disk : Disk} {boot : Server} {c : Config fsInterface Server}
    (hboot : Started disk boot) (hreach : machine.Reachable boot c)
    (hidle : ∀ i, ¬InFlight c i) : FreeList c.shared.disk c.shared.freeBlocks :=
  freeList_of_not_working hboot hreach fun i hworking => hidle i hworking.inFlight

/-- What `init_free_blocks` finds on an image, and on the disk of a server that
was started on it and has no request in flight. -/
theorem init_agrees (disk : Disk) (hwf : WellFormed disk) :
    ∃ boot, initServer disk = some boot ∧ FreeList disk boot.freeBlocks ∧
      ∀ c, machine.Reachable boot c → (∀ i, ¬InFlight c i) →
        ∃ free, initFreeBlocks c.shared.disk fsDiskSize = some free ∧
          FreeList c.shared.disk free ∧ free.Perm c.shared.freeBlocks := by
  obtain ⟨free, hinit, hfree⟩ := exists_freeList hwf
  have hboot := started_of_freeList hwf hfree
  refine ⟨{ disk := disk, freeBlocks := free }, by rw [initServer, hinit]; rfl, hfree,
    fun c hreach hidle => ?_⟩
  obtain ⟨free', hinit', hfree'⟩ := exists_freeList (run_inv hboot hreach).wf
  exact ⟨free', hinit', hfree', hfree'.perm (freeList_of_idle hboot hreach hidle)⟩

/-- Thread 0 has created the file, and no other request has arrived. -/
theorem init_agrees_freshDisk :
    ∃ rest c, initServer freshDisk = some (freshServer rest) ∧
      playFresh rest (.arrive 0 ⟨createRequest, freshStack⟩ ::
        List.replicate 18 (.exec 0)) = some c ∧
      commitOrder c.shared.events = [0] ∧ c.shared.freeBlocks = rest ∧
      ∃ free, initFreeBlocks c.shared.disk fsDiskSize = some free ∧ free.Perm rest := by
  obtain ⟨rest, hinit, _, hagrees⟩ :=
    exists_freshServer (init_agrees freshDisk wellFormed_freshDisk)
  obtain ⟨c, hplay, horder, hrest, hreturned, hothers⟩ :
      ∃ c, playFresh rest (.arrive 0 ⟨createRequest, freshStack⟩ ::
          List.replicate 18 (.exec 0)) = some c ∧ commitOrder c.shared.events = [0] ∧
        c.shared.freeBlocks = rest ∧ c.thread 0 = some (.ret ()) ∧
        ∀ i, c.thread (i + 1) = none := ⟨_, rfl, rfl, rfl, rfl, fun _ => rfl⟩
  have hidle : ∀ i, ¬InFlight c i := by
    intro i
    rw [not_inFlight_iff]
    cases i with
    | zero => exact .inr hreturned
    | succ i => exact .inl (hothers i)
  obtain ⟨free, hfree, _, hperm⟩ := hagrees c (reachable_of_playFresh hplay) hidle
  rw [hrest] at hperm
  exact ⟨rest, c, hinit, hplay, horder, hrest, free, hfree, hperm⟩

end FileServer
end Eecs482
