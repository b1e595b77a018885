import Eecs482.PagerTotals

/-!
# Swap reservations

`num_swap_blocks` counts the swap blocks nobody has reserved, and each page
table counts those of its process.  Mapping a page and destroying a process move
blocks between the two counts.  `vm_create` reserves as many blocks for the
child as its parent occupies, but no table records them, so they are not given
back when the child exits.
-/

namespace Eecs482
namespace Pager

variable {W : Type} {io : FileIo W} {c c' : Config W} {event : Event}

/-- `occupied_swap_blocks` of the page table of `pid`, 0 without one. -/
def State.occupied (s : State W) (pid : ℕ) : ℕ :=
  ((s.tables pid).map fun table => (s.heap table).occupiedSwapBlocks).getD 0

/-- The swap blocks that are counted somewhere. -/
def Config.reservations (c : Config W) : ℕ :=
  c.state.numSwapBlocks + ∑ pid ∈ c.live, c.state.occupied pid

/-- The reservation of a new process that no table records. -/
def lostReservation (c : Config W) : Event → ℕ
  | .create parent _ true => c.state.occupied parent
  | _ => 0

theorem occupied_of_table
    {s : State W} {pid table : ℕ} (htable : s.tables pid = some table) :
    s.occupied pid = (s.heap table).occupiedSwapBlocks := by
  rw [State.occupied, htable]
  rfl

theorem occupied_eq_weight (s : State W) :
    s.occupied = s.weight PageTable.occupiedSwapBlocks := rfl

theorem SameTables.occupied {s s' : State W} (hsame : SameTables s s') :
    s'.occupied = s.occupied :=
  hsame.weight

theorem reservations_eq_total (c : Config W) :
    c.reservations = c.state.numSwapBlocks + c.total PageTable.occupiedSwapBlocks := rfl

/-- `vm_create` takes from `num_swap_blocks` what the parent occupies. -/
theorem vmCreate_numSwapBlocks
    {parent child : ℕ} {s s' : State W} (hcall : s.vmCreate parent child = (true, s')) :
    s'.numSwapBlocks + s.occupied parent = s.numSwapBlocks := by
  unfold State.vmCreate at hcall
  split at hcall
  case h_1 table htable =>
      split at hcall
      case isTrue => cases hcall
      case isFalse henough =>
          cases hcall
          rw [occupied_of_table htable]
          change s.numSwapBlocks - _ + _ = s.numSwapBlocks
          omega
  case h_2 htable =>
      cases hcall
      rw [State.occupied, htable]
      rfl

theorem reservations_create
    {parent child : ℕ} {ok : Bool} {s : State W} (h : Processes c)
    (hfresh : child ∉ c.used) (hcall : c.state.vmCreate parent child = (ok, s)) :
    s.numSwapBlocks + ∑ pid ∈ (if ok then insert child c.live else c.live),
        s.occupied pid + lostReservation c (.create parent child ok) =
      c.reservations := by
  rw [reservations_eq_total]
  rcases vmCreate_tables hcall with ⟨rfl, rfl⟩ | ⟨rfl, num, rfl⟩
  · rfl
  · have htotal := total_newTable PageTable.occupiedSwapBlocks num h hfresh rfl
    have hnum := vmCreate_numSwapBlocks hcall
    rw [if_pos rfl, occupied_eq_weight, htotal, lostReservation, ← hnum]
    exact Nat.add_right_comm _ _ _

/-- A mapped page moves one block from one count to the other, or none. -/
theorem reservations_map
    {filename : Option UInt64} {block pid : ℕ} {result : Option UInt64}
    {s : State W} (h : Processes c) (hcurrent : c.current = some pid)
    (hcall : c.state.vmMap io filename block = some (result, s)) :
    s.numSwapBlocks + ∑ pid ∈ c.live, s.occupied pid = c.reservations := by
  obtain ⟨hlive, _⟩ := h.current pid hcurrent
  obtain ⟨table, htable, hmapped⟩ := h.mapped hcurrent hcall
  have hgrown : ∀ {t t' vp}, SameTables c.state t → Grown table vp t t' →
      ∑ pid ∈ c.live, t'.occupied pid =
        c.total PageTable.occupiedSwapBlocks + if vp.id.swapBacked then 1 else 0 :=
    fun hsame hgrown => total_grown h hlive htable hsame hgrown hgrown.occupied
  rw [reservations_eq_total]
  cases hmapped with
  | refused => rfl
  | unreadable harenas =>
      have hsame := SameTables.of_arenas harenas
      rw [hsame.numSwapBlocks, hsame.occupied]
      rfl
  | swap _ hnum =>
      rw [hgrown .refl (grown_addSwapPage _ _ _ _ rfl)]
      change c.state.numSwapBlocks - 1 + (_ + 1) = c.state.numSwapBlocks + _
      omega
  | file harenas =>
      have hsame := SameTables.of_arenas harenas
      rw [hgrown hsame (grown_addFilePage _ _ _ rfl)]
      exact congrArg (· + _) hsame.numSwapBlocks

/-- `vm_destroy` counts the blocks of the process as free again. -/
theorem reservations_destroy
    {pid : ℕ} {s : State W} (h : Processes c) (hcurrent : c.current = some pid)
    (hcall : c.state.vmDestroy = some s) :
    s.numSwapBlocks + ∑ pid ∈ c.live.erase pid, s.occupied pid =
      c.reservations := by
  obtain ⟨table, hcur, _⟩ := h.exists_table hcurrent
  rw [vmDestroy_eq hcur, Option.some.injEq] at hcall
  subst hcall
  obtain ⟨hsame, _⟩ := destroyPages_same (s := c.state) (c.state.heap table).vps
  have htotal := total_destroy PageTable.occupiedSwapBlocks h hcurrent hcur
  rw [reservations_eq_total, ← htotal]
  change State.numSwapBlocks (List.foldl _ _ _) +
    PageTable.occupiedSwapBlocks (State.heap (List.foldl _ _ _) table) + _ = _
  rw [hsame.numSwapBlocks, hsame.heap, occupied_eq_weight]
  exact (Nat.add_assoc _ _ _).trans (congrArg _ (Nat.add_comm _ _))

/-- Only `vm_create` changes how many swap blocks are counted, and it loses the
reservation it makes for the child. -/
theorem reservations_step (h : Processes c) (hstep : Step io c event c') :
    c'.reservations + lostReservation c event = c.reservations := by
  cases hstep with
  | create hfresh hcall => exact reservations_create h hfresh hcall
  | switch hlive hcall =>
      obtain ⟨_, _, _, rfl⟩ := h.switch hlive hcall
      rfl
  | fault _ hcall =>
      have hsame := SameTables.of_arenas (vmFault_arenas hcall)
      simp only [Config.reservations, lostReservation, hsame.numSwapBlocks,
        hsame.occupied]
      rfl
  | map hcurrent hcall => exact reservations_map h hcurrent hcall
  | destroy hcurrent hcall => exact reservations_destroy h hcurrent hcall
  | load => rfl
  | store => rfl

/-- No parent of a new process holds swap blocks. -/
def ParentHoldsNone (c : Config W) (event : Event) : Prop :=
  ∀ parent child, event = .create parent child true → c.state.occupied parent = 0

theorem lostReservation_eq_zero_iff :
    lostReservation c event = 0 ↔ ParentHoldsNone c event := by
  constructor
  · rintro hlost parent child rfl
    exact hlost
  · intro hparent
    unfold lostReservation
    split
    case h_1 parent child => exact hparent parent child rfl
    case h_2 => rfl

/-- A process that holds one swap block creates another one, and both exit. -/
theorem exists_lost_reservation :
    ∃ c, (system blockFiles).Reachable (freshConfig 2 2) c ∧ c.live = ∅ ∧
      c.reservations = 1 := by
  have hstart : (system blockFiles).Reachable (freshConfig 2 2) (freshConfig 2 2) :=
    .refl
  have hcreate := hstart.step
    (@Step.create _ blockFiles (freshConfig 2 2) 0 7 _ _ (by decide) rfl)
  have hswitch := hcreate.step (@Step.switch _ blockFiles _ 7 _ (by decide) rfl)
  have hmap := hswitch.step (@Step.map _ blockFiles _ none 0 7 _ _ rfl rfl)
  have hchild := hmap.step (@Step.create _ blockFiles _ 7 8 _ _ (by decide) rfl)
  have hparentExit := hchild.step (@Step.destroy _ blockFiles _ 7 _ rfl rfl)
  have hswitch' := hparentExit.step (@Step.switch _ blockFiles _ 8 _ (by decide) rfl)
  have hchildExit := hswitch'.step (@Step.destroy _ blockFiles _ 8 _ rfl rfl)
  exact ⟨_, hchildExit, by decide, by decide⟩

theorem not_reservations_eq :
    ¬∀ c, (system blockFiles).Reachable (freshConfig 2 2) c → c.reservations = 2 := by
  intro hall
  obtain ⟨c, hreach, _, hone⟩ := exists_lost_reservation
  have htwo := hall c hreach
  omega

/-- The swap blocks are all accounted for exactly after the runs in which no
process was created by a parent holding some.  Once every process has been
destroyed this says whether all of them can be mapped again. -/
theorem reservations_eq_iff
    {memoryPages swapBlocks : ℕ} {physmem : ℕ → Byte} {entries : EntryRef → Entry}
    {world : W} {trace : List Event}
    (hrun : (system io).Run
      (Config.init memoryPages swapBlocks physmem entries world) trace c) :
    (c.reservations = swapBlocks ↔
      ((system io).restrict ParentHoldsNone).Run
        (Config.init memoryPages swapBlocks physmem entries world) trace c) ∧
    (c.live = ∅ → c.reservations = c.state.numSwapBlocks) := by
  refine ⟨hrun.restrict_iff rfl fun a event b hreach hstep => ?_, fun hlive => ?_⟩
  · have hreservations :=
      reservations_step (processes_of_reachable hreach).1 hstep
    rw [← lostReservation_eq_zero_iff]
    omega
  · rw [Config.reservations, hlive, Finset.sum_empty, Nat.add_zero]

theorem reservations_eq_iff_lost :
    ∃ trace c, (system blockFiles).Run (freshConfig 2 2) trace c ∧
      c.reservations = 1 ∧
      (c.reservations = 2 ↔
        ((system blockFiles).restrict ParentHoldsNone).Run (freshConfig 2 2) trace c) := by
  obtain ⟨c, ⟨trace, hrun⟩, _, hone⟩ := exists_lost_reservation
  exact ⟨trace, c, hrun, hone, (reservations_eq_iff hrun).1⟩

end Pager
end Eecs482
