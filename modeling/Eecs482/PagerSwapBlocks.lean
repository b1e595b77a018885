import Eecs482.PagerReservations
import Mathlib.Algebra.Order.BigOperators.Group.Multiset
import Mathlib.Algebra.BigOperators.Group.Multiset.Basic
import Mathlib.Data.Multiset.Range

/-!
# Swap blocks

A block of the swap file is available or belongs to one page of one live
process.  `num_swap_blocks` stays below the number of available blocks, since
`vm_create` only ever lowers it, so the queue is not empty when a block is taken.
-/

namespace Eecs482
namespace Pager

variable {W : Type} {io : FileIo W} {c c' : Config W} {event : Event}

/-- The blocks of the swap-backed pages of a table. -/
def PageTable.swapBlocks (table : PageTable) : Multiset ℕ :=
  ↑((table.vps.filter fun vp => vp.id.swapBacked).map fun vp => vp.id.block)

/-- The available blocks and those of the pages of live processes. -/
def Config.swapBlocks (c : Config W) : Multiset ℕ :=
  ↑c.state.availableSwapBlocks + c.total PageTable.swapBlocks

theorem PageTable.card_swapBlocks (table : PageTable) :
    table.swapBlocks.card = table.vps.countP fun vp => vp.id.swapBacked := by
  rw [PageTable.swapBlocks, Multiset.coe_card, List.length_map,
    List.countP_eq_length_filter]

/-- A table that gains a page has its block, too. -/
theorem Grown.swapBlocks
    {s s' : State W} {vp : VirtualPage} {table : ℕ} (hgrown : Grown table vp s s') :
    (s'.heap table).swapBlocks = (s.heap table).swapBlocks +
      if vp.id.swapBacked then {vp.id.block} else 0 := by
  rw [PageTable.swapBlocks, hgrown.vps, List.filter_append, List.map_append,
    ← Multiset.coe_add]
  cases hswap : vp.id.swapBacked <;> simp [hswap, PageTable.swapBlocks]

theorem SameTables.swapBlocks
    {s : State W} (hsame : SameTables c.state s)
    (hblocks : s.availableSwapBlocks = c.state.availableSwapBlocks) :
    (↑s.availableSwapBlocks + ∑ pid ∈ c.live, s.weight PageTable.swapBlocks pid :
      Multiset ℕ) = c.swapBlocks := by
  rw [hblocks, hsame.weight]
  rfl

theorem availableSwapBlocks_of_arenas
    {s s' : State W} (harenas : s'.arenas = s.arenas) :
    s'.availableSwapBlocks = s.availableSwapBlocks :=
  congrArg Arenas.availableSwapBlocks harenas

theorem swapBlocks_create
    {parent child : ℕ} {ok : Bool} {s : State W} (h : Processes c)
    (hfresh : child ∉ c.used) (hcall : c.state.vmCreate parent child = (ok, s)) :
    (↑s.availableSwapBlocks + ∑ pid ∈ (if ok then insert child c.live else c.live),
      s.weight PageTable.swapBlocks pid : Multiset ℕ) = c.swapBlocks := by
  rcases vmCreate_tables hcall with ⟨rfl, rfl⟩ | ⟨rfl, num, rfl⟩
  · rfl
  · rw [if_pos rfl, total_newTable PageTable.swapBlocks num h hfresh rfl]
    rfl

/-- The block of a new page is no longer available. -/
theorem swapBlocks_map
    {filename : Option UInt64} {block pid : ℕ} {result : Option UInt64}
    {s : State W} (h : Processes c) (hcurrent : c.current = some pid)
    (hcall : c.state.vmMap io filename block = some (result, s)) :
    (↑s.availableSwapBlocks + ∑ pid ∈ c.live, s.weight PageTable.swapBlocks pid :
      Multiset ℕ) = c.swapBlocks := by
  obtain ⟨hlive, _⟩ := h.current pid hcurrent
  obtain ⟨table, htable, hmapped⟩ := h.mapped hcurrent hcall
  cases hmapped with
  | refused => rfl
  | unreadable harenas =>
      exact (SameTables.of_arenas harenas).swapBlocks
        (availableSwapBlocks_of_arenas harenas)
  | @swap block swapBlock rest hblocks hnum hroom =>
      have hgrown := grown_addSwapPage c.state table
        ⟨(table, (c.state.heap table).cnt), swapId swapBlock⟩ rest rfl
      rw [total_grown h hlive htable .refl hgrown hgrown.swapBlocks, Config.swapBlocks,
        hblocks, ← Multiset.cons_coe, ← Multiset.singleton_add, add_assoc]
      change (↑rest + (c.total PageTable.swapBlocks + {swapBlock}) : Multiset ℕ) = _
      rw [← add_assoc, add_comm]
  | @file pointer block t name harenas hroom =>
      have hsame := SameTables.of_arenas harenas
      have hgrown := grown_addFilePage t table
        ⟨(table, (c.state.heap table).cnt),
          { filename := name, block := block, swapBacked := false }⟩ rfl
      rw [total_grown h hlive htable hsame hgrown hgrown.swapBlocks]
      change (↑t.availableSwapBlocks + (_ + 0) : Multiset ℕ) = _
      rw [availableSwapBlocks_of_arenas harenas, add_zero]
      rfl

/-- The blocks of the process that exits are available again. -/
theorem swapBlocks_destroy
    {pid : ℕ} {s : State W} (h : Processes c) (hcurrent : c.current = some pid)
    (hcall : c.state.vmDestroy = some s) :
    (↑s.availableSwapBlocks +
      ∑ pid ∈ c.live.erase pid, s.weight PageTable.swapBlocks pid : Multiset ℕ) =
      c.swapBlocks := by
  obtain ⟨table, hcur, _⟩ := h.exists_table hcurrent
  rw [vmDestroy_eq hcur, Option.some.injEq] at hcall
  subst hcall
  have htotal := total_destroy PageTable.swapBlocks h hcurrent hcur
  rw [Config.swapBlocks, ← htotal]
  change (↑((c.state.heap table).vps.foldl State.destroyPage c.state).availableSwapBlocks
    + _ : Multiset ℕ) = _
  rw [destroyPages_availableSwapBlocks, ← Multiset.coe_add, add_assoc]
  exact congrArg _ (add_comm _ _)

/-- No call loses a swap block or makes one appear twice. -/
theorem swapBlocks_step (h : Processes c) (hstep : Step io c event c') :
    c'.swapBlocks = c.swapBlocks := by
  cases hstep with
  | create hfresh hcall => exact swapBlocks_create h hfresh hcall
  | switch hlive hcall =>
      obtain ⟨_, _, _, rfl⟩ := h.switch hlive hcall
      rfl
  | fault _ hcall =>
      have harenas := vmFault_arenas hcall
      exact (SameTables.of_arenas harenas).swapBlocks
        (availableSwapBlocks_of_arenas harenas)
  | map hcurrent hcall => exact swapBlocks_map h hcurrent hcall
  | destroy hcurrent hcall => exact swapBlocks_destroy h hcurrent hcall
  | load => rfl
  | store => rfl

/-- The blocks of the live processes are as many as their tables count. -/
theorem card_total_swapBlocks (h : Processes c) :
    (c.total PageTable.swapBlocks).card = c.total PageTable.occupiedSwapBlocks := by
  rw [Config.total, Config.total, Multiset.card_sum]
  refine Finset.sum_congr rfl fun pid hlive => ?_
  obtain ⟨table, htable⟩ := Option.isSome_iff_exists.mp ((h.live pid).mp hlive)
  rw [weight_of_table htable, weight_of_table htable]
  exact (PageTable.card_swapBlocks _).trans (h.tables.occupied pid table htable).symm

section Reachable

variable {memoryPages swapBlocks : ℕ} {physmem : ℕ → Byte} {entries : EntryRef → Entry}
  {world : W}

theorem swapBlocks_eq_range
    (hreach : (system io).Reachable
      (Config.init memoryPages swapBlocks physmem entries world) c) :
    c.swapBlocks = Multiset.range swapBlocks ∧ c.reservations ≤ swapBlocks := by
  obtain ⟨trace, hrun⟩ := hreach
  induction hrun with
  | nil => exact ⟨add_zero _, Nat.le_refl _⟩
  | snoc hrun hstep ih =>
      have h := (processes_of_reachable ⟨_, hrun⟩).1
      have hreservations := reservations_step h hstep
      exact ⟨(swapBlocks_step h hstep).trans ih.1, by omega⟩

/-- The blocks nobody has reserved are available. -/
theorem numSwapBlocks_le
    (hreach : (system io).Reachable
      (Config.init memoryPages swapBlocks physmem entries world) c) :
    c.state.numSwapBlocks ≤ c.state.availableSwapBlocks.length := by
  obtain ⟨hblocks, hreservations⟩ := swapBlocks_eq_range hreach
  have hcard := congrArg Multiset.card hblocks
  rw [Config.swapBlocks, Multiset.card_add, Multiset.coe_card, Multiset.card_range,
    card_total_swapBlocks (processes_of_reachable hreach).1] at hcard
  rw [reservations_eq_total] at hreservations
  omega

/-- In every reachable state each swap block is available or belongs to one page
of a live process, once, and at least `num_swap_blocks` are available.  So
`vm_create` and `vm_map` never take more than there is, and `vm_map` finds a block
at the front of the queue when it takes one. -/
theorem swapBlocks_of_reachable
    (hreach : (system io).Reachable
      (Config.init memoryPages swapBlocks physmem entries world) c) :
    c.swapBlocks = Multiset.range swapBlocks ∧
    c.state.numSwapBlocks ≤ c.state.availableSwapBlocks.length ∧
    (∀ parent child s, c.state.vmCreate parent child = (true, s) →
      s.numSwapBlocks + c.state.occupied parent = c.state.numSwapBlocks) ∧
    ∀ pid block, c.current = some pid → ∃ result s,
      c.state.vmMap io none block = some (result, s) ∧
      (result = none ∧ s = c.state ∨
        ∃ front, c.state.availableSwapBlocks = front :: s.availableSwapBlocks ∧
          s.numSwapBlocks + 1 = c.state.numSwapBlocks) := by
  have henough := numSwapBlocks_le hreach
  refine ⟨(swapBlocks_eq_range hreach).1, henough,
    fun _ _ _ => vmCreate_numSwapBlocks, fun pid block hcurrent => ?_⟩
  obtain ⟨table, hcur, _, _, hptbr⟩ :=
    (processes_of_reachable hreach).1.exists_table hcurrent
  rw [State.vmMap, hcur, Option.bind_some]
  by_cases hfull : maxPageNum ≤ (c.state.heap table).cnt
  · exact ⟨none, c.state, by rw [if_pos hfull], .inl ⟨rfl, rfl⟩⟩
  by_cases hnum : c.state.numSwapBlocks = 0
  · refine ⟨none, c.state, ?_, .inl ⟨rfl, rfl⟩⟩
    simp only [if_neg hfull, State.mapSwap, if_pos hnum]
  · cases hblocks : c.state.availableSwapBlocks with
    | nil =>
        rw [hblocks, List.length_nil] at henough
        omega
    | cons front rest =>
        refine ⟨some (State.newAddr (c.state.heap table).cnt),
          c.state.addSwapPage table ⟨(table, (c.state.heap table).cnt), swapId front⟩ rest,
          ?_, .inr ⟨front, rfl, Nat.succ_pred hnum⟩⟩
        simp only [if_neg hfull, State.mapSwap, if_neg hnum, hptbr, Option.bind_some,
          hblocks]
        rfl

end Reachable

/-- Process 7 has mapped a swap page, and its child 8 has reserved a block for it. -/
theorem swapBlocks_of_child :
    ∃ c, (system blockFiles).Reachable (freshConfig 2 3) c ∧ c.live = {8, 7} ∧
      c.state.numSwapBlocks = 1 ∧ c.swapBlocks = Multiset.range 3 ∧
      1 ≤ c.state.availableSwapBlocks.length ∧
      (∃ s, c.state.vmCreate 7 9 = (true, s) ∧ s.numSwapBlocks + 1 = 1) ∧
      ∃ result s, c.state.vmMap blockFiles none 0 = some (result, s) ∧
        ∃ front, c.state.availableSwapBlocks = front :: s.availableSwapBlocks := by
  have hstart : (system blockFiles).Reachable (freshConfig 2 3) (freshConfig 2 3) :=
    .refl
  have hcreate := hstart.step
    (@Step.create _ blockFiles (freshConfig 2 3) 0 7 _ _ (by decide) rfl)
  have hswitch := hcreate.step (@Step.switch _ blockFiles _ 7 _ (by decide) rfl)
  have hmap := hswitch.step (@Step.map _ blockFiles _ none 0 7 _ _ rfl rfl)
  have hchild := hmap.step (@Step.create _ blockFiles _ 7 8 _ _ (by decide) rfl)
  obtain ⟨hblocks, henough, hcreates, hmaps⟩ := swapBlocks_of_reachable hchild
  obtain ⟨result, s, hcall, hresult⟩ := hmaps 7 0 rfl
  refine ⟨_, hchild, rfl, rfl, hblocks, henough, ⟨_, rfl, hcreates 7 9 _ rfl⟩, result, s,
    hcall, ?_⟩
  rcases hresult with ⟨rfl, _⟩ | ⟨front, hfront, _⟩
  · cases hcall
  · exact ⟨front, hfront⟩

end Pager
end Eecs482
