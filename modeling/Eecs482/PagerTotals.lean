import Eecs482.PagerInvariant
import Mathlib.Algebra.BigOperators.Group.Finset.Basic

/-!
# Totals over the live processes

A quantity that each page table contributes to is summed over the live
processes.  A new table adds nothing if the empty table counts nothing, a mapped
page adds what its table gains, and the exit of a process takes away what its
table counted.
-/

namespace Eecs482
namespace Pager

variable {W : Type} {io : FileIo W} {c : Config W}
variable {M : Type} [AddCommMonoid M] {weigh : PageTable → M}

/-- What the page table of `pid` counts, 0 without one. -/
def State.weight (weigh : PageTable → M) (s : State W) (pid : ℕ) : M :=
  ((s.tables pid).map fun table => weigh (s.heap table)).getD 0

def Config.total (weigh : PageTable → M) (c : Config W) : M :=
  ∑ pid ∈ c.live, c.state.weight weigh pid

theorem weight_of_table
    {s : State W} {pid table : ℕ} (htable : s.tables pid = some table) :
    s.weight weigh pid = weigh (s.heap table) := by
  rw [State.weight, htable]
  rfl

theorem SameTables.weight {s s' : State W} (hsame : SameTables s s') :
    s'.weight weigh = s.weight weigh := by
  funext pid
  rw [State.weight, State.weight, hsame.tables, hsame.heap]

variable (weigh) in
theorem total_newTable
    {child : ℕ} (num : ℕ) (h : Processes c) (hfresh : child ∉ c.used)
    (hempty : weigh {} = 0) :
    ∑ pid ∈ insert child c.live,
        (State.newTable child { c.state with numSwapBlocks := num }).weight weigh pid =
      c.total weigh := by
  rw [Finset.sum_insert fun hlive => hfresh (h.used hlive)]
  have hchild : (State.newTable child
      { c.state with numSwapBlocks := num }).weight weigh child = 0 := by
    simp [State.weight, State.newTable, hempty]
  rw [hchild, zero_add]
  refine Finset.sum_congr rfl fun pid hlive => ?_
  have hpid : pid ≠ child := by
    rintro rfl
    exact hfresh (h.used hlive)
  obtain ⟨table, htable⟩ := Option.isSome_iff_exists.mp ((h.live pid).mp hlive)
  have htable' : (State.newTable child
      { c.state with numSwapBlocks := num }).tables pid = some table :=
    (Function.update_of_ne hpid _ _).trans htable
  rw [weight_of_table htable, weight_of_table htable']
  exact congrArg _ (Function.update_of_ne (h.tables.allocated pid table htable).ne _ _)

/-- The table of a live process gains a page. -/
theorem total_grown
    {t t' : State W} {vp : VirtualPage} {pid table : ℕ} {gain : M} (h : Processes c)
    (hlive : pid ∈ c.live) (htable : c.state.tables pid = some table)
    (hsame : SameTables c.state t) (hgrown : Grown table vp t t')
    (hgain : weigh (t'.heap table) = weigh (t.heap table) + gain) :
    ∑ pid ∈ c.live, t'.weight weigh pid = c.total weigh + gain := by
  rw [Config.total, ← hsame.weight]
  rw [← hsame.tables] at htable
  rw [← Finset.add_sum_erase _ _ hlive, ← Finset.add_sum_erase _ _ hlive,
    weight_of_table htable,
    weight_of_table (by rw [hgrown.tables]; exact htable), hgain]
  have hrest : ∑ pid' ∈ c.live.erase pid, t'.weight weigh pid' =
      ∑ pid' ∈ c.live.erase pid, t.weight weigh pid' := by
    refine Finset.sum_congr rfl fun pid' hpid' => ?_
    obtain ⟨hne, hlive'⟩ := Finset.mem_erase.mp hpid'
    obtain ⟨table', htable'⟩ := Option.isSome_iff_exists.mp ((h.live pid').mp hlive')
    rw [← hsame.tables] at htable'
    rw [weight_of_table htable',
      weight_of_table (by rw [hgrown.tables]; exact htable'), hgrown.other]
    rintro rfl
    exact hne ((h.tables.of_same hsame).injective pid' pid table' htable' htable)
  rw [hrest]
  exact add_right_comm _ _ _

variable (weigh) in
/-- The current process exits. -/
theorem total_destroy
    {pid table : ℕ} (h : Processes c) (hcurrent : c.current = some pid)
    (hcur : c.state.curTable = some table) :
    ∑ pid' ∈ c.live.erase pid,
        (eraseCurrent table
          ((c.state.heap table).vps.foldl State.destroyPage c.state)).weight weigh pid' +
        weigh (c.state.heap table) =
      c.total weigh := by
  obtain ⟨hlive, _⟩ := h.current pid hcurrent
  obtain ⟨table', hcur', htable, hcurPid, _⟩ := h.exists_table hcurrent
  rw [hcur, Option.some.injEq] at hcur'
  subst hcur'
  obtain ⟨hsame, _⟩ := destroyPages_same (s := c.state) (c.state.heap table).vps
  have hrest : ∑ pid' ∈ c.live.erase pid,
        (eraseCurrent table
          ((c.state.heap table).vps.foldl State.destroyPage c.state)).weight weigh pid' =
      ∑ pid' ∈ c.live.erase pid, c.state.weight weigh pid' := by
    refine Finset.sum_congr rfl fun pid' hpid' => ?_
    have hne : c.state.curPid ≠ pid' := by
      rw [hcurPid]
      intro heq
      exact (Finset.mem_erase.mp hpid').1 (by omega)
    rw [← hsame.weight, State.weight, State.weight, eraseCurrent_tables,
      hsame.curPid, if_neg hne]
    rfl
  rw [hrest, Config.total, ← Finset.add_sum_erase _ _ hlive, weight_of_table htable]
  exact add_comm _ _

end Pager
end Eecs482
