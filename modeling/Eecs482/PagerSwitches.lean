import Eecs482.PagerInvariant

/-!
# Context switches

Here a pid may be used again once its process has been destroyed.  `vm_switch`
does nothing when `cur_pid` is the pid it is called with, and `vm_destroy` leaves
`cur_pid` alone.  So a process that is created with the pid of the one that was
last switched to and then destroyed does not get its table installed.
-/

namespace Eecs482
namespace Pager

variable {W : Type} {io : FileIo W} {c c' : Config W} {event : Event}

variable (io) in
/-- The steps of a run in which pids may be used again. -/
inductive ReuseStep : Config W → Event → Config W → Prop
  | create {c : Config W} {parent child : ℕ} {ok : Bool} {s : State W}
      (hdead : child ∉ c.live) (hcall : c.state.vmCreate parent child = (ok, s)) :
      ReuseStep c (.create parent child ok)
        { c with
          state := s
          live := if ok then insert child c.live else c.live }
  | other {c c' : Config W} {event : Event} (hstep : Step io c event c')
      (hother : ∀ parent child ok, event ≠ .create parent child ok) :
      ReuseStep c event c'

variable (io) in
def reusing : EventSystem (Config W) Event where
  Step := ReuseStep io

/-- The table of `pid` is the current one, and the hardware uses it. -/
def Installed (pid : ℕ) (s : State W) : Prop :=
  ∃ table, s.tables pid = some table ∧ s.curTable = some table ∧
    s.pageTableBaseRegister = some table

/-- `pid` is not the process last switched to, destroyed and created again. -/
def NotRecreated (c : Config W) (event : Event) : Prop :=
  ∀ pid : ℕ, event = .switch pid → c.current = none → c.state.curPid ≠ pid

/-- A current table belongs to `cur_pid`, and the current process has that pid. -/
structure Cached (c : Config W) : Prop where
  live : ∀ pid, pid ∈ c.live ↔ (c.state.tables pid).isSome = true
  installed : ∀ table, c.state.curTable = some table →
    c.state.pageTableBaseRegister = some table ∧
      ∃ pid : ℕ, c.state.curPid = pid ∧ c.state.tables pid = some table
  current : ∀ pid, c.current = some pid → pid ∈ c.live ∧ c.state.curPid = pid
  idle : c.current = none → c.state.curTable = none

theorem Cached.of_same
    {s : State W} {written : Finset EntryRef} (h : Cached c)
    (htables : s.tables = c.state.tables) (hcur : s.curTable = c.state.curTable)
    (hptbr : s.pageTableBaseRegister = c.state.pageTableBaseRegister)
    (hpid : s.curPid = c.state.curPid) :
    Cached { c with state := s, written := written } where
  live pid := by
    rw [htables]
    exact h.live pid
  installed := by
    rw [hcur, hptbr, hpid, htables]
    exact h.installed
  current := by
    rw [hpid]
    exact h.current
  idle := by
    rw [hcur]
    exact h.idle

theorem Cached.of_sameTables
    {s : State W} {written : Finset EntryRef} (h : Cached c)
    (hsame : SameTables c.state s) : Cached { c with state := s, written := written } :=
  h.of_same hsame.tables hsame.curTable hsame.pageTableBaseRegister hsame.curPid

theorem Cached.create
    {parent child : ℕ} {ok : Bool} {s : State W} (h : Cached c) (hdead : child ∉ c.live)
    (hcall : c.state.vmCreate parent child = (ok, s)) :
    Cached { c with
      state := s
      live := if ok then insert child c.live else c.live } := by
  rcases vmCreate_tables hcall with ⟨rfl, rfl⟩ | ⟨rfl, num, rfl⟩
  · exact ⟨h.live, h.installed, h.current, h.idle⟩
  have htable : ∀ pid,
      (State.newTable child { c.state with numSwapBlocks := num }).tables pid =
        if pid = child then some c.state.nextTable else c.state.tables pid :=
    fun pid => Function.update_apply ..
  constructor
  case live =>
      intro pid
      rw [htable, if_pos rfl, Finset.mem_insert]
      split
      case isTrue hpid => exact iff_of_true (.inl hpid) rfl
      case isFalse hpid =>
          rw [or_iff_right hpid]
          exact h.live pid
  case installed =>
      intro table hcur
      obtain ⟨hptbr, pid, hpid, htable'⟩ := h.installed table hcur
      refine ⟨hptbr, pid, hpid, ?_⟩
      rw [htable, if_neg]
      · exact htable'
      · rintro rfl
        exact hdead ((h.live pid).mpr (by rw [htable']; rfl))
  case current =>
      intro pid hcurrent
      obtain ⟨hlive, hpid⟩ := h.current pid hcurrent
      exact ⟨Finset.mem_insert_of_mem hlive, hpid⟩
  case idle => exact h.idle

/-- `vm_switch` to a live process installs its table, except when it takes the
process to be the current one and there is none. -/
theorem Cached.switch
    {pid : ℕ} {s : State W} (h : Cached c) (hlive : pid ∈ c.live)
    (hcall : c.state.vmSwitch pid = some s) :
    Cached { c with state := s, current := some pid } ∧
      (Installed pid s ↔ ¬(c.state.curPid = pid ∧ c.state.curTable = none)) := by
  obtain ⟨table, htable⟩ := Option.isSome_iff_exists.mp ((h.live pid).mp hlive)
  by_cases hpid : c.state.curPid = pid
  · rw [State.vmSwitch, if_neg (not_not.mpr hpid)] at hcall
    cases hcall
    refine ⟨⟨h.live, h.installed, ?_, (by simp)⟩, ?_⟩
    · intro pid' hcurrent
      cases hcurrent
      exact ⟨hlive, hpid⟩
    · constructor
      · rintro ⟨table', _, hcur, _⟩ ⟨_, hnone⟩
        rw [hcur] at hnone
        cases hnone
      · intro hcur
        obtain ⟨table', htable'⟩ := Option.ne_none_iff_exists'.mp
          fun hnone => hcur ⟨hpid, hnone⟩
        obtain ⟨hptbr, pid', hpid', howner⟩ := h.installed table' htable'
        have hsame : pid' = pid := by omega
        exact ⟨table', hsame ▸ howner, htable', hptbr⟩
  · rw [State.vmSwitch, if_pos hpid, htable] at hcall
    cases hcall
    refine ⟨⟨h.live, ?_, ?_, (by simp)⟩, ?_⟩
    · intro table' hcur
      cases hcur
      exact ⟨rfl, pid, rfl, htable⟩
    · intro pid' hcurrent
      cases hcurrent
      exact ⟨hlive, rfl⟩
    · exact iff_of_true ⟨table, htable, rfl, rfl⟩ fun hboth => hpid hboth.1

theorem Cached.map
    {filename : Option UInt64} {block : ℕ} {result : Option UInt64} {s : State W}
    (h : Cached c) (hcall : c.state.vmMap io filename block = some (result, s)) :
    Cached { c with state := s } ∧ s.curTable = c.state.curTable := by
  obtain ⟨table, hcur, _⟩ := Option.bind_eq_some_iff.mp hcall
  have hmapped : Mapped (fun _ _ s t => t.arenas = s.arenas) table c.state filename block
      result s :=
    vmMap_cases hcur (h.installed table hcur).1 (fun _ _ _ => readFilename_arenas) hcall
  cases hmapped with
  | refused => exact ⟨h, rfl⟩
  | unreadable harenas =>
      have hsame := SameTables.of_arenas harenas
      exact ⟨h.of_sameTables hsame, hsame.curTable⟩
  | swap => exact ⟨h.of_same rfl rfl rfl rfl, rfl⟩
  | file harenas =>
      have hsame := SameTables.of_arenas harenas
      exact ⟨h.of_same hsame.tables hsame.curTable hsame.pageTableBaseRegister
        hsame.curPid, hsame.curTable⟩

theorem Cached.destroy
    {pid : ℕ} {s : State W} (h : Cached c) (hcurrent : c.current = some pid)
    (hcall : c.state.vmDestroy = some s) :
    Cached { c with state := s, live := c.live.erase pid, current := none } := by
  obtain ⟨table, hcur, _⟩ := Option.map_eq_some_iff.mp hcall
  rw [vmDestroy_eq hcur, Option.some.injEq] at hcall
  subst hcall
  obtain ⟨_, hpid⟩ := h.current pid hcurrent
  obtain ⟨hsame, _⟩ := destroyPages_same (s := c.state) (c.state.heap table).vps
  refine ⟨fun pid' => ?_, nofun, nofun, fun _ => rfl⟩
  rw [Finset.mem_erase, h.live pid', eraseCurrent_tables, hsame.curPid, hsame.tables, hpid]
  by_cases heq : pid' = pid
  · simp [heq]
  · have hne : (pid : ℤ) ≠ pid' := by omega
    simp [heq, hne]

theorem Cached.step (h : Cached c) (hstep : ReuseStep io c event c') : Cached c' := by
  cases hstep with
  | create hdead hcall => exact h.create hdead hcall
  | other hstep hother =>
      cases hstep with
      | create => exact absurd rfl (hother _ _ _)
      | switch hlive hcall => exact (h.switch hlive hcall).1
      | fault _ hcall => exact h.of_sameTables (.of_arenas (vmFault_arenas hcall))
      | map _ hcall => exact (h.map hcall).1
      | destroy hcurrent hcall => exact h.destroy hcurrent hcall
      | load => exact h
      | store => exact h.of_same rfl rfl rfl rfl

theorem cached_init
    (memoryPages swapBlocks : ℕ) (physmem : ℕ → Byte) (entries : EntryRef → Entry)
    (world : W) :
    Cached (Config.init memoryPages swapBlocks physmem entries world) where
  live pid := by
    change pid ∈ (∅ : Finset ℕ) ↔ (none : Option ℕ).isSome = true
    simp
  installed := nofun
  current := nofun
  idle _ := rfl

/-- The current process has a current table. -/
structure Switched (c : Config W) : Prop extends Cached c where
  table : ∀ pid, c.current = some pid → c.state.curTable ≠ none

theorem Switched.installed_current
    (h : Switched c) {pid : ℕ} (hcurrent : c.current = some pid) :
    Installed pid c.state := by
  obtain ⟨table, hcur⟩ := Option.ne_none_iff_exists'.mp (h.table pid hcurrent)
  obtain ⟨_, hpid⟩ := h.current pid hcurrent
  obtain ⟨hptbr, pid', hpid', htable⟩ := h.installed table hcur
  have hsame : pid' = pid := by omega
  exact ⟨table, hsame ▸ htable, hcur, hptbr⟩

/-- A switch that does not meet a stale `cur_pid` installs the table, and the
other calls leave it where it is. -/
theorem Switched.step
    (h : Switched c) (hstep : ReuseStep io c event c')
    (hallowed : NotRecreated c event) : Switched c' := by
  refine ⟨h.toCached.step hstep, fun pid hcurrent => ?_⟩
  cases hstep with
  | create hdead hcall =>
      rcases vmCreate_tables hcall with ⟨_, rfl⟩ | ⟨_, num, rfl⟩
      · exact h.table pid hcurrent
      · exact h.table pid hcurrent
  | other hstep hother =>
      cases hstep with
      | create => exact absurd rfl (hother _ _ _)
      | @switch pid' s hlive hcall =>
          have hinstalled : Installed pid' s := by
            refine (h.toCached.switch hlive hcall).2.mpr fun hstale => ?_
            cases hold : c.current with
            | none => exact hallowed pid' rfl hold hstale.1
            | some old => exact h.table old hold hstale.2
          obtain ⟨table, _, hcur, _⟩ := hinstalled
          change s.curTable ≠ none
          rw [hcur]
          exact nofun
      | fault _ hcall =>
          rw [(SameTables.of_arenas (vmFault_arenas hcall)).curTable]
          exact h.table pid hcurrent
      | map _ hcall =>
          rw [(h.toCached.map hcall).2]
          exact h.table pid hcurrent
      | destroy => cases hcurrent
      | load => exact h.table pid hcurrent
      | store => exact h.table pid hcurrent

/-- A switch to a live process installs its table if and only if `cur_pid` is
another pid or a table is current.  In the runs that never switch to a process
created again under the pid they left, the table of the current process is
installed in every state. -/
theorem switch_installs_iff
    (memoryPages swapBlocks : ℕ) (physmem : ℕ → Byte) (entries : EntryRef → Entry)
    (world : W) :
    (∀ c, (reusing io).Reachable
        (Config.init memoryPages swapBlocks physmem entries world) c →
      ∀ pid c', ReuseStep io c (.switch pid) c' →
        (Installed pid c'.state ↔
          ¬(c.state.curPid = pid ∧ c.state.curTable = none))) ∧
    ∀ c, ((reusing io).restrict NotRecreated).Reachable
        (Config.init memoryPages swapBlocks physmem entries world) c →
      ∀ pid, c.current = some pid → Installed pid c.state := by
  have hinit := cached_init memoryPages swapBlocks physmem entries world
  constructor
  · intro c hreach pid c' hstep
    have h : Cached c := hreach.invariant Cached hinit fun _ _ _ h hstep => h.step hstep
    cases hstep with
    | other hstep hother =>
        cases hstep with
        | switch hlive hcall => exact (h.switch hlive hcall).2
  · intro c hreach pid hcurrent
    have h : Switched c := by
      refine hreach.invariant Switched ⟨hinit, nofun⟩ ?_
      rintro _ _ _ h ⟨hstep, hallowed⟩
      exact h.step hstep hallowed
    exact h.installed_current hcurrent

/-- Process 7 exits, another one is created with its pid and switched to. -/
theorem not_switch_installs :
    ¬∀ c, (reusing blockFiles).Reachable (freshConfig 2 2) c → ∀ pid c',
      ReuseStep blockFiles c (.switch pid) c' → Installed pid c'.state := by
  intro hall
  have hstart : (reusing blockFiles).Reachable (freshConfig 2 2) (freshConfig 2 2) :=
    .refl
  have hcreate := hstart.step
    (@ReuseStep.create _ blockFiles (freshConfig 2 2) 0 7 _ _ (by decide) rfl)
  have hswitch := hcreate.step
    (.other (@Step.switch _ blockFiles _ 7 _ (by decide) rfl) nofun)
  have hdestroy := hswitch.step (.other (@Step.destroy _ blockFiles _ 7 _ rfl rfl) nofun)
  have hagain := hdestroy.step
    (@ReuseStep.create _ blockFiles _ 0 7 _ _ (by decide) rfl)
  obtain ⟨table, _, hcur, _⟩ := hall _ hagain 7 _
    (.other (@Step.switch _ blockFiles _ 7 _ (by decide) rfl) nofun)
  cases hcur

end Pager
end Eecs482
