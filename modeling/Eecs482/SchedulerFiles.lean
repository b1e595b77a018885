import Eecs482.Decimals
import Eecs482.Lines
import Eecs482.SchedulerCompletion
import Mathlib.Data.Int.ModEq
import Mathlib.Tactic.NormNum

/-!
# The input of the disk scheduler

`main` takes the capacity of the queue and the names of the files from the command
line and reserves space for the queue, and each `requester_func` first reads its file,
one track a line.
-/

namespace Eecs482
namespace Scheduler

open Decimal

abbrev newline : UInt8 := 10

/-- The exceptions of `std::stoul`. -/
inductive StoulError
  | invalidArgument
  | outOfRange
deriving DecidableEq

/-- The digits as an `unsigned long`. -/
def unsignedLong (negative : Bool) (digits : Text) : UInt64 :=
  if negative then -UInt64.ofNat (value digits) else UInt64.ofNat (value digits)

/-- `std::stoul`. -/
def stoul (text : Text) : Except StoulError UInt64 :=
  let (negative, digits) := scan text
  if digits = [] then .error .invalidArgument
  else if 2 ^ 64 ≤ value digits then .error .outOfRange
  else .ok (unsignedLong negative digits)

/-- `static_cast<unsigned int>(std::stoul(line))`. -/
def readTrack (line : Text) : Except StoulError UInt32 :=
  (stoul line).map UInt64.toUInt32

/-- `requester_func` up to its second loop, for the contents of its file. -/
def readTracks (text : Text) : Except StoulError (List UInt32) :=
  match h : nextLine newline text with
  | none => .ok []
  | some (line, rest) => do
      have := length_of_nextLine newline h
      let track ← readTrack line
      let tracks ← readTracks rest
      return track :: tracks
termination_by text.length

/-- What `inputFile` reads; nothing from a file that cannot be opened. -/
def contents (disk : Text → Option Text) (name : Text) : Text :=
  (disk name).getD []

/-- `std::atoi`; none if the number is not an `int`. -/
def atoi (text : Text) : Option ℤ :=
  let (negative, digits) := scan text
  if -2 ^ 31 ≤ number negative digits ∧ number negative digits < 2 ^ 31 then
    some (number negative digits)
  else none

/-- The `int` as an `unsigned int`. -/
def unsignedInt (k : ℤ) : ℕ :=
  (k % 2 ^ 32).toNat

/-! ## The format of a file -/

/-- The line begins with a numeral of 64 bits, and the track has its lower half. -/
def IsTrack (line : Text) (track : UInt32) : Prop :=
  ∃ negative digits, BeginsWith line negative digits ∧ value digits < 2 ^ 64 ∧
    (track.toNat : ℤ) ≡ number negative digits [ZMOD 2 ^ 32]

/-- Why a line is not a track. -/
def FailsWith (line : Text) : StoulError → Prop
  | .invalidArgument => ∀ negative digits, ¬BeginsWith line negative digits
  | .outOfRange => ∃ negative digits, BeginsWith line negative digits ∧ 2 ^ 64 ≤ value digits

/-- What the lines are read as: their tracks, or the error of the first line that
is not a track. -/
def ReadAs (lines : List Text) : Except StoulError (List UInt32) → Prop
  | .ok tracks => List.Forall₂ IsTrack lines tracks
  | .error e => ∃ before line after, lines = before ++ line :: after ∧
      (∀ other ∈ before, ∃ track, IsTrack other track) ∧ FailsWith line e

theorem toNat_unsignedLong (negative : Bool) (digits : Text) :
    ((unsignedLong negative digits).toUInt32.toNat : ℤ) ≡
      number negative digits [ZMOD 2 ^ 32] := by
  have hhalf : ∀ x : UInt64, (x.toUInt32.toNat : ℤ) ≡ x.toNat [ZMOD 2 ^ 32] := by
    intro x
    rw [UInt64.toNat_toUInt32]
    push_cast
    exact Int.mod_modEq _ _
  refine (hhalf _).trans ?_
  have hpow : (2 : ℤ) ^ 32 ∣ 2 ^ 64 := by norm_num
  apply Int.ModEq.of_dvd hpow
  unfold unsignedLong number
  split
  · rw [UInt64.toNat_neg, UInt64.toNat_ofNat', show UInt64.size = 2 ^ 64 from rfl]
    unfold Int.ModEq
    omega
  · rw [UInt64.toNat_ofNat']
    push_cast
    exact Int.mod_modEq _ _

theorem track_unique {a b : UInt32} {k : ℤ}
    (ha : (a.toNat : ℤ) ≡ k [ZMOD 2 ^ 32]) (hb : (b.toNat : ℤ) ≡ k [ZMOD 2 ^ 32]) :
    a = b := by
  have hab := ha.trans hb.symm
  have halt := a.toNat_lt
  have hblt := b.toNat_lt
  apply UInt32.toNat_inj.mp
  unfold Int.ModEq at hab
  omega

theorem readTrack_eq_ok_iff {line : Text} {track : UInt32} :
    readTrack line = .ok track ↔ IsTrack line track := by
  obtain ⟨negative, digits, hscan⟩ : ∃ negative digits, scan line = (negative, digits) :=
    ⟨_, _, rfl⟩
  unfold readTrack stoul
  simp only [hscan]
  constructor
  · intro hread
    split at hread
    case isTrue => cases hread
    case isFalse hne =>
        split at hread
        case isTrue => cases hread
        case isFalse hlt =>
            obtain rfl := Except.ok.inj hread
            exact ⟨negative, digits, (scan_eq_iff hne).mp hscan, Nat.lt_of_not_le hlt,
              toNat_unsignedLong negative digits⟩
  · rintro ⟨negative', digits', hbegins, hlt, htrack⟩
    have hsame := hscan.symm.trans (scan_of_beginsWith hbegins)
    obtain ⟨rfl, rfl⟩ := Prod.mk.inj hsame
    rw [if_neg hbegins.ne_nil, if_neg (Nat.not_le_of_lt hlt)]
    exact congrArg Except.ok
      (track_unique (toNat_unsignedLong negative digits) htrack)

theorem readTrack_eq_error_iff {line : Text} {e : StoulError} :
    readTrack line = .error e ↔ FailsWith line e := by
  obtain ⟨negative, digits, hscan⟩ : ∃ negative digits, scan line = (negative, digits) :=
    ⟨_, _, rfl⟩
  have hbegins : ∀ {negative' digits'}, BeginsWith line negative' digits' →
      negative = negative' ∧ digits = digits' :=
    fun h => Prod.mk.inj (hscan.symm.trans (scan_of_beginsWith h))
  unfold readTrack stoul
  simp only [hscan]
  by_cases hne : digits = []
  · rw [if_pos hne]
    have hnone : ∀ negative' digits', ¬BeginsWith line negative' digits' :=
      fun _ _ h => h.ne_nil ((hbegins h).2 ▸ hne)
    cases e with
    | invalidArgument => exact ⟨fun _ => hnone, fun _ => rfl⟩
    | outOfRange =>
        constructor
        · intro hread
          cases hread
        · rintro ⟨negative', digits', h, _⟩
          exact absurd h (hnone negative' digits')
  · rw [if_neg hne]
    have hline := (scan_eq_iff hne).mp hscan
    by_cases hle : 2 ^ 64 ≤ value digits
    · rw [if_pos hle]
      cases e with
      | invalidArgument =>
          constructor
          · intro hread
            cases hread
          · intro hnone
            exact absurd hline (hnone negative digits)
      | outOfRange => exact ⟨fun _ => ⟨negative, digits, hline, hle⟩, fun _ => rfl⟩
    · rw [if_neg hle]
      constructor
      · intro hread
        cases hread
      · intro hfails
        cases e with
        | invalidArgument => exact absurd hline (hfails negative digits)
        | outOfRange =>
            obtain ⟨negative', digits', h, hle'⟩ := hfails
            rw [← (hbegins h).2] at hle'
            exact absurd hle' hle

example : stoul [32, 43, 49, 50, 97] = .ok 12 := by decide

/-! ## Reading a file -/

theorem readTracks_of_none {text : Text} (hnext : nextLine newline text = none) :
    readTracks text = .ok [] := by
  rw [readTracks]
  split
  case h_1 => rfl
  case h_2 hsome =>
      rw [hnext] at hsome
      cases hsome

theorem readTracks_of_some
    {text line rest : Text} (hnext : nextLine newline text = some (line, rest)) :
    readTracks text = (readTrack line >>= fun track =>
      readTracks rest >>= fun tracks => .ok (track :: tracks)) := by
  rw [readTracks]
  split
  case h_1 hnone =>
      rw [hnext] at hnone
      cases hnone
  case h_2 hsome =>
      rw [hnext] at hsome
      cases hsome
      rfl

theorem readAs_nil_iff {result : Except StoulError (List UInt32)} :
    ReadAs [] result ↔ result = .ok [] := by
  cases result with
  | ok tracks => simp [ReadAs]
  | error e => simp [ReadAs]

theorem ReadAs.cons {line : Text} {lines : List Text} {track : UInt32}
    {result : Except StoulError (List UInt32)}
    (htrack : IsTrack line track) (hresult : ReadAs lines result) :
    ReadAs (line :: lines) (result.map (track :: ·)) := by
  cases result with
  | ok tracks => exact List.Forall₂.cons htrack hresult
  | error e =>
      obtain ⟨before, bad, after, hlines, hbefore, hfails⟩ := hresult
      refine ⟨line :: before, bad, after, by rw [hlines, List.cons_append], ?_, hfails⟩
      intro other hother
      rcases List.mem_cons.mp hother with rfl | hother
      · exact ⟨track, htrack⟩
      · exact hbefore other hother

theorem ReadAs.of_fails {line : Text} {lines : List Text} {e : StoulError}
    (hfails : FailsWith line e) : ReadAs (line :: lines) (.error e) :=
  ⟨[], line, lines, rfl, by simp, hfails⟩

/-- The first line is a track, and the other lines are read after it, or it is not. -/
theorem ReadAs.cases_cons {line : Text} {lines : List Text}
    {result : Except StoulError (List UInt32)} (h : ReadAs (line :: lines) result) :
    (∃ track rest, IsTrack line track ∧ ReadAs lines rest ∧
        result = rest.map (track :: ·)) ∨
      ∃ e, FailsWith line e ∧ result = .error e := by
  cases result with
  | ok tracks =>
      cases h with
      | @cons _ track _ tracks htrack htracks =>
          exact .inl ⟨track, .ok tracks, htrack, htracks, rfl⟩
  | error e =>
      obtain ⟨before, bad, after, hlines, hbefore, hfails⟩ := h
      cases before with
      | nil =>
          obtain ⟨rfl, rfl⟩ := List.cons.inj hlines
          exact .inr ⟨e, hfails, rfl⟩
      | cons other before =>
          obtain ⟨rfl, rfl⟩ := List.cons.inj hlines
          obtain ⟨track, htrack⟩ := hbefore line List.mem_cons_self
          exact .inl ⟨track, .error e, htrack, ⟨before, bad, after, rfl,
            fun next hnext => hbefore next (List.mem_cons_of_mem _ hnext), hfails⟩, rfl⟩

/-- Lines are read in one way. -/
theorem ReadAs.unique {lines : List Text} {a b : Except StoulError (List UInt32)}
    (ha : ReadAs lines a) (hb : ReadAs lines b) : a = b := by
  induction lines generalizing a b with
  | nil => rw [readAs_nil_iff.mp ha, readAs_nil_iff.mp hb]
  | cons line lines ih =>
      have hdiffer : ∀ {track e}, IsTrack line track → ¬FailsWith line e := by
        intro track e htrack hfails
        have hok := readTrack_eq_ok_iff.mpr htrack
        rw [readTrack_eq_error_iff.mpr hfails] at hok
        cases hok
      rcases ha.cases_cons with ⟨track, rest, htrack, hrest, rfl⟩ | ⟨e, hfails, rfl⟩
      · rcases hb.cases_cons with ⟨track', rest', htrack', hrest', rfl⟩ | ⟨e, hfails, rfl⟩
        · rw [ih hrest hrest']
          have hok := readTrack_eq_ok_iff.mpr htrack
          rw [readTrack_eq_ok_iff.mpr htrack'] at hok
          rw [Except.ok.inj hok]
        · exact absurd hfails (hdiffer htrack)
      · rcases hb.cases_cons with ⟨track', _, htrack', _, rfl⟩ | ⟨e', hfails', rfl⟩
        · exact absurd hfails (hdiffer htrack')
        · have herror := readTrack_eq_error_iff.mpr hfails
          rw [readTrack_eq_error_iff.mpr hfails'] at herror
          rw [Except.error.inj herror]

theorem readAs_linesOf (text : Text) :
    ReadAs (linesOf newline text) (readTracks text) := by
  induction hlength : text.length using Nat.strongRecOn generalizing text with
  | _ length ih =>
      subst hlength
      rw [linesOf]
      split
      case h_1 hnext =>
          rw [readTracks_of_none hnext]
          exact .nil
      case h_2 line rest hnext =>
          have hrest := ih rest.length (length_of_nextLine newline hnext) rest rfl
          rw [readTracks_of_some hnext]
          cases hread : readTrack line with
          | error e => exact .of_fails (readTrack_eq_error_iff.mp hread)
          | ok track =>
              have hcons := hrest.cons (readTrack_eq_ok_iff.mp hread)
              cases hresult : readTracks rest <;> rw [hresult] at hcons <;> exact hcons

theorem readTracks_of_readAs {text : Text} {lines : List Text}
    {result : Except StoulError (List UInt32)}
    (htext : IsText newline lines text) (hread : ReadAs lines result) :
    readTracks text = result := by
  obtain rfl := linesOf_eq_iff.mpr htext
  exact (readAs_linesOf text).unique hread

theorem readAs_of_readTracks {text : Text} {result : Except StoulError (List UInt32)}
    (hread : readTracks text = result) :
    ∃ lines, IsText newline lines text ∧ ReadAs lines result := by
  subst hread
  exact ⟨linesOf newline text, linesOf_eq_iff.mp rfl, readAs_linesOf text⟩

/-- A requester reads one track from each line of its file, the number at its front
modulo 2 ^ 32, or fails with the error of the first line without such a number. -/
theorem readTracks_eq_iff (text : Text) (result : Except StoulError (List UInt32)) :
    readTracks text = result ↔ ∃ lines, IsText newline lines text ∧ ReadAs lines result := by
  constructor
  · intro hread
    exact readAs_of_readTracks hread
  · rintro ⟨lines, htext, hread⟩
    exact readTracks_of_readAs htext hread

/-- Tracks printed one a line are read back. -/
theorem readTracks_printed (tracks : List UInt32) :
    readTracks ((tracks.map fun track => print track.toNat).flatMap (· ++ [newline])) =
      .ok tracks := by
  have hfree : ∀ line ∈ tracks.map fun track => print track.toNat, newline ∉ line := by
    intro line hline hmem
    obtain ⟨track, _, rfl⟩ := List.mem_map.mp hline
    exact absurd (isDigit_of_mem_print hmem) (by decide)
  apply readTracks_of_readAs (isText_flatMap hfree)
  change List.Forall₂ IsTrack _ tracks
  rw [List.forall₂_map_left_iff, List.forall₂_same]
  intro track _
  refine ⟨false, print track.toNat, beginsWith_print track.toNat, ?_, ?_⟩
  · rw [value_print]
    have hlt := track.toNat_lt
    omega
  · unfold number
    rw [value_print, if_neg Bool.false_ne_true]

/-! ## The program -/

/-- `disk_queue.reserve(max_disk_queue)`; none if it throws `std::bad_alloc`.  `memory`
says for how many entries there is memory. -/
def reserve (memory : ℕ → Bool) (maxDiskQueue : ℕ) : Option ℕ :=
  if memory maxDiskQueue then some maxDiskQueue else none

/-- `main` up to the names of the files: the capacity of the queue. -/
def capacity (memory : ℕ → Bool) (arg : Text) : Option ℕ :=
  (atoi arg).bind fun k => reserve memory (unsignedInt k)

/-- The program ends on its own: its input is read without an exception, there is memory
for the queue, and then, whatever the schedule, its threads return after finitely many
steps with all requests serviced. -/
def Ends
    (memory : ℕ → Bool) (arg : Text) (names : List Text) (disk : Text → Option Text) : Prop :=
  ∃ maxDiskQueue files, capacity memory arg = some maxDiskQueue ∧
    (∀ i : Fin names.length, readTracks (contents disk names[i]) = .ok (files i)) ∧
    ∀ trace s, (scheduler names.length).system.Run (initial maxDiskQueue files) trace s →
      trace.length ≤ stepBound files ∧
        ((scheduler names.length).CanStep s ∨ Complete files s)

/-- The argument begins with an `int` other than zero, and as an `unsigned int` it is a
number of entries that there is memory for. -/
def IsCapacity (memory : ℕ → Bool) (arg : Text) : Prop :=
  ∃ negative digits, BeginsWith arg negative digits ∧ number negative digits ≠ 0 ∧
    (-2 ^ 31 ≤ number negative digits ∧ number negative digits < 2 ^ 31) ∧
    memory (unsignedInt (number negative digits))

/-- The file has lines, and each of them is a track. -/
def IsTrackFile (text : Text) : Prop :=
  ∃ lines, IsText newline lines text ∧ lines ≠ [] ∧ ∀ line ∈ lines, ∃ track, IsTrack line track

theorem capacity_eq_some_iff {memory : ℕ → Bool} {arg : Text} {maxDiskQueue : ℕ} :
    capacity memory arg = some maxDiskQueue ↔
      ∃ k, atoi arg = some k ∧ memory (unsignedInt k) ∧ unsignedInt k = maxDiskQueue := by
  simp [capacity, reserve, Option.bind_eq_some_iff]

theorem isCapacity_iff {memory : ℕ → Bool} {arg : Text} :
    (∃ maxDiskQueue, capacity memory arg = some maxDiskQueue ∧ 0 < maxDiskQueue) ↔
      IsCapacity memory arg := by
  obtain ⟨negative, digits, hscan⟩ : ∃ negative digits, scan arg = (negative, digits) :=
    ⟨_, _, rfl⟩
  simp only [capacity_eq_some_iff]
  unfold atoi
  simp only [hscan]
  constructor
  · rintro ⟨_, ⟨k, hatoi, hmemory, rfl⟩, hpos⟩
    split at hatoi
    case isFalse => cases hatoi
    case isTrue hrange =>
        obtain rfl := Option.some.inj hatoi
        have hzero : number negative digits ≠ 0 := by
          intro hzero
          rw [hzero] at hpos
          exact absurd hpos (by decide)
        have hne : digits ≠ [] := by
          rintro rfl
          cases negative <;> exact hzero rfl
        exact ⟨negative, digits, (scan_eq_iff hne).mp hscan, hzero, hrange, hmemory⟩
  · rintro ⟨negative', digits', hbegins, hzero, hrange, hmemory⟩
    obtain ⟨rfl, rfl⟩ := Prod.mk.inj (hscan.symm.trans (scan_of_beginsWith hbegins))
    refine ⟨_, ⟨number negative digits, if_pos hrange, hmemory, rfl⟩, ?_⟩
    unfold unsignedInt
    omega

/-- Lines that are tracks can be read. -/
theorem exists_forall₂ {lines : List Text} (hall : ∀ line ∈ lines, ∃ track, IsTrack line track) :
    ∃ tracks, List.Forall₂ IsTrack lines tracks := by
  induction lines with
  | nil => exact ⟨[], .nil⟩
  | cons line lines ih =>
      obtain ⟨track, htrack⟩ := hall line List.mem_cons_self
      obtain ⟨tracks, htracks⟩ := ih fun other hother => hall other (List.mem_cons_of_mem _ hother)
      exact ⟨track :: tracks, .cons htrack htracks⟩

theorem exists_of_forall₂ {lines : List Text} {tracks : List UInt32} {line : Text}
    (hread : List.Forall₂ IsTrack lines tracks) (hline : line ∈ lines) :
    ∃ track, IsTrack line track := by
  induction hread with
  | nil => cases hline
  | @cons _ track _ _ htrack _ ih =>
      rcases List.mem_cons.mp hline with rfl | hline
      · exact ⟨track, htrack⟩
      · exact ih hline

theorem isTrackFile_iff {text : Text} :
    (∃ tracks, readTracks text = .ok tracks ∧ tracks ≠ []) ↔ IsTrackFile text := by
  constructor
  · rintro ⟨tracks, hread, hne⟩
    obtain ⟨lines, htext, hlines⟩ := readAs_of_readTracks hread
    have hall : List.Forall₂ IsTrack lines tracks := hlines
    refine ⟨lines, htext, ?_, fun line hline => exists_of_forall₂ hall hline⟩
    rintro rfl
    exact hne (List.forall₂_nil_left_iff.mp hall)
  · rintro ⟨lines, htext, hne, hall⟩
    obtain ⟨tracks, htracks⟩ := exists_forall₂ hall
    refine ⟨tracks, readTracks_of_readAs htext htracks, ?_⟩
    rintro rfl
    exact hne (List.forall₂_nil_right_iff.mp htracks)

/-- The program ends on its own if and only if the first argument begins with an
`int` other than zero, there is memory for the queue, and there are further arguments,
all of them names of files whose lines, at least one, begin with numbers of 64 bits. -/
theorem ends_iff
    (memory : ℕ → Bool) (arg : Text) (names : List Text) (disk : Text → Option Text) :
    Ends memory arg names disk ↔
      IsCapacity memory arg ∧ names ≠ [] ∧
        ∀ name ∈ names, ∃ text, disk name = some text ∧ IsTrackFile text := by
  constructor
  · rintro ⟨maxDiskQueue, files, hcapacity, hfiles, hruns⟩
    obtain ⟨s, hreach, hstuck⟩ := EventSystem.exists_stuck_of_length_le
      fun trace s hrun => (hruns trace s hrun).1
    have hreach' := hreach
    obtain ⟨trace, hrun⟩ := hreach'
    have hcomplete : Complete files s := by
      rcases (hruns trace s hrun).2 with hstep | hcomplete
      · obtain ⟨i, t, hstep⟩ := hstep
        exact absurd hstep (hstuck i t)
      · exact hcomplete
    obtain ⟨hmax, hn, hne⟩ := condition_of_returned hreach (hcomplete.returned .server)
    refine ⟨isCapacity_iff.mp ⟨maxDiskQueue, hcapacity, hmax⟩, List.ne_nil_of_length_pos hn, ?_⟩
    intro name hname
    obtain ⟨i, rfl⟩ := List.get_of_mem hname
    have hfile := isTrackFile_iff.mp ⟨files i, hfiles i, hne i⟩
    cases hopen : disk (names.get i) with
    | some text =>
        refine ⟨text, rfl, ?_⟩
        have hcontents : contents disk names[i] = text := by
          change (disk (names.get i)).getD [] = text
          rw [hopen, Option.getD_some]
        rwa [hcontents] at hfile
    | none =>
        obtain ⟨lines, htext, hlines, _⟩ := hfile
        refine absurd (htext.nil_iff.mpr ?_) hlines
        change (disk (names.get i)).getD [] = []
        rw [hopen, Option.getD_none]
  · rintro ⟨hcapacity, hnames, hfiles⟩
    obtain ⟨maxDiskQueue, hsome, hmax⟩ := isCapacity_iff.mpr hcapacity
    have hread : ∀ i : Fin names.length, ∃ tracks,
        readTracks (contents disk names[i]) = .ok tracks ∧ tracks ≠ [] := by
      intro i
      obtain ⟨text, hopen, hfile⟩ := hfiles names[i] (List.getElem_mem i.isLt)
      rw [contents, hopen, Option.getD_some]
      exact isTrackFile_iff.mpr hfile
    choose files hfiles hne using hread
    refine ⟨maxDiskQueue, files, hsome, hfiles, fun trace s hrun => ?_⟩
    have hn := List.length_pos_of_ne_nil hnames
    refine ⟨length_le_stepBound hmax hn hrun, ?_⟩
    by_cases hstep : (scheduler names.length).CanStep s
    · exact .inl hstep
    · exact .inr (complete_of_stuck hmax hn hne ⟨trace, hrun⟩ hstep)

end Scheduler
end Eecs482
