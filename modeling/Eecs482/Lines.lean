import Mathlib.Data.List.Basic
import Mathlib.Data.List.TakeWhile

/-!
# Lines of a text

A text is read line by line up to its end.  A newline ends a line, and the last
line need not have one.
-/

namespace Eecs482

variable {α : Type}

section Lines

variable (newline : α)

/-- The text consists of the lines. -/
inductive IsText : List (List α) → List α → Prop
  | nil : IsText [] []
  | last {line : List α} (hne : line ≠ []) (hline : newline ∉ line) :
      IsText [line] line
  | cons {line text : List α} {lines : List (List α)} (hline : newline ∉ line)
      (htext : IsText lines text) : IsText (line :: lines) (line ++ newline :: text)

variable {newline}

theorem IsText.nil_iff {text : List α} {lines : List (List α)}
    (htext : IsText newline lines text) : lines = [] ↔ text = [] := by
  cases htext with
  | nil => simp
  | last hne => simp [hne]
  | cons => simp

/-- A text with a newline after each line. -/
theorem isText_flatMap {lines : List (List α)} (hlines : ∀ line ∈ lines, newline ∉ line) :
    IsText newline lines (lines.flatMap (· ++ [newline])) := by
  induction lines with
  | nil => exact .nil
  | cons line lines ih =>
      rw [List.flatMap_cons, List.append_assoc, List.singleton_append]
      exact .cons (hlines line List.mem_cons_self)
        (ih fun other hother => hlines other (List.mem_cons_of_mem _ hother))

variable [DecidableEq α]

variable (newline) in
/-- The next line and what is left of the text; none at its end. -/
def nextLine : List α → Option (List α × List α)
  | [] => none
  | c :: text =>
      some ((c :: text).takeWhile (· ≠ newline),
        ((c :: text).dropWhile (· ≠ newline)).tail)

variable (newline) in
theorem length_of_nextLine
    {text line rest : List α} (hline : nextLine newline text = some (line, rest)) :
    rest.length < text.length := by
  cases text with
  | nil => cases hline
  | cons c text =>
      cases hline
      have hdrop := (List.dropWhile_sublist (l := c :: text) (· ≠ newline)).length_le
      rw [List.length_tail]
      simp only [List.length_cons] at hdrop ⊢
      omega

variable (newline) in
/-- All lines of the text. -/
def linesOf (text : List α) : List (List α) :=
  match h : nextLine newline text with
  | none => []
  | some (line, rest) =>
      have := length_of_nextLine newline h
      line :: linesOf rest
termination_by text.length

theorem nextLine_append {line text : List α} (hline : newline ∉ line) :
    nextLine newline (line ++ newline :: text) = some (line, text) := by
  have hall : ∀ c ∈ line, decide (c ≠ newline) = true := by
    intro c hc
    rw [decide_eq_true_eq]
    exact fun heq => hline (heq ▸ hc)
  have htake : (line ++ newline :: text).takeWhile (· ≠ newline) = line := by
    rw [List.takeWhile_append_of_pos hall]
    simp
  have hdrop : (line ++ newline :: text).dropWhile (· ≠ newline) = newline :: text := by
    rw [List.dropWhile_append_of_pos hall]
    simp
  cases line with
  | nil => simp [nextLine]
  | cons c line =>
      rw [List.cons_append] at htake hdrop ⊢
      rw [nextLine, htake, hdrop, List.tail_cons]

theorem nextLine_last {line : List α} (hne : line ≠ []) (hline : newline ∉ line) :
    nextLine newline line = some (line, []) := by
  have hall : ∀ c ∈ line, decide (c ≠ newline) = true := by
    intro c hc
    rw [decide_eq_true_eq]
    exact fun heq => hline (heq ▸ hc)
  cases line with
  | nil => exact absurd rfl hne
  | cons c line =>
      rw [nextLine, List.takeWhile_eq_self_iff.mpr hall,
        List.dropWhile_eq_nil_iff.mpr hall, List.tail_nil]

theorem isText_of_nextLine
    {text line rest : List α} {lines : List (List α)}
    (hnext : nextLine newline text = some (line, rest))
    (hrest : IsText newline lines rest) : IsText newline (line :: lines) text := by
  cases text with
  | nil => cases hnext
  | cons c text =>
      cases hnext
      have hsplit := List.takeWhile_append_dropWhile
        (p := fun d => decide (d ≠ newline)) (l := c :: text)
      have hline : newline ∉ (c :: text).takeWhile (· ≠ newline) := by
        intro hmem
        simpa using List.mem_takeWhile_imp hmem
      cases hdrop : (c :: text).dropWhile (· ≠ newline) with
      | nil =>
          rw [hdrop, List.append_nil] at hsplit
          rw [hdrop, List.tail_nil] at hrest
          obtain rfl := hrest.nil_iff.mpr rfl
          rw [hsplit] at hline ⊢
          exact .last (by simp) hline
      | cons d rest =>
          have hd : d = newline := by
            have hhead := List.head?_dropWhile_not (fun d => decide (d ≠ newline))
              (c :: text)
            rw [hdrop] at hhead
            simpa using hhead
          rw [hdrop, List.tail_cons] at hrest
          subst hd
          have htext := IsText.cons hline hrest
          rwa [← hdrop, hsplit] at htext

/-- Reading line by line finds the lines that the text consists of. -/
theorem linesOf_eq_iff {text : List α} {lines : List (List α)} :
    linesOf newline text = lines ↔ IsText newline lines text := by
  constructor
  · rintro rfl
    induction htext : text.length using Nat.strongRecOn generalizing text with
    | _ length ih =>
        subst htext
        rw [linesOf]
        split
        case h_1 hnext =>
            cases text with
            | nil => exact .nil
            | cons => cases hnext
        case h_2 line rest hnext =>
            exact isText_of_nextLine hnext
              (ih rest.length (length_of_nextLine newline hnext) rfl)
  · intro htext
    induction htext with
    | nil =>
        rw [linesOf]
        rfl
    | last hne hline =>
        rw [linesOf]
        split
        case h_1 hnext =>
            rw [nextLine_last hne hline] at hnext
            cases hnext
        case h_2 hnext =>
            rw [nextLine_last hne hline] at hnext
            cases hnext
            rw [linesOf]
            rfl
    | cons hline _ ih =>
        rw [linesOf]
        split
        case h_1 hnext =>
            rw [nextLine_append hline] at hnext
            cases hnext
        case h_2 hnext =>
            rw [nextLine_append hline] at hnext
            cases hnext
            rw [ih]

end Lines

end Eecs482
