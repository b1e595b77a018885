import Mathlib.Data.Int.Notation
import Mathlib.Data.List.TakeWhile
import Mathlib.Tactic.Common

/-!
# Decimal numbers in a text

The functions of the C library that read an integer skip white space, take a
sign and as many digits as there are, and leave the rest of the text alone.
Numbers are printed without leading zeros.
-/

namespace Eecs482
namespace Decimal

abbrev Text := List UInt8

/-- `isspace` of the C locale. -/
def isSpace (c : UInt8) : Bool :=
  c == 32 || (9 ≤ c && c ≤ 13)

/-- `isdigit`. -/
def isDigit (c : UInt8) : Bool :=
  48 ≤ c && c ≤ 57

abbrev plus : UInt8 := 43

abbrev minus : UInt8 := 45

/-- The number that the digits stand for. -/
def value (digits : Text) : ℕ :=
  digits.foldl (fun n c => 10 * n + (c.toNat - 48)) 0

/-- The number with its sign. -/
def number (negative : Bool) (digits : Text) : ℤ :=
  if negative then -value digits else value digits

/-- A sign at the front of the text, which is negative or not, and what follows. -/
def takeSign : Text → Bool × Text
  | [] => (false, [])
  | c :: text =>
      if c = minus then (true, text)
      else if c = plus then (false, text)
      else (false, c :: text)

/-- The sign and the digits at the front of the text, after white space. -/
def scan (text : Text) : Bool × Text :=
  let signed := takeSign (text.dropWhile isSpace)
  (signed.1, signed.2.takeWhile isDigit)

/-- The text begins with a numeral: white space, perhaps a sign, and digits, as
many as there are. -/
structure BeginsWith (text : Text) (negative : Bool) (digits : Text) : Prop where
  split : ∃ blanks sign junk : Text, text = blanks ++ (sign ++ (digits ++ junk)) ∧
    (∀ c ∈ blanks, isSpace c = true) ∧
    (if negative then sign = [minus] else sign = [] ∨ sign = [plus]) ∧
    ∀ c ∈ junk.head?, isDigit c = false
  ne_nil : digits ≠ []
  all_digits : ∀ c ∈ digits, isDigit c = true

/-! ## Reading -/

theorem not_isSpace_of_isDigit {c : UInt8} (hc : isDigit c = true) : isSpace c = false := by
  unfold isDigit at hc
  unfold isSpace
  simp only [Bool.and_eq_true, decide_eq_true_eq, UInt8.le_iff_toNat_le] at hc
  simp only [Bool.or_eq_false_iff, beq_eq_false_iff_ne, Bool.and_eq_false_iff,
    decide_eq_false_iff_not, UInt8.le_iff_toNat_le]
  have hlower : 48 ≤ c.toNat := hc.1
  refine ⟨fun heq => ?_, .inr fun hle => ?_⟩
  · rw [heq] at hlower
    exact absurd hlower (by decide)
  · have hle' : c.toNat ≤ 13 := hle
    omega

theorem sign_ne_of_isDigit {c : UInt8} (hc : isDigit c = true) : c ≠ minus ∧ c ≠ plus := by
  constructor
  · rintro rfl
    exact absurd hc (by decide)
  · rintro rfl
    exact absurd hc (by decide)

theorem dropWhile_append_of_head
    {p : UInt8 → Bool} {front rest : Text} (hfront : ∀ c ∈ front, p c = true)
    (hrest : ∀ c ∈ rest.head?, p c = false) : (front ++ rest).dropWhile p = rest := by
  rw [List.dropWhile_append_of_pos hfront]
  cases rest with
  | nil => rfl
  | cons c rest =>
      have hc : p c = false := hrest c (by simp)
      rw [List.dropWhile_cons, hc]
      rfl

theorem takeWhile_append_of_head
    {p : UInt8 → Bool} {front rest : Text} (hfront : ∀ c ∈ front, p c = true)
    (hrest : ∀ c ∈ rest.head?, p c = false) : (front ++ rest).takeWhile p = front := by
  rw [List.takeWhile_append_of_pos hfront]
  cases rest with
  | nil => simp
  | cons c rest =>
      have hc : p c = false := hrest c (by simp)
      rw [List.takeWhile_cons, hc]
      simp

theorem scan_of_beginsWith
    {text digits : Text} {negative : Bool} (h : BeginsWith text negative digits) :
    scan text = (negative, digits) := by
  obtain ⟨⟨blanks, sign, junk, rfl, hblanks, hsign, hjunk⟩, hne, hdigits⟩ := h
  obtain ⟨d, digits, rfl⟩ := List.exists_cons_of_ne_nil hne
  have hd := hdigits d List.mem_cons_self
  have htake : (d :: digits ++ junk).takeWhile isDigit = d :: digits :=
    takeWhile_append_of_head hdigits hjunk
  have hskip : ∀ rest : Text, (∀ c ∈ rest.head?, isSpace c = false) →
      (blanks ++ rest).dropWhile isSpace = rest :=
    fun rest hrest => dropWhile_append_of_head hblanks hrest
  unfold scan
  cases negative with
  | true =>
      rw [if_pos rfl] at hsign
      subst hsign
      rw [hskip _ (by simp [isSpace, minus])]
      simp only [List.singleton_append, takeSign, if_true, htake]
  | false =>
      rw [if_neg Bool.false_ne_true] at hsign
      rcases hsign with rfl | rfl
      · rw [List.nil_append, hskip _ (by simp [not_isSpace_of_isDigit hd])]
        have hsigns := sign_ne_of_isDigit hd
        simp only [List.cons_append, takeSign, if_neg hsigns.1, if_neg hsigns.2]
        rw [← List.cons_append, htake]
      · rw [hskip _ (by simp [isSpace, plus])]
        simp only [List.singleton_append, takeSign, if_neg (show plus ≠ minus by decide),
          if_true, htake]

theorem takeSign_split (text : Text) :
    ∃ sign, text = sign ++ (takeSign text).2 ∧
      if (takeSign text).1 then sign = [minus] else sign = [] ∨ sign = [plus] := by
  cases text with
  | nil => exact ⟨[], rfl, .inl rfl⟩
  | cons c text =>
      simp only [takeSign]
      split
      case isTrue hc => exact ⟨[minus], by rw [hc]; rfl, rfl⟩
      case isFalse =>
          split
          case isTrue hc => exact ⟨[plus], by rw [hc]; rfl, .inr rfl⟩
          case isFalse => exact ⟨[], rfl, .inl rfl⟩

theorem beginsWith_of_scan
    {text digits : Text} {negative : Bool} (hscan : scan text = (negative, digits))
    (hne : digits ≠ []) : BeginsWith text negative digits := by
  unfold scan at hscan
  obtain ⟨rfl, rfl⟩ := Prod.mk.inj hscan
  obtain ⟨sign, hsplit, hsign⟩ := takeSign_split (text.dropWhile isSpace)
  constructor
  case split =>
      refine ⟨text.takeWhile isSpace, sign,
        (takeSign (text.dropWhile isSpace)).2.dropWhile isDigit, ?_, ?_, hsign, ?_⟩
      · rw [List.takeWhile_append_dropWhile, ← hsplit, List.takeWhile_append_dropWhile]
      · exact fun c hc => List.mem_takeWhile_imp hc
      · intro c hc
        have hhead := List.head?_dropWhile_not isDigit
          (takeSign (text.dropWhile isSpace)).2
        rw [Option.mem_def.mp hc] at hhead
        exact hhead
  case ne_nil => exact hne
  case all_digits => exact fun c hc => List.mem_takeWhile_imp hc

/-- Scanning a text finds the numeral that it begins with. -/
theorem scan_eq_iff {text digits : Text} {negative : Bool} (hne : digits ≠ []) :
    scan text = (negative, digits) ↔ BeginsWith text negative digits :=
  ⟨fun hscan => beginsWith_of_scan hscan hne, scan_of_beginsWith⟩

/-! ## Printing -/

/-- The number without leading zeros. -/
def print (n : ℕ) : Text :=
  if n < 10 then [UInt8.ofNat (48 + n)]
  else print (n / 10) ++ [UInt8.ofNat (48 + n % 10)]
termination_by n

theorem toNat_digit {n : ℕ} (hn : n < 10) : (UInt8.ofNat (48 + n)).toNat = 48 + n := by
  rw [UInt8.toNat_ofNat']
  omega

theorem isDigit_digit {n : ℕ} (hn : n < 10) : isDigit (UInt8.ofNat (48 + n)) = true := by
  have htoNat := toNat_digit hn
  unfold isDigit
  rw [Bool.and_eq_true, decide_eq_true_eq, decide_eq_true_eq, UInt8.le_iff_toNat_le,
    UInt8.le_iff_toNat_le, htoNat]
  change 48 ≤ 48 + n ∧ 48 + n ≤ 57
  omega

theorem value_append_singleton (digits : Text) (c : UInt8) :
    value (digits ++ [c]) = 10 * value digits + (c.toNat - 48) := by
  simp [value, List.foldl_append]

theorem print_ne_nil (n : ℕ) : print n ≠ [] := by
  rw [print]
  split <;> simp

theorem isDigit_of_mem_print {n : ℕ} {c : UInt8} (hc : c ∈ print n) :
    isDigit c = true := by
  induction n using Nat.strongRecOn generalizing c with
  | _ n ih =>
      rw [print] at hc
      split at hc
      case isTrue hn =>
          rw [List.mem_singleton.mp hc]
          exact isDigit_digit hn
      case isFalse hn =>
          rcases List.mem_append.mp hc with hc | hc
          · exact ih (n / 10) (by omega) hc
          · rw [List.mem_singleton.mp hc]
            exact isDigit_digit (Nat.mod_lt n (by omega))

/-- A printed number is read back. -/
theorem value_print (n : ℕ) : value (print n) = n := by
  induction n using Nat.strongRecOn with
  | _ n ih =>
      rw [print]
      split
      case isTrue hn =>
          change 10 * 0 + ((UInt8.ofNat (48 + n)).toNat - 48) = n
          rw [toNat_digit hn]
          omega
      case isFalse hn =>
          rw [value_append_singleton, ih (n / 10) (by omega),
            toNat_digit (Nat.mod_lt n (by omega))]
          omega

theorem beginsWith_print (n : ℕ) : BeginsWith (print n) false (print n) := by
  constructor
  case split => exact ⟨[], [], [], by simp, by simp, .inl rfl, by simp⟩
  case ne_nil => exact print_ne_nil n
  case all_digits => exact fun c hc => isDigit_of_mem_print hc

end Decimal
end Eecs482
