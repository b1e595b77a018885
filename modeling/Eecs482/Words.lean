import Mathlib.Data.List.TakeWhile

/-!
# Words of a text

A text is cut into words at its breaks.  Leading, trailing and repeated breaks
delimit no word.  A text with no more breaks than its words need is those words
with single breaks between them.
-/

namespace Eecs482

variable {α : Type}

/-- The non-empty pieces of a text between breaks. -/
def words (isBreak : α → Bool) (text : List α) : List (List α) :=
  (text.splitOnP isBreak).filter fun piece => !piece.isEmpty

namespace Words

variable {isBreak : α → Bool}

@[simp] theorem words_nil : words isBreak [] = [] := rfl

theorem words_append_break
    {c : α} (hc : isBreak c = true) (text rest : List α) :
    words isBreak (text ++ c :: rest) = words isBreak text ++ words isBreak rest := by
  unfold words
  rw [List.splitOnP_append_cons text rest hc, List.filter_append]

theorem words_cons_break
    {c : α} (hc : isBreak c = true) (rest : List α) :
    words isBreak (c :: rest) = words isBreak rest :=
  words_append_break hc [] rest

theorem words_singleton
    {word : List α} (hword : word ≠ []) (hbreak : ∀ c ∈ word, isBreak c = false) :
    words isBreak word = [word] := by
  rw [words, List.splitOnP_eq_singleton hbreak]
  simpa using hword

theorem words_dropWhile (text : List α) :
    words isBreak (text.dropWhile isBreak) = words isBreak text := by
  induction text with
  | nil => rfl
  | cons c rest ih =>
      cases hc : isBreak c with
      | false => simp [hc]
      | true => simp [hc, ih, words_cons_break hc]

/-- The word at the front of a text, up to the first break. -/
theorem words_eq_cons
    {text : List α} (hnil : text ≠ [])
    (hhead : ∀ c ∈ text.head?, isBreak c = false) :
    words isBreak text =
      text.takeWhile (fun c => !isBreak c) ::
        words isBreak (text.dropWhile fun c => !isBreak c) := by
  obtain ⟨c, rest, rfl⟩ := List.exists_cons_of_ne_nil hnil
  have hc : isBreak c = false := hhead c (by simp)
  have hne : (c :: rest).takeWhile (fun c => !isBreak c) ≠ [] := by simp [hc]
  have hfree : ∀ d ∈ (c :: rest).takeWhile (fun c => !isBreak c),
      isBreak d = false := by
    intro d hd
    simpa using List.mem_takeWhile_imp hd
  have hsplit := List.takeWhile_append_dropWhile
    (p := fun c => !isBreak c) (l := c :: rest)
  cases hrest : (c :: rest).dropWhile fun c => !isBreak c with
  | nil =>
      rw [hrest, List.append_nil] at hsplit
      rw [hsplit] at hne hfree ⊢
      exact words_singleton hne hfree
  | cons d tail =>
      have hd : isBreak d = true := by
        have hhead := List.head?_dropWhile_not (fun c => !isBreak c) (c :: rest)
        simpa [hrest] using hhead
      rw [hrest] at hsplit
      rw [← hsplit, words_append_break hd, words_singleton hne hfree,
        words_cons_break hd, hsplit]
      rfl

theorem not_isBreak_of_mem_splitOnP
    {text piece : List α} (hpiece : piece ∈ text.splitOnP isBreak) :
    ∀ c ∈ piece, isBreak c = false := by
  induction text generalizing piece with
  | nil =>
      obtain rfl : piece = [] := by simpa using hpiece
      simp
  | cons c rest ih =>
      rw [List.splitOnP_cons_eq_if_modifyHead] at hpiece
      cases hc : isBreak c with
      | true =>
          rw [if_pos hc] at hpiece
          rcases List.mem_cons.mp hpiece with rfl | hpiece
          · simp
          · exact ih hpiece
      | false =>
          rw [if_neg (by simp [hc])] at hpiece
          obtain ⟨first, tail, hsplit⟩ :=
            List.exists_cons_of_ne_nil (List.splitOnP_ne_nil isBreak rest)
          rw [hsplit, List.modifyHead_cons] at hpiece
          rcases List.mem_cons.mp hpiece with rfl | hpiece
          · intro d hd
            rcases List.mem_cons.mp hd with rfl | hd
            · exact hc
            · exact ih (by simp [hsplit]) d hd
          · exact ih (by simp [hsplit, hpiece])

theorem not_isBreak_of_mem_words
    {text word : List α} (hword : word ∈ words isBreak text) :
    ∀ c ∈ word, isBreak c = false :=
  not_isBreak_of_mem_splitOnP (List.mem_filter.mp hword).1

/-! ## Printing words -/

variable {sep : α}

/-- Words printed with single separators are read back. -/
theorem words_intercalate
    (hsep : isBreak sep = true) {list : List (List α)}
    (hne : ∀ word ∈ list, word ≠ [])
    (hfree : ∀ word ∈ list, ∀ c ∈ word, isBreak c = false) :
    words isBreak ([sep].intercalate list) = list := by
  induction list with
  | nil => rfl
  | cons word rest ih =>
      have hword := words_singleton (hne word (by simp)) (hfree word (by simp))
      cases rest with
      | nil => simpa using hword
      | cons next rest =>
          have htail := ih (fun w hw => hne w (List.mem_cons_of_mem _ hw))
            (fun w hw => hfree w (List.mem_cons_of_mem _ hw))
          rw [List.intercalate_cons_cons, List.append_assoc, List.singleton_append,
            words_append_break hsep, hword, htail]
          rfl

theorem mem_intercalate
    {list : List (List α)} {c : α} (hc : c ∈ [sep].intercalate list) :
    c = sep ∨ ∃ word ∈ list, c ∈ word := by
  induction list with
  | nil => simp at hc
  | cons word rest ih =>
      cases rest with
      | nil => exact Or.inr ⟨word, by simp, by simpa using hc⟩
      | cons next rest =>
          rw [List.intercalate_cons_cons, List.mem_append, List.mem_append,
            List.mem_singleton] at hc
          rcases hc with (hc | hc) | hc
          · exact Or.inr ⟨word, by simp, hc⟩
          · exact Or.inl hc
          · rcases ih hc with hc | ⟨found, hfound, hmem⟩
            · exact Or.inl hc
            · exact Or.inr ⟨found, List.mem_cons_of_mem _ hfound, hmem⟩

theorem length_splitOnP (text : List α) :
    (text.splitOnP isBreak).length = text.countP isBreak + 1 := by
  induction text with
  | nil => rfl
  | cons c rest ih =>
      rw [List.splitOnP_cons_eq_if_modifyHead]
      cases hc : isBreak c with
      | false => simp [hc, ih]
      | true => simp [hc, ih]

theorem length_words_le (text : List α) :
    (words isBreak text).length ≤ text.countP isBreak + 1 := by
  rw [← length_splitOnP]
  exact List.length_filter_le _ _

theorem splitOnP_eq_splitOn
    [DecidableEq α] (hsep : isBreak sep = true) {text : List α}
    (honly : ∀ c ∈ text, isBreak c = true → c = sep) :
    text.splitOnP isBreak = text.splitOn sep := by
  induction text with
  | nil => rfl
  | cons c rest ih =>
      have hrest := ih fun d hd => honly d (List.mem_cons_of_mem _ hd)
      have hc : isBreak c = (c == sep) := by
        cases hbreak : isBreak c with
        | true => simp [honly c (by simp) hbreak]
        | false =>
            symm
            simp only [beq_eq_false_iff_ne, ne_eq]
            rintro rfl
            simp [hsep] at hbreak
      rw [List.splitOnP_cons_eq_if_modifyHead, List.splitOn_cons_eq_if_modifyHead,
        hrest, hc]

/-- A text whose breaks are all separators, and no more of them than its words
need, is its words with single separators. -/
theorem eq_intercalate_words
    [DecidableEq α] (hsep : isBreak sep = true) {text : List α}
    (honly : ∀ c ∈ text, isBreak c = true → c = sep)
    (hcount : text.countP isBreak + 1 ≤ (words isBreak text).length) :
    text = [sep].intercalate (words isBreak text) := by
  have hall : words isBreak text = text.splitOnP isBreak := by
    rw [words, List.filter_eq_self]
    have hle := List.length_filter_le (fun piece => !piece.isEmpty)
      (text.splitOnP isBreak)
    rw [← length_splitOnP] at hcount
    exact List.length_filter_eq_length_iff.mp (Nat.le_antisymm hle hcount)
  rw [hall, splitOnP_eq_splitOn hsep honly, List.intercalate_splitOn]

theorem countP_intercalate
    (hsep : isBreak sep = true) {list : List (List α)} (hlist : list ≠ [])
    (hfree : ∀ word ∈ list, ∀ c ∈ word, isBreak c = false) :
    ([sep].intercalate list).countP isBreak + 1 = list.length := by
  induction list with
  | nil => exact absurd rfl hlist
  | cons word rest ih =>
      have hword : word.countP isBreak = 0 := by
        rw [List.countP_eq_zero]
        intro c hc
        simp [hfree word (by simp) c hc]
      cases rest with
      | nil => simp [hword]
      | cons next rest =>
          have htail := ih (by simp) fun w hw => hfree w (List.mem_cons_of_mem _ hw)
          rw [List.intercalate_cons_cons]
          simp only [List.countP_append, List.countP_singleton, hsep, if_true, hword,
            List.length_cons] at htail ⊢
          omega

end Words
end Eecs482
