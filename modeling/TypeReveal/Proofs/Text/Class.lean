import TypeReveal.Text.Basic
import TypeReveal.Text.Letter

/-!
# Classes of characters

Which characters cannot be which.  The classes are given by code points (`isDigit_iff`,
`isAlpha_iff`), and the tables of letters and numerals hold no blank character
(`isBlank_of_isNamePart`).  Nor does a name hold any `punctuation`, so that what stands in a name is
neither blank nor a separator.
-/

set_option autoImplicit false
namespace TypeReveal

/-- What is said of all characters of a list is decided one by one, also where the characters
themselves could be enumerated. -/
instance (priority := high) decidableForallMemChar {p : Char → Prop} [DecidablePred p]
    (cs : List Char) : Decidable (∀ c ∈ cs, p c) :=
  List.decidableBAll p cs

/-! ## ASCII -/

theorem isDigit_iff {c : Char} : c.isDigit = true ↔ 48 ≤ c.toNat ∧ c.toNat ≤ 57 := by
  simp [Char.isDigit, UInt32.le_iff_toNat_le, ← Char.toNat_val]

theorem isAlpha_iff {c : Char} :
    c.isAlpha = true ↔ (65 ≤ c.toNat ∧ c.toNat ≤ 90) ∨ (97 ≤ c.toNat ∧ c.toNat ≤ 122) := by
  have hdef : c.isAlpha =
      (decide (c.val ≥ 65 ∧ c.val ≤ 90) || (decide (c.val ≥ 97) && decide (c.val ≤ 122))) := rfl
  rw [hdef]
  simp [UInt32.le_iff_toNat_le, ← Char.toNat_val]

theorem isWordStart_of_isDigit {c : Char} (h : c.isDigit = true) : isWordStart c = false := by
  have hc := isDigit_iff.1 h
  have halpha : c.isAlpha = false := by
    rw [Bool.eq_false_iff, Ne, isAlpha_iff]
    omega
  have hscore : c ≠ '_' := by rintro rfl; exact absurd h (by decide)
  simp [isWordStart, halpha, hscore]

/-! ## Names -/

/-- The ranges of the blank characters beyond ASCII. -/
def blankRanges : List (Nat × Nat) :=
  [(0x85, 0x85), (0xa0, 0xa0), (0x1680, 0x1680), (0x2000, 0x200a), (0x2028, 0x2029),
    (0x202f, 0x202f), (0x205f, 0x205f), (0x3000, 0x3000)]

theorem exists_of_inRanges {table : List (Nat × Nat)} {c : Char} (h : inRanges table c = true) :
    ∃ range ∈ table, range.1 ≤ c.toNat ∧ c.toNat ≤ range.2 := by
  simpa [inRanges] using h

theorem inRanges_blankRanges {c : Char} (h : isBlank c = true) (hc : 0x80 ≤ c.toNat) :
    inRanges blankRanges c = true := by
  simp only [isBlank, Bool.or_eq_true, Bool.and_eq_true, decide_eq_true_eq, beq_iff_eq] at h
  simp only [inRanges, blankRanges, List.any_cons, List.any_nil, Bool.or_eq_true,
    Bool.and_eq_true, decide_eq_true_eq, Bool.or_false]
  omega

/-- The tables of letters and numerals leave out the blank characters. -/
theorem tables_apart_blankRanges :
    ((alphabeticRanges ++ numericRanges).all fun range =>
      blankRanges.all fun blank => Nat.blt blank.2 range.1 || Nat.blt range.2 blank.1) = true := by
  decide +kernel

theorem not_inRanges_of_isBlank {c : Char} (h : isBlank c = true) (hc : 0x80 ≤ c.toNat)
    {table : List (Nat × Nat)} (htable : table ⊆ alphabeticRanges ++ numericRanges) :
    inRanges table c = false := by
  rw [Bool.eq_false_iff]
  intro hin
  obtain ⟨blank, hblank, hlo, hhi⟩ := exists_of_inRanges (inRanges_blankRanges h hc)
  obtain ⟨range, hrange, hlo', hhi'⟩ := exists_of_inRanges hin
  have hapart := List.all_eq_true.1
    (List.all_eq_true.1 tables_apart_blankRanges range (htable hrange)) blank hblank
  simp only [Bool.or_eq_true, Nat.blt_eq] at hapart
  omega

/-- A name has no blank characters. -/
theorem isBlank_of_isNamePart {c : Char} (h : isNamePart c = true) : isBlank c = false := by
  rw [Bool.eq_false_iff]
  intro hblank
  simp only [isNamePart, isLetter, isNumeral, Bool.or_eq_true, beq_iff_eq] at h
  have hascii : 0x80 ≤ c.toNat ∨ c.toNat ≤ 0x20 := by
    simp only [isBlank, Bool.or_eq_true, Bool.and_eq_true, decide_eq_true_eq, beq_iff_eq] at hblank
    omega
  rcases h with (h | h) | rfl
  · split at h
    · have := isAlpha_iff.1 h
      omega
    · rw [not_inRanges_of_isBlank hblank (by omega) (List.subset_append_left _ _)] at h
      cases h
  · split at h
    · have := isDigit_iff.1 h
      omega
    · rw [not_inRanges_of_isBlank hblank (by omega) (List.subset_append_right _ _)] at h
      cases h
  · revert hblank
    decide

theorem isNamePart_of_isNameStart {c : Char} (h : isNameStart c = true) :
    isNamePart c = true := by
  rw [isNameStart, Bool.or_eq_true] at h
  rw [isNamePart, Bool.or_eq_true, Bool.or_eq_true]
  exact h.imp_left .inl

/-- A name is not empty and has only characters of names. -/
theorem isNamePart_of_isName {name : List Char} (h : isName name = true) :
    name ≠ [] ∧ ∀ c ∈ name, isNamePart c = true := by
  cases name with
  | nil => simp [isName] at h
  | cons c rest =>
    rw [isName, Bool.and_eq_true, List.all_eq_true] at h
    refine ⟨List.cons_ne_nil _ _, fun d hd => ?_⟩
    rcases List.mem_cons.1 hd with rfl | hd
    · exact isNamePart_of_isNameStart h.1
    · exact h.2 d hd

/-- The characters with a meaning of their own between names. -/
def punctuation : List Char :=
  ['(', ')', '[', ']', '\x7b', '\x7d', '"', '\'', '#', ',', ':', '=', '\n', '.', '*', '@', ' ', '-']

theorem isNamePart_of_mem_punctuation {c : Char} (h : c ∈ punctuation) : isNamePart c = false :=
  (by decide : ∀ c ∈ punctuation, isNamePart c = false) c h

theorem not_mem_of_isNamePart {c : Char} (h : isNamePart c = true) {marks : List Char}
    (hmarks : marks ⊆ punctuation) : c ∉ marks := by
  intro hc
  rw [isNamePart_of_mem_punctuation (hmarks hc)] at h
  cases h

theorem not_mem_of_isName {name : List Char} (h : isName name = true) {c : Char}
    (hc : c ∈ punctuation) : c ∉ name := by
  intro hmem
  have hpart := (isNamePart_of_isName h).2 c hmem
  rw [isNamePart_of_mem_punctuation hc] at hpart
  cases hpart

/-- The words of expressions are made of characters of names. -/
theorem isNamePart_of_isWordPart {c : Char} (h : isWordPart c = true) : isNamePart c = true := by
  simp only [isWordPart, Char.isAlphanum, Bool.or_eq_true] at h
  simp only [isNamePart, isLetter, isNumeral, Bool.or_eq_true]
  rcases h with (h | h) | h
  · have := isAlpha_iff.1 h
    rw [if_pos (by omega)]
    exact .inl (.inl h)
  · have := isDigit_iff.1 h
    rw [if_pos (by omega), if_pos (by omega)]
    exact .inl (.inr h)
  · exact .inr h

theorem isNamePart_of_isDigit {c : Char} (h : c.isDigit = true) : isNamePart c = true := by
  refine isNamePart_of_isWordPart ?_
  rw [isWordPart, Char.isAlphanum, h, Bool.or_true, Bool.true_or]

end TypeReveal
