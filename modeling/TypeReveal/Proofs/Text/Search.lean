import Mathlib.Data.List.Infix
import TypeReveal.Text.Basic

/-!
# Finding a part of a text

The first occurrence of a part is found where it stands (`indexOf?_append`), also if characters of
the part stand before it, as long as no occurrence does (`indexOf?_of_not_infix`).  A text is cut at
a part if it has it (`isSome_splitAt?_iff`), and before the cut it does not have it
(`not_infix_of_splitAt?`).  The parts between occurrences of a character are those of the library
(`splitOn_eq_splitOn`).

The search goes from character to character and compares the part with the start of what is left.
So what it finds is the first occurrence, and the lemmas that find the part behind some text need
that no earlier one reaches into it.  For a part with a character that the text in front does not
have this is plain; in general it takes that the part does not overlap with itself, and it suffices
that its first character does not occur again in it.
-/

set_option autoImplicit false
namespace TypeReveal

variable {part text rest before after : List Char}

/-- A part with a character that the text does not have is not found. -/
theorem indexOf?_eq_none {c : Char} (hc : c ∈ part) (htext : c ∉ text) :
    indexOf? part text = none := by
  induction text with
  | nil => simp [indexOf?, List.ne_nil_of_mem hc]
  | cons d text ih =>
    have hprefix : ¬ part.isPrefixOf (d :: text) = true :=
      fun h => htext ((List.isPrefixOf_iff_prefix.1 h).subset hc)
    rw [indexOf?, if_neg hprefix, ih fun h => htext (List.mem_cons_of_mem _ h), Option.map_none]

/-- A part is found behind a text that does not have its first character. -/
theorem indexOf?_append {c : Char} (htext : c ∉ text) :
    indexOf? (c :: part) (text ++ (c :: part ++ rest)) = some text.length := by
  induction text with
  | nil => simp [indexOf?]
  | cons d text ih =>
    have hprefix : ¬ (c :: part).isPrefixOf (d :: (text ++ (c :: part ++ rest))) = true := by
      rw [List.isPrefixOf_cons_cons, Bool.and_eq_true, beq_iff_eq]
      exact fun h => htext (h.1 ▸ List.mem_cons_self)
    rw [List.cons_append, indexOf?, if_neg hprefix, ih fun h => htext (List.mem_cons_of_mem _ h)]
    rfl

/-- **The first occurrence** of a part that does not overlap with itself. -/
theorem indexOf?_of_not_infix {c : Char} (hc : c ∉ part) (h : ¬ c :: part <:+: text)
    (rest : List Char) : indexOf? (c :: part) (text ++ (c :: part ++ rest)) = some text.length := by
  induction text with
  | nil => simp [indexOf?]
  | cons d text ih =>
    have hprefix : ¬ (c :: part).isPrefixOf (d :: (text ++ (c :: part ++ rest))) = true := by
      intro hprefix
      obtain ⟨rfl, hpart⟩ := List.cons_prefix_cons.1 (List.isPrefixOf_iff_prefix.1 hprefix)
      have hinside : ¬ part <+: text := fun hin => h ((List.prefix_cons_inj c).2 hin).isInfix
      obtain ⟨more, hmore⟩ := hpart
      rcases List.append_eq_append_iff.1 hmore with ⟨beyond, rfl, -⟩ | ⟨beyond, rfl, hbeyond⟩
      · exact hinside (List.prefix_append part beyond)
      · cases beyond with
        | nil => exact hinside (by simp)
        | cons e beyond =>
          obtain rfl : c = e := (List.cons.inj hbeyond).1
          exact hc (by simp)
    have htext : ¬ c :: part <:+: text := fun hin =>
      h (hin.trans (List.suffix_cons d text).isInfix)
    rw [List.cons_append, indexOf?, if_neg hprefix, ih htext]
    rfl

/-- A part is found in a text where it stands in it. -/
theorem isSome_indexOf?_iff : (indexOf? part text).isSome = true ↔ part <:+: text := by
  induction text with
  | nil => simp [indexOf?]
  | cons c text ih =>
    rw [indexOf?, List.infix_cons_iff, ← List.isPrefixOf_iff_prefix]
    split
    · next hstart => simp [hstart]
    · next hstart => rw [Option.isSome_map, ih, or_iff_right hstart]

/-- Before the first occurrence of a part there is none. -/
theorem not_infix_of_indexOf? (hpart : part ≠ [])
    (h : indexOf? part (before ++ rest) = some before.length) : ¬ part <:+: before := by
  induction before with
  | nil => exact fun hin => hpart (List.infix_nil.1 hin)
  | cons c before ih =>
    rw [List.cons_append, indexOf?] at h
    split at h
    · cases h
    · next hprefix =>
      obtain ⟨n, hn, hlength⟩ := Option.map_eq_some_iff.1 h
      rw [List.length_cons, Nat.add_right_cancel_iff] at hlength
      intro hin
      rcases List.infix_cons_iff.1 hin with hstart | hin
      · exact hprefix (List.isPrefixOf_iff_prefix.2 (hstart.trans (List.prefix_append _ _)))
      · exact ih (hlength ▸ hn) hin

/-- What a text starts with stands before any character that it does not have. -/
theorem prefix_of_prefix_append_cons {c : Char} (hc : c ∉ part)
    (h : part <+: before ++ c :: after) : part <+: before := by
  rcases Nat.lt_or_ge before.length part.length with hlt | hle
  · have hbefore : before ++ [c] <+: before ++ c :: after :=
      (List.prefix_append_right_inj before).2 (List.prefix_append [c] after)
    have hin := List.prefix_of_prefix_length_le hbefore h (by simpa [Nat.succ_le_iff] using hlt)
    exact absurd (hin.subset (by simp)) hc
  · exact List.prefix_of_prefix_length_le h (List.prefix_append _ _) hle

/-- A part without a character stands on one side of it. -/
theorem infix_append_cons {c : Char} (hc : c ∉ part) (h : part <:+: before ++ c :: after) :
    part <:+: before ∨ part <:+: after := by
  obtain ⟨front, back, heq⟩ := h
  rcases List.append_eq_append_iff.1 heq with ⟨beyond, rfl, -⟩ | ⟨beyond, hfront, hafter⟩
  · exact .inl ⟨front, beyond, rfl⟩
  · cases beyond with
    | nil => exact .inl ⟨front, [], by simpa using hfront⟩
    | cons d beyond =>
      obtain ⟨rfl, rfl⟩ := List.cons.inj hafter
      rcases List.append_eq_append_iff.1 hfront with ⟨inside, rfl, rfl⟩ | ⟨inside, rfl, hpart⟩
      · exact absurd (by simp) hc
      · cases inside with
        | nil => exact absurd (by simp [← show c :: beyond = part from hpart]) hc
        | cons e inside =>
          obtain ⟨rfl, rfl⟩ := List.cons.inj hpart
          exact .inr ⟨inside, back, rfl⟩

/-- What is found stands there. -/
theorem exists_of_indexOf? {n : Nat} (h : indexOf? part text = some n) :
    ∃ before after, text = before ++ (part ++ after) ∧ before.length = n := by
  fun_induction indexOf? part text generalizing n with
  | case1 hempty =>
    cases h
    exact ⟨[], [], by simpa using hempty, rfl⟩
  | case2 => cases h
  | case3 c rest hprefix =>
    cases h
    obtain ⟨after, hafter⟩ := List.isPrefixOf_iff_prefix.1 hprefix
    exact ⟨[], after, hafter.symm, rfl⟩
  | case4 c rest _ ih =>
    obtain ⟨k, hk, rfl⟩ := Option.map_eq_some_iff.1 h
    obtain ⟨before, after, hsplit, rfl⟩ := ih hk
    exact ⟨c :: before, after, congrArg (c :: ·) hsplit, rfl⟩

/-- What stands before and after a part is the text around it. -/
theorem eq_append_of_splitAt? (h : splitAt? part text = some (before, after)) :
    text = before ++ (part ++ after) := by
  obtain ⟨n, hn, heq⟩ := Option.map_eq_some_iff.1 h
  obtain ⟨before', after', rfl, rfl⟩ := exists_of_indexOf? hn
  cases heq
  simp

/-- A text is cut at a part just if it has it. -/
theorem isSome_splitAt?_iff : (splitAt? part text).isSome = true ↔ part <:+: text := by
  rw [splitAt?, Option.isSome_map, isSome_indexOf?_iff]

/-- **The cut is at the first occurrence** of the part. -/
theorem not_infix_of_splitAt? (hpart : part ≠ [])
    (h : splitAt? part text = some (before, after)) : ¬ part <:+: before := by
  have htext := eq_append_of_splitAt? h
  obtain ⟨n, hn, heq⟩ := Option.map_eq_some_iff.1 h
  obtain ⟨before', after', hsplit, rfl⟩ := exists_of_indexOf? hn
  obtain rfl : before' = before := by
    rw [hsplit, List.take_left] at heq
    exact (Prod.mk.inj heq).1
  rw [htext] at hn
  exact not_infix_of_indexOf? hpart hn

theorem splitAt?_of_indexOf? (h : indexOf? part (before ++ (part ++ after)) = some before.length) :
    splitAt? part (before ++ (part ++ after)) = some (before, after) := by
  rw [splitAt?, h]
  simp

/-- A start is taken off a text just if the text starts with it. -/
theorem dropStart?_eq_some {start : List Char} :
    dropStart? start text = some rest ↔ text = start ++ rest := by
  rw [dropStart?]
  constructor
  · intro h
    split at h
    · next hprefix =>
      obtain ⟨more, rfl⟩ := List.isPrefixOf_iff_prefix.1 hprefix
      simpa using h
    · cases h
  · rintro rfl
    simp

/-! ## Separators

A text is split at each occurrence of a character, and the pieces are one more than these. -/

variable {sep : Char}

theorem map_ofList_toList (names : List String) :
    (names.map String.toList).map String.ofList = names := by
  simp

theorem splitOn_eq_splitOn (text : List Char) : splitOn sep text = text.splitOn sep := by
  induction text with
  | nil => rfl
  | cons c text ih =>
    rw [splitOn, List.splitOn_cons_eq_if_modifyHead, ih]
    split
    · rfl
    · split
      · next hnil => exact absurd hnil (List.splitOn_ne_nil sep text)
      · next hparts => rw [hparts]; rfl

/-- Each character of a text is a separator or stands in one of the parts. -/
theorem exists_mem_splitOn {c : Char} (h : c ∈ text) :
    c = sep ∨ ∃ part ∈ text.splitOn sep, c ∈ part := by
  induction text with
  | nil => cases h
  | cons d text ih =>
    rw [List.splitOn_cons_eq_if_modifyHead]
    split
    · next hsep =>
      rcases List.mem_cons.1 h with rfl | h
      · exact .inl (beq_iff_eq.1 hsep)
      · refine (ih h).imp_right ?_
        rintro ⟨part, hpart, hc⟩
        exact ⟨part, List.mem_cons_of_mem _ hpart, hc⟩
    · obtain ⟨first, parts, hparts⟩ := List.exists_cons_of_ne_nil (List.splitOn_ne_nil sep text)
      rw [hparts] at ih ⊢
      rcases List.mem_cons.1 h with rfl | h
      · exact .inr ⟨_, List.mem_cons_self, List.mem_cons_self⟩
      · refine (ih h).imp_right ?_
        rintro ⟨part, hpart, hc⟩
        rcases List.mem_cons.1 hpart with rfl | hpart
        · exact ⟨_, List.mem_cons_self, List.mem_cons_of_mem _ hc⟩
        · exact ⟨part, List.mem_cons_of_mem _ hpart, hc⟩

theorem not_mem_of_mem_splitOn (h : part ∈ text.splitOn sep) : sep ∉ part := by
  induction text generalizing part with
  | nil =>
    obtain rfl := List.mem_singleton.1 h
    exact List.not_mem_nil
  | cons c text ih =>
    rw [List.splitOn_cons_eq_if_modifyHead] at h
    split at h
    · rcases List.mem_cons.1 h with rfl | h
      · exact List.not_mem_nil
      · exact ih h
    · next hc =>
      obtain ⟨first, parts, hparts⟩ := List.exists_cons_of_ne_nil (List.splitOn_ne_nil sep text)
      rw [hparts] at h ih
      rcases List.mem_cons.1 h with rfl | h
      · rw [List.mem_cons, not_or]
        exact ⟨fun heq => hc (beq_iff_eq.2 heq.symm), ih List.mem_cons_self⟩
      · exact ih (List.mem_cons_of_mem _ h)

end TypeReveal
