import TypeReveal.Careful.Lowering
import TypeReveal.Proofs.Expr.Pieces

/-!
# Tokens are lowered

A token of a text is lowered from the text at its span (`Lexeme.isOf_of_mem`): a word is that text,
a number is read from it once more, and a string stands between its quotes.

The reader of expressions without care takes numbers and texts from its tokens, and lowering takes
them from the text at the span of a pair.  Both come to the same, as a token was made from that very
text.  What has to be checked are numbers, which are read a second time from their digits, and
strings, whose content is what stands between the quotes.
-/

set_option autoImplicit false
namespace TypeReveal

open Careful Reader

/-- **A token of a segment**: if it is an operand, its pair is lowered to the operand, and if it is
a word, it is the word that stands there. -/
structure Lexeme.IsOf (seg : Segment) (l : Lexeme) : Prop where
  operand : ∀ e, l.token.operand? l.span = some e →
    ∃ p, tokenPair? seg l = some p ∧ lower p = .ok e
  word : ∀ text, l.token = .word text → String.ofList (textAt seg l.span) = text

section

variable {seg : Segment} {l : Lexeme} {c quote : Char} {cs rest body text sign : List Char}
  {t : Token} {n : Nat} {span : Span}

/-! ## Numbers

Digits with or without a sign and a point.  With a point the number is kept as it is written;
without one its value is computed from the digits. -/

theorem number_of_point (h : '.' ∈ text) (span : Span) :
    number span text = .float span (String.ofList text) := by
  rw [number]
  split
  · rw [if_pos h]
  · rfl

/-- Digits are read as the number that they write. -/
theorem natural?_eq (hne : text ≠ []) (h : text.all Char.isDigit = true) :
    natural? text = some (digitsValue text) := by
  rw [natural?, h, List.isEmpty_eq_false_iff.2 hne]
  rfl

theorem not_point_of_digits (h : text.all Char.isDigit = true) : '.' ∉ text := by
  intro hmem
  have hdigit := List.all_eq_true.1 h '.' hmem
  exact absurd hdigit (by decide)

/-- **Digits, with a minus or without**, are read as the number that they write. -/
theorem number_of_digits (hne : text ≠ []) (h : text.all Char.isDigit = true) (span : Span) :
    number span text = .int span (digitsValue text) ∧
      number span ('-' :: text) = .int span (-digitsValue text) := by
  have hpoint := not_point_of_digits h
  have hminus : ∀ rest, text ≠ '-' :: rest := by
    rintro rest rfl
    exact absurd (List.all_eq_true.1 h '-' List.mem_cons_self) (by decide)
  have hplain : integer? text = some (digitsValue text : Int) := by
    rw [integer?.eq_def]
    split
    · exact absurd rfl (hminus _)
    · rw [natural?_eq hne h]
      rfl
  constructor
  · rw [number, hplain]
    exact if_neg hpoint
  · rw [number, integer?, natural?_eq hne h]
    exact if_neg (by simpa using hpoint)

/-- **A number** is read from its text once more. -/
theorem WritesNumber.operand? {after : List Char} (hsign : sign = [] ∨ sign = ['-'])
    (h : WritesNumber sign text after t) (span : Span) :
    t.operand? span = some (number span (sign ++ text)) := by
  cases h with
  | int hne hdigits =>
    obtain ⟨hplain, hminus⟩ := number_of_digits hne (List.all_eq_true.2 hdigits) span
    rcases hsign with rfl | rfl
    · exact congrArg some hplain.symm
    · exact congrArg some hminus.symm
  | float =>
    rw [← List.append_assoc, number_of_point (by simp)]
    rfl

/-! ## Tokens

One lemma for each kind of operand.  Signs, brackets, commas and dots have nothing to lower.  Junk
is no token of any expression, so a text in which there is junk is left out. -/

/-- A number is lowered from its text, the sign included. -/
theorem isOf_number (hsign : sign = [] ∨ sign = ['-'])
    (h : number? sign rest = some (t, rest.length)) (htext : textAt seg span = sign ++ rest) :
    Lexeme.IsOf seg ⟨t, span⟩ := by
  obtain ⟨s, after, hrest, hlength, hs⟩ := number?_eq_some_iff.1 h
  obtain rfl : s = rest := List.IsPrefix.eq_of_length ⟨after, hrest.symm⟩ hlength
  have hlower : lower ⟨.number, span, textAt seg span, []⟩ = .ok (number span (sign ++ s)) := by
    rw [lower, htext]
    rfl
  have hpair : tokenPair? seg ⟨t, span⟩ = some ⟨.number, span, textAt seg span, []⟩ ∧
      ∀ text, t ≠ .word text := by
    cases hs <;> exact ⟨rfl, nofun⟩
  refine ⟨fun e he => ⟨_, hpair.1, ?_⟩, fun text ht => absurd ht (hpair.2 text)⟩
  rw [hlower, ← Option.some.inj ((hs.operand? hsign span).symm.trans he)]

/-- A string is lowered from what stands between its quotes. -/
theorem isOf_string (h : stringBody? quote cs = some body) (hlength : body.length + 1 = cs.length)
    (htext : textAt seg span = quote :: cs) :
    Lexeme.IsOf seg ⟨.str (String.ofList (unescape body)), span⟩ := by
  have hcs : body ++ [quote] = cs := (prefix_of_stringBody? h).eq_of_length (by simpa using hlength)
  refine ⟨fun e he => ⟨stringPair seg span, rfl, ?_⟩, fun text ht => by cases ht⟩
  cases he
  rw [stringPair, htext, List.tail_cons, ← hcs, List.dropLast_concat]
  split <;> rw [lower] <;> rfl

/-- A token that is no operand and no word. -/
theorem isOf_of_operand?_eq_none (h : t.operand? span = none) (hword : ∀ text, t ≠ .word text) :
    Lexeme.IsOf seg ⟨t, span⟩ := by
  refine ⟨fun e he => ?_, fun text ht => absurd ht (hword text)⟩
  cases h.symm.trans he

theorem isOf_word {word : String} (htext : String.ofList (textAt seg span) = word) :
    Lexeme.IsOf seg ⟨.word word, span⟩ := by
  refine ⟨fun e he => ?_, fun word' hword => ?_⟩
  · by_cases htrue : word = "True"
    · subst htrue
      cases he
      exact ⟨_, rfl, by rw [lower]; rfl⟩
    by_cases hfalse : word = "False"
    · subst hfalse
      cases he
      exact ⟨_, rfl, by rw [lower]; rfl⟩
    by_cases hnone : word = "None"
    · subst hnone
      cases he
      exact ⟨_, rfl, by rw [lower]; rfl⟩
    simp only [Token.operand?] at he
    cases he
    refine ⟨_, by simp only [tokenPair?]; rfl, ?_⟩
    rw [lower, htext]
    rfl
  · cases hword
    exact htext

/-- A token that is all of a text is lowered from it. -/
theorem isOf_of_token? (h : token? c cs = some (t, cs.length))
    (htext : textAt seg span = c :: cs) : Lexeme.IsOf seg ⟨t, span⟩ := by
  generalize hn : cs.length = n at h
  cases token?_eq_some_iff.1 h with
  | mark hmark => cases hmark <;> exact isOf_of_operand?_eq_none rfl nofun
  | dot => exact isOf_of_operand?_eq_none rfl nofun
  | ellipsis =>
    refine ⟨fun e he => ⟨_, rfl, ?_⟩, nofun⟩
    cases he
    rw [lower]
    rfl
  | str _ hbody => exact isOf_string hbody hn.symm htext
  | word =>
    rw [(List.takeWhile_prefix _).eq_of_length hn.symm]
    exact isOf_word (congrArg String.ofList htext)
  | negative hc hnumber =>
    subst hn hc
    exact isOf_number (.inr rfl) hnumber htext
  | number _ hnumber =>
    subst hn
    exact isOf_number (.inl rfl) hnumber htext

/-- **The tokens of a segment** are lowered from it, if there is no junk among them.  A token is
found at the start of the rest of the text, so the text at its span is just what the token was made
from. -/
theorem Lexeme.isOf_of_mem (hjunk : ∀ l ∈ lexemes seg.start seg.text, l.token ≠ .junk)
    (hl : l ∈ lexemes seg.start seg.text) : l.IsOf seg := by
  obtain ⟨before, c, cs, after, htext, hspan, htoken⟩ :=
    (lexed_of_lexemes seg.start seg.text hjunk).exists_token hl
  obtain ⟨t, span⟩ := l
  obtain rfl : span = _ := hspan
  refine isOf_of_token? htoken ?_
  have hslice := byteSlice?_append before (c :: cs) after
  rw [← htext] at hslice
  simp only [textAt, Nat.add_assoc, Nat.add_sub_cancel_left]
  rw [hslice]
  rfl

end
end TypeReveal
