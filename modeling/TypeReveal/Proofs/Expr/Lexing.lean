import TypeReveal.Proofs.Expr.Print
import TypeReveal.Proofs.Expr.Token

/-!
# Tokens of a printing

Reading a printing token by token gives back the tokens that were printed: `map_token_lexemes`.

The token at the start of a text ends where it was meant to because the text after it is `Apart`: it
starts neither with a part of a word nor with a point.  Every gap is such a text, and gaps are
skipped as a whole (`lexemes_gap_append`).
-/

set_option autoImplicit false
namespace TypeReveal

/-! ## Texts after a token

Gaps start with a blank character or with a backslash, and so does everything that is printed behind
a word or a number that could be misread. -/

/-- Each piece of a gap stands apart from what is before it. -/
theorem apart_of_mem_gapUnits {u : List Char} (h : u ∈ gapUnits) (rest : List Char) :
    Apart (u ++ rest) := by
  simp only [gapUnits, List.mem_cons, List.not_mem_nil, or_false] at h
  rcases h with rfl | rfl | rfl | rfl | rfl <;> simp [Apart] <;> decide

theorem Gap.apart {gap : List Char} (h : Gap gap) (rest : List Char) : Apart (gap ++ rest) := by
  cases h with
  | unit h => exact apart_of_mem_gapUnits h rest
  | more h hgap => rw [List.append_assoc]; exact apart_of_mem_gapUnits h _

/-! ## Numbers

A number is printed as its decimal digits, with a sign if it is negative.  A number with a point is
printed as the text that it was written with. -/

/-- The parts of a number with a point and without a sign. -/
theorem exists_of_isUnsignedDecimal {text : List Char} (h : isUnsignedDecimal text = true) :
    ∃ digits fraction, digits ≠ [] ∧ (∀ c ∈ digits, c.isDigit = true) ∧
      (∀ c ∈ fraction, c.isDigit = true) ∧ text = digits ++ '.' :: fraction := by
  rw [isUnsignedDecimal, Bool.and_eq_true] at h
  obtain ⟨hne, h⟩ := h
  split at h
  · next fraction hdrop =>
    refine ⟨text.takeWhile Char.isDigit, fraction, by simpa using hne, ?_, by simpa using h, ?_⟩
    · exact fun c hc => List.all_eq_true.1 List.all_takeWhile c hc
    · rw [← hdrop, List.takeWhile_append_dropWhile]
  · cases h

/-- The parts of a number with a point. -/
theorem exists_of_isDecimal {text : List Char} (h : isDecimal text = true) :
    ∃ sign digits fraction, (sign = [] ∨ sign = ['-']) ∧ digits ≠ [] ∧
      (∀ c ∈ digits, c.isDigit = true) ∧ (∀ c ∈ fraction, c.isDigit = true) ∧
      text = sign ++ (digits ++ '.' :: fraction) := by
  rw [isDecimal.eq_def] at h
  split at h
  · obtain ⟨digits, fraction, hne, hdigits, hfraction, rfl⟩ := exists_of_isUnsignedDecimal h
    exact ⟨['-'], digits, fraction, .inr rfl, hne, hdigits, hfraction, rfl⟩
  · obtain ⟨digits, fraction, hne, hdigits, hfraction, rfl⟩ := exists_of_isUnsignedDecimal h
    exact ⟨[], digits, fraction, .inl rfl, hne, hdigits, hfraction, rfl⟩

/-! ## Strings

A character is printed by itself or escaped, and in both cases what is printed denotes it.  The
quote and the backslash are always escaped. -/

/-- A printed character does not end the string that it stands in. -/
theorem SpelledChar.stringBody? {c : Char} {s : List Char} (h : SpelledChar c s)
    (rest : List Char) :
    stringBody? '"' (s ++ rest) = (TypeReveal.stringBody? '"' rest).map (s ++ ·) := by
  cases h with
  | plain hquote hslash hbreak =>
    rw [List.singleton_append, TypeReveal.stringBody?.eq_def]
    split <;> simp_all
  | _ => rfl

/-- A printed string ends at the quote behind it. -/
theorem SpelledBody.stringBody? {cs body : List Char} (h : SpelledBody cs body)
    (rest : List Char) :
    TypeReveal.stringBody? '"' (body ++ '"' :: rest) = some body := by
  induction h with
  | nil => rfl
  | cons hc _ ih => rw [List.append_assoc, hc.stringBody?, ih, Option.map_some]

/-- A printed character denotes the character. -/
theorem SpelledChar.unescape {c : Char} {s : List Char} (h : SpelledChar c s)
    (rest : List Char) : unescape (s ++ rest) = c :: TypeReveal.unescape rest := by
  cases h with
  | plain hquote hslash hbreak =>
    rw [List.singleton_append, TypeReveal.unescape.eq_def]
    split <;> simp_all
  | _ => rfl

theorem SpelledBody.unescape {cs body : List Char} (h : SpelledBody cs body) :
    TypeReveal.unescape body = cs := by
  induction h with
  | nil => rfl
  | cons hc _ ih => rw [hc.unescape, ih]

theorem spelledChar_quotedChar (c : Char) : SpelledChar c (quotedChar c) := by
  by_cases hquote : c = '"'
  · subst hquote; exact .quote
  · by_cases hslash : c = '\\'
    · subst hslash; exact .slash
    · by_cases hbreak : c = '\n'
      · subst hbreak; exact .lineFeed
      · simpa [quotedChar, hquote, hslash, hbreak] using .plain hquote hslash hbreak

theorem spelledBody_flatMap (cs : List Char) : SpelledBody cs (cs.flatMap quotedChar) := by
  induction cs with
  | nil => exact .nil
  | cons c cs ih => exact .cons (spelledChar_quotedChar c) ih

/-! ## Single tokens

A printed token is found again in front of any text that is apart.  The cases are those of the
printer. -/

/-- A token that a text can hold. -/
def Token.isProper : Token → Bool
  | word text => isWord text.toList
  | float text => isDecimal text.toList
  | junk => false
  | _ => true

/-- A word is a token of its own in front of a text that is apart. -/
theorem token?_word {c : Char} {cs rest : List Char} (h : isWord (c :: cs) = true)
    (hrest : Apart rest) :
    token? c (cs ++ rest) = some (.word (String.ofList (c :: cs)), cs.length) := by
  rw [isWord, Bool.and_eq_true, List.all_eq_true] at h
  rw [token?_of_isWordStart h.1, List.takeWhile_append_of_pos h.2, hrest.takeWhile_isWordPart,
    List.append_nil]

/-- The token at the start of a number without a minus. -/
theorem token?_unsigned {c : Char} {cs rest : List Char} {t : Token}
    (h : c.isDigit = true) (hnumber : number? [] (c :: (cs ++ rest)) = some (t, cs.length + 1)) :
    token? c (cs ++ rest) = some (t, cs.length) := by
  rw [token?_digit h, hnumber]
  rfl

/-- The digits of a number have the value of the number. -/
theorem digitsValue_toDigits (n : Nat) : digitsValue (Nat.toDigits 10 n) = n := by
  rw [digitsValue, ← Nat.ofDigitChars_eq_foldl, Nat.ofDigitChars_ten_toDigits]

theorem isDigit_of_mem_toDigits {n : Nat} : ∀ c ∈ Nat.toDigits 10 n, c.isDigit = true :=
  fun _ hc => Nat.isDigit_of_mem_toDigits (by decide) (by decide) hc

/-- The digits of an integer are a token of that value. -/
theorem token?_int {value : Int} {c : Char} {cs rest : List Char} (h : intText value = c :: cs)
    (hrest : Apart rest) : token? c (cs ++ rest) = some (.int value, cs.length) := by
  have hread := fun sign => number?_int sign (Nat.toDigits_ne_nil (n := value.natAbs) (b := 10))
    isDigit_of_mem_toDigits hrest
  simp only [digitsValue_toDigits] at hread
  rw [intText] at h
  split at h
  · next hneg =>
    obtain ⟨rfl, rfl⟩ := List.cons.inj h
    have hvalue : -(value.natAbs : Int) = value := by omega
    have hnumber := hread ['-']
    rw [List.isEmpty_cons, if_neg Bool.false_ne_true, hvalue] at hnumber
    exact hnumber
  · next hneg =>
    have hvalue : (value.natAbs : Int) = value := by omega
    have hc : c.isDigit = true := isDigit_of_mem_toDigits c (h ▸ List.mem_cons_self)
    have hnumber := hread []
    rw [List.isEmpty_nil, if_pos rfl, hvalue, h] at hnumber
    exact token?_unsigned hc hnumber

/-- A number with a point is a token, with its text kept. -/
theorem token?_float {c : Char} {cs rest : List Char} (h : isDecimal (c :: cs) = true)
    (hrest : Apart rest) :
    token? c (cs ++ rest) = some (.float (String.ofList (c :: cs)), cs.length) := by
  obtain ⟨sign, digits, fraction, hsign, hne, hdigits, hfraction, htext⟩ := exists_of_isDecimal h
  have hread := number?_float sign hne hdigits hfraction hrest.any_isWordPart
  rcases hsign with rfl | rfl
  · rw [List.nil_append] at htext
    have hc : c.isDigit = true := by
      cases digits with
      | nil => exact absurd rfl hne
      | cons d digits =>
        rw [List.cons_append] at htext
        exact (List.cons.inj htext).1 ▸ hdigits d List.mem_cons_self
    refine token?_unsigned hc ?_
    have hlength := congrArg List.length htext
    simp only [List.length_cons, List.length_append] at hlength
    rw [← List.cons_append, htext, List.append_assoc, List.cons_append, hread, hlength]
    rfl
  · rw [List.singleton_append] at htext
    obtain ⟨rfl, rfl⟩ := List.cons.inj htext
    rw [List.append_assoc, List.cons_append]
    simpa [token?] using hread

/-- **The token at the start of a printing is the one that was printed.** -/
theorem token?_spelled {t : Token} {s rest : List Char} (hs : Spelled t s)
    (ht : t.isProper = true) (hrest : Apart rest) :
    ∃ c cs, s = c :: cs ∧ token? c (cs ++ rest) = some (t, cs.length) := by
  cases hs with
  | str hbody =>
    refine ⟨_, _, rfl, ?_⟩
    simp [token?, hbody.stringBody?, hbody.unescape]
  | text =>
    cases t with
    | word text =>
      obtain ⟨c, cs, htext⟩ : ∃ c cs, text.toList = c :: cs := by
        cases h : text.toList with
        | nil => simp [Token.isProper, h, isWord] at ht
        | cons c cs => exact ⟨c, cs, rfl⟩
      refine ⟨c, cs, htext, ?_⟩
      rw [Token.isProper, htext] at ht
      rw [token?_word ht hrest, ← htext, String.ofList_toList]
    | float text =>
      obtain ⟨c, cs, htext⟩ : ∃ c cs, text.toList = c :: cs := by
        cases h : text.toList with
        | nil => simp [Token.isProper, h, isDecimal, isUnsignedDecimal] at ht
        | cons c cs => exact ⟨c, cs, rfl⟩
      refine ⟨c, cs, htext, ?_⟩
      rw [Token.isProper, htext] at ht
      rw [token?_float ht hrest, ← htext, String.ofList_toList]
    | int value =>
      obtain ⟨c, cs, htext⟩ : ∃ c cs, intText value = c :: cs := by
        have := Nat.toDigits_ne_nil (n := value.natAbs) (b := 10)
        cases h : intText value with
        | nil =>
          rw [intText] at h
          split at h
          · cases h
          · exact absurd h this
        | cons c cs => exact ⟨c, cs, rfl⟩
      exact ⟨c, cs, htext, token?_int htext hrest⟩
    | str text =>
      refine ⟨_, _, rfl, ?_⟩
      have hbody := spelledBody_flatMap text.toList
      simp [token?, hbody.stringBody?, hbody.unescape]
    | opening bracket => cases bracket <;> exact ⟨_, _, rfl, rfl⟩
    | closing bracket => cases bracket <;> exact ⟨_, _, rfl, rfl⟩
    | operator op => cases op <;> exact ⟨_, _, rfl, rfl⟩
    | comma => exact ⟨_, _, rfl, rfl⟩
    -- A dot is no ellipsis: what follows it does not start with a point.
    | dot =>
      refine ⟨_, _, rfl, ?_⟩
      cases rest with
      | nil => rfl
      | cons c rest =>
        have hpoint : c ≠ '.' := (hrest c rfl).2
        simp [token?, hpoint.symm]
    | ellipsis => exact ⟨_, _, rfl, by simp [token?]⟩
    | junk => cases ht

/-! ## Lists of tokens

No token starts with a blank character, so that a gap in front of a token is skipped up to the
token.  By induction on what is printed. -/

/-- No token starts like a gap. -/
theorem token?_eq_none {c : Char} (h : c ∈ ['\\', ' ', '\t', '\r', '\n']) (rest : List Char) :
    token? c rest = none := by
  simp only [List.mem_cons, List.not_mem_nil, or_false] at h
  rcases h with rfl | rfl | rfl | rfl | rfl <;> rfl

theorem not_spacing_of_token? {c : Char} {rest : List Char} {result : Token × Nat}
    (h : token? c rest = some result) : c ≠ '\\' ∧ isSpacing c = false := by
  have hc : c ∉ ['\\', ' ', '\t', '\r', '\n'] := by
    intro hc
    rw [token?_eq_none hc] at h
    cases h
  simp only [List.mem_cons, List.not_mem_nil, or_false, not_or] at hc
  simpa [isSpacing, and_assoc] using hc

/-- A token at the start of a text is the first of its tokens. -/
theorem lexemes_of_token? {c : Char} {cs rest : List Char} {t : Token}
    (h : token? c (cs ++ rest) = some (t, cs.length)) (pos : Nat) :
    lexemes pos (c :: (cs ++ rest)) =
      ⟨t, ⟨pos, pos + utf8Length (c :: cs)⟩⟩ :: lexemes (pos + utf8Length (c :: cs)) rest := by
  obtain ⟨hslash, hspacing⟩ := not_spacing_of_token? h
  rw [lexemes.eq_def]
  split
  · next heq => cases heq
  · next heq => exact absurd (List.cons.inj heq).1 hslash
  · next heq =>
    obtain ⟨rfl, rfl⟩ := List.cons.inj heq
    simp [hspacing, h, Nat.add_assoc]

/-- A printed token in front of a text that is apart is the first of the tokens. -/
theorem lexemes_spelled {t : Token} {s rest : List Char} (hs : Spelled t s)
    (ht : t.isProper = true) (hrest : Apart rest) (pos : Nat) :
    lexemes pos (s ++ rest) =
      ⟨t, ⟨pos, pos + utf8Length s⟩⟩ :: lexemes (pos + utf8Length s) rest := by
  obtain ⟨c, cs, rfl, htoken⟩ := token?_spelled hs ht hrest
  exact lexemes_of_token? htoken pos

theorem lexemes_unit_append {u : List Char} (h : u ∈ gapUnits) (rest : List Char) (pos : Nat) :
    lexemes pos (u ++ rest) = lexemes (pos + utf8Length u) rest := by
  simp only [gapUnits, List.mem_cons, List.not_mem_nil, or_false] at h
  rcases h with rfl | rfl | rfl | rfl | rfl <;> simp [lexemes, isSpacing] <;> rfl

/-- Gaps are skipped, and move the tokens behind them by their bytes. -/
theorem lexemes_gap_append {gap : List Char} (h : Gap gap) (rest : List Char) (pos : Nat) :
    lexemes pos (gap ++ rest) = lexemes (pos + utf8Length gap) rest := by
  induction h generalizing pos with
  | unit h => exact lexemes_unit_append h rest pos
  | more h _ ih =>
    rw [List.append_assoc, lexemes_unit_append h, ih, utf8Length_append, Nat.add_assoc]

/-- **Reading a printing token by token gives back the tokens.** -/
theorem map_token_lexemes {ts : List Token} {text : List Char} (h : Printed ts text)
    (hts : ∀ t ∈ ts, t.isProper = true) (pos : Nat) :
    (lexemes pos text).map Lexeme.token = ts := by
  induction h generalizing pos with
  | @last t s hs =>
    have hlex := lexemes_spelled hs (hts t List.mem_cons_self) Apart.nil pos
    rw [List.append_nil] at hlex
    rw [hlex, lexemes]
    rfl
  | @more t ts s gap text hs hgap _ ih =>
    rw [lexemes_spelled hs (hts t List.mem_cons_self) (hgap.apart text), lexemes_gap_append hgap,
      List.map_cons, ih fun t ht => hts t (List.mem_cons_of_mem _ ht)]

end TypeReveal
