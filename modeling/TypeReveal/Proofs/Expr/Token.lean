import TypeReveal.Proofs.Text.Class
import TypeReveal.Syntax.Token

/-!
# What a token is

The token at the start of a text, said without reading it.

* `WritesNumber sign s after t` — in front of `after`, the characters `s` are the number `t` whose
  sign is `sign`.
* `Scans c rest t n` — the token that starts with `c` in front of `rest` is `t`, and takes up the
  first `n` characters of `rest`.

The readers find just these (`number?_eq_some_iff`, `token?_eq_some_iff`), so that what is proved of
all tokens has one case for each kind of token.

The reader of tokens is a chain of cases on the first character and, for numbers and strings, a
search through what follows.  The relations have a constructor for each kind of token, with the
conditions under which it is found and nothing about how.  Where a later proof needs all kinds of
tokens it goes by cases on `Scans`.
-/

set_option autoImplicit false
namespace TypeReveal

variable {c quote : Char} {rest after body sign digits : List Char} {t : Token} {n : Nat}

/-! ## Texts after a token

The condition under which a word or a number ends where it should. -/

/-- A text that does not go on with what stands before it. -/
def Apart (rest : List Char) : Prop := ∀ c ∈ rest.head?, isWordPart c = false ∧ c ≠ '.'

theorem Apart.nil : Apart [] := by simp [Apart]

theorem isDigit_of_not_isWordPart (h : isWordPart c = false) : c.isDigit = false := by
  simp only [isWordPart, Char.isAlphanum, Bool.or_eq_false_iff] at h
  exact h.1.2

theorem takeWhile_isDigit_of_not_isWordPart (h : rest.head?.any isWordPart = false) :
    rest.takeWhile Char.isDigit = [] := by
  cases rest with
  | nil => rfl
  | cons c rest => simp [isDigit_of_not_isWordPart (c := c) (by simpa using h)]

theorem Apart.takeWhile_isWordPart (h : Apart rest) : rest.takeWhile isWordPart = [] := by
  cases rest with
  | nil => rfl
  | cons c rest => simp [(h c rfl).1]

theorem Apart.any_isWordPart (h : Apart rest) : rest.head?.any isWordPart = false := by
  cases rest with
  | nil => rfl
  | cons c rest => simpa using (h c rfl).1

theorem Apart.takeWhile_isDigit (h : Apart rest) : rest.takeWhile Char.isDigit = [] :=
  takeWhile_isDigit_of_not_isWordPart h.any_isWordPart

/-! ## Numbers

A number is a run of digits, with a point and more digits perhaps.  A letter directly behind it
makes it no number at all, and a second point does as well. -/

/-- In front of `after`, digits are a number whose sign is `sign`: an integer if nothing goes on
with them, a number with a point if there are a point and perhaps more digits. -/
inductive WritesNumber (sign : List Char) : List Char → List Char → Token → Prop
  | int {digits after : List Char} (hne : digits ≠ [])
    (hdigits : ∀ c ∈ digits, c.isDigit = true) (hafter : Apart after) :
    WritesNumber sign digits after
      (.int (if sign.isEmpty then digitsValue digits else -digitsValue digits))
  | float {digits fraction after : List Char} (hne : digits ≠ [])
    (hdigits : ∀ c ∈ digits, c.isDigit = true) (hfraction : ∀ c ∈ fraction, c.isDigit = true)
    (hafter : after.head?.any isWordPart = false) :
    WritesNumber sign (digits ++ '.' :: fraction) after
      (.float (String.ofList (sign ++ digits ++ '.' :: fraction)))

theorem WritesNumber.ne_nil {s : List Char} (h : WritesNumber sign s after t) : s ≠ [] := by
  cases h with
  | int hne => exact hne
  | float hne => exact List.append_ne_nil_of_left_ne_nil hne _

theorem WritesNumber.isDigit_or_point {s : List Char} (h : WritesNumber sign s after t) :
    ∀ c ∈ s, c.isDigit = true ∨ c = '.' := by
  intro c hc
  cases h with
  | int _ hdigits => exact .inl (hdigits c hc)
  | float _ hdigits hfraction =>
    rw [List.mem_append, List.mem_cons] at hc
    exact hc.elim (fun hc => .inl (hdigits c hc)) fun hc =>
      hc.elim .inr fun hc => .inl (hfraction c hc)

/-- The fraction after the digits of a number. -/
def fractionOf (after : List Char) : List Char :=
  match after with
  | '.' :: more => '.' :: more.takeWhile Char.isDigit
  | _ => []

/-- A fraction is there if a point is, and has all the digits after that. -/
theorem fractionOf_cases (after : List Char) :
    (fractionOf after = [] ∧ after.head? ≠ some '.') ∨
      ∃ fraction more, fractionOf after = '.' :: fraction ∧ after = '.' :: fraction ++ more ∧
        ∀ c ∈ fraction, c.isDigit = true := by
  rw [fractionOf.eq_def]
  split
  · next more =>
    refine .inr ⟨_, more.dropWhile Char.isDigit, rfl, ?_, ?_⟩
    · rw [List.cons_append, List.takeWhile_append_dropWhile]
    · exact List.all_eq_true.1 List.all_takeWhile
  · next hpoint =>
    refine .inl ⟨rfl, fun hhead => ?_⟩
    obtain ⟨more, hmore⟩ := List.head?_eq_some_iff.1 hhead
    exact hpoint more hmore

/-- The number that starts with some digits, with what follows them. -/
def numberFrom? (sign digits after : List Char) : Option (Token × Nat) :=
  if digits.isEmpty || (after.drop (fractionOf after).length).head?.any isWordPart then none
  else if (fractionOf after).isEmpty then
    some (.int (if sign.isEmpty then digitsValue digits else -digitsValue digits), digits.length)
  else
    some (.float (String.ofList (sign ++ digits ++ fractionOf after)),
      digits.length + (fractionOf after).length)

/-- The reader of numbers takes the digits first, and then the fraction. -/
theorem number?_eq (sign rest : List Char) :
    number? sign rest =
      numberFrom? sign (rest.takeWhile Char.isDigit)
        (rest.drop (rest.takeWhile Char.isDigit).length) := rfl

theorem exists_numeral_of_numberFrom? (hdigits : ∀ c ∈ digits, c.isDigit = true)
    (h : numberFrom? sign digits after = some (t, n)) :
    ∃ s more, digits ++ after = s ++ more ∧ s.length = n ∧ WritesNumber sign s more t := by
  rw [numberFrom?] at h
  split at h
  · cases h
  · next hguard =>
    rw [Bool.or_eq_true, not_or, List.isEmpty_iff, Bool.not_eq_true] at hguard
    obtain ⟨hne, hend⟩ := hguard
    rcases fractionOf_cases after with ⟨hnil, hpoint⟩ | ⟨fraction, more, hcons, rfl, hfraction⟩
    · rw [hnil] at h hend
      cases h
      refine ⟨digits, after, rfl, rfl, .int hne hdigits fun c hc => ?_⟩
      rw [Option.mem_def] at hc
      rw [List.length_nil, List.drop_zero, hc, Option.any_some] at hend
      exact ⟨hend, fun hdot => hpoint (hdot ▸ hc)⟩
    · rw [hcons] at h hend
      cases h
      rw [List.drop_left] at hend
      exact ⟨digits ++ '.' :: fraction, more, by simp, by simp, .float hne hdigits hfraction hend⟩

/-- Digits alone, in front of a text that is apart, are an integer. -/
theorem number?_int (sign : List Char) (hne : digits ≠ [])
    (hdigits : ∀ c ∈ digits, c.isDigit = true) (hrest : Apart rest) :
    number? sign (digits ++ rest) =
      some (.int (if sign.isEmpty then digitsValue digits else -digitsValue digits),
        digits.length) := by
  have htake : (digits ++ rest).takeWhile Char.isDigit = digits := by
    rw [List.takeWhile_append_of_pos hdigits, hrest.takeWhile_isDigit, List.append_nil]
  have hempty : digits.isEmpty = false := by simpa using hne
  cases rest with
  | nil =>
    rw [List.append_nil] at htake ⊢
    simp [number?, htake, hempty]
  | cons c rest =>
    have hpoint : c ≠ '.' := (hrest c rfl).2
    have hpart : isWordPart c = false := (hrest c rfl).1
    simp only [number?, htake, List.drop_left]
    split
    · next heq => exact absurd (List.cons.inj heq).1 hpoint
    · simp [hempty, hpart]

/-- Digits, a point and more digits are a number with a point. -/
theorem number?_float {fraction : List Char} (sign : List Char) (hne : digits ≠ [])
    (hdigits : ∀ c ∈ digits, c.isDigit = true) (hfraction : ∀ c ∈ fraction, c.isDigit = true)
    (hrest : rest.head?.any isWordPart = false) :
    number? sign (digits ++ '.' :: (fraction ++ rest)) =
      some (.float (String.ofList (sign ++ digits ++ '.' :: fraction)),
        digits.length + (fraction.length + 1)) := by
  have htake : (digits ++ '.' :: (fraction ++ rest)).takeWhile Char.isDigit = digits := by
    rw [List.takeWhile_append_of_pos hdigits]
    simp
  have hmore : (fraction ++ rest).takeWhile Char.isDigit = fraction := by
    rw [List.takeWhile_append_of_pos hfraction, takeWhile_isDigit_of_not_isWordPart hrest,
      List.append_nil]
  have hempty : digits.isEmpty = false := by simpa using hne
  simp [number?, htake, hmore, hempty, hrest]

/-- **The number at the start of a text.** -/
theorem number?_eq_some_iff :
    number? sign rest = some (t, n) ↔
      ∃ s after, rest = s ++ after ∧ s.length = n ∧ WritesNumber sign s after t := by
  constructor
  · intro h
    rw [number?_eq] at h
    obtain ⟨after, hafter⟩ := List.takeWhile_prefix (l := rest) Char.isDigit
    have hdigits := List.all_eq_true.1 (List.all_takeWhile (l := rest) (p := Char.isDigit))
    generalize rest.takeWhile Char.isDigit = digits at h hafter hdigits
    subst hafter
    rw [List.drop_left] at h
    exact exists_numeral_of_numberFrom? hdigits h
  · rintro ⟨s, after, rfl, rfl, h⟩
    cases h with
    | int hne hdigits hafter => exact number?_int sign hne hdigits hafter
    | @float digits fraction after hne hdigits hfraction hafter =>
      rw [List.append_assoc, List.cons_append, number?_float sign hne hdigits hfraction hafter,
        List.length_append, List.length_cons]

/-- A number does not go beyond its text. -/
theorem length_number?_le (h : number? sign rest = some (t, n)) : n ≤ rest.length := by
  obtain ⟨s, after, rfl, rfl, -⟩ := number?_eq_some_iff.1 h
  exact (List.prefix_append s after).length_le

/-- A number that starts with a digit has characters. -/
theorem length_number?_pos (h : number? sign rest = some (t, n)) : 0 < n := by
  obtain ⟨s, after, -, rfl, hs⟩ := number?_eq_some_iff.1 h
  exact List.length_pos_iff.2 hs.ne_nil

/-! ## Strings

A string ends with the quote that it started with; a character behind a backslash is passed over. -/

theorem stringBody?_cons (hc : c ≠ '\\') (rest : List Char) :
    stringBody? quote (c :: rest) =
      if c == quote then some []
      else if c == '\n' then none
      else (stringBody? quote rest).map (c :: ·) := by
  rw [stringBody?.eq_def]
  split
  · next heq => cases heq
  · next heq => exact absurd (List.cons.inj heq).1 hc
  · next heq => exact absurd (List.cons.inj heq).1 hc
  · next heq =>
    obtain ⟨rfl, rfl⟩ := List.cons.inj heq
    rfl

/-- A character that starts no escape. -/
theorem ne_backslash (hnil : c = '\\' → rest = [] → False)
    (hcons : ∀ d more, c = '\\' → rest = d :: more → False) : c ≠ '\\' := by
  intro hc
  cases rest with
  | nil => exact hnil hc rfl
  | cons d more => exact hcons d more hc rfl

/-- A string stands in front of its quote. -/
theorem prefix_of_stringBody? (h : stringBody? quote rest = some body) :
    body ++ [quote] <+: rest := by
  fun_induction stringBody? quote rest generalizing body with
  | case1 | case2 | case5 => cases h
  | case3 c rest ih =>
    obtain ⟨inner, hinner, rfl⟩ := Option.map_eq_some_iff.1 h
    exact (List.prefix_cons_inj _).2 ((List.prefix_cons_inj _).2 (ih hinner))
  | case4 c rest _ _ hquote =>
    cases h
    obtain rfl := eq_of_beq hquote
    exact (List.prefix_cons_inj _).2 List.nil_prefix
  | case6 c rest _ _ _ _ ih =>
    obtain ⟨inner, hinner, rfl⟩ := Option.map_eq_some_iff.1 h
    exact (List.prefix_cons_inj _).2 (ih hinner)

/-- What stands before the quote that ends a string is shorter than the text with that quote. -/
theorem length_stringBody?_lt (h : stringBody? quote rest = some body) :
    body.length < rest.length := by
  have hprefix := (prefix_of_stringBody? h).length_le
  rwa [List.length_append] at hprefix

/-! ## Tokens

Marks are single characters.  A word takes up all the characters that words can have. -/

/-- The characters that are tokens by themselves, whatever follows. -/
inductive IsMark : Char → Token → Prop
  | openRound : IsMark '(' (.opening .round)
  | closeRound : IsMark ')' (.closing .round)
  | openSquare : IsMark '[' (.opening .square)
  | closeSquare : IsMark ']' (.closing .square)
  | bar : IsMark '|' (.operator .bar)
  | amp : IsMark '&' (.operator .amp)
  | comma : IsMark ',' .comma

/-- What a token is that starts with `c` in front of `rest`, and how many characters of `rest`
belong to it. -/
inductive Scans (c : Char) (rest : List Char) : Token → Nat → Prop
  | mark {t : Token} (h : IsMark c t) : Scans c rest t 0
  | dot (hc : c = '.') (h : ¬ ['.', '.'] <+: rest) : Scans c rest .dot 0
  | ellipsis (hc : c = '.') (h : ['.', '.'] <+: rest) : Scans c rest .ellipsis 2
  | str {body : List Char} (hc : c = '"' ∨ c = '\'') (h : stringBody? c rest = some body) :
    Scans c rest (.str (String.ofList (unescape body))) (body.length + 1)
  | word (hc : isWordStart c = true) :
    Scans c rest (.word (String.ofList (c :: rest.takeWhile isWordPart)))
      (rest.takeWhile isWordPart).length
  | negative {t : Token} {n : Nat} (hc : c = '-') (h : number? ['-'] rest = some (t, n)) :
    Scans c rest t n
  | number {t : Token} {n : Nat} (hc : c.isDigit = true)
    (h : number? [] (c :: rest) = some (t, n + 1)) : Scans c rest t n

/-- A letter starts a word, which takes up all characters of words behind it. -/
theorem token?_of_isWordStart (h : isWordStart c = true) (rest : List Char) :
    token? c rest = some (.word (String.ofList (c :: rest.takeWhile isWordPart)),
      (rest.takeWhile isWordPart).length) := by
  rw [token?.eq_def]
  split
  case h_12 => rw [if_pos h]
  all_goals exact absurd h (by decide)

/-- A digit starts a number. -/
theorem token?_digit (h : c.isDigit = true) (rest : List Char) :
    token? c rest = (number? [] (c :: rest)).map fun (token, length) => (token, length - 1) := by
  rw [token?.eq_def]
  split
  case h_12 => rw [if_neg (by simp [isWordStart_of_isDigit h]), if_pos h]
  all_goals exact absurd h (by decide)

/-- **The token at the start of a text.** -/
theorem token?_eq_some_iff : token? c rest = some (t, n) ↔ Scans c rest t n := by
  constructor
  · intro h
    rw [token?.eq_def] at h
    split at h
    -- Only the forms that look beyond their first character are left as cases of their own.
    case h_8 =>
      split at h
      · next hpoints =>
        cases h
        exact .ellipsis rfl (List.isPrefixOf_iff_prefix.1 hpoints)
      · next hpoints =>
        cases h
        exact .dot rfl fun hprefix => hpoints (List.isPrefixOf_iff_prefix.2 hprefix)
    case h_9 | h_10 =>
      obtain ⟨body, hbody, heq⟩ := Option.map_eq_some_iff.1 h
      cases heq
      exact .str (by decide) hbody
    case h_11 => exact .negative rfl h
    case h_12 =>
      split at h
      · next hstart =>
        cases h
        exact .word hstart
      · split at h
        · next hdigit =>
          obtain ⟨⟨t', m⟩, hnumber, heq⟩ := Option.map_eq_some_iff.1 h
          cases heq
          refine .number hdigit ?_
          rwa [Nat.sub_add_cancel (length_number?_pos hnumber)]
        · cases h
    all_goals
      cases h
      exact .mark (by constructor)
  · intro h
    cases h with
    | mark h => cases h <;> rfl
    | dot hc h =>
      subst hc
      exact if_neg fun hpoints => h (List.isPrefixOf_iff_prefix.1 hpoints)
    | ellipsis hc h =>
      subst hc
      exact if_pos (List.isPrefixOf_iff_prefix.2 h)
    | str hc h =>
      rcases hc with rfl | rfl <;> exact congrArg (Option.map _) h
    | word hc => exact token?_of_isWordStart hc rest
    | negative hc h =>
      subst hc
      exact h
    | number hc h =>
      rw [token?_digit hc, h]
      rfl

/-- A number is no string. -/
theorem number?_ne_str {text : String} : number? sign rest ≠ some (.str text, n) := by
  intro h
  obtain ⟨s, after, -, -, hs⟩ := number?_eq_some_iff.1 h
  cases hs

/-- A string denotes what stands before its quote. -/
theorem stringBody?_of_token? {text : String} (h : token? c rest = some (.str text, n)) :
    ∃ body, stringBody? c rest = some body ∧ text = String.ofList (unescape body) ∧
      n = body.length + 1 := by
  cases token?_eq_some_iff.1 h with
  | mark hmark => cases hmark
  | str _ hbody => exact ⟨_, hbody, rfl, rfl⟩
  | negative _ hnumber => exact absurd hnumber number?_ne_str
  | number _ hnumber => exact absurd hnumber number?_ne_str

/-- A token does not go beyond its text. -/
theorem length_token?_le (h : token? c rest = some (t, n)) : n ≤ rest.length := by
  cases token?_eq_some_iff.1 h with
  | mark | dot => exact Nat.zero_le _
  | ellipsis _ hpoints => exact hpoints.length_le
  | str _ hbody => exact length_stringBody?_lt hbody
  | word => exact (List.takeWhile_prefix _).length_le
  | negative _ hnumber => exact length_number?_le hnumber
  | number _ hnumber => exact Nat.le_of_succ_le_succ (length_number?_le hnumber)

/-! ## Texts -/

/-- **Where a token stands.**  A text holds only tokens that start in it, apart from junk where none
starts. -/
theorem token_of_mem_lexemes {pos : Nat} {text : List Char} {l : Lexeme}
    (h : l ∈ lexemes pos text) :
    l.token = .junk ∨ ∃ c rest n, c :: rest <:+ text ∧ token? c rest = some (l.token, n) ∧
      l.span.length = c.utf8Size + utf8Length (rest.take n) := by
  induction pos, text using lexemes.induct with
  | case1 pos => simp [lexemes] at h
  | case2 pos rest ih =>
    rw [lexemes] at h
    refine (ih h).imp_right ?_
    rintro ⟨c, more, n, hmore, htoken⟩
    exact ⟨c, more, n, hmore.trans (List.suffix_append ['\\', '\n'] rest), htoken⟩
  | case3 pos c rest hslash hspacing ih =>
    rw [lexemes.eq_3 _ _ _ hslash, if_pos hspacing] at h
    refine (ih h).imp_right ?_
    rintro ⟨d, more, n, hmore, htoken⟩
    exact ⟨d, more, n, hmore.trans (List.suffix_cons c rest), htoken⟩
  | case4 pos c rest hslash hspacing htoken =>
    rw [lexemes.eq_3 _ _ _ hslash, if_neg hspacing, htoken] at h
    exact .inl (congrArg Lexeme.token (List.mem_singleton.1 h))
  | case5 pos c rest hslash hspacing token n htoken stop ih =>
    rw [lexemes.eq_3 _ _ _ hslash, if_neg hspacing, htoken] at h
    rcases List.mem_cons.1 h with rfl | h
    · refine .inr ⟨c, rest, n, List.suffix_refl _, htoken, ?_⟩
      simp only [Span.length]
      omega
    · refine (ih h).imp_right ?_
      rintro ⟨d, more, m, hmore, htoken⟩
      have hrest : rest.drop n <:+ c :: rest :=
        (List.drop_suffix n rest).trans (List.suffix_cons c rest)
      exact ⟨d, more, m, hmore.trans hrest, htoken⟩

end TypeReveal
