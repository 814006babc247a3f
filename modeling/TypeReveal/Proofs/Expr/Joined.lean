import TypeReveal.Proofs.Expr.Compact
import TypeReveal.Proofs.Expr.Faithful

/-!
# Texts one after the other

A token stays what it is in front of any text that is `Apart` (`token?_append`).  So a text without
junk has the same tokens in front of such a text, and the tokens of that follow
(`Lexed.lexemes_append`).

No token starts with a blank character, and none ends in one or in a backslash
(`isTokenEnd_of_token?`).  So the blank characters at the ends of a text without junk may be
dropped: those in front always (`Lexed.of_blank_append`), those behind unless a backslash is left at
the end (`Lexed.of_append_blank`), for no text without junk ends in one (`Lexed.getLast?_ne`).

A text behind another can spoil a token in two ways only: a letter or a digit goes on with a word or
a number, and a point goes on with a number.  Everything else is a token by itself, or, as a string,
ends with its own quote.  So "apart" is a condition on the first character of the text behind.
-/

set_option autoImplicit false
namespace TypeReveal

/-! ## Tokens in front of a text

Cutting and joining are two directions of one statement.  Here the text behind is added; that the
token stays is first said of runs of characters, of strings and of numbers. -/

section Tokens

variable {c quote : Char} {front back rest body sign digits : List Char} {t : Token} {n : Nat}

/-- A run of characters ends where the text in front does, if the text behind does not go on. -/
theorem takeWhile_append_of_head {p : Char → Bool} (h : ∀ c ∈ back.head?, p c = false) :
    (front ++ back).takeWhile p = front.takeWhile p := by
  rw [List.takeWhile_append]
  split
  · next hall =>
    have hback : back.takeWhile p = [] := by
      cases back with
      | nil => rfl
      | cons d back => exact List.takeWhile_cons_of_neg (by simp [h d rfl])
    rw [hback, List.append_nil, (List.takeWhile_prefix p).eq_of_length hall]
  · rfl

theorem stringBody?_append (h : stringBody? quote front = some body) (back : List Char) :
    stringBody? quote (front ++ back) = some body := by
  fun_induction stringBody? quote front generalizing body with
  | case1 | case2 | case5 => cases h
  | case3 c rest ih =>
    obtain ⟨inner, hinner, rfl⟩ := Option.map_eq_some_iff.1 h
    rw [List.cons_append, List.cons_append, stringBody?, ih hinner, Option.map_some]
  | case4 c rest hnil hcons hquote =>
    rw [List.cons_append, stringBody?_cons (ne_backslash hnil hcons), if_pos hquote, ← h]
  | case6 c rest hnil hcons hquote hbreak ih =>
    obtain ⟨inner, hinner, rfl⟩ := Option.map_eq_some_iff.1 h
    rw [List.cons_append, stringBody?_cons (ne_backslash hnil hcons), if_neg hquote,
      if_neg hbreak, ih hinner, Option.map_some]

theorem Apart.append (hfront : Apart front) (hback : Apart back) : Apart (front ++ back) := by
  cases front with
  | nil => exact hback
  | cons => exact hfront

/-- A number stays what it is when a text that is apart stands further on. -/
theorem WritesNumber.append {s : List Char} (h : WritesNumber sign s front t) (hback : Apart back) :
    WritesNumber sign s (front ++ back) t := by
  cases h with
  | int hne hdigits hafter => exact .int hne hdigits (hafter.append hback)
  | float hne hdigits hfraction hafter =>
    refine .float hne hdigits hfraction ?_
    cases front with
    | nil => exact hback.any_isWordPart
    | cons => exact hafter

theorem number?_append (hback : Apart back) (h : number? sign front = some (t, n)) :
    number? sign (front ++ back) = some (t, n) := by
  obtain ⟨s, after, rfl, rfl, hs⟩ := number?_eq_some_iff.1 h
  exact number?_eq_some_iff.2 ⟨s, after ++ back, List.append_assoc _ _ _, rfl, hs.append hback⟩

theorem Apart.not_prefix {more : List Char} (h : Apart rest) : ¬ '.' :: more <+: rest := by
  intro hprefix
  obtain ⟨after, rfl⟩ := hprefix
  exact (h '.' rfl).2 rfl

/-- **A token stays what it is** in front of a text that is apart. -/
theorem token?_append (hback : Apart back) (h : token? c front = some (t, n)) :
    token? c (front ++ back) = some (t, n) := by
  rw [token?_eq_some_iff]
  cases token?_eq_some_iff.1 h with
  | mark hmark => exact .mark hmark
  | dot hc hpoints =>
    refine .dot hc fun hboth => hpoints ?_
    cases front with
    | nil => exact absurd hboth hback.not_prefix
    | cons d front =>
      cases front with
      | nil => exact absurd (List.cons_prefix_cons.1 hboth).2 hback.not_prefix
      | cons e front => simpa [List.cons_prefix_cons] using hboth
  | ellipsis hc hpoints => exact .ellipsis hc (hpoints.trans (List.prefix_append front back))
  | str hc hbody => exact .str hc (stringBody?_append hbody back)
  | word hc =>
    rw [← takeWhile_append_of_head fun d hd => (hback d hd).1]
    exact .word hc
  | negative hc hnumber => exact .negative hc (number?_append hback hnumber)
  | number hc hnumber => exact .number hc (number?_append hback hnumber)

end Tokens

/-- **The tokens of two texts** one after the other: those of the first, and then those of the
second. -/
theorem Lexed.lexemes_append {pos : Nat} {front back : List Char} {ls : List Lexeme}
    (h : Lexed pos front ls) (hback : Apart back) :
    lexemes pos (front ++ back) = ls ++ lexemes (pos + utf8Length front) back := by
  induction h with
  | nil => rfl
  | gap hu _ ih =>
    rw [List.append_assoc, lexemes_unit_append hu, ih, utf8Length_append, Nat.add_assoc]
  | @token pos c cs text t ls ht _ ih =>
    have ht' := token?_append hback ht
    rw [List.append_assoc] at ht'
    rw [List.cons_append, List.append_assoc, lexemes_of_token? ht', ih, Nat.add_assoc,
      ← utf8Length_append]
    rfl

theorem Lexed.not_junk {pos : Nat} {text : List Char} {ls : List Lexeme} (h : Lexed pos text ls) :
    ∀ l ∈ ls, l.token ≠ .junk := by
  induction h with
  | nil => exact nofun
  | gap _ _ ih => exact ih
  | token ht _ ih =>
    refine List.forall_mem_cons.2 ⟨?_, ih⟩
    rintro rfl
    exact absurd (isProper_of_token? ht) (by decide)

/-- If two texts together have no junk, then neither has the second. -/
theorem Lexed.of_append {pos : Nat} {front back : List Char} {ls ms : List Lexeme}
    (h : Lexed pos (front ++ back) ls) (hfront : Lexed pos front ms) (hback : Apart back) :
    ∃ ns, Lexed (pos + utf8Length front) back ns := by
  have hnot := h.not_junk
  rw [← h.lexemes_eq, hfront.lexemes_append hback] at hnot
  exact ⟨_, lexed_of_lexemes _ _ fun l hl => hnot l (List.mem_append_right _ hl)⟩

/-- A single character that is a token. -/
theorem exists_lexeme_mark {c : Char} {t : Token} (h : ∀ rest, token? c rest = some (t, 0))
    (pos : Nat) (rest : List Char) :
    ∃ l : Lexeme, l.token = t ∧ l.span.start = pos ∧
      lexemes pos (c :: rest) = l :: lexemes (pos + c.utf8Size) rest :=
  ⟨_, rfl, rfl, @lexemes_of_token? c [] rest t (h rest) pos⟩

/-! ## The ends of tokens

In which characters a token can end is found by going through the kinds of tokens: parts of words,
digits, the marks, and quotes. -/

section Ends

variable {c d quote : Char} {cs rest sign body text u v : List Char} {t : Token} {n : Nat}

/-- The characters of a number behind its sign. -/
theorem isDigit_or_point_of_number? (h : number? sign rest = some (t, n)) :
    ∀ d ∈ rest.take n, d.isDigit = true ∨ d = '.' := by
  obtain ⟨s, after, rfl, rfl, hs⟩ := number?_eq_some_iff.1 h
  rw [List.take_left]
  exact hs.isDigit_or_point

theorem isWordPart_of_isWordStart (h : isWordStart c = true) : isWordPart c = true := by
  have hword : isWord [c] = true := by simp [isWord, h]
  exact (isWordPart_of_isWord hword).2 c List.mem_cons_self

/-- A character that a token can end in. -/
def isTokenEnd (c : Char) : Bool := isWordPart c || "()[]|&,.\"'".toList.contains c

theorem isTokenEnd_of_isDigit (h : d.isDigit = true) : isTokenEnd d = true := by
  rw [isTokenEnd, isWordPart, Char.isAlphanum, h, Bool.or_true, Bool.true_or, Bool.true_or]

theorem isTokenEnd_of_isWordPart (h : isWordPart d = true) : isTokenEnd d = true := by
  rw [isTokenEnd, h, Bool.true_or]

/-- Neither a blank character nor a backslash ends a token. -/
theorem not_blank_of_isTokenEnd (h : isTokenEnd d = true) : isBlank d = false ∧ d ≠ '\\' := by
  rw [isTokenEnd, Bool.or_eq_true] at h
  rcases h with h | h
  · refine ⟨isBlank_of_isNamePart (isNamePart_of_isWordPart h), ?_⟩
    rintro rfl
    exact absurd h (by decide)
  · exact (by decide : ∀ d ∈ "()[]|&,.\"'".toList, isBlank d = false ∧ d ≠ '\\') d
      (List.contains_iff_mem.1 h)

theorem isTokenEnd_of_number? (h : number? sign rest = some (t, n)) :
    ∀ d ∈ rest.take n, isTokenEnd d = true := by
  intro d hd
  rcases isDigit_or_point_of_number? h d hd with hdigit | rfl
  · exact isTokenEnd_of_isDigit hdigit
  · decide

/-- Behind its first character a token ends in the last of the others, if there are any. -/
theorem exists_last (hc : isTokenEnd c = true ∨ rest ≠ [])
    (hrest : ∀ d ∈ rest, isTokenEnd d = true) :
    ∃ front d, c :: rest = front ++ [d] ∧ isTokenEnd d = true := by
  rcases List.eq_nil_or_concat rest with rfl | ⟨front, d, rfl⟩
  · exact ⟨[], c, rfl, hc.resolve_right (absurd rfl)⟩
  · rw [List.concat_eq_append] at hrest ⊢
    exact ⟨c :: front, d, rfl, hrest d (List.mem_append_right _ List.mem_cons_self)⟩

/-- **The last character of a token.** -/
theorem isTokenEnd_of_token? (h : token? c rest = some (t, n)) :
    ∃ front d, c :: rest.take n = front ++ [d] ∧ isTokenEnd d = true := by
  cases token?_eq_some_iff.1 h with
  | mark hmark => exact ⟨[], c, rfl, by cases hmark <;> decide⟩
  | dot hc =>
    subst hc
    exact ⟨[], '.', rfl, by decide⟩
  | ellipsis hc hpoints =>
    obtain ⟨more, rfl⟩ := hpoints
    exact ⟨[c, '.'], '.', rfl, by decide⟩
  | str hc hbody =>
    obtain ⟨more, rfl⟩ := prefix_of_stringBody? hbody
    rw [List.take_left' (by simp)]
    exact ⟨c :: _, c, rfl, by rcases hc with rfl | rfl <;> decide⟩
  | word hc =>
    refine exists_last (.inl (isTokenEnd_of_isWordPart (isWordPart_of_isWordStart hc))) ?_
    rw [← List.prefix_iff_eq_take.1 (List.takeWhile_prefix _)]
    exact fun d hd => isTokenEnd_of_isWordPart (List.all_eq_true.1 List.all_takeWhile d hd)
  | negative _ hnumber =>
    refine exists_last (.inr fun hnil => ?_) (isTokenEnd_of_number? hnumber)
    have hlength := congrArg List.length hnil
    rw [List.length_take_of_le (length_number?_le hnumber)] at hlength
    exact absurd hlength (Nat.ne_of_gt (length_number?_pos hnumber))
  | number hc hnumber =>
    have hends := isTokenEnd_of_number? hnumber
    rw [List.take_succ_cons, List.forall_mem_cons] at hends
    exact exists_last (.inl hends.1) hends.2

end Ends

/-! ## Blank characters at the ends of a text

Gaps are made of blank characters, and of line breaks with a backslash in front.  If the backslash
stands at the end of the text and the line break is dropped, junk is left. -/

section Blank

variable {pos : Nat} {c : Char} {rest s u v : List Char} {ls : List Lexeme}

/-- No token starts with a blank character. -/
theorem isBlank_of_token? {result : Token × Nat} (h : token? c rest = some result) :
    isBlank c = false := by
  obtain ⟨t, n⟩ := result
  cases token?_eq_some_iff.1 h with
  | mark hmark => cases hmark <;> decide
  | dot hc | ellipsis hc | negative hc =>
    subst hc
    decide
  | str hc => rcases hc with rfl | rfl <;> decide
  | word hc => exact isBlank_of_isNamePart (isNamePart_of_isWordPart (isWordPart_of_isWordStart hc))
  | number hc => exact isBlank_of_isNamePart (isNamePart_of_isDigit hc)

/-- What stands between tokens: a line break after a backslash, or one blank character. -/
theorem gapUnits_cases (h : u ∈ gapUnits) :
    u = ['\\', '\n'] ∨ ∃ d, u = [d] ∧ isBlank d = true := by
  simp only [gapUnits, List.mem_cons, List.not_mem_nil, or_false] at h
  rcases h with rfl | rfl | rfl | rfl | rfl
  any_goals exact .inr ⟨_, rfl, by decide⟩
  exact .inl rfl

/-- **Blank characters in front** of a text are no part of its tokens. -/
theorem Lexed.of_blank_append (hu : ∀ c ∈ u, isBlank c = true) (h : Lexed pos (u ++ s) ls) :
    Lexed (pos + utf8Length u) s ls := by
  induction u generalizing pos with
  | nil => exact h
  | cons c u ih =>
    obtain ⟨hc, hu⟩ := List.forall_mem_cons.1 hu
    generalize htext : c :: u ++ s = text at h
    cases h with
    | nil => cases htext
    | gap hunit h =>
      rcases gapUnits_cases hunit with rfl | ⟨d, rfl, -⟩
      · obtain ⟨rfl, -⟩ := List.cons.inj htext
        exact absurd hc (by decide)
      · obtain ⟨rfl, rfl⟩ := List.cons.inj htext
        rw [utf8Length_cons, ← Nat.add_assoc]
        exact ih hu h
    | token ht =>
      obtain ⟨rfl, -⟩ := List.cons.inj htext
      rw [isBlank_of_token? ht] at hc
      cases hc

/-- There are no tokens in a blank text. -/
theorem Lexed.eq_nil_of_blank (hv : ∀ c ∈ v, isBlank c = true) (h : Lexed pos v ls) : ls = [] := by
  rw [← List.append_nil v] at h
  rw [← (h.of_blank_append hv).lexemes_eq, lexemes]

/-- The last character of a token. -/
theorem exists_last_of_token? {cs : List Char} {t : Token}
    (h : token? c (cs ++ rest) = some (t, cs.length)) :
    ∃ d, (c :: cs).getLast? = some d ∧ isTokenEnd d = true := by
  obtain ⟨front, d, hlast, hd⟩ := isTokenEnd_of_token? h
  rw [List.take_left] at hlast
  exact ⟨d, by rw [hlast, List.getLast?_concat], hd⟩

theorem getLast?_ne_of_append {d : Char} (h : (u ++ s).getLast? ≠ some d) :
    s.getLast? ≠ some d := by
  intro hlast
  rw [List.getLast?_append, hlast] at h
  exact h rfl

theorem getLast?_append_ne {d : Char} (hu : u.getLast? ≠ some d) (hs : s.getLast? ≠ some d) :
    (u ++ s).getLast? ≠ some d := by
  rw [List.getLast?_append]
  cases hlast : s.getLast? with
  | none => exact hu
  | some e => rwa [hlast] at hs

/-- **Blank characters behind** a text are no part of its tokens, if no backslash is left at its
end: the line break behind that would be. -/
theorem Lexed.of_append_blank (hv : ∀ c ∈ v, isBlank c = true) (hs : s.getLast? ≠ some '\\')
    (h : Lexed pos (s ++ v) ls) : Lexed pos s ls := by
  generalize htext : s ++ v = text at h
  induction h generalizing s with
  | nil pos =>
    obtain ⟨rfl, -⟩ := List.append_eq_nil_iff.1 htext
    exact .nil pos
  | @gap pos unit text ls hunit h ih =>
    cases s with
    | nil =>
      rw [List.nil_append] at htext
      have hnil := (Lexed.gap hunit h).eq_nil_of_blank fun c hc => hv c (htext ▸ hc)
      rw [hnil]
      exact .nil pos
    | cons c s =>
      -- A gap unit is a joined line or one blank character, and the joint is not cut by `hs`.
      rcases gapUnits_cases hunit with rfl | ⟨d, rfl, -⟩
      · obtain ⟨rfl, htail⟩ := List.cons.inj htext
        cases s with
        | nil => exact absurd rfl hs
        | cons d s =>
          obtain ⟨rfl, hrest⟩ := List.cons.inj htail
          have hlast := @getLast?_ne_of_append s ['\\', '\n'] '\\' hs
          exact .gap hunit (ih hlast hrest)
      · obtain ⟨rfl, htail⟩ := List.cons.inj htext
        exact .gap hunit (ih (@getLast?_ne_of_append s [c] '\\' hs) htail)
  | @token pos c cs text t ls ht h ih =>
    obtain ⟨d, hd, hend⟩ := exists_last_of_token? ht
    have hblank := (not_blank_of_isTokenEnd hend).1
    cases s with
    | nil =>
      rw [List.nil_append] at htext
      rw [hv d (htext ▸ List.mem_append_left text (List.mem_of_getLast? hd))] at hblank
      cases hblank
    | cons c s =>
      obtain ⟨rfl, htail⟩ := List.cons.inj htext
      obtain ⟨w, rfl, rfl⟩ : ∃ w, s = cs ++ w ∧ text = w ++ v := by
        rcases List.append_eq_append_iff.1 htail with ⟨w, rfl, rfl⟩ | ⟨w, rfl, rfl⟩
        · -- The token would end among the blank characters.
          rcases List.eq_nil_or_concat w with rfl | ⟨w, e, rfl⟩
          · exact ⟨[], by simp, rfl⟩
          · rw [List.concat_eq_append, ← List.append_assoc, ← List.cons_append,
              List.getLast?_concat] at hd
            obtain rfl := Option.some.inj hd
            rw [hv e (by simp)] at hblank
            cases hblank
        · exact ⟨w, rfl, rfl⟩
      rw [← List.append_assoc] at ht
      exact .token (token?_of_append ht (by simp))
        (ih (@getLast?_ne_of_append w (c :: cs) '\\' hs) rfl)

/-- A text without junk does not end in a backslash. -/
theorem Lexed.getLast?_ne (h : Lexed pos s ls) : s.getLast? ≠ some '\\' := by
  induction h with
  | nil => exact nofun
  | @gap pos unit text ls hunit h ih =>
    refine getLast?_append_ne ?_ ih
    rcases gapUnits_cases hunit with rfl | ⟨d, rfl, hd⟩
    · decide
    · rintro ⟨⟩
      exact absurd hd (by decide)
  | @token pos c cs text t ls ht h ih =>
    obtain ⟨d, hd, hend⟩ := exists_last_of_token? ht
    refine @getLast?_append_ne text (c :: cs) '\\' ?_ ih
    rw [hd]
    exact fun hslash => (not_blank_of_isTokenEnd hend).2 (Option.some.inj hslash)

end Blank

end TypeReveal
