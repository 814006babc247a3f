import TypeReveal.Proofs.Expr.RoundTrip
import TypeReveal.Proofs.Layout.Separator
import TypeReveal.Syntax.Simple

/-!
# The text of an expression

What the rest of a statement sees of an expression that is written on one line.

* `Expr.sealed_spaced` — the text is sealed.  It has no colon, no equals sign and no line break
  outside of brackets and strings, and a comma only if the expression is a tuple without
  parentheses.
* `Expr.sharp_written` — neither end of it is blank.
* `Expr.firstWord_written` — the word at its start is no keyword unless its first token is.
* `Segment.expr_of_trim` — a segment with this text, maybe inside blank characters, is read as the
  expression.

A statement is taken apart before its expressions are read, by searching for commas, colons, equals
signs and keywords in a text of which it is not known yet what it is.  These are the facts by which
the pieces come out as they were put in.  They are proved for the text with one space in front of
each token, from which the text itself is got by dropping the first space.
-/

set_option autoImplicit false
namespace TypeReveal

/-! ## Characters of tokens

The tokens that are no strings, brackets or commas are made of characters that a scan passes over
and that separate nothing. -/

theorem isPlain_of_not_mem {c : Char} (h : c ∉ punctuation) : isPlain c = true := by
  simp only [punctuation, List.mem_cons, not_or] at h
  simp [isPlain, isOpening, isClosing, h]

theorem not_mem_punctuation_of_isNamePart {c : Char} (h : isNamePart c = true) :
    c ∉ punctuation :=
  not_mem_of_isNamePart h (List.Subset.refl _)

theorem isNamePart_of_isWord {word : List Char} (h : isWord word = true) :
    word ≠ [] ∧ ∀ c ∈ word, isNamePart c = true :=
  (isWordPart_of_isWord h).imp_right fun hparts c hc => isNamePart_of_isWordPart (hparts c hc)

/-- A token that is neither a string nor a bracket nor a comma. -/
def Token.isSolid : Token → Bool
  | word _ | int _ | float _ | operator _ | dot | ellipsis => true
  | str _ | opening _ | closing _ | comma | junk => false

/-- The characters of a solid token are those of names and a few more. -/
theorem Token.mem_text {t : Token} (hsolid : t.isSolid = true) (ht : t.isProper = true) {c : Char}
    (hc : c ∈ t.text) : isNamePart c = true ∨ c ∈ ['-', '.', '|', '&'] := by
  cases t with
  | word text => exact .inl ((isNamePart_of_isWord ht).2 c hc)
  | int value =>
    rw [Token.text, intText] at hc
    split at hc
    · rcases List.mem_cons.1 hc with rfl | hc
      · exact .inr (by decide)
      · exact .inl (isNamePart_of_isDigit (isDigit_of_mem_toDigits c hc))
    · exact .inl (isNamePart_of_isDigit (isDigit_of_mem_toDigits c hc))
  | float text =>
    obtain ⟨sign, digits, fraction, hsign, -, hdigits, hfraction, htext⟩ := exists_of_isDecimal ht
    rw [Token.text, htext, List.mem_append, List.mem_append, List.mem_cons] at hc
    rcases hc with hc | hc | rfl | hc
    · rcases hsign with rfl | rfl
      · cases hc
      · rw [List.mem_singleton.1 hc]
        exact .inr (by decide)
    · exact .inl (isNamePart_of_isDigit (hdigits c hc))
    · exact .inr (by decide)
    · exact .inl (isNamePart_of_isDigit (hfraction c hc))
  | operator op =>
    right
    cases op <;> rw [List.mem_singleton.1 hc] <;> decide
  | dot | ellipsis =>
    simp only [Token.text, List.mem_cons, List.not_mem_nil, or_false, or_self] at hc
    exact .inr (by simp [hc])
  | str | opening | closing | comma | junk => cases hsolid

/-- The separators of statements. -/
def separators : List Char := [',', ':', '=', '\n']

/-- A solid token is sealed against the separators of statements. -/
theorem Token.sealed_of_isSolid {t : Token} (hsolid : t.isSolid = true) (ht : t.isProper = true) :
    Sealed separators t.text := by
  refine Sealed.of_forall fun c hc => ?_
  rcases t.mem_text hsolid ht hc with h | h
  · exact ⟨isPlain_of_not_mem (not_mem_punctuation_of_isNamePart h),
      not_mem_of_isNamePart h (by decide)⟩
  · exact (by decide : ∀ c ∈ ['-', '.', '|', '&'], isPlain c = true ∧ c ∉ separators) c h

/-! ## Strings

What is printed between the quotes is escaped, so that the scan stays in the string up to the quote
at its end. -/

/-- A printed character leaves a scan in the string. -/
theorem quotable_quotedChar (c : Char) : Quotable '"' (quotedChar c) := by
  intro depth
  rw [quotedChar]
  split
  · next h =>
    simp [Scan.label, Scan.step]
  · next h =>
    split
    · simp [Scan.label, Scan.step]
    · next hbreak =>
      rw [Bool.or_eq_true, not_or, decide_eq_true_eq, decide_eq_true_eq] at h
      simp [Scan.label, Scan.step, h.1, h.2, hbreak]

/-- **A string is sealed**, whatever text it denotes. -/
theorem sealed_str (text : String) {seps : List Char} : Sealed seps (Token.str text).text :=
  (Quotable.flatMap fun c _ => quotable_quotedChar c).sealed (.inl rfl)

/-! ## Expressions

By recursion on the expression, with the separators of its stratum.  Brackets hide all separators,
so that what stands in them may be of any stratum. -/

/-- The separators that an expression of a stratum has only in brackets and strings. -/
def Stratum.separators : Stratum → List Char
  | whole => [':', '=', '\n']
  | bar | amp | primary => TypeReveal.separators

/-- No expression is asked to do without more separators than statements have. -/
theorem Stratum.separators_subset (s : Stratum) : s.separators ⊆ TypeReveal.separators := by
  cases s <;> decide

theorem sealed_space_cons {seps s : List Char} (hseps : seps ⊆ separators) (h : Sealed seps s) :
    Sealed seps (' ' :: s) :=
  h.cons (by decide) fun hspace => absurd (hseps hspace) (by decide)

theorem Token.sealed_spaced {t : Token} (hsolid : t.isSolid = true) (ht : t.isProper = true)
    (s : Stratum) : Sealed s.separators t.spaced :=
  sealed_space_cons s.separators_subset ((t.sealed_of_isSolid hsolid ht).mono s.separators_subset)

/-- A comma is sealed where a tuple may stand, and only there. -/
theorem sealed_comma : Sealed Stratum.whole.separators Token.comma.spaced :=
  sealed_space_cons (Stratum.separators_subset .whole) (.plain (by decide) (by decide))

/-- Tokens in brackets are sealed if they hide nothing. -/
theorem sealed_group {ts : List Token} {seps' : List Char}
    (h : Sealed seps' (ts.flatMap Token.spaced)) (b : Bracket) (s : Stratum) :
    Sealed s.separators
      ((Token.opening b :: (ts ++ [.closing b])).flatMap Token.spaced) := by
  have hinner : Sealed [] (ts.flatMap Token.spaced ++ [' ']) :=
    (h.mono (List.nil_subset _)).append (.plain (by decide) (by decide))
  rw [List.flatMap_cons, List.flatMap_append, Token.spaced, List.cons_append]
  refine sealed_space_cons s.separators_subset ?_
  cases b with
  | round => simpa [Token.spaced, Token.text] using hinner.bracket (o := '(') (c := ')') rfl rfl
  | square => simpa [Token.spaced, Token.text] using hinner.bracket (o := '[') (c := ']') rfl rfl

namespace Expr

/-- The separators of an operand are those of the operation, at least. -/
theorem separators_operand {s t : Stratum} {text : List Char} (hs : s ≠ .whole)
    (h : Sealed s.separators text) : Sealed t.separators text := by
  refine h.mono ?_
  cases s with
  | whole => exact absurd rfl hs
  | _ => exact t.separators_subset

mutual

/-- **The text of an expression is sealed.** -/
theorem sealed_spaced (e : Expr) {s : Stratum} (h : e.fits s = true) :
    Sealed s.separators e.spaced := by
  have hproper := isProper_of_mem_tokens e h
  cases e with
  | int span value => simpa [spaced, tokens] using Token.sealed_spaced rfl rfl s
  | float span text =>
    simpa [spaced, tokens] using
      Token.sealed_spaced (t := .float text) rfl (hproper _ List.mem_cons_self) s
  | bool span value =>
    simpa [spaced, tokens] using
      Token.sealed_spaced (t := .word _) rfl (hproper _ List.mem_cons_self) s
  | none span =>
    simpa [spaced, tokens] using
      Token.sealed_spaced (t := .word _) rfl (hproper _ List.mem_cons_self) s
  | ellipsis span => simpa [spaced, tokens] using Token.sealed_spaced (t := .ellipsis) rfl rfl s
  | str span text =>
    simpa [spaced, tokens] using
      show Sealed _ (Token.str text).spaced from
        sealed_space_cons s.separators_subset (sealed_str text)
  | name span text =>
    simpa [spaced, tokens] using
      Token.sealed_spaced (t := .word text) rfl (hproper _ List.mem_cons_self) s
  -- An operand fits a stratum of its own, whose separators are among those of the whole.
  | binary span op lhs rhs =>
    simp only [fits, Bool.and_eq_true] at h
    have hl : Sealed s.separators lhs.spaced :=
      separators_operand (by cases op <;> simp [Operator.before]) (sealed_spaced lhs h.1.2)
    have hr : Sealed s.separators rhs.spaced :=
      separators_operand (by cases op <;> simp [Operator.after]) (sealed_spaced rhs h.2)
    have hop := Token.sealed_spaced (t := .operator op) rfl rfl s
    simpa [spaced, tokens] using hl.append (hop.append hr)
  | dangling span op lhs =>
    simp only [fits, Bool.and_eq_true] at h
    have hl : Sealed s.separators lhs.spaced :=
      separators_operand (by cases op <;> simp [Operator.before]) (sealed_spaced lhs h.2)
    have hop := Token.sealed_spaced (t := .operator op) rfl rfl s
    simpa [spaced, tokens] using hl.append hop
  | paren span inner =>
    rw [fits] at h
    exact sealed_group (sealed_spaced inner h) .round s
  | tuple span elems =>
    cases elems with
    | nil =>
      have hnil : Sealed [] (([] : List Token).flatMap Token.spaced) := .nil
      exact sealed_group hnil .round s
    -- A bare tuple is only legal as a whole text, and one of a single element ends in a comma.
    | cons e es =>
      simp only [fits, List.isEmpty_cons, Bool.false_or, Bool.and_eq_true, beq_iff_eq] at h
      obtain ⟨rfl, hfit⟩ := h
      have helems := sealed_separated (e :: es) hfit
      rw [spaced, tokens, List.isEmpty_cons, if_neg Bool.false_ne_true, List.flatMap_append]
      refine helems.append ?_
      split
      · simpa using sealed_comma
      · exact .nil
  | list span elems =>
    rw [fits] at h
    exact sealed_group (sealed_separated elems h) .square s
  | subscript span value index =>
    simp only [fits, Bool.and_eq_true] at h
    have hvalue : Sealed s.separators value.spaced :=
      separators_operand (by decide) (sealed_spaced value h.1)
    have hindex := sealed_group (sealed_spaced index h.2) .square s
    rw [spaced, tokens, List.flatMap_append]
    exact hvalue.append hindex
  | member span value attr =>
    simp only [fits, Bool.and_eq_true] at h
    have hvalue : Sealed s.separators value.spaced :=
      separators_operand (by decide) (sealed_spaced value h.1)
    have hdot := Token.sealed_spaced (t := .dot) rfl rfl s
    have hattr := Token.sealed_spaced (t := .word attr) rfl h.2 s
    simpa [spaced, tokens] using hvalue.append (hdot.append hattr)
  | call span callee args =>
    simp only [fits, Bool.and_eq_true] at h
    have hcallee : Sealed s.separators callee.spaced :=
      separators_operand (by decide) (sealed_spaced callee h.1)
    have hargs := sealed_group (sealed_separated args h.2) .round s
    rw [spaced, tokens, List.flatMap_append]
    exact hcallee.append hargs

/-- Elements with commas between them are sealed as a tuple is. -/
theorem sealed_separated : ∀ es : List Expr, fitAll es = true →
    Sealed Stratum.whole.separators ((separated es).flatMap Token.spaced)
  | [], _ => by simpa [separated] using Sealed.nil
  | e :: es, h => by
    simp only [fitAll, Bool.and_eq_true] at h
    have he : Sealed Stratum.whole.separators e.spaced :=
      separators_operand (by decide) (sealed_spaced e h.1)
    rw [separated, List.flatMap_append]
    exact he.append (sealed_continued es h.2)

/-- So are elements with a comma in front of each. -/
theorem sealed_continued : ∀ es : List Expr, fitAll es = true →
    Sealed Stratum.whole.separators ((continued es).flatMap Token.spaced)
  | [], _ => by simpa [continued] using Sealed.nil
  | e :: es, h => by
    simp only [fitAll, Bool.and_eq_true] at h
    have he : Sealed Stratum.whole.separators e.spaced :=
      separators_operand (by decide) (sealed_spaced e h.1)
    rw [continued, List.flatMap_cons, List.flatMap_append]
    exact sealed_comma.append (he.append (sealed_continued es h.2))

end

/-! ## The ends of an expression

Every expression has a first token and a last one, and neither starts or ends with a blank. -/

theorem spaced_eq (e : Expr) : e.spaced = ' ' :: e.written := by
  obtain ⟨t, ts, h⟩ := List.exists_cons_of_ne_nil e.tokens_ne_nil
  rw [written, spaced, h]
  rfl

/-- Without the space in front of it the text is sealed as well. -/
theorem sealed_written {e : Expr} {s : Stratum} (h : e.fits s = true) :
    Sealed s.separators e.written :=
  .tail (by decide) (e.spaced_eq ▸ e.sealed_spaced h)

end Expr

/-- No token has a blank at either end. -/
theorem Token.sharp_text {t : Token} (ht : t.isProper = true) : Sharp t.text := by
  have hne : t.text ≠ [] := by
    obtain ⟨c, cs, htext, -⟩ := token?_spelled (.text t) ht Apart.nil
    rw [htext]
    exact List.cons_ne_nil c cs
  by_cases hsolid : t.isSolid = true
  · refine .of_forall hne fun c hc => ?_
    rcases t.mem_text hsolid ht hc with h | h
    · exact isBlank_of_isNamePart h
    · exact (by decide : ∀ c ∈ ['-', '.', '|', '&'], isBlank c = false) c h
  · cases t with
    | str text => exact (Sharp.singleton (by decide)).join _ (.singleton (c := '"') (by decide))
    | opening b => cases b <;> exact .singleton (by decide)
    | closing b => cases b <;> exact .singleton (by decide)
    | comma => exact .singleton (by decide)
    | junk => cases ht
    | _ => exact absurd rfl hsolid

theorem sharp_spaced {t : Token} {ts : List Token} (h : ∀ u ∈ t :: ts, u.isProper = true) :
    Sharp (t.text ++ ts.flatMap Token.spaced) := by
  induction ts generalizing t with
  | nil =>
    rw [List.flatMap_nil, List.append_nil]
    exact t.sharp_text (h t List.mem_cons_self)
  | cons u ts ih =>
    exact (t.sharp_text (h t List.mem_cons_self)).join [' ']
      (ih fun v hv => h v (List.mem_cons_of_mem _ hv))

namespace Expr

variable {e : Expr}

/-- The text is that of the first token, and then each other token with a space. -/
theorem exists_written (e : Expr) :
    ∃ t ts, e.tokens = t :: ts ∧ e.written = t.text ++ ts.flatMap Token.spaced := by
  obtain ⟨t, ts, h⟩ := List.exists_cons_of_ne_nil e.tokens_ne_nil
  exact ⟨t, ts, h, by rw [written, spaced, h]; rfl⟩

/-- Neither end of the text is blank. -/
theorem sharp_written {s : Stratum} (h : e.fits s = true) : Sharp e.written := by
  obtain ⟨t, ts, htokens, hwritten⟩ := e.exists_written
  rw [hwritten]
  exact sharp_spaced (htokens ▸ isProper_of_mem_tokens e h)

end Expr

/-! ## Keywords

The first word of the text is that of the first token if this is a word, and there is none if it is
not. -/

/-- The words that statements start with. -/
def keywords : List String :=
  ["def", "class", "if", "elif", "else", "pass", "return", "import", "from"]

/-- Only words start like a word. -/
theorem exists_word_of_token? {c : Char} {rest : List Char} {t : Token} {n : Nat}
    (h : token? c rest = some (t, n)) (hc : isWordStart c = true) : ∃ text, t = .word text := by
  rw [token?_of_isWordStart hc] at h
  cases h
  exact ⟨_, rfl⟩

/-- **An expression starts with a keyword only if its first token is one.** -/
theorem Expr.firstWord_written {e : Expr} {s : Stratum} (h : e.fits s = true) {keyword : String}
    (hkeyword : keyword ∈ keywords) (hhead : e.tokens.head? ≠ some (.word keyword)) :
    Segment.firstWord e.written ≠ keyword.toList := by
  obtain ⟨t, ts, htokens, hwritten⟩ := e.exists_written
  have ht : t.isProper = true :=
    isProper_of_mem_tokens e h t (htokens ▸ List.mem_cons_self)
  have hrest : (ts.flatMap Token.spaced).head?.any isNamePart = false := by
    cases ts <;> rfl
  have hstart : keyword.toList.head?.any isWordStart = true :=
    (by decide : ∀ k ∈ keywords, k.toList.head?.any isWordStart = true) keyword hkeyword
  obtain ⟨c, cs, htext, htoken⟩ := token?_spelled (.text t) ht Apart.nil
  intro hword
  have hc : isWordStart c = true := by
    rw [← hword, hwritten, Segment.firstWord, List.head?_takeWhile, htext, List.cons_append,
      List.head?_cons, Option.any_filter, Option.any_some, Bool.and_eq_true] at hstart
    exact hstart.2
  obtain ⟨text, rfl⟩ := exists_word_of_token? htoken hc
  refine hhead ?_
  rw [hwritten, Token.text, Segment.firstWord_append (isNamePart_of_isWord ht).2 hrest] at hword
  rw [htokens, List.head?_cons, String.toList_inj.1 hword]

/-! ## Segments

A segment is read without the blanks around it, and the spans of what is read are moved to its
start. -/

/-- **A segment with the text of an expression is read as the expression.** -/
theorem Segment.expr_of_trim {e : Expr} (h : e.fits .whole = true) {seg : Segment}
    (htext : TypeReveal.trim seg.text = e.written) :
    ∃ e', seg.expr = .ok e' ∧ e'.bare = e.bare := by
  obtain ⟨e', hread, hbare⟩ := Expr.read_printed h e.printed_written seg.trim.start
  refine ⟨e', ?_, hbare⟩
  rw [Segment.expr, show seg.trim.text = e.written from htext, hread]
  rfl

end TypeReveal
