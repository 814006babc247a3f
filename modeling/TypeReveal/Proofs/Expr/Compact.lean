import Mathlib.Data.List.Forall2
import TypeReveal.Proofs.Expr.Shift
import TypeReveal.Proofs.Expr.Written
import TypeReveal.Proofs.Statement.Parts
import TypeReveal.Proofs.Text.Escape

/-!
# Expressions in compact form

The form in which types are shown: names, literals with strings in single quotes, subscripts with no
space inside their brackets and one after each comma, and unions with a space on either side of the
bar.  `Compact s e text` says that such a text holds the tokens of an expression of the stratum `s`
and is taken for one piece by the rest of a statement.

There is one lemma for each part of the form.  Without a gap after every token, a token ends where
it was meant to because a bracket, a comma or a space follows (`Apart.cons`).

The text of a type has to be read in two ways: as an expression, by its tokens, and as a part of a
statement, for which it must be sealed and sharp.  `Compact` has both, and so each lemma of this
file shows both for one way of putting texts together.
-/

set_option autoImplicit false
namespace TypeReveal

/-! ## Tokens of a text

The tokens without their spans, which do not depend on where the text stands. -/

/-- The tokens of a text, wherever it stands. -/
def tokensOf (text : List Char) : List Token := (lexemes 0 text).map Lexeme.token

theorem map_token_lexemes_eq (pos : Nat) (text : List Char) :
    (lexemes pos text).map Lexeme.token = tokensOf text := by
  have hshift := lexemes_shift pos 0 text
  rw [Nat.zero_add] at hshift
  rw [hshift, List.map_map]
  rfl

theorem tokensOf_of_token? {c : Char} {cs rest : List Char} {t : Token}
    (h : token? c (cs ++ rest) = some (t, cs.length)) :
    tokensOf (c :: (cs ++ rest)) = t :: tokensOf rest := by
  rw [tokensOf, lexemes_of_token? h, List.map_cons, map_token_lexemes_eq]

theorem tokensOf_spelled {t : Token} {s rest : List Char} (hs : Spelled t s)
    (ht : t.isProper = true) (hrest : Apart rest) :
    tokensOf (s ++ rest) = t :: tokensOf rest := by
  rw [tokensOf, lexemes_spelled hs ht hrest, List.map_cons, map_token_lexemes_eq]

theorem tokensOf_space (rest : List Char) : tokensOf (' ' :: rest) = tokensOf rest := by
  rw [tokensOf, show ' ' :: rest = [' '] ++ rest from rfl, lexemes_unit_append (by decide),
    map_token_lexemes_eq]

/-- A character that is a token by itself, whatever follows. -/
theorem tokensOf_mark {c : Char} {t : Token} (h : ∀ rest, token? c rest = some (t, 0))
    (rest : List Char) : tokensOf (c :: rest) = t :: tokensOf rest :=
  @tokensOf_of_token? c [] rest t (h rest)

theorem Apart.cons {c : Char} (h : isWordPart c = false ∧ c ≠ '.') (rest : List Char) :
    Apart (c :: rest) := by
  rintro _ ⟨⟩
  exact h

/-! ## Texts with commas

The list with a comma and a space between its elements is also the one that separators of statements
know. -/

theorem commaList_cons_cons (text next : List Char) (more : List (List Char)) :
    commaList (text :: next :: more) = text ++ ',' :: ' ' :: commaList (next :: more) := by
  rw [commaList, List.intercalate_cons_cons, List.append_assoc]
  rfl

theorem commaList_eq_listed (texts : List (List Char)) : commaList texts = listed texts := by
  induction texts with
  | nil => rfl
  | cons text more ih =>
    cases more with
    | nil => exact List.intercalate_singleton
    | cons next more => rw [commaList_cons_cons, listed_cons_cons, ih]

/-! ## Compact texts

From the parts to the whole.  For the tokens what follows a part has to be apart from it, and a
bracket, a comma and a space are. -/

namespace Expr

/-- The expression in the brackets of a subscript. -/
def index : List Expr → Expr
  | [e] => e
  | es => .tuple default es

/-- A name with arguments in square brackets. -/
def withArguments (name : String) (args : List Expr) : Expr :=
  .subscript default (.name default name) (index args)

/-- **A text is a compact form** of an expression of the stratum `s`. -/
structure Compact (s : Stratum) (e : Expr) (text : List Char) : Prop where
  tokens : ∀ rest, Apart rest → tokensOf (text ++ rest) = e.tokens ++ tokensOf rest
  fits : e.fits s = true
  sealed : Sealed separators text
  sharp : Sharp text

namespace Compact

variable {s : Stratum} {e lhs rhs : Expr} {es : List Expr} {text lhsText rhsText : List Char}
  {texts : List (List Char)}

theorem bar (h : Compact .primary e text) : Compact .bar e text :=
  { h with fits := fits_bar_of_amp (fits_amp_of_primary h.fits) }

/-- A word or a number. -/
theorem solid {t : Token} (hsolid : t.isSolid = true) (ht : t.isProper = true)
    (htokens : e.tokens = [t]) (hfits : e.fits s = true) : Compact s e t.text where
  tokens rest hrest := by rw [htokens, tokensOf_spelled (.text t) ht hrest, List.singleton_append]
  fits := hfits
  sealed := t.sealed_of_isSolid hsolid ht
  sharp := t.sharp_text ht

theorem name {name : String} (h : (Expr.name default name).fits s = true) :
    Compact s (.name default name) name.toList := by
  have hword := h
  rw [Expr.fits, Bool.and_eq_true] at hword
  exact solid (t := .word name) rfl hword.1 rfl h

/-- A string in single quotes. -/
theorem str {value : String} (h : ∀ c ∈ value.toList, isTyped c = true) :
    Compact s (.str default value) (Literal.str value).text where
  tokens rest _ := by
    have htoken := token?_escapeAscii h rest
    have hlength : (escapeAscii value.toList).length + 1 =
        (escapeAscii value.toList ++ ['\'']).length := by simp
    rw [hlength, List.append_cons, String.ofList_toList] at htoken
    exact tokensOf_of_token? htoken
  fits := rfl
  sealed := (quotable_escapeAscii h).sealed (.inr rfl)
  sharp := (Sharp.singleton (by decide)).join _ (.singleton (c := '\'') (by decide))

/-- The tokens of what stands in brackets, with commas between the elements. -/
theorem tokensOf_commaList (h : List.Forall₂ (Compact .bar) es texts) {rest : List Char}
    (hrest : Apart rest) : tokensOf (commaList texts ++ rest) = separated es ++ tokensOf rest := by
  induction h with
  | nil => rfl
  | cons he hes ih =>
    cases hes with
    | nil => simpa [commaList, separated, continued] using he.tokens rest hrest
    | cons hnext hes =>
      have hcomma := tokensOf_mark (c := ',') (t := .comma) fun _ => rfl
      rw [commaList_cons_cons, List.append_assoc, List.cons_append, List.cons_append,
        he.tokens _ (.cons (by decide) _), hcomma, tokensOf_space, ih]
      simp [separated, continued]

theorem fitAll_of_forall₂ (h : List.Forall₂ (Compact .bar) es texts) : fitAll es = true := by
  induction h with
  | nil => rfl
  | cons he _ ih => rw [fitAll, he.fits, ih, Bool.and_self]

theorem sealed_of_forall₂ (h : List.Forall₂ (Compact .bar) es texts) :
    ∀ text ∈ texts, Sealed separators text := by
  induction h with
  | nil => exact fun _ hmem => absurd hmem List.not_mem_nil
  | cons he _ ih =>
    intro text hmem
    rcases List.mem_cons.1 hmem with rfl | hmem
    · exact he.sealed
    · exact ih text hmem

/-- **A subscript** of a name. -/
theorem subscript {name : String} (hname : (Expr.name default name).fits .primary = true)
    (htokens : ∀ rest, Apart rest → tokensOf (text ++ rest) = e.tokens ++ tokensOf rest)
    (hfits : e.fits .whole = true) (hsealed : Sealed [] text) :
    Compact s (.subscript default (.name default name) e)
      (name.toList ++ '[' :: (text ++ [']'])) := by
  have hcompact := Compact.name hname
  refine ⟨fun rest _ => ?_, ?_, hcompact.sealed.append (hsealed.bracket rfl rfl), ?_⟩
  · have hopening := tokensOf_mark (c := '[') (t := .opening .square) fun _ => rfl
    have hclosing := tokensOf_mark (c := ']') (t := .closing .square) fun _ => rfl
    have htext : name.toList ++ '[' :: (text ++ [']']) ++ rest =
        name.toList ++ '[' :: (text ++ ']' :: rest) := by simp
    rw [htext, hcompact.tokens _ (.cons (by decide) _), hopening,
      htokens _ (.cons (by decide) _), hclosing]
    simp [Expr.tokens]
  · rw [Expr.fits, hname, hfits, Bool.and_self]
  · exact hcompact.sharp.join ('[' :: text) (.singleton (c := ']') (by decide))

/-- A name with arguments. -/
theorem withArguments {name : String} (hname : (Expr.name default name).fits .primary = true)
    (hne : es ≠ []) (h : List.Forall₂ (Compact .bar) es texts) :
    Compact s (Expr.withArguments name es) (name.toList ++ bracketList texts) := by
  have hindex : (index es).tokens = separated es := by
    match es, hne with
    | [_], _ => simp [index, separated, continued]
    | _ :: _ :: _, _ => simp [index, Expr.tokens]
  refine subscript hname (fun rest hrest => ?_) ?_ ?_
  · rw [hindex, tokensOf_commaList h hrest]
  · match es, fitAll_of_forall₂ h with
    | [e], hfits => exact fits_whole_of_bar (Bool.and_eq_true _ _ ▸ hfits).1
    | [], _ => rfl
    | _ :: _ :: _, hfits => simpa [index, Expr.fits] using hfits
  · rw [commaList_eq_listed]
    refine sealed_listed (by simp) (by simp) fun text htext => ?_
    exact (sealed_of_forall₂ h text htext).mono (List.nil_subset _)

/-- A name with no arguments in its brackets. -/
theorem withoutArguments {name : String}
    (hname : (Expr.name default name).fits .primary = true) :
    Compact s (Expr.withArguments name []) (name.toList ++ "[()]".toList) := by
  have hopening := tokensOf_mark (c := '(') (t := .opening .round) fun _ => rfl
  have hclosing := tokensOf_mark (c := ')') (t := .closing .round) fun _ => rfl
  have htokens : ∀ rest, Apart rest →
      tokensOf (['(', ')'] ++ rest) = (Expr.tuple default []).tokens ++ tokensOf rest := by
    intro rest _
    rw [List.cons_append, hopening, List.cons_append, hclosing]
    rfl
  exact subscript hname htokens rfl (Sealed.nil.bracket rfl rfl)

/-- **A union** of two texts. -/
theorem binary (hlhs : Compact .bar lhs lhsText) (hrhs : Compact .primary rhs rhsText) :
    Compact .bar (.binary default .bar lhs rhs) (lhsText ++ (" | ".toList ++ rhsText)) where
  tokens rest hrest := by
    have hbar := tokensOf_mark (c := '|') (t := .operator .bar) fun _ => rfl
    have htext : lhsText ++ (" | ".toList ++ rhsText) ++ rest =
        lhsText ++ ' ' :: '|' :: ' ' :: (rhsText ++ rest) := by simp
    rw [htext, hlhs.tokens _ (.cons (by decide) _), tokensOf_space, hbar, tokensOf_space,
      hrhs.tokens _ hrest, Expr.tokens, List.append_assoc, List.cons_append]
  fits := by
    rw [Expr.fits, Operator.before, Operator.after, hlhs.fits, fits_amp_of_primary hrhs.fits]
    rfl
  sealed := hlhs.sealed.append (.append (.of_forall (by decide)) hrhs.sealed)
  sharp := hlhs.sharp.join _ hrhs.sharp

/-- **A compact form is read as the expression.** -/
theorem read (h : Compact s e text) (start : Nat) :
    ∃ e', Expr.read text start = .ok e' ∧ e'.bare = e.bare := by
  have hwhole : e.fits .whole = true := fits_mono (fun _ _ => rfl) (fun _ => rfl) h.fits
  refine read_of_tokens hwhole ?_
  have htokens := h.tokens [] Apart.nil
  rw [List.append_nil] at htokens
  rw [map_token_lexemes_eq, htokens]
  simp [tokensOf, lexemes]

end Compact

end Expr

end TypeReveal
