import TypeReveal.Proofs.Expr.Lexing
import TypeReveal.Proofs.Expr.Reading
import TypeReveal.Proofs.Expr.Soundness

/-!
# Expressions and their texts

Writing an expression and reading it again gives the same expression, spans aside, whatever the
gaps between the tokens and whatever the spelling of the strings: `Expr.read_printed`.  This holds
of all expressions that reading yields, and of no others: `Expr.read_roundtrip`.

* `Expr.isProper_of_mem_tokens` — what fits is written in tokens that a text can hold.
* `Expr.read_of_tokens` — a text that holds the tokens of an expression is read as the expression.
* `Expr.printed_written` — an expression with one space between its tokens is a printing of it.
-/

set_option autoImplicit false
namespace TypeReveal

namespace Expr

/-! ## Proper tokens

Going through the tokens of an expression that fits, each of them can be printed: names are words
and numbers have digits. -/

mutual

/-- **Every token of what fits can be printed.** Names are words, since an expression that fits has
no others; all the other tokens are marks, or numbers and strings by their kind. -/
theorem isProper_of_mem_tokens (e : Expr) {s : Stratum} (h : e.fits s = true) :
    ∀ t ∈ e.tokens, t.isProper = true := by
  cases e with
  | int | ellipsis | str => simp [tokens, Token.isProper]
  | none =>
    simp only [tokens, List.mem_singleton, forall_eq]
    decide
  | bool _ value => cases value <;> simp [tokens, Token.isProper] <;> decide
  | float _ text => simpa [tokens, Token.isProper, fits] using h
  | name _ text =>
    rw [fits, Bool.and_eq_true] at h
    simpa [tokens, Token.isProper] using h.1
  | binary _ op lhs rhs =>
    simp only [fits, Bool.and_eq_true] at h
    have hl := isProper_of_mem_tokens lhs h.1.2
    have hr := isProper_of_mem_tokens rhs h.2
    simpa [tokens, or_imp, forall_and, Token.isProper] using ⟨hl, hr⟩
  | dangling _ op lhs =>
    simp only [fits, Bool.and_eq_true] at h
    have hl := isProper_of_mem_tokens lhs h.2
    simpa [tokens, or_imp, forall_and, Token.isProper] using hl
  | paren _ inner =>
    have hinner := isProper_of_mem_tokens inner h
    simpa [tokens, or_imp, forall_and, Token.isProper] using hinner
  | tuple _ elems =>
    cases elems with
    | nil => simp [tokens, Token.isProper]
    | cons e es =>
      simp only [fits, List.isEmpty_cons, Bool.false_or, Bool.and_eq_true] at h
      have helems := isProper_of_mem_separated (e :: es) h.2
      -- A tuple of one element is printed with a comma behind it.
      have hcomma : ∀ t ∈ (if (e :: es).length = 1 then [.comma] else []),
          Token.isProper t = true := by
        split <;> simp [Token.isProper]
      intro t ht
      rw [tokens, List.isEmpty_cons, if_neg Bool.false_ne_true, List.mem_append] at ht
      exact ht.elim (helems t) (hcomma t)
  | list _ elems =>
    have helems := isProper_of_mem_separated elems h
    simpa [tokens, or_imp, forall_and, Token.isProper] using helems
  | subscript _ value index =>
    simp only [fits, Bool.and_eq_true] at h
    have hvalue := isProper_of_mem_tokens value h.1
    have hindex := isProper_of_mem_tokens index h.2
    simpa [tokens, or_imp, forall_and, Token.isProper] using ⟨hvalue, hindex⟩
  | member _ value attr =>
    simp only [fits, Bool.and_eq_true] at h
    have hvalue := isProper_of_mem_tokens value h.1
    simpa [tokens, or_imp, forall_and, Token.isProper] using ⟨hvalue, h.2⟩
  | call _ callee args =>
    simp only [fits, Bool.and_eq_true] at h
    have hcallee := isProper_of_mem_tokens callee h.1
    have hargs := isProper_of_mem_separated args h.2
    simpa [tokens, or_imp, forall_and, Token.isProper] using ⟨hcallee, hargs⟩

theorem isProper_of_mem_separated : ∀ es : List Expr, fitAll es = true →
    ∀ t ∈ separated es, t.isProper = true
  | [], _ => by simp [separated]
  | e :: es, h => by
    simp only [fitAll, Bool.and_eq_true] at h
    have he := isProper_of_mem_tokens e h.1
    have hes := isProper_of_mem_continued es h.2
    simpa [separated, or_imp, forall_and] using ⟨he, hes⟩

theorem isProper_of_mem_continued : ∀ es : List Expr, fitAll es = true →
    ∀ t ∈ continued es, t.isProper = true
  | [], _ => by simp [continued]
  | e :: es, h => by
    simp only [fitAll, Bool.and_eq_true] at h
    have he := isProper_of_mem_tokens e h.1
    have hes := isProper_of_mem_continued es h.2
    simpa [continued, or_imp, forall_and, Token.isProper] using ⟨he, hes⟩

end

/-! ## Reading what is written

The tokens of the text are those of the expression, whatever the gaps, and by
`Expr.readsWhole_of_fits` they are read as the expression. -/

/-- A text that holds the tokens of an expression is read as the expression. -/
theorem read_of_tokens {e : Expr} (h : e.fits .whole = true) {text : List Char} {start : Nat}
    (htokens : (lexemes start text).map Lexeme.token = e.tokens) :
    ∃ e', Expr.read text start = .ok e' ∧ e'.bare = e.bare := by
  obtain ⟨d, hrun, L, rfl, -, hexpr⟩ :=
    readsWhole_of_fits e h .text [] (lexemes start text) htokens
  obtain ⟨e', he', hbare⟩ := hexpr (start + utf8Length text)
  exact ⟨e', Expr.read_eq_ok.2 ⟨_, hrun, Draft.finish_eq_ok.2 ⟨rfl, rfl, he'⟩⟩, hbare⟩

/-- **Writing and reading.** Every printing of an expression that fits is read as the
expression. -/
theorem read_printed {e : Expr} (h : e.fits .whole = true) {text : List Char}
    (htext : Printed e.tokens text) (start : Nat) :
    ∃ e', Expr.read text start = .ok e' ∧ e'.bare = e.bare :=
  read_of_tokens h (map_token_lexemes htext (isProper_of_mem_tokens e h) start)

/-! ## One space between the tokens

The text in which an expression is written on one line is one of its printings. -/

/-- There is no expression without tokens. -/
theorem tokens_ne_nil (e : Expr) : e.tokens ≠ [] := by
  cases e with
  | tuple _ elems =>
    cases elems with
    | nil => simp [tokens]
    | cons e es =>
      have := tokens_ne_nil e
      simp [tokens, separated, this]
  | _ => simp [tokens]

theorem printed_flatMap {t : Token} {ts : List Token} :
    Printed (t :: ts) (t.text ++ ts.flatMap Token.spaced) := by
  induction ts generalizing t with
  | nil =>
    rw [List.flatMap_nil, List.append_nil]
    exact .last (.text t)
  | cons u ts ih =>
    have hgap : Gap [' '] := .unit (by decide)
    have h := Printed.more (.text t) hgap (ih (t := u))
    simpa [Token.spaced] using h

/-- The text with one space between the tokens is a printing, whose gaps are these spaces. -/
theorem printed_written (e : Expr) : Printed e.tokens e.written := by
  obtain ⟨t, ts, h⟩ := List.exists_cons_of_ne_nil e.tokens_ne_nil
  rw [written, spaced, h]
  exact printed_flatMap

/-! ## The round trip -/

/-- **Expressions and texts.** What fits is read back from each of its printings, whatever the gaps
between the tokens and the escapes in the strings; and what is read from any text fits, so that it
is read back as well.  Both halves are up to spans, which are those of the text that is read, and
start at any position. -/
theorem read_roundtrip :
    (∀ (e : Expr) (text : List Char) (start : Nat), e.fits .whole = true →
      Printed e.tokens text → ∃ e', Expr.read text start = .ok e' ∧ e'.bare = e.bare) ∧
    (∀ (text : List Char) (start : Nat) (e : Expr), Expr.read text start = .ok e →
      e.fits .whole = true ∧ ∀ (text' : List Char) (start' : Nat), Printed e.tokens text' →
        ∃ e', Expr.read text' start' = .ok e' ∧ e'.bare = e.bare) := by
  refine ⟨fun e text start h htext => read_printed h htext start, fun text start e hread => ?_⟩
  have h := fits_of_read hread
  exact ⟨h, fun text' start' htext => read_printed h htext start'⟩

/-- A union without a right operand, its operator on a line of its own. -/
theorem read_roundtrip_dangling :
    let e := dangling default .bar (list default [str default "\""])
    ∃ e', Expr.read "[ \"\\\"\" ] \\\n\t|".toList 0 = .ok e' ∧ e'.bare = e.bare ∧
      e'.fits .whole = true := by
  intro e
  have hspace : Gap [' '] := .unit (by decide)
  have hlast : Gap ([' '] ++ (['\\', '\n'] ++ ['\t'])) :=
    .more (by decide) (.more (by decide) (.unit (by decide)))
  have hprinted : Printed e.tokens "[ \"\\\"\" ] \\\n\t|".toList :=
    .more (.text _) hspace (.more (.text _) hspace (.more (.text _) hlast (.last (.text _))))
  obtain ⟨e', hread, hbare⟩ := read_roundtrip.1 e _ 0 (by decide) hprinted
  exact ⟨e', hread, hbare, (read_roundtrip.2 _ _ _ hread).1⟩

end Expr
end TypeReveal
