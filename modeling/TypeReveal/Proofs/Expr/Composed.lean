import TypeReveal.Proofs.Expr.Joined
import TypeReveal.Proofs.Text.Trim

/-!
# Texts put together

Texts of expressions with parentheses, commas and operators around them are texts of expressions.
Spans aside, the parts are what they are alone: each of them has the same tokens in its place, and
derivations do not depend on where tokens stand.

* `Expr.Holds s e text` — the text is the expression, of the stratum `s`, wherever it stands.
* `Expr.ofText?_trim` — the blank characters around an expression do not count, but for a line break
  behind a backslash at the end.

What stands behind a text can change its last token, as when a letter follows a name.  So a text
holds an expression if it does wherever what follows stands apart from it: a bracket, a comma, a
blank or an operator does.

Spans are set aside (`Expr.bare`).  They differ in the text as a whole from those in its parts, and
the theorems that use this file are about what annotations mean, for which spans are of no account.
-/

set_option autoImplicit false
namespace TypeReveal

namespace Expr

/-! ## Derivations of a text

From reading to derivations and back: a text is read as an expression if its tokens are derived as
one, and the expression is the derived one but for spans. -/

mutual

/-- An expression is the same, spans aside, wherever it stands. -/
theorem bare_shift (n : Nat) : ∀ e : Expr, (e.shift n).bare = e.bare
  | int .. | float .. | bool .. | none _ | ellipsis _ | str .. | name .. => rfl
  | binary _ op lhs rhs => by rw [shift, bare, bare, bare_shift n lhs, bare_shift n rhs]
  | dangling _ op lhs => by rw [shift, bare, bare, bare_shift n lhs]
  | paren _ inner => by rw [shift, bare, bare, bare_shift n inner]
  | tuple _ elems => by rw [shift, bare, bare, bareAll_shiftAll n elems]
  | list _ elems => by rw [shift, bare, bare, bareAll_shiftAll n elems]
  | subscript _ value index => by rw [shift, bare, bare, bare_shift n value, bare_shift n index]
  | member _ value attr => by rw [shift, bare, bare, bare_shift n value]
  | call _ callee args => by
    rw [shift, bare, bare, bare_shift n callee, bareAll_shiftAll n args]

theorem bareAll_shiftAll (n : Nat) : ∀ es : List Expr, bareAll (shiftAll n es) = bareAll es
  | [] => rfl
  | e :: es => by rw [shiftAll, bareAll, bareAll, bare_shift n e, bareAll_shiftAll n es]

end

variable {text : List Char} {e : Expr}

theorem ofText?_eq_some_iff : ofText? text = some e ↔ Expr.read text 0 = .ok e := by
  rw [ofText?]
  cases Expr.read text 0 <;> simp [Except.toOption]

/-- A text that is an expression is read as the expression wherever it stands. -/
theorem read_of_ofText? (h : ofText? text = some e) (pos : Nat) :
    Expr.read text pos = .ok (e.shift pos) := by
  have hread := Expr.read_shift text 0 pos
  rw [Nat.zero_add, ofText?_eq_some_iff.1 h] at hread
  exact hread

theorem derives_of_ofText? (h : ofText? text = some e) (pos : Nat) :
    DerivesWhole (lexemes pos text) (pos + utf8Length text) (e.shift pos) :=
  Expr.derives_of_read (read_of_ofText? h pos)

theorem lexed_of_ofText? (h : ofText? text = some e) (pos : Nat) :
    Lexed pos text (lexemes pos text) :=
  lexed_of_lexemes pos text (Expr.not_junk_of_read (read_of_ofText? h pos))

/-- A text with the tokens of a whole expression is that expression. -/
theorem ofText?_of_derives {pos : Nat}
    (h : DerivesWhole (lexemes pos text) (pos + utf8Length text) e) :
    ∃ e', ofText? text = some e' ∧ e'.bare = e.bare := by
  have hmoved := Expr.read_shift text 0 pos
  rw [Nat.zero_add, Expr.read_of_derives h] at hmoved
  cases hread : Expr.read text 0 with
  | error err =>
    rw [hread] at hmoved
    cases hmoved
  | ok e' =>
    rw [hread] at hmoved
    obtain rfl := Except.ok.inj hmoved
    exact ⟨e', ofText?_eq_some_iff.2 hread, (bare_shift pos e').symm⟩

end Expr

/-! ## Tokens of texts put together

An operator, a bracket or a comma is a token by itself, whatever stands around it.  A whole
expression is an element unless it is a tuple with its commas outside of any bracket. -/

/-- The character that an operator is written with. -/
def Operator.mark : Operator → Char
  | bar => '|'
  | amp => '&'

/-- The character that opens a bracket. -/
def Bracket.left : Bracket → Char
  | round => '('
  | square => '['

/-- The character that closes a bracket. -/
def Bracket.right : Bracket → Char
  | round => ')'
  | square => ']'

/-- A whole expression whose text ends elsewhere. -/
theorem DerivesWhole.exists_next {ls : List Lexeme} {next : Nat} {e : Expr}
    (h : DerivesWhole ls next e) (next' : Nat) :
    ∃ e', DerivesWhole ls next' e' ∧ e'.bare = e.bare := by
  rcases derivesWhole_iff.1 h with hbar | ⟨first, rest, comma, ended, hfills, rfl⟩
  · exact ⟨e, hbar.whole next', rfl⟩
  · exact ⟨_, ⟨_, _, _, hfills, rfl⟩, rfl⟩

/-- A whole expression that is no tuple, or the empty one, is an element. -/
theorem DerivesWhole.element {ls : List Lexeme} {next : Nat} {e : Expr}
    (h : DerivesWhole ls next e) (he : ∀ span first rest, e ≠ .tuple span (first :: rest)) :
    Derives .bar ls e := by
  rcases derivesWhole_iff.1 h with hbar | ⟨first, rest, comma, ended, -, rfl⟩
  · exact hbar
  · exact absurd rfl (he _ _ _)

/-- What fits where no operation stands is derived without one. -/
theorem Derives.toPrimary : ∀ {s : Stratum} {ls : List Lexeme} {e : Expr}, Derives s ls e →
    e.fits .primary = true → Derives .primary ls e
  | _, _, _, .amp h, _ => h
  | _, _, _, .bar h, he => h.toPrimary he
  | _, _, _, .operand h, _ => .operand h
  | _, _, _, .unit hl hr, _ => .unit hl hr
  | _, _, _, .paren hl h hinner hr, _ => .paren hl h hinner hr
  | _, _, _, .list hl h hr, _ => .list hl h hr
  | _, _, _, .call hcallee hl h hr, _ => .call hcallee hl h hr
  | _, _, _, .subscript hvalue hl h hindex hr, _ => .subscript hvalue hl h hindex hr
  | _, _, _, .member hvalue hl hr, _ => .member hvalue hl hr

/-- Elements without a comma at the end are one, or else a tuple. -/
theorem Fills.exists_whole {ls : List Lexeme} {es : List Expr} {comma? : Option Nat}
    (h : Fills ls es comma? true) (next : Nat) :
    ∃ e, wholeOf? es comma? true next = some e ∧ e.bare = (Expr.index es).bare := by
  cases h with
  | @next _ _ front _ last hfront =>
    cases hfront with
    | empty => exact ⟨last, rfl, rfl⟩
    | comma hcomma =>
      obtain ⟨first, rest, rfl⟩ := List.exists_cons_of_ne_nil hcomma.ne_nil
      refine ⟨_, rfl, ?_⟩
      cases rest <;> rfl

namespace Expr

/-! ## Texts that hold expressions

One lemma for each way of putting texts together that occurs in annotations: in parentheses, with an
operator between them, with commas, and in square brackets behind a text. -/

/-- **A text holds an expression** of the stratum `s`, spans aside, wherever it stands and whatever
stands apart behind it. -/
def Holds (s : Stratum) (e : Expr) (text : List Char) : Prop :=
  ∀ pos rest, Apart rest → ∃ ls e',
    lexemes pos (text ++ rest) = ls ++ lexemes (pos + utf8Length text) rest ∧
      Derives s ls e' ∧ e'.bare = e.bare

theorem bare_index (es : List Expr) : (index es).bare = index (es.map bare) := by
  match es with
  | [] | [_] => rfl
  | _ :: _ :: _ => simp [index, bare, bareAll_eq_map]

/-- The expression that a pair of parentheses is, with some elements in it. -/
def group : List Expr → Expr
  | [] => .tuple default []
  | es => .paren default (index es)

variable {s : Stratum} {text text' : List Char} {e e' : Expr} {texts : List (List Char)}
  {es : List Expr}

/-- **A text that is an element** holds it. -/
theorem holds_of_ofText? (h : ofText? text = some e) (he : e.fits .bar = true) :
    Holds .bar e text := by
  intro pos rest hrest
  have htuple : ∀ span first more, e.shift pos ≠ .tuple span (first :: more) := by
    intro span first more heq
    cases e with
    | tuple _ elems =>
      cases elems with
      | nil => cases heq
      | cons => cases he
    | _ => cases heq
  exact ⟨_, _, (lexed_of_ofText? h pos).lexemes_append hrest,
    (derives_of_ofText? h pos).element htuple, bare_shift pos e⟩

mutual

/-- Whether an expression fits does not depend on its spans. -/
theorem fits_bare (s : Stratum) : ∀ e : Expr, e.bare.fits s = e.fits s
  | int .. | float .. | bool .. | none _ | ellipsis _ | str .. | name .. => rfl
  | binary _ op lhs rhs => by rw [bare, fits, fits, fits_bare _ lhs, fits_bare _ rhs]
  | dangling _ op lhs => by rw [bare, fits, fits, fits_bare _ lhs]
  | paren _ inner => by rw [bare, fits, fits, fits_bare _ inner]
  | tuple _ elems => by
    have hempty : (bareAll elems).isEmpty = elems.isEmpty := by cases elems <;> rfl
    rw [bare, fits, fits, hempty, fitAll_bareAll elems]
  | list _ elems => by rw [bare, fits, fits, fitAll_bareAll elems]
  | subscript _ value index => by rw [bare, fits, fits, fits_bare _ value, fits_bare _ index]
  | member _ value attr => by rw [bare, fits, fits, fits_bare _ value]
  | call _ callee args => by rw [bare, fits, fits, fits_bare _ callee, fitAll_bareAll args]

theorem fitAll_bareAll : ∀ es : List Expr, fitAll (bareAll es) = fitAll es
  | [] => rfl
  | e :: es => by rw [bareAll, fitAll, fitAll, fits_bare _ e, fitAll_bareAll es]

end

/-- A text that is an operand without operators holds it as such. -/
theorem holds_primary_of_ofText? (h : ofText? text = some e) (he : e.fits .primary = true) :
    Holds .primary e text := by
  intro pos rest hrest
  obtain ⟨ls, e', hls, hderives, hbare⟩ :=
    holds_of_ofText? h (fits_bar_of_amp (fits_amp_of_primary he)) pos rest hrest
  have he' : e'.fits .primary = true := by rw [← fits_bare, hbare, fits_bare, he]
  exact ⟨ls, e', hls, hderives.toPrimary he', hbare⟩

/-- The tokens of a text in brackets. -/
theorem lexemes_enclosed (b : Bracket) {pos : Nat} {ls : List Lexeme} {rest : List Char}
    (h : lexemes (pos + 1) (text ++ b.right :: rest) =
      ls ++ lexemes (pos + 1 + utf8Length text) (b.right :: rest)) :
    ∃ l r : Lexeme, l.token = .opening b ∧ r.token = .closing b ∧
      r.span.start = pos + 1 + utf8Length text ∧
      lexemes pos (b.left :: (text ++ [b.right]) ++ rest) =
        l :: (ls ++ [r]) ++ lexemes (pos + utf8Length (b.left :: (text ++ [b.right]))) rest := by
  have hleft : b.left.utf8Size = 1 := by cases b <;> rfl
  have hright : b.right.utf8Size = 1 := by cases b <;> rfl
  have htext : b.left :: (text ++ [b.right]) ++ rest = b.left :: (text ++ b.right :: rest) := by
    simp
  have hstop : pos + utf8Length (b.left :: (text ++ [b.right])) =
      pos + 1 + utf8Length text + 1 := by
    simp [Nat.add_assoc, hleft, hright]
  obtain ⟨l, hl, -, hopening⟩ := @exists_lexeme_mark b.left (.opening b)
    (fun _ => by cases b <;> rfl) pos (text ++ b.right :: rest)
  obtain ⟨r, hr, hstart, hclosing⟩ := @exists_lexeme_mark b.right (.closing b)
    (fun _ => by cases b <;> rfl) (pos + 1 + utf8Length text) rest
  refine ⟨l, r, hl, hr, hstart, ?_⟩
  rw [htext, hopening, hleft, h, hclosing, hstop, hright]
  simp

/-- **A text in parentheses**, whatever expression it is. -/
theorem holds_paren (h : ofText? text = some e) :
    Holds .primary (.paren default e) ('(' :: (text ++ [')'])) := by
  intro pos rest _
  obtain ⟨l, r, hl, hr, hstart, hlexemes⟩ :=
    lexemes_enclosed .round ((lexed_of_ofText? h (pos + 1)).lexemes_append (.cons (by decide) rest))
  obtain ⟨es, comma?, ended, hfills, hwhole⟩ := derives_of_ofText? h (pos + 1)
  rw [← hstart] at hwhole
  refine ⟨_, _, hlexemes, .paren hl hfills hwhole hr, ?_⟩
  rw [bare, bare, bare_shift]

theorem Holds.toAmp (h : Holds .primary e text) : Holds .amp e text := by
  intro pos rest hrest
  obtain ⟨ls, e', hls, hderives, hbare⟩ := h pos rest hrest
  exact ⟨ls, e', hls, .amp hderives, hbare⟩

theorem Holds.toBar (h : Holds .amp e text) : Holds .bar e text := by
  intro pos rest hrest
  obtain ⟨ls, e', hls, hderives, hbare⟩ := h pos rest hrest
  exact ⟨ls, e', hls, .bar hderives, hbare⟩

/-- **An operation** on two texts. -/
theorem Holds.binary {op : Operator} (hlhs : Holds op.before e text)
    (hrhs : Holds op.after e' text') :
    Holds op.before (.binary default op e e') (text ++ (' ' :: op.mark :: ' ' :: text')) := by
  intro pos rest hrest
  have hspace := @lexemes_unit_append [' '] (by decide)
  have hone : op.mark.utf8Size = 1 := by cases op <;> rfl
  have htext : text ++ (' ' :: op.mark :: ' ' :: text') ++ rest =
      text ++ ([' '] ++ op.mark :: ([' '] ++ (text' ++ rest))) := by simp
  have hstop : pos + utf8Length (text ++ (' ' :: op.mark :: ' ' :: text')) =
      pos + utf8Length text + 1 + 1 + 1 + utf8Length text' := by
    rw [utf8Length_append, utf8Length_cons, utf8Length_cons, utf8Length_cons, hone,
      show ' '.utf8Size = 1 from rfl]
    omega
  obtain ⟨ls, l, hls, hl, hlbare⟩ :=
    hlhs pos ([' '] ++ op.mark :: ([' '] ++ (text' ++ rest))) (.cons (by decide) _)
  obtain ⟨o, ho, -, hmark⟩ := @exists_lexeme_mark op.mark (.operator op)
    (fun _ => by cases op <;> rfl) (pos + utf8Length text + 1) ([' '] ++ (text' ++ rest))
  obtain ⟨rs, r, hrs, hr, hrbare⟩ := hrhs (pos + utf8Length text + 1 + 1 + 1) rest hrest
  refine ⟨_, _, ?_, .binary hl ho hr, by rw [bare, bare, hlbare, hrbare]⟩
  calc lexemes pos (text ++ (' ' :: op.mark :: ' ' :: text') ++ rest)
    _ = ls ++ lexemes (pos + utf8Length text + 1)
          (op.mark :: ([' '] ++ (text' ++ rest))) := by
      rw [htext, hls, hspace, utf8Length_cons]
      rfl
    _ = ls ++ o :: lexemes (pos + utf8Length text + 1 + 1 + 1) (text' ++ rest) := by
      rw [hmark, hspace, hone]
      rfl
    _ = _ := by rw [hrs, hstop, List.append_assoc, List.cons_append]

/-- **Texts with commas between them** are the elements that they hold, whatever elements stand
before them. -/
theorem exists_fills_commaList (h : List.Forall₂ (Holds .bar) es texts) (hne : texts ≠ [])
    {before : List Lexeme} {fs : List Expr} {comma? : Option Nat}
    (hbefore : Fills before fs comma? false) (pos : Nat) {rest : List Char} (hrest : Apart rest) :
    ∃ ls es' comma?', lexemes pos (commaList texts ++ rest) =
        ls ++ lexemes (pos + utf8Length (commaList texts)) rest ∧
      Fills (before ++ ls) (fs ++ es') comma?' true ∧ es'.map bare = es.map bare := by
  induction h generalizing before fs comma? pos with
  | nil => exact absurd rfl hne
  | @cons e text es texts he hes ih =>
    cases hes with
    | nil =>
      obtain ⟨ls, e', hls, hderives, hbare⟩ := he pos rest hrest
      rw [show commaList [text] = text from List.intercalate_singleton]
      exact ⟨ls, [e'], comma?, hls, hbefore.next hderives, by rw [List.map_singleton, hbare]; rfl⟩
    | @cons next nextText es more hnext hes =>
      have htext : commaList (text :: nextText :: more) ++ rest =
          text ++ ',' :: ([' '] ++ (commaList (nextText :: more) ++ rest)) := by
        rw [commaList_cons_cons]
        simp
      have hstop : pos + utf8Length (commaList (text :: nextText :: more)) =
          pos + utf8Length text + 1 + 1 + utf8Length (commaList (nextText :: more)) := by
        rw [commaList_cons_cons, utf8Length_append, utf8Length_cons, utf8Length_cons,
          show ','.utf8Size = 1 from rfl, show ' '.utf8Size = 1 from rfl]
        omega
      -- The comma is the character that keeps the item apart from what follows it.
      obtain ⟨ls, e', hls, hderives, hbare⟩ :=
        he pos (',' :: ([' '] ++ (commaList (nextText :: more) ++ rest))) (.cons (by decide) _)
      obtain ⟨comma, hcomma, -, hmark⟩ := @exists_lexeme_mark ',' .comma (fun _ => rfl)
        (pos + utf8Length text) ([' '] ++ (commaList (nextText :: more) ++ rest))
      obtain ⟨ms, es', comma?', hms, hfills, hes'⟩ := ih (List.cons_ne_nil _ _)
        ((hbefore.next hderives).comma hcomma) (pos + utf8Length text + 1 + 1)
      refine ⟨ls ++ comma :: ms, e' :: es', comma?', ?_, by simpa using hfills, ?_⟩
      · calc lexemes pos (commaList (text :: nextText :: more) ++ rest)
          _ = ls ++ comma :: lexemes (pos + utf8Length text + 1)
                ([' '] ++ (commaList (nextText :: more) ++ rest)) := by
            rw [htext, hls, hmark]
            rfl
          _ = ls ++ comma :: lexemes (pos + utf8Length text + 1 + 1)
                (commaList (nextText :: more) ++ rest) := by
            rw [lexemes_unit_append (by decide)]
            rfl
          _ = _ := by rw [hms, hstop, List.append_assoc, List.cons_append]
      · rw [List.map_cons, List.map_cons, hbare, hes']

/-- **A list of texts in parentheses** holds the elements together. -/
theorem holds_group (h : List.Forall₂ (Holds .bar) es texts) :
    Holds .primary (group es) ('(' :: (commaList texts ++ [')'])) := by
  intro pos rest _
  have hparens : Apart (')' :: rest) := .cons (by decide) rest
  cases h with
  | nil =>
    obtain ⟨l, r, hl, hr, -, hlexemes⟩ :=
      @lexemes_enclosed [] .round pos [] rest (by rw [List.nil_append]; rfl)
    exact ⟨_, _, hlexemes, .unit hl hr, rfl⟩
  | @cons e text es texts he hes =>
    obtain ⟨ls, es', comma?, hls, hfills, hes'⟩ :=
      exists_fills_commaList (.cons he hes) (List.cons_ne_nil _ _) .empty (pos + 1) hparens
    obtain ⟨l, r, hl, hr, -, hlexemes⟩ := lexemes_enclosed .round hls
    obtain ⟨inner, hinner, hbare⟩ := hfills.exists_whole r.span.start
    refine ⟨_, _, hlexemes, .paren hl hfills hinner hr, ?_⟩
    rw [bare, hbare, List.nil_append, bare_index, hes', ← bare_index]
    rfl

/-- The text of a subscript. -/
def subscriptText (value : List Char) (args : List (List Char)) : List Char :=
  value ++ '[' :: (commaList args ++ [']'])

/-- **A text with a list of texts in square brackets** behind it is a subscript. -/
theorem Holds.subscript (hvalue : Holds .primary e text) (h : List.Forall₂ (Holds .bar) es texts)
    (hne : texts ≠ []) :
    Holds .primary (.subscript default e (index es)) (subscriptText text texts) := by
  intro pos rest _
  rw [subscriptText]
  have hapart : Apart (']' :: rest) := .cons (by decide) rest
  obtain ⟨vs, value, hvs, hderives, hvalueBare⟩ :=
    hvalue pos ('[' :: (commaList texts ++ [']']) ++ rest) (.cons (by decide) _)
  obtain ⟨ls, es', comma?, hls, hfills, hes'⟩ :=
    exists_fills_commaList h hne .empty (pos + utf8Length text + 1) hapart
  obtain ⟨l, r, hl, hr, -, hlexemes⟩ := lexemes_enclosed .square hls
  obtain ⟨inner, hinner, hbare⟩ := hfills.exists_whole r.span.start
  refine ⟨vs ++ l :: (ls ++ [r]), _, ?_, .subscript hderives hl hfills hinner hr, ?_⟩
  · have hstop : pos + utf8Length (text ++ '[' :: (commaList texts ++ [']'])) =
        pos + utf8Length text + utf8Length ('[' :: (commaList texts ++ [']'])) := by
      rw [utf8Length_append, Nat.add_assoc]
    rw [List.append_assoc, hvs, hstop, List.append_assoc]
    exact congrArg (vs ++ ·) hlexemes
  · rw [bare, bare, hvalueBare, hbare, List.nil_append, bare_index, hes', ← bare_index]

/-! ## Reading

Blanks at the ends of a text are skipped before its first token and behind its last one.  A
backslash before a line break is skipped with it, and by itself it is junk; that is why trimming
away the line break can make junk of what was a blank. -/

/-- **A text that holds an expression** is read as the expression. -/
theorem Holds.ofText? (h : Holds s e text) : ∃ e', ofText? text = some e' ∧ e'.bare = e.bare := by
  obtain ⟨ls, e', hls, hderives, hbare⟩ := h 0 [] .nil
  rw [List.append_nil, lexemes, List.append_nil] at hls
  subst hls
  obtain ⟨f, hf, hfbare⟩ := ofText?_of_derives (hderives.whole (0 + utf8Length text))
  exact ⟨f, hf, hfbare.trans hbare⟩

/-- **The blank characters around an expression** do not count, if no backslash is left at the
end. -/
theorem ofText?_trim (h : ofText? text = some e) (hlast : (trim text).getLast? ≠ some '\\') :
    ∃ e', ofText? (trim text) = some e' ∧ e'.bare = e.bare := by
  obtain ⟨u, v, htext, hu, hv⟩ := exists_trim text
  have hlexed := lexed_of_ofText? h 0
  have hwhole := derives_of_ofText? h 0
  generalize lexemes 0 text = ls at hlexed hwhole
  rw [htext] at hlexed
  have htrimmed := (hlexed.of_blank_append hu).of_append_blank hv hlast
  obtain ⟨e', he', hbare⟩ := hwhole.exists_next (0 + utf8Length u + utf8Length (trim text))
  rw [← htrimmed.lexemes_eq] at he'
  obtain ⟨f, hf, hfbare⟩ := ofText?_of_derives he'
  exact ⟨f, hf, hfbare.trans (hbare.trans (bare_shift 0 e))⟩

/-- There is no expression in a blank text. -/
theorem trim_ne_nil_of_ofText? (h : ofText? text = some e) : trim text ≠ [] := by
  intro hnil
  obtain ⟨u, v, htext, hu, hv⟩ := exists_trim text
  have hblank : ∀ c ∈ text, isBlank c = true := by
    rw [htext, hnil, List.nil_append]
    exact fun c hc => (List.mem_append.1 hc).elim (hu c) (hv c)
  have hstarts := (derives_of_ofText? h 0).ends.1
  rw [(lexed_of_ofText? h 0).eq_nil_of_blank hblank] at hstarts
  cases hstarts

/-- A backslash at the end of a text makes junk of it. -/
theorem ofText?_eq_none (h : text.getLast? = some '\\') : ofText? text = Option.none := by
  cases htext : ofText? text with
  | none => rfl
  | some e => exact absurd h (lexed_of_ofText? htext 0).getLast?_ne

end Expr

end TypeReveal
