import TypeReveal.Syntax.Draft

/-!
# Moving a text

An expression is read the same wherever its text starts: all spans of the result, or the place of
the error, move along with the text, and nothing else changes (`Expr.read_shift`).

Reading is a fold over tokens, so this holds of it because it holds of the tokens of a text
(`lexemes_shift`) and of a single step (`Draft.step_shift`).

Everything that the reader handles is moved, drafts with their levels and operands, and every
function that it uses commutes with the move.  There are many of these functions and each is a case
distinction without a loop, so that the proofs are computations.  The loop is the fold over tokens,
and is taken care of once (`foldlM_step_shift`).
-/

set_option autoImplicit false
namespace TypeReveal

/-! ## Moved by some bytes

Moving adds a number to both ends of every span, and to the place of an error.  What an error says
does not change. -/

/-- A span, `n` bytes further on. -/
def Span.shift (n : Nat) (span : Span) : Span := ⟨span.start + n, span.stop + n⟩

namespace Expr

mutual

/-- An expression whose text stands `n` bytes further on. -/
def shift (n : Nat) : Expr → Expr
  | int span value => int (span.shift n) value
  | float span text => float (span.shift n) text
  | bool span value => bool (span.shift n) value
  | none span => none (span.shift n)
  | ellipsis span => ellipsis (span.shift n)
  | str span text => str (span.shift n) text
  | name span text => name (span.shift n) text
  | binary span op lhs rhs => binary (span.shift n) op (lhs.shift n) (rhs.shift n)
  | dangling span op lhs => dangling (span.shift n) op (lhs.shift n)
  | paren span inner => paren (span.shift n) (inner.shift n)
  | tuple span elems => tuple (span.shift n) (shiftAll n elems)
  | list span elems => list (span.shift n) (shiftAll n elems)
  | subscript span value index => subscript (span.shift n) (value.shift n) (index.shift n)
  | member span value attr => member (span.shift n) (value.shift n) attr
  | call span callee args => call (span.shift n) (callee.shift n) (shiftAll n args)

/-- Expressions whose texts stand `n` bytes further on. -/
def shiftAll (n : Nat) : List Expr → List Expr
  | [] => []
  | e :: es => e.shift n :: shiftAll n es

end

theorem shiftAll_eq_map (n : Nat) (es : List Expr) : shiftAll n es = es.map (shift n) := by
  induction es with
  | nil => rfl
  | cons e es ih => simp [shiftAll, ih]

/-- The span of an expression moves along with it. -/
@[simp] theorem span_shift (n : Nat) (e : Expr) : (e.shift n).span = e.span.shift n := by
  cases e <;> rfl

end Expr

/-- A token, `n` bytes further on. -/
def Lexeme.shift (n : Nat) (l : Lexeme) : Lexeme := ⟨l.token, l.span.shift n⟩

/-- An error, `n` bytes further on. -/
def Unexpected.shift (n : Nat) (e : Unexpected) : Unexpected := ⟨e.offset + n, e.expected⟩

/-- What is reported about an error does not tell where it is. -/
@[simp] theorem Unexpected.message_shift (n : Nat) (e : Unexpected) :
    (e.shift n).message = e.message := rfl

/-- What reading yields, `n` bytes further on. -/
def shiftOutcome {α : Type} (n : Nat) (shift : Nat → α → α) :
    Except Unexpected α → Except Unexpected α
  | .ok a => .ok (shift n a)
  | .error e => .error (e.shift n)

/-! ## Tokens

Tokens are found from the left, and where they start is a number that is carried along. -/

/-- **The tokens of a text** move along with it. -/
theorem lexemes_shift (n pos : Nat) (text : List Char) :
    lexemes (pos + n) text = (lexemes pos text).map (Lexeme.shift n) := by
  induction pos, text using lexemes.induct with
  | case1 pos => simp [lexemes]
  | case2 pos rest ih => rw [lexemes, lexemes, ← ih, Nat.add_right_comm]
  | case3 pos c rest hslash hspacing ih =>
    rw [lexemes.eq_3 _ _ _ hslash, lexemes.eq_3 _ _ _ hslash, if_pos hspacing, if_pos hspacing,
      ← ih, Nat.add_right_comm]
  | case4 pos c rest hslash hspacing htoken =>
    rw [lexemes.eq_3 _ _ _ hslash, lexemes.eq_3 _ _ _ hslash, if_neg hspacing, if_neg hspacing,
      htoken]
    rfl
  | case5 pos c rest hslash hspacing token more htoken stop ih =>
    have hstop : pos + n + c.utf8Size + utf8Length (rest.take more) = stop + n := by
      simp only [stop]
      omega
    rw [lexemes.eq_3 _ _ _ hslash, lexemes.eq_3 _ _ _ hslash, if_neg hspacing, if_neg hspacing,
      htoken]
    simp only [hstop, ih, List.map_cons]
    rfl

/-- A token is the same operand elsewhere, moved along. -/
theorem Token.operand?_shift (n : Nat) (t : Token) (span : Span) :
    t.operand? (span.shift n) = (t.operand? span).map (Expr.shift n) := by
  rw [Token.operand?.eq_def, Token.operand?.eq_def]
  split <;> rfl

/-! ## Levels

A level has spans in its elements, its waiting operands and its bracket, as well as the place of its
last comma. -/

/-- What a bracket is for, `n` bytes further on. -/
def Opening.shift (n : Nat) : Opening → Opening
  | text => text
  | paren start => paren (start + n)
  | list start => list (start + n)
  | call callee => call (callee.shift n)
  | subscript value => subscript (value.shift n)

/-- An operand before an operator, `n` bytes further on. -/
def Pending.shift (n : Nat) (pending : Pending) : Pending :=
  ⟨pending.lhs.shift n, pending.stop + n⟩

/-- An operation of moved sides is the moved operation. -/
theorem Pending.close_shift (n : Nat) (op : Operator) (pending : Pending) (rhs? : Option Expr) :
    (pending.shift n).close op (rhs?.map (Expr.shift n)) = (pending.close op rhs?).shift n := by
  cases rhs? <;> simp [Pending.close, Pending.shift, Expr.shift, Span.shift, Span.through]

namespace Level

/-- A level, `n` bytes further on. -/
def shift (n : Nat) (level : Level) : Level where
  opening := level.opening.shift n
  elems := level.elems.map (Expr.shift n)
  comma? := level.comma?.map (· + n)
  bar? := level.bar?.map (Pending.shift n)
  amp? := level.amp?.map (Pending.shift n)
  operand? := level.operand?.map (Expr.shift n)

variable (n : Nat) (level : Level)

theorem intersection?_shift :
    (level.shift n).intersection? = level.intersection?.map (Expr.shift n) := by
  rw [intersection?, intersection?]
  cases h : level.amp? with
  | none => simp [shift, h]
  | some pending => simp [shift, h, Pending.close_shift]

theorem element?_shift : (level.shift n).element? = level.element?.map (Expr.shift n) := by
  rw [element?, element?, intersection?_shift]
  cases h : level.bar? with
  | none => simp [shift, h]
  | some pending => simp [shift, h, Pending.close_shift]

theorem elements_shift : (level.shift n).elements = level.elements.map (Expr.shift n) := by
  rw [elements, elements, element?_shift, List.map_reverse, List.map_append]
  cases level.element? <;> rfl

/-- What a level holds moves along, and so does where it can end at most. -/
theorem expression?_shift (next : Nat) :
    (level.shift n).expression? (next + n) = (level.expression? next).map (Expr.shift n) := by
  have hcomma : (level.shift n).comma? = level.comma?.map (· + n) := rfl
  rw [expression?, expression?, elements_shift, element?_shift, hcomma]
  cases level.elements with
  | nil => rfl
  | cons first rest =>
    cases level.comma? with
    | none => rfl
    | some comma =>
      simp only [List.map_cons, Option.map_some, Option.isSome_map, Expr.shift,
        Expr.shiftAll_eq_map, Expr.span_shift]
      split <;> rfl

theorem operator?_shift (op : Operator) (stop : Nat) :
    (level.shift n).operator? op (stop + n) = (level.operator? op stop).map (shift n) := by
  cases op with
  | bar =>
    rw [operator?, operator?, element?_shift]
    cases level.element? <;> rfl
  | amp =>
    rw [operator?, operator?, intersection?_shift]
    cases level.intersection? <;> rfl

theorem separate?_shift (stop : Nat) :
    (level.shift n).separate? (stop + n) = (level.separate? stop).map (shift n) := by
  rw [separate?, separate?, element?_shift]
  cases level.element? <;> rfl

/-- A bracket that closes makes the moved operand, as the place of the bracket that opened it has
moved too. -/
theorem close?_shift (bracket : Bracket) (span : Span) :
    (level.shift n).close? bracket (span.shift n) =
      (level.close? bracket span).map (Expr.shift n) := by
  have hopening : (level.shift n).opening = level.opening.shift n := rfl
  have hexpression := level.expression?_shift n span.start
  rw [close?.eq_def, close?.eq_def, hopening]
  cases level.opening with
  | text => rfl
  | paren start =>
    cases bracket with
    | square => rfl
    | round =>
      simp only [Opening.shift, Span.shift, hexpression]
      cases level.expression? span.start <;> rfl
  | list start =>
    cases bracket with
    | round => rfl
    | square =>
      simp [Opening.shift, elements_shift, Expr.shift, Expr.shiftAll_eq_map, Span.shift]
  | call callee =>
    cases bracket with
    | square => rfl
    | round =>
      simp [Opening.shift, elements_shift, Expr.shift, Expr.shiftAll_eq_map, Span.shift,
        Span.through]
  | subscript value =>
    cases bracket with
    | round => rfl
    | square =>
      simp only [Opening.shift, Span.shift, hexpression, Option.map_map]
      congr 1
      funext index
      simp [Expr.shift, Span.shift, Span.through]

theorem withOperand_shift (e : Expr) :
    (level.shift n).withOperand (e.shift n) = (level.withOperand e).shift n := rfl

/-- What would fit does not depend on the place. -/
theorem expected_shift : (level.shift n).expected = level.expected := by
  have hopening : (level.shift n).isText = level.isText ∧
      (level.shift n).isExpression = level.isExpression := by
    rw [isText, isText, isExpression, isExpression, show (level.shift n).opening =
      level.opening.shift n from rfl]
    cases level.opening <;> exact ⟨rfl, rfl⟩
  rw [expected, expected, element?_shift, hopening.1, hopening.2]
  simp [shift]

end Level

/-! ## Drafts -/

namespace Draft

/-- A draft, `n` bytes further on. -/
def shift (n : Nat) (draft : Draft) : Draft where
  level := draft.level.shift n
  outer := draft.outer.map (Level.shift n)
  dotted := draft.dotted

variable (n : Nat) (draft : Draft)

theorem expected_shift : (draft.shift n).expected = draft.expected := by
  rw [expected, expected, show (draft.shift n).level = draft.level.shift n from rfl,
    Level.expected_shift]
  rfl

theorem close?_shift (bracket : Bracket) (span : Span) :
    (draft.shift n).close? bracket (span.shift n) = (draft.close? bracket span).map (shift n) := by
  obtain ⟨level, outer, dotted⟩ := draft
  cases outer with
  | nil => rfl
  | cons level' outer =>
    simp only [close?, shift, List.map_cons, Level.close?_shift]
    cases level.close? bracket span <;> rfl

theorem begin?_shift (l : Lexeme) :
    (draft.shift n).begin? (l.shift n) = (draft.begin? l).map (shift n) := by
  rw [begin?.eq_def, begin?.eq_def]
  simp only [Lexeme.shift]
  split
  · rfl
  · rfl
  · rw [Token.operand?_shift]
    cases l.token.operand? l.span <;> rfl

theorem extend?_shift (e : Expr) (l : Lexeme) :
    (draft.shift n).extend? (e.shift n) (l.shift n) = (draft.extend? e l).map (shift n) := by
  rw [extend?.eq_def, extend?.eq_def]
  simp only [Lexeme.shift]
  split <;> rfl

theorem advance?_shift (l : Lexeme) :
    (draft.shift n).advance? (l.shift n) = (draft.advance? l).map (shift n) := by
  rw [advance?.eq_def, advance?.eq_def]
  simp only [Lexeme.shift]
  split
  · next op _ =>
    rw [show (l.span.shift n).stop = l.span.stop + n from rfl,
      show (draft.shift n).level = draft.level.shift n from rfl, Level.operator?_shift]
    cases draft.level.operator? op l.span.stop <;> rfl
  · rw [show (l.span.shift n).stop = l.span.stop + n from rfl,
      show (draft.shift n).level = draft.level.shift n from rfl, Level.separate?_shift]
    cases draft.level.separate? l.span.stop <;> rfl
  · exact close?_shift n draft _ _
  · rfl

/-- **A step** moves along with the text. -/
theorem step_shift (l : Lexeme) :
    (draft.shift n).step (l.shift n) = shiftOutcome n shift (draft.step l) := by
  have hmisfit : (Except.error ⟨(l.shift n).span.start, (draft.shift n).expected⟩ :
      Except Unexpected Draft) =
        shiftOutcome n shift (.error ⟨l.span.start, draft.expected⟩) := by
    rw [expected_shift]
    rfl
  rw [step.eq_def, step.eq_def, show (draft.shift n).level.operand? =
    draft.level.operand?.map (Expr.shift n) from rfl, show (l.shift n).token = l.token from rfl]
  simp only [hmisfit]
  cases draft.level.operand? with
  | none =>
    simp only [Option.map_none, begin?_shift, advance?_shift]
    cases draft.begin? l <;> cases draft.advance? l <;> rfl
  | some e =>
    simp only [Option.map_some, extend?_shift, advance?_shift, show (draft.shift n).dotted =
      draft.dotted from rfl]
    split
    · split
      · simp [shiftOutcome, shift, ← Level.withOperand_shift, Expr.shift, Lexeme.shift, Span.shift,
          Span.through]
      · rfl
    · split
      · simp [shiftOutcome, Unexpected.shift, Lexeme.shift, Span.shift, Nat.add_right_comm]
      · cases draft.extend? e l <;> cases draft.advance? l <;> rfl

/-- **Reading tokens** moves along with the tokens. -/
theorem foldlM_step_shift (ls : List Lexeme) :
    (ls.map (Lexeme.shift n)).foldlM step (draft.shift n) =
      shiftOutcome n shift (ls.foldlM step draft) := by
  induction ls generalizing draft with
  | nil => rfl
  | cons l ls ih =>
    rw [List.map_cons, List.foldlM_cons, List.foldlM_cons, step_shift]
    cases draft.step l with
    | error e => rfl
    | ok next => exact ih next

/-- What a draft is at the end moves along with the end. -/
theorem finish_shift (stop : Nat) :
    (draft.shift n).finish (stop + n) = shiftOutcome n Expr.shift (draft.finish stop) := by
  have houter : (draft.shift n).outer.isEmpty = draft.outer.isEmpty := by
    simp [shift]
  have hdotted : (draft.shift n).dotted = draft.dotted := rfl
  have hlevel : (draft.shift n).level = draft.level.shift n := rfl
  simp only [finish, houter, hdotted, hlevel, Level.expression?_shift, expected_shift]
  split
  · rfl
  · cases draft.level.expression? stop <;> rfl

end Draft

/-! ## Texts

Both the expression that is read and the error that is found are covered, so that two readings agree
also where there is nothing to read. -/

/-- **Reading an expression does not depend on where its text starts**: what is read and what is
reported move along with the text. -/
theorem Expr.read_shift (text : List Char) (start n : Nat) :
    Expr.read text (start + n) = shiftOutcome n Expr.shift (Expr.read text start) := by
  have hempty : Draft.empty.shift n = Draft.empty := rfl
  have hrun := Draft.foldlM_step_shift n Draft.empty (lexemes start text)
  rw [hempty, ← lexemes_shift] at hrun
  rw [Expr.read, Expr.read, hrun, Nat.add_right_comm]
  cases (lexemes start text).foldlM Draft.step Draft.empty with
  | error e => rfl
  | ok draft => exact draft.finish_shift n _

end TypeReveal
