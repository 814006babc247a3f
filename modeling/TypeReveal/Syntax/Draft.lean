import TypeReveal.Syntax.Token
import TypeReveal.Syntax.Expectation

/-!
# Reading expressions

An expression is read token by token.  A `Draft` is what has been read so far: the level of the
innermost open bracket and the levels around it.  A level holds its finished elements, the operands
that wait for the rest of a union or an intersection, and the operand read last; calls, subscripts
and members extend that operand in place.

* `&` binds tighter than `|`, both to the left, and either may lack its right operand.
* Commas separate the elements of a level; the last element may be followed by one.
* A comma outside of brackets, in parentheses or in a subscript makes a tuple; in a call or a list
  it only separates.

A token that does not fit is reported with everything that would have fitted.
-/

set_option autoImplicit false
namespace TypeReveal

/-- What an open bracket is for. -/
inductive Opening where
  /-- No bracket: the whole text. -/
  | text
  | paren (start : Nat)
  | list (start : Nat)
  | call (callee : Expr)
  | subscript (value : Expr)
deriving Repr

/-- An operand that stands before an operator. -/
structure Pending where
  lhs : Expr
  /-- Where the operator ends. -/
  stop : Nat
deriving Repr

/-- What has been read since a bracket was opened. -/
structure Level where
  opening : Opening
  /-- The elements before the last comma, the last one first. -/
  elems : List Expr := []
  /-- Where the last comma ends. -/
  comma? : Option Nat := none
  /-- What stands before the last `|` of the element. -/
  bar? : Option Pending := none
  /-- What stands before the last `&` of the operand of `|`. -/
  amp? : Option Pending := none
  /-- The operand after all that. -/
  operand? : Option Expr := none
deriving Repr

/-- A part of an expression. -/
structure Draft where
  level : Level
  /-- The levels of the brackets around it, the innermost first. -/
  outer : List Level := []
  /-- Whether the last token is a point after an operand. -/
  dotted : Bool := false
deriving Repr

/-! ## Levels -/

/-- An operation whose right operand may be missing.  With both operands it spans them, and without
the right one it ends with its operator. -/
def Pending.close (op : Operator) (pending : Pending) : Option Expr → Expr
  | none => .dangling ⟨pending.lhs.span.start, pending.stop⟩ op pending.lhs
  | some rhs => .binary (pending.lhs.span.through rhs.span) op pending.lhs rhs

namespace Level

/-- The intersection or operand read last, if there is one.  An `&` without a right operand is an
intersection, too. -/
def intersection? (level : Level) : Option Expr :=
  match level.amp? with
  | none => level.operand?
  | some pending => some (pending.close .amp level.operand?)

/-- The element read last, if there is one: all that has been read since the last comma, closed as
it stands. -/
def element? (level : Level) : Option Expr :=
  match level.bar? with
  | none => level.intersection?
  | some pending => some (pending.close .bar level.intersection?)

/-- All elements, in order. -/
def elements (level : Level) : List Expr := (level.element?.toList ++ level.elems).reverse

/-- The expression that a level holds when `next` is where its last element can end at most: its
element, or a tuple if there is a comma.  A tuple goes up to `next` if there is an element behind
its last comma, and else up to that comma. -/
def expression? (level : Level) (next : Nat) : Option Expr :=
  match level.elements, level.comma? with
  | [], _ => none
  | first :: _, none => some first
  | first :: rest, some comma =>
    let stop := if level.element?.isSome then next else comma
    some (.tuple ⟨first.span.start, stop⟩ (first :: rest))

/-- A level whose operand is `e`. -/
def withOperand (level : Level) (e : Expr) : Level := { level with operand? := some e }

/-- A level after an operator that ends at `stop`, if the operator has something before it.  A `|`
closes the `&` that may be open and then waits by itself; an `&` leaves the `|` before it waiting.
-/
def operator? (level : Level) (op : Operator) (stop : Nat) : Option Level :=
  match op with
  | .bar =>
    level.element?.map fun lhs =>
      { level with bar? := some ⟨lhs, stop⟩, amp? := none, operand? := none }
  | .amp =>
    level.intersection?.map fun lhs => { level with amp? := some ⟨lhs, stop⟩, operand? := none }

/-- A level after a comma that ends at `stop`, if the comma has something before it.  The element is
finished, and nothing waits any longer. -/
def separate? (level : Level) (stop : Nat) : Option Level :=
  level.element?.map fun e =>
    { opening := level.opening, elems := e :: level.elems, comma? := some stop }

/-- The operand that a level becomes when a bracket closes it, if it is the right bracket in the
right place.  Empty parentheses are a tuple, but a subscript may not be empty. -/
def close? (level : Level) (bracket : Bracket) (span : Span) : Option Expr :=
  match level.opening, bracket with
  | .paren start, .round =>
    match level.expression? span.start with
    | none => some (.tuple ⟨start, span.stop⟩ [])
    | some inner => some (.paren ⟨start, span.stop⟩ inner)
  | .list start, .square => some (.list ⟨start, span.stop⟩ level.elements)
  | .call callee, .round => some (.call (callee.span.through span) callee level.elements)
  | .subscript value, .square =>
    (level.expression? span.start).map (.subscript (value.span.through span) value)
  | _, _ => none

/-- Whether commas make a tuple of a level. -/
def isExpression (level : Level) : Bool :=
  match level.opening with
  | .text | .paren _ | .subscript _ => true
  | .list _ | .call _ => false

/-- Whether a level is the whole text. -/
def isText (level : Level) : Bool :=
  match level.opening with
  | .text => true
  | _ => false

/-- Everything that may follow. -/
def expected (level : Level) : List Expectation :=
  let complete := level.element?.isSome
  let ending := if level.isText && (complete || level.comma?.isSome) then [.endOfText] else []
  let separating := if level.isExpression && complete then [.comma] else []
  let going : List Expectation :=
    if level.operand?.isSome then [.bar, .amp, .call, .subscript, .member]
    else if level.amp?.isSome then [.bar, .amp, .operand]
    else if level.bar?.isSome then [.bar, .operand]
    else [.operand]
  ending ++ separating ++ going

end Level

/-! ## Tokens -/

/-- The operand that a single token is.  `True`, `False` and `None` are words that are no names. -/
def Token.operand? (token : Token) (span : Span) : Option Expr :=
  match token with
  | .word "True" => some (.bool span true)
  | .word "False" => some (.bool span false)
  | .word "None" => some (.none span)
  | .word name => some (.name span name)
  | .int value => some (.int span value)
  | .float text => some (.float span text)
  | .str text => some (.str span text)
  | .ellipsis => some (.ellipsis span)
  | _ => none

namespace Draft

/-- Nothing has been read yet. -/
def empty : Draft := { level := { opening := .text } }

/-- Everything that may follow. -/
def expected (draft : Draft) : List Expectation :=
  if draft.dotted then [.word] else draft.level.expected

/-- A draft with an open bracket more. -/
def open_ (draft : Draft) (opening : Opening) : Draft :=
  { level := { opening }, outer := draft.level :: draft.outer }

/-- A draft without its innermost open bracket, if that closes here. -/
def close? (draft : Draft) (bracket : Bracket) (span : Span) : Option Draft :=
  match draft.outer with
  | [] => none
  | level :: outer =>
    (draft.level.close? bracket span).map fun e => { level := level.withOperand e, outer }

/-- A draft after one more token where an operand may begin.  A bracket here opens parentheses or a
list. -/
def begin? (draft : Draft) (lexeme : Lexeme) : Option Draft :=
  match lexeme.token with
  | .opening .round => some (draft.open_ (.paren lexeme.span.start))
  | .opening .square => some (draft.open_ (.list lexeme.span.start))
  | token =>
    (token.operand? lexeme.span).map fun e => { draft with level := draft.level.withOperand e }

/-- A draft after one more token that extends the operand `e`.  A bracket here opens the arguments
of a call or the index of a subscript. -/
def extend? (draft : Draft) (e : Expr) (lexeme : Lexeme) : Option Draft :=
  match lexeme.token with
  | .opening .round => some (draft.open_ (.call e))
  | .opening .square => some (draft.open_ (.subscript e))
  | .dot => some { draft with dotted := true }
  | _ => none

/-- A draft after one more token that ends an operand, an element or a bracket. -/
def advance? (draft : Draft) (lexeme : Lexeme) : Option Draft :=
  match lexeme.token with
  | .operator op =>
    (draft.level.operator? op lexeme.span.stop).map fun level => { draft with level }
  | .comma => (draft.level.separate? lexeme.span.stop).map fun level => { draft with level }
  | .closing bracket => draft.close? bracket lexeme.span
  | _ => none

/-- A draft after one more token.  Behind an operand the token extends it or ends something, behind
a point it is a name, and else it begins an operand; an operator, a comma or a bracket that closes
may also stand where an operand is missing, if what is before allows for that. -/
def step (draft : Draft) (lexeme : Lexeme) : Except Unexpected Draft :=
  let misfit : Except Unexpected Draft := .error ⟨lexeme.span.start, draft.expected⟩
  match draft.level.operand? with
  | some e =>
    if draft.dotted then
      match lexeme.token with
      | .word attr =>
        .ok { draft with
          level := draft.level.withOperand (.member (e.span.through lexeme.span) e attr)
          dotted := false }
      | _ => misfit
    else if lexeme.token = .ellipsis then
      .error ⟨lexeme.span.start + 1, [.word]⟩
    else
      ((draft.extend? e lexeme <|> draft.advance? lexeme).map .ok).getD misfit
  | none => ((draft.begin? lexeme <|> draft.advance? lexeme).map .ok).getD misfit

/-- The expression that a draft is when the text ends at `stop`.  No bracket may be open, no name
missing after a point, and there must be an expression at all. -/
def finish (draft : Draft) (stop : Nat) : Except Unexpected Expr :=
  let misfit : Except Unexpected Expr := .error ⟨stop, draft.expected⟩
  if draft.dotted || !draft.outer.isEmpty then misfit
  else ((draft.level.expression? stop).map .ok).getD misfit

end Draft

/-! ## Texts -/

/-- The expression that a text denotes, the text starting at `start`.  All of the text is read: what
does not belong to the expression is an error at the first token that does not fit. -/
def Expr.read (text : List Char) (start : Nat) : Except Unexpected Expr := do
  let draft ← (lexemes start text).foldlM Draft.step Draft.empty
  draft.finish (start + utf8Length text)

/-- The expression that a text of its own denotes. -/
def Expr.ofText? (text : List Char) : Option Expr := (Expr.read text 0).toOption

end TypeReveal
