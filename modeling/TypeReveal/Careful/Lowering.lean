import TypeReveal.Careful.ParseTree

/-!
# From parse trees to expressions

`Careful.lower` makes an expression of a pair of a parse tree.  It relies on the pairs inside a pair
being those that the grammar puts there, and makes sure of each of them.

What is not there when it has to be, or is there when it must not, is a fault with the name of the
missing part, or with the rule of the pair.  These are the places at which the program would panic.
Texts of words and numbers are read again from the text that a pair was made from, and spans are put
together from those of the parts.
-/

set_option autoImplicit false
namespace TypeReveal
namespace Careful

/-- A part that has to be there. -/
def expect {α : Type} (part : Part) : Option α → Careful α
  | some a => .ok a
  | none => .error (.fault (.missing part))

/-- The number that digits write, if they are digits. -/
def natural? (digits : List Char) : Option Nat :=
  if digits.isEmpty || !digits.all Char.isDigit then none else some (digitsValue digits)

/-- The whole number that a text writes. -/
def integer? : List Char → Option Int
  | '-' :: digits => (natural? digits).map fun n => -n
  | digits => (natural? digits).map Int.ofNat

/-- A number; one with a point is kept as written. -/
def number (span : Span) (text : List Char) : Expr :=
  match integer? text with
  | some value => if '.' ∈ text then .float span (String.ofList text) else .int span value
  | none => .float span (String.ofList text)

/-- What a sign stands for. -/
def operator : Rule → Careful Operator
  | .bar => .ok .bar
  | .amp => .ok .amp
  | rule => .error (.fault (.unexpected rule))

/-- Whether a pair is that of an operator. -/
def isSign (p : Pair) : Bool := p.rule = .bar || p.rule = .amp

/-- The elements of an expression as a whole: a tuple if there was a comma. -/
def whole (span : Span) (elems : List Expr) (commas : Bool) : Careful Expr :=
  if commas then .ok (.tuple span elems) else expect .operand elems.getLast?

/-- The string in quotes. -/
def quoted (span : Span) (inner : List Pair) : Careful Expr := do
  let quoted ← expect .quoted inner.head?
  let raw := (quoted.inner.head?.map Pair.text).getD []
  return .str span (String.ofList (unescape raw))

mutual

/-- The expression of a pair. -/
def lower : Pair → Careful Expr
  | ⟨.expression, span, _, inner⟩ => do
    let (elems, commas) ← lowerElements inner
    whole span elems commas
  | ⟨.union, _, _, inner⟩ | ⟨.intersection, _, _, inner⟩ => lowerChain inner
  | ⟨.primary, _, _, inner⟩ => lowerPrimary inner
  | ⟨.paren, span, _, inner⟩ =>
    match inner with
    | [] => return .tuple span []
    | p :: _ => return .paren span (← lowerExpression p)
  | ⟨.list, span, _, inner⟩ => return .list span (← lowerAll inner)
  | ⟨.ellipsis, span, _, _⟩ => return .ellipsis span
  | ⟨.number, span, text, _⟩ => return number span text
  | ⟨.string, span, _, inner⟩ => quoted span inner
  | ⟨.trueLiteral, span, _, _⟩ => return .bool span true
  | ⟨.falseLiteral, span, _, _⟩ => return .bool span false
  | ⟨.noneLiteral, span, _, _⟩ => return .none span
  | ⟨.name, span, text, _⟩ => return .name span (String.ofList text)
  | ⟨rule, _, _, _⟩ => .error (.fault (.unexpected rule))

/-- The expression of a pair that has to be one. -/
def lowerExpression : Pair → Careful Expr
  | ⟨_, span, _, inner⟩ => do
    let (elems, commas) ← lowerElements inner
    whole span elems commas

/-- The elements of an expression, and whether there was a comma. -/
def lowerElements : List Pair → Careful (List Expr × Bool)
  | [] => return ([], false)
  | p :: ps => do
    if p.rule = .comma then
      let (elems, _) ← lowerElements ps
      return (elems, true)
    else
      let e ← lower p
      let (elems, commas) ← lowerElements ps
      return (e :: elems, commas)

/-- The expressions of pairs. -/
def lowerAll : List Pair → Careful (List Expr)
  | [] => return []
  | p :: ps => do
    let e ← lower p
    return e :: (← lowerAll ps)

/-- Operands with operators between them. -/
def lowerChain : List Pair → Careful Expr
  | [] => .error (.fault (.missing .lhs))
  | p :: ps => do
    let lhs ← lower p
    lowerOperations lhs ps

/-- The operators and operands after `lhs`. -/
def lowerOperations (lhs : Expr) : List Pair → Careful Expr
  | [] => return lhs
  | [⟨rule, span, _, _⟩] => do
    let op ← operator rule
    return .dangling ⟨lhs.span.start, span.stop⟩ op lhs
  | ⟨rule, span, _, _⟩ :: p :: ps => do
    let op ← operator rule
    if isSign p then lowerOperations (.dangling ⟨lhs.span.start, span.stop⟩ op lhs) (p :: ps)
    else
      let rhs ← lower p
      lowerOperations (.binary ⟨lhs.span.start, rhs.span.stop⟩ op lhs rhs) ps

/-- An atom with all that follows it. -/
def lowerPrimary : List Pair → Careful Expr
  | [] => .error (.fault (.missing .atom))
  | p :: ps => do
    let value ← lower p
    lowerTrailers value ps

/-- The calls, subscripts and attributes after `value`. -/
def lowerTrailers (value : Expr) : List Pair → Careful Expr
  | [] => return value
  | ⟨.call, span, _, inner⟩ :: ps => do
    let args ← lowerAll inner
    lowerTrailers (.call ⟨value.span.start, span.stop⟩ value args) ps
  | ⟨.subscript, _, _, []⟩ :: _ => .error (.fault (.missing .index))
  | ⟨.subscript, span, _, p :: _⟩ :: ps => do
    let index ← lowerExpression p
    lowerTrailers (.subscript ⟨value.span.start, span.stop⟩ value index) ps
  | ⟨.attribute, span, _, inner⟩ :: ps => do
    let attr ← expect .attr inner.head?
    lowerTrailers (.member ⟨value.span.start, span.stop⟩ value (String.ofList attr.text)) ps
  | ⟨rule, _, _, _⟩ :: _ => .error (.fault (.unexpected rule))

end

/-- The expression in a segment. -/
def expr (seg : Segment) : Careful Expr := do
  let seg ← trim seg
  match parse seg with
  | .error u => report (.invalidSyntax u)
  | .ok pairs =>
    let fragment ← expect .fragment pairs.head?
    let expression ← expect .expression (fragment.inner.find? (·.rule = .expression))
    lowerExpression expression

end Careful
end TypeReveal
