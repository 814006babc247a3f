import TypeReveal.Layout.Segment
import TypeReveal.Syntax.Draft
import TypeReveal.Syntax.ParseError
import TypeReveal.Syntax.Stmt

/-!
# Simple statements

The statements without a block: `pass`, `return`, imports, bindings and expressions.  A statement
that starts with one of the keywords is of that kind; any other is a binding if a name stands
before its first colon or equals sign, and an expression otherwise.
-/

set_option autoImplicit false
namespace TypeReveal

/-- The expression in a segment.  Blanks at the ends are trimmed off first, so that the error of an
expression is reported where its text stands and not where the segment starts. -/
def Segment.expr (seg : Segment) : Except ParseError Expr :=
  (Expr.read seg.trim.text seg.trim.start).mapError .invalidSyntax

/-! ## Imports -/

/-- The name that an item of an import binds: the alias if there is one; else, if the import is
`plain`, the first part of the dotted name; else the name.  Nothing is required of any of these
texts. -/
def importedName (plain : Bool) (item : List Char) : String :=
  let item := trim item
  match splitAt? " as ".toList item with
  | some (_, name) => String.ofList (trim name)
  | none => String.ofList (if plain then item.takeWhile (· != '.') else item)

/-- The names that `from ... import` binds; the list may stand in parentheses.  It is split at every
comma, and empty items are left out, so that a comma at the end does no harm. -/
def importedNames (items : List Char) : List String :=
  let items := items.dropWhile (· == '(')
  let items := (items.reverse.dropWhile (· == ')')).reverse
  (((splitOn ',' items).map trim).filter (!·.isEmpty)).map (importedName false)

/-- The import that is written after `from`.  The module is whatever stands in front of the keyword
before the names, which is looked for with a blank on both sides. -/
def readFrom (span : Span) (rest : Segment) : Except ParseError Stmt :=
  match splitAt? " import ".toList rest.text with
  | none => .error (.malformed .importStatement span)
  | some (module, items) =>
    .ok (.imports span (some (String.ofList (trim module))) (importedNames (trim items)))

/-! ## Bindings -/

/-- What a segment binds, for the places of a colon and an equals sign in it.  A colon behind the
equals sign belongs to the value, and there is no annotation then. -/
def readBinding (seg : Segment) : Option Nat → Option Nat →
    Except ParseError (Option Expr × Option Expr)
  | some c, some a =>
    if c < a then do
      let annotation ← (seg.slice (c + 1) a).expr
      let value ← (seg.drop (a + 1)).expr
      return (some annotation, some value)
    else do
      let value ← (seg.drop (a + 1)).expr
      return (none, some value)
  | none, some a => do
    let value ← (seg.drop (a + 1)).expr
    return (none, some value)
  | some c, none => do
    let annotation ← (seg.drop (c + 1)).expr
    return (some annotation, none)
  | none, none => return (none, none)

/-- The smaller of two places of which either may be missing. -/
def first? : Option Nat → Option Nat → Option Nat
  | some m, some n => some (min m n)
  | some m, none => some m
  | none, n => n

/-- The name that a segment binds, `name = value`, `name: type` or `name: type = value`.  What
stands in front of the first separator must be a name, for otherwise the segment is an expression.
-/
def boundName? (seg : Segment) : Option (List Char) := do
  let stop ← first? (seg.index? Segment.colon) (seg.index? Segment.equals)
  let name := trim (seg.text.take stop)
  guard (isName name)
  return name

/-- A binding or an expression. -/
def readPlain (seg : Segment) : Except ParseError Stmt :=
  match boundName? seg with
  | some name => do
    let (annotation?, value?) ←
      readBinding seg (seg.index? Segment.colon) (seg.index? Segment.equals)
    return .binding seg.span (String.ofList name) annotation? value?
  | none => do
    let value ← seg.expr
    return .expr seg.span value

/-! ## Statements -/

/-- The result that is written after `return`. -/
def readResult (span : Span) (rest : Segment) : Except ParseError Stmt :=
  if rest.isEmpty then .ok (.result span none)
  else do
    let value ← rest.expr
    return .result span (some value)

/-- A statement without a block.  Keywords are tried first; a `pass` with something behind it is no
statement of its own but is read as an expression would be, and fails as one. -/
def Stmt.readSimple (seg : Segment) : Except ParseError Stmt :=
  if (seg.afterKeyword? "pass").any Segment.isEmpty then .ok (.pass seg.span)
  else
    match seg.afterKeyword? "return", seg.afterKeyword? "import", seg.afterKeyword? "from" with
    | some rest, _, _ => readResult seg.span rest
    | _, some rest, _ =>
      .ok (.imports seg.span none (rest.parts.map fun part => importedName true part.text))
    | _, _, some rest => readFrom seg.span rest
    | none, none, none => readPlain seg

end TypeReveal
