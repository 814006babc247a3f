import TypeReveal.Careful.Lowering
import TypeReveal.Syntax.Header

/-!
# Statements, read carefully

Simple statements and headers once more, as `Stmt.readSimple` and `readHeader?` read them, but with
places counted in bytes and with every piece cut out by `Careful.cut`.

The readers here are written as the program writes them: they ask for the place of a separator, add
one to it and cut, where the readers of the model take what a search leaves in front of a separator
and behind it.  Nothing is assumed about the places.  Whether a cut is in range is found out when it
is made, and one that is not ends the reading with a fault.
-/

set_option autoImplicit false
namespace TypeReveal
namespace Careful

/-! ## Imports -/

/-- The import that is written after `from`. -/
def readFrom (span : Span) (rest : Segment) : Careful Stmt :=
  let keyword := " import ".toList
  match (indexOf? keyword rest.text).map rest.offset with
  | none => report (.malformed .importStatement span)
  | some i => do
    let module ← upTo rest i
    let items ← after rest (i + utf8Length keyword)
    let items ← trim items
    return .imports span (some (String.ofList (TypeReveal.trim module.text)))
      (importedNames items.text)

/-! ## Bindings

Colon and equals sign are both optional.  What is bound depends on which of them come first, so that
three pieces may have to be cut out. -/

/-- What a binding binds, for the places of a colon and an equals sign in a segment. -/
def readBinding (seg : Segment) : Option Nat → Option Nat → Careful (Option Expr × Option Expr)
  | some c, some a => do
    if c < a then
      let annotation ← cut seg (c + 1) a
      let annotation ← expr annotation
      let value ← after seg (a + 1)
      let value ← expr value
      return (some annotation, some value)
    else
      let value ← after seg (a + 1)
      let value ← expr value
      return (none, some value)
  | none, some a => do
    let value ← after seg (a + 1)
    let value ← expr value
    return (none, some value)
  | some c, none => do
    let annotation ← after seg (c + 1)
    let annotation ← expr annotation
    return (some annotation, none)
  | none, none => return (none, none)

/-- The name that a segment binds, for the place of its first colon or equals sign. -/
def boundName? (seg : Segment) : Option Nat → Careful (Option (List Char))
  | none => return none
  | some stop => do
    let name ← upTo seg stop
    let name ← trim name
    return if isName name.text then some name.text else none

/-- A binding or an expression. -/
def readPlain (seg : Segment) : Careful Stmt := do
  let colon? ← index? seg colon
  let equals? ← index? seg equals
  match ← boundName? seg (first? colon? equals?) with
  | some name =>
    let (annotation?, value?) ← readBinding seg colon? equals?
    return .binding seg.span (String.ofList name) annotation? value?
  | none =>
    let value ← expr seg
    return .expr seg.span value

/-! ## Simple statements -/

/-- The result that is written after `return`. -/
def readResult (span : Span) (rest : Segment) : Careful Stmt := do
  if rest.isEmpty then return .result span none
  else
    let value ← expr rest
    return .result span (some value)

/-- A statement without a block. -/
def readSimple (seg : Segment) : Careful Stmt := do
  if (← afterKeyword? seg "pass").any Segment.isEmpty then return .pass seg.span
  else
    match ← afterKeyword? seg "return" with
    | some rest => readResult seg.span rest
    | none =>
      match ← afterKeyword? seg "import" with
      | some rest =>
        let parts ← parts rest
        return .imports seg.span none (parts.map fun part => importedName true part.text)
      | none =>
        match ← afterKeyword? seg "from" with
        | some rest => readFrom seg.span rest
        | none => readPlain seg

/-! ## Functions

The header of a function is read from left to right: the name, the list of parameters up to the
bracket that closes it, the result type, and what stands behind the colon. -/

/-- What stands before and after the colon of a header. -/
def splitHeader (seg : Segment) (what : Construct) : Careful (Segment × Segment) := do
  match ← index? seg colon with
  | none => report (.malformed what seg.span)
  | some i =>
    let head ← upTo seg i
    let head ← trim head
    let inline ← after seg (i + 1)
    let inline ← trim inline
    return (head, inline)

/-- The annotation of a parameter after the colon at `c`, up to an equals sign if there is one. -/
def annotationAt (seg : Segment) (equals? : Option Nat) (c : Nat) : Careful Expr := do
  let annotation ← cut seg (c + 1) (equals?.getD (utf8Length seg.text))
  expr annotation

/-- The default of a parameter after the equals sign at `a`. -/
def defaultAt (seg : Segment) (a : Nat) : Careful Expr := do
  let default ← after seg (a + 1)
  expr default

/-- A parameter without its stars. -/
def readNamedParam (seg : Segment) : Careful Param := do
  let colon? ← index? seg colon
  let equals? ← index? seg equals
  let name ← upTo seg ((first? colon? equals?).getD (utf8Length seg.text))
  let name ← trim name
  if !isName name.text then report (.malformed .parameter seg.span)
  else
    let annotation? ← colon?.mapM (annotationAt seg equals?)
    let default? ← equals?.mapM (defaultAt seg)
    return ⟨seg.span, String.ofList name.text, annotation?, default?⟩

/-- A part of a parameter list; `*` and `/` alone declare nothing. -/
def readParam? (seg : Segment) : Careful (Option Param) := do
  if seg.text = ['*'] || seg.text = ['/'] then return none
  else
    let stars ← minus (utf8Length seg.text) (utf8Length (seg.text.dropWhile (· == '*')))
    let named ← after seg stars
    let param ← readNamedParam named
    return some param

/-- The parts of a parameter list. -/
def readParams (seg : Segment) : Careful (List Param) := do
  let parts ← parts seg
  let params ← parts.mapM readParam?
  return params.filterMap id

/-- The result type between the parameter list and the colon. -/
def readResultType (line head : Segment) : Careful (Option Expr) := do
  if ['-', '>'].isPrefixOf head.text then
    let result ← after head 2
    let result ← expr result
    return some result
  else if head.isEmpty then return none
  else report (.malformed .functionDefinition line.span)

/-- The header that is written after `def`, and what follows its colon. -/
def readFunction (line rest : Segment) : Careful (Header × Segment) :=
  match (rest.text.findIdx? (· == '(')).map rest.offset with
  | none => report (.malformed .functionDefinition line.span)
  | some opening => do
    let name ← upTo rest opening
    let name ← trim name
    if !isName name.text then report (.malformed .functionDefinition line.span)
    else
      let group ← after rest opening
      match closing? group with
      | none => report (.malformed .functionDefinition line.span)
      | some close =>
        let params ← cut group 1 close
        let signature ← after group (close + 1)
        let signature ← trim signature
        let (head, inline) ← splitHeader signature .functionDefinition
        let result? ← readResultType line head
        let params ← readParams params
        return (.function (String.ofList name.text) params result?, inline)

/-! ## Classes

The base classes are those between the first opening parenthesis and the last closing one. -/

/-- The base classes between the opening parenthesis at `opening` and the last closing one. -/
def readBases (line head : Segment) (opening : Nat) : Careful (List Expr) :=
  match (lastIndexOf? ')' head.text).map head.offset with
  | none => report (.malformed .classDefinition line.span)
  | some close => do
    let bases ← cut head (opening + 1) close
    let bases ← parts bases
    bases.mapM expr

/-- The name of a class and its base classes. -/
def readClassHead (line head : Segment) : Careful (Segment × List Expr) :=
  match (head.text.findIdx? (· == '(')).map head.offset with
  | none => return (head, [])
  | some opening => do
    let bases ← readBases line head opening
    let name ← upTo head opening
    let name ← trim name
    return (name, bases)

/-- The header that is written after `class`, and what follows its colon. -/
def readClass (line rest : Segment) : Careful (Header × Segment) := do
  let (head, inline) ← splitHeader rest .classDefinition
  let (name, bases) ← readClassHead line head
  if isName name.text then return (.classDef (String.ofList name.text) bases, inline)
  else report (.malformed .classDefinition line.span)

/-! ## Headers -/

/-- The condition that is written after `if` or `elif`, and what follows its colon. -/
def readCondition (rest : Segment) : Careful (Expr × Segment) := do
  let (head, inline) ← splitHeader rest .ifStatement
  let cond ← expr head
  return (cond, inline)

/-- The header at the start of a line after a conditional, if it goes on with it. -/
def readBranch? (line : Segment) : Careful (Option (Header × Segment)) := do
  match ← afterKeyword? line "elif" with
  | some rest =>
    let (cond, inline) ← readCondition rest
    return some (.alternative cond, inline)
  | none =>
    match ← afterKeyword? line "else" with
    | some rest =>
      let (_, inline) ← splitHeader rest .elseClause
      return some (.otherwise, inline)
    | none => return none

/-- The header at the start of a line and what follows its colon, if the line starts with a keyword
that opens a block. -/
def readHeader? (chained : Bool) (line : Segment) : Careful (Option (Header × Segment)) := do
  match ← afterKeyword? line "def" with
  | some rest => some <$> readFunction line rest
  | none =>
    match ← afterKeyword? line "class" with
    | some rest => some <$> readClass line rest
    | none =>
      match ← afterKeyword? line "if" with
      | some rest =>
        let (cond, inline) ← readCondition rest
        return some (.conditional cond, inline)
      | none => if chained then readBranch? line else return none

end Careful
end TypeReveal
