import TypeReveal.Syntax.Simple

/-!
# Headers

The first line of a statement with a block, up to its colon: `def`, `class`, `if`, and after an
`if` also `elif` and `else`.

A header is told by the keyword that its line starts with.  What follows the colon on the line is
returned along with it: if it is not empty it is the block, and otherwise the block stands below.
The parts of a header are cut out in the order in which they stand on the line, and the first that
is malformed ends the reading.
-/

set_option autoImplicit false
namespace TypeReveal

/-- A statement with a block, without the block. -/
inductive Header where
  | function (name : String) (params : List Param) (result? : Option Expr)
  | classDef (name : String) (bases : List Expr)
  | conditional (cond : Expr)
  /-- An `elif`. -/
  | alternative (cond : Expr)
  /-- An `else`. -/
  | otherwise
deriving Repr

/-- What stands before and after the colon of a header, without the blanks at the ends.  The colon
is the first outside of brackets and strings. -/
def splitHeader (seg : Segment) (what : Construct) : Except ParseError (Segment × Segment) :=
  match seg.index? Segment.colon with
  | none => .error (.malformed what seg.span)
  | some n => .ok ((seg.take n).trim, (seg.drop (n + 1)).trim)

/-! ## Functions -/

/-- A parameter without its stars.  Its name stands in front of the first separator, its annotation
between the colon and the equals sign.  With the equals sign in front of the colon there is no such
piece, and the reading crashes. -/
def readNamedParam (seg : Segment) : Except ParseError Param :=
  let colon? := seg.index? Segment.colon
  let equals? := seg.index? Segment.equals
  let stop := (first? colon? equals?).getD seg.text.length
  let name := trim (seg.text.take stop)
  if !isName name then .error (.malformed .parameter seg.span)
  else
    match colon?, equals? with
    | some c, some a =>
      if a < c then .error (.crossedSeparators .parameter seg.span)
      else do
        let annotation ← (seg.slice (c + 1) a).expr
        let default ← (seg.drop (a + 1)).expr
        return ⟨seg.span, String.ofList name, some annotation, some default⟩
    | some c, none => do
      let annotation ← (seg.drop (c + 1)).expr
      return ⟨seg.span, String.ofList name, some annotation, none⟩
    | none, some a => do
      let default ← (seg.drop (a + 1)).expr
      return ⟨seg.span, String.ofList name, none, some default⟩
    | none, none => return ⟨seg.span, String.ofList name, none, none⟩

/-- A part of a parameter list; `*` and `/` alone declare nothing.  Any number of stars may stand in
front of a parameter, and they are no part of it. -/
def readParam? (seg : Segment) : Except ParseError (Option Param) :=
  if seg.text = ['*'] || seg.text = ['/'] then .ok none
  else some <$> readNamedParam (seg.drop (seg.text.takeWhile (· == '*')).length)

/-- The parts of a parameter list. -/
def readParams (seg : Segment) : Except ParseError (List Param) :=
  return (← seg.parts.mapM readParam?).filterMap id

/-- The result type between the parameter list and the colon: an arrow and an expression, or nothing
at all.  Anything else is malformed, and is reported for the whole line. -/
def readResultType (line head : Segment) : Except ParseError (Option Expr) :=
  if ['-', '>'].isPrefixOf head.text then some <$> (head.drop 2).expr
  else if head.isEmpty then .ok none
  else .error (.malformed .functionDefinition line.span)

/-- The header that is written after `def`, and what follows its colon.  The parameter list is the
group that starts at the first parenthesis.  The result is read before the parameters are, so that
of two errors the one in the result is reported. -/
def readFunction (line rest : Segment) : Except ParseError (Header × Segment) :=
  let malformed : Except ParseError (Header × Segment) :=
    .error (.malformed .functionDefinition line.span)
  match rest.text.findIdx? (· == '(') with
  | none => malformed
  | some n =>
    let name := trim (rest.text.take n)
    let group := rest.drop n
    match isName name, group.closing? with
    | true, some close => do
      let (head, inline) ← splitHeader (group.drop (close + 1)).trim .functionDefinition
      let result? ← readResultType line head
      let params ← readParams (group.slice 1 close)
      return (.function (String.ofList name) params result?, inline)
    | _, _ => malformed

/-! ## Classes -/

/-- The base classes between the first opening and the last closing parenthesis.  What stands behind
the closing one is not looked at; if it stands in front of the opening one, there is no piece
between the two and the reading crashes. -/
def readBases (line head : Segment) (n : Nat) : Except ParseError (List Expr) :=
  match lastIndexOf? ')' head.text with
  | none => .error (.malformed .classDefinition line.span)
  | some m =>
    if m < n then .error (.crossedSeparators .classDefinition line.span)
    else (head.slice (n + 1) m).parts.mapM Segment.expr

/-- The header that is written after `class`, and what follows its colon.  Bases are read before the
name is looked at, so that of two errors the one in the bases is reported. -/
def readClass (line rest : Segment) : Except ParseError (Header × Segment) := do
  let (head, inline) ← splitHeader rest .classDefinition
  let n? := head.text.findIdx? (· == '(')
  let bases ← (n?.map (readBases line head)).getD (.ok [])
  let name := trim (head.text.take (n?.getD head.text.length))
  if isName name then return (.classDef (String.ofList name) bases, inline)
  else .error (.malformed .classDefinition line.span)

/-! ## Conditionals -/

/-- The condition that is written after `if` or `elif`, and what follows its colon. -/
def readCondition (rest : Segment) : Except ParseError (Expr × Segment) := do
  let (head, inline) ← splitHeader rest .ifStatement
  let cond ← head.expr
  return (cond, inline)

/-! ## Headers -/

/-- The header at the start of a line and what follows its colon, if the line starts with a keyword
that opens a block.  `chained` tells whether the line follows the block of an `if` or `elif`;
otherwise `elif` and `else` are no keywords.  What stands between an `else` and its colon is passed
over. -/
def readHeader? (chained : Bool) (line : Segment) :
    Option (Except ParseError (Header × Segment)) :=
  let chain (keyword : String) : Option Segment :=
    if chained then line.afterKeyword? keyword else none
  match line.afterKeyword? "def", line.afterKeyword? "class", line.afterKeyword? "if",
    chain "elif", chain "else" with
  | some rest, _, _, _, _ => some (readFunction line rest)
  | _, some rest, _, _, _ => some (readClass line rest)
  | _, _, some rest, _, _ => some do
    let (cond, inline) ← readCondition rest
    return (.conditional cond, inline)
  | _, _, _, some rest, _ => some do
    let (cond, inline) ← readCondition rest
    return (.alternative cond, inline)
  | _, _, _, _, some rest => some do
    let (_, inline) ← splitHeader rest .elseClause
    return (.otherwise, inline)
  | none, none, none, none, none => none

end TypeReveal
