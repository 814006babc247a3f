import TypeReveal.Layout.Outline
import TypeReveal.Syntax.Header
import TypeReveal.Tree.Node

/-!
# Blocks and files

A block is a run of lines of one indentation, each with the lines below it in the outline.  Only a
header with nothing after its colon has lines below it: the block of its statement.

A block is first read line by line into **clauses** (`Outline.clauses`), in which the parts of a
conditional still stand side by side; `Clause.statements` then joins each `if` with the `elif` and
`else` clauses after it.
-/

set_option autoImplicit false
namespace TypeReveal

/-- A statement, or a part of a conditional. -/
inductive Clause where
  | stmt (stmt : Stmt)
  | conditional (line : Span) (cond : Expr) (body : List Stmt)
  | alternative (line : Span) (cond : Expr) (body : List Stmt)
  | otherwise (body : List Stmt)
deriving Repr

/-! ## Statements from clauses -/

/-- Where the last of some statements ends; `stop` if there is none.  It is where the statement of a
header ends, since nothing of a statement stands behind its block. -/
def lastStop (stop : Nat) (body : List Stmt) : Nat :=
  (body.getLast?.map fun s => s.span.stop).getD stop

namespace Clause

/-- A conditional statement whose first line is `line`.  It ends with its last branch, which is the
first one if `orelse` is empty. -/
def join (line : Span) (cond : Expr) (body orelse : List Stmt) : Stmt :=
  .conditional ⟨line.start, lastStop (lastStop line.stop body) orelse⟩ cond body orelse

/-- Puts a clause in front of what follows it: the rest of its conditional and the statements after
that.  An `elif` becomes a conditional of its own, which is all of the other branch of the one
before it. -/
def attach (clause : Clause) (after : List Stmt × List Stmt) : List Stmt × List Stmt :=
  match clause with
  | stmt s => ([], s :: after.2)
  | conditional line cond body => ([], join line cond body after.1 :: after.2)
  | alternative line cond body => ([join line cond body after.1], after.2)
  | otherwise body => (body, after.2)

/-- The statements that clauses make up, put together from the last clause on.  Reading a block
leaves no rest of a conditional at its start, where there is no `if` for it. -/
def statements (clauses : List Clause) : List Stmt := (clauses.foldr attach ([], [])).2

/-- Whether an `elif` or `else` may follow. -/
def isOpen : Clause → Bool
  | conditional .. | alternative .. => true
  | stmt _ | otherwise _ => false

/-- The clause with the header `header` on the line `line`.  A function with decorators starts one
byte in front of the first of them, where its sign stands if there are no blanks between the two. -/
def ofHeader (line : Span) (decorators : List Expr) (header : Header) (body : List Stmt) :
    Clause :=
  match header with
  | .function name params result? =>
    let start := (decorators.head?.map fun d => d.span.start - 1).getD line.start
    stmt (.function ⟨start, lastStop line.stop body⟩ name decorators params result? body)
  | .classDef name bases => stmt (.classDef ⟨line.start, lastStop line.stop body⟩ name bases body)
  | .conditional cond => conditional line cond body
  | .alternative cond => alternative line cond body
  | .otherwise => otherwise body

end Clause

/-! ## Clauses from lines -/

/-- No line may stand here. -/
def Outline.expectNone : Outline → Except ParseError Unit
  | nil => .ok ()
  | cons line _ _ => .error (.unexpectedIndent line.text.span)

/-- No decorator may be left without a definition. -/
def expectNoDecorators (decorators : List Expr) : Except ParseError Unit :=
  match decorators.getLast? with
  | none => .ok ()
  | some d => .error (.malformed .decorator d.span)

/-- A statement without a block; it takes no decorators. -/
def readUndecorated (decorators : List Expr) (line : Segment) : Except ParseError Stmt :=
  if decorators.isEmpty then Stmt.readSimple line
  else .error (.malformed .decorator line.span)

/-- The clauses of a block of indentation `indent`.  `decorators` are the decorators before the
first line, and `chained` tells whether an `if` or `elif` is before it.  Each line is a decorator, a
statement without a block, or a header; the block of a header is a statement behind the colon or the
lines below, but not both. -/
def Outline.clauses (indent : Nat) (decorators : List Expr) (chained : Bool) :
    Outline → Except ParseError (List Clause)
  | nil => do
    expectNoDecorators decorators
    return []
  | cons line nested rest => do
    if line.indent ≠ indent then
      expectNoDecorators decorators
      .error (.unexpectedIndent line.text.span)
    else if line.text.text.head? = some '@' then
      let decorator ← (line.text.drop 1).expr
      nested.expectNone
      clauses indent (decorators ++ [decorator]) false rest
    else
      let clause ←
        match readHeader? chained line.text with
        | none => do
          let s ← readUndecorated decorators line.text
          nested.expectNone
          pure (Clause.stmt s)
        | some header => do
          let (header, inline) ← header
          if !inline.isEmpty then
            let s ← Stmt.readSimple inline
            nested.expectNone
            pure (Clause.ofHeader line.text.span decorators header [s])
          else
            match nested with
            | nil => .error (.expectedBlock line.text.span)
            | cons top below after =>
              let clauses ← clauses top.indent [] false (cons top below after)
              pure (Clause.ofHeader line.text.span decorators header (Clause.statements clauses))
      let clauses ← clauses indent [] clause.isOpen rest
      return clause :: clauses

/-! ## Files -/

/-- The tree of a file: the outline of its logical lines is read as one block that is not indented.
The file spans its whole text, blank lines and comments at the ends included. -/
def Node.read (source : List Char) : Except ParseError Node := do
  let clauses ← (Outline.ofLines (Line.ofFile source)).clauses 0 [] false
  return .file ⟨0, utf8Length source⟩ (Clause.statements clauses)

end TypeReveal
