import TypeReveal.Careful.Statement
import TypeReveal.Syntax.Block

/-!
# Files, read carefully

A file once more, as `Node.read` reads it.  Comments are found in the file as it is and then blanked
one after another, the spans of lines are those of the file as it is, and the lines are cut out of
the file without its comments.
-/

set_option autoImplicit false
namespace TypeReveal
namespace Careful

/-! ## Comments -/

/-- The spans of the comments in a text that starts at `pos`; the text before it may end in a
comment that started at `open?`. -/
def commentSpans (open? : Option Nat) (pos : Nat) : List (Char × Region) → List Span
  | [] => (open?.map fun start => ⟨start, pos⟩).toList
  | (c, region) :: rest =>
    if region = .comment then commentSpans (some (open?.getD pos)) (pos + c.utf8Size) rest
    else (open?.map fun start => ⟨start, pos⟩).toList ++ commentSpans none (pos + c.utf8Size) rest

/-- A text with blanks in the place of a comment. -/
def blank (text : List Char) (comment : Span) : Careful (List Char) := do
  let length ← minus comment.stop comment.start
  let before ← upTo ⟨0, text⟩ comment.start
  let _ ← cut ⟨0, text⟩ comment.start comment.stop
  let rest ← after ⟨0, text⟩ comment.stop
  return before.text ++ (List.replicate length ' ' ++ rest.text)

/-- A file with its comments blanked out. -/
def clean (source : List Char) : Careful (List Char) :=
  (commentSpans none 0 (regions source)).foldlM blank source

/-! ## Lines -/

/-- The line at a span of a file without comments, unless it is blank. -/
def line? (source : List Char) (span : Span) : Careful (Option Line) := do
  let piece ← cut ⟨0, source⟩ span.start span.stop
  let text := trimEnd piece.text
  let content := trimStart text
  if content.isEmpty then return none
  else
    let indent ← minus (utf8Length text) (utf8Length content)
    return some ⟨indent, ⟨span.start + indent, content⟩⟩

/-- The logical lines of a file. -/
def lines (source : List Char) : Careful (List Line) := do
  let cleaned ← clean source
  let lines ← ((splitLines 0 (regions source)).map Segment.span).mapM (line? cleaned)
  return lines.filterMap id

/-! ## Clauses -/

/-- The clause with the header `header` on the line `line`. -/
def ofHeader (line : Span) (decorators : List Expr) (header : Header) (body : List Stmt) :
    Careful Clause :=
  match header with
  | .function name params result? => do
    let start ← (decorators.head?.map fun d => minus d.span.start 1).getD (.ok line.start)
    return .stmt
      (.function ⟨start, lastStop line.stop body⟩ name decorators params result? body)
  | header => return Clause.ofHeader line decorators header body

/-- No line may stand here. -/
def expectNone : Outline → Careful Unit
  | .nil => return ()
  | .cons line _ _ => report (.unexpectedIndent line.text.span)

/-- No decorator may be left without a definition. -/
def expectNoDecorators (decorators : List Expr) : Careful Unit :=
  match decorators.getLast? with
  | none => return ()
  | some d => report (.malformed .decorator d.span)

/-- A statement without a block; it takes no decorators. -/
def readUndecorated (decorators : List Expr) (line : Segment) : Careful Stmt :=
  if decorators.isEmpty then readSimple line
  else report (.malformed .decorator line.span)

/-- The clauses of a block of indentation `indent`.  `decorators` are the decorators before the
first line, and `chained` tells whether an `if` or `elif` is before it. -/
def clauses (indent : Nat) (decorators : List Expr) (chained : Bool) :
    Outline → Careful (List Clause)
  | .nil => do
    expectNoDecorators decorators
    return []
  | .cons line nested rest => do
    if line.indent ≠ indent then
      expectNoDecorators decorators
      report (.unexpectedIndent line.text.span)
    else if line.text.text.head? = some '@' then
      let decorator ← after line.text 1
      let decorator ← expr decorator
      expectNone nested
      clauses indent (decorators ++ [decorator]) false rest
    else
      let clause ←
        match ← readHeader? chained line.text with
        | none => do
          let s ← readUndecorated decorators line.text
          expectNone nested
          pure (Clause.stmt s)
        | some (header, inline) => do
          if !inline.isEmpty then
            let s ← readSimple inline
            let clause ← ofHeader line.text.span decorators header [s]
            expectNone nested
            pure clause
          else
            match nested with
            | .nil => report (.expectedBlock line.text.span)
            | .cons top below rest => do
              let clauses ← clauses top.indent [] false (.cons top below rest)
              ofHeader line.text.span decorators header (Clause.statements clauses)
      let clauses ← clauses indent [] clause.isOpen rest
      return clause :: clauses

/-! ## Files -/

/-- The tree of a file. -/
def read (source : List Char) : Careful Node := do
  let lines ← lines source
  let clauses ← clauses 0 [] false (Outline.ofLines lines)
  return .file ⟨0, utf8Length source⟩ (Clause.statements clauses)

end Careful
end TypeReveal
