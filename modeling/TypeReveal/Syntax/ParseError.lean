import TypeReveal.Syntax.Expectation
import TypeReveal.Syntax.Span

/-!
# Errors in files

The reasons why a file cannot be read, each with the place it is about.

An error has a place and a reason.  The reasons are those that the readers of lines give, for a
construct that is malformed and for a line that must not stand where it does, and the error of an
expression with what was expected in its place.
-/

set_option autoImplicit false
namespace TypeReveal

/-- A part of a file that can be malformed. -/
inductive Construct where
  | decorator
  | functionDefinition
  | parameter
  | classDefinition
  | ifStatement
  | elseClause
  | importStatement
deriving DecidableEq, Repr

/-- The name of a construct in messages. -/
def Construct.label : Construct → String
  | decorator => "decorator"
  | functionDefinition => "function definition"
  | parameter => "parameter"
  | classDefinition => "class definition"
  | ifStatement => "if statement"
  | elseClause => "else clause"
  | importStatement => "import"

/-- Why a file cannot be read. -/
inductive ParseError where
  /-- An expression does not make sense. -/
  | invalidSyntax (unexpected : Unexpected)
  /-- A line is indented deeper than its block. -/
  | unexpectedIndent (span : Span)
  /-- The block of a statement is missing. -/
  | expectedBlock (span : Span)
  /-- A part of a statement does not have its form. -/
  | malformed (what : Construct) (span : Span)
  /-- Two separators stand in the wrong order: the default of a parameter before its annotation,
  or the closing parenthesis of a list of base classes before the opening one. -/
  | crossedSeparators (what : Construct) (span : Span)
deriving DecidableEq, Repr

namespace ParseError

/-- What is reported about an error. -/
def message : ParseError → String
  | invalidSyntax unexpected => "invalid syntax: " ++ unexpected.message
  | unexpectedIndent _ => "unexpected indent"
  | expectedBlock _ => "expected an indented block"
  | malformed what _ => "malformed " ++ what.label
  | crossedSeparators what _ => "crossed separators in " ++ what.label

/-- The place an error is about. -/
def span : ParseError → Span
  | invalidSyntax unexpected => ⟨unexpected.offset, unexpected.offset⟩
  | unexpectedIndent span | expectedBlock span | malformed _ span | crossedSeparators _ span => span

end ParseError
end TypeReveal
