import TypeReveal.Inference.Context
import TypeReveal.Syntax.Block
import TypeReveal.Text.Position
import TypeReveal.Ty.Display

/-!
# Revealing types

One line for each binding and each function of a file, in the order of the text: where it is, its
name and its type.  Either all lines are shown or none.
-/

set_option autoImplicit false
namespace TypeReveal

/-- What to reveal. -/
structure Inquiry where
  /-- The names whose declarations are shown; all of them if there are none. -/
  names : List String
  mode : AnalysisMode
  /-- Whether annotations are read in their extended meaning. -/
  extension : Bool

/-- The context of a file, with or without the extension. -/
def Context.ofFile (file : Place) (mode : AnalysisMode) (extension : Bool) : Context :=
  ⟨file, mode, if extension then [Provider.extension] else []⟩

namespace Inquiry

/-- Whether a declaration is shown. -/
def shows (inquiry : Inquiry) (place : Place) : Bool :=
  inquiry.names.isEmpty || place.declared?.any inquiry.names.contains

end Inquiry

/-- Why no types are revealed. -/
inductive RevealError where
  | parse (error : ParseError)
  /-- A declaration starts inside a character.  A decorated function starts one byte before its
  decorator, and a blank character of several bytes may stand there. -/
  | insideCharacter (offset : Nat)
deriving DecidableEq, Repr

/-- What is reported about an error. -/
def RevealError.message : RevealError → String
  | parse error => error.message
  | insideCharacter offset => "no line and column inside a character at " ++ toString offset

/-- The line that is shown for a declaration. -/
def revealLine (ctx : Context) (source : List Char) (place : Place) : Except RevealError String :=
  match lineColumn? source place.span.start with
  | none => .error (.insideCharacter place.span.start)
  | some (line, column) =>
    .ok (toString line ++ ":" ++ toString column ++ " " ++ place.declared?.getD "" ++ ": " ++
      (ctx.typeAt place).display)

/-- The lines that are shown for a file. -/
def reveal (source : List Char) (inquiry : Inquiry) : Except RevealError (List String) := do
  let file := Place.root (← (Node.read source).mapError .parse)
  let ctx := Context.ofFile file inquiry.mode inquiry.extension
  (file.declarations.filter inquiry.shows).mapM (revealLine ctx source)

end TypeReveal
