import TypeReveal.Proofs.Expr.Written
import TypeReveal.Proofs.Layout.Lines
import TypeReveal.Tree.Node

/-!
# Writing statements

`Stmt.lines` writes a statement as indented lines, and `source` is the file with some statements.

* A block stands four columns deeper than the line it belongs to.  What an `if` holds for the other
  case stands in a block after `else:`, also if it is a single `if`.
* Each decorator has a line of its own.
* Expressions are written on one line, with one space before each token.

`Stmt.fits` says which statements can be written in this way.  The condition is about what the
grammar of statements reads first: a binding or an expression must not start with a keyword,
a comma in a parameter or a base class would separate it from the next, a block is not empty.
-/

set_option autoImplicit false
namespace TypeReveal

/-! ## Parts of lines -/

/-- Texts with a comma and a space between them. -/
def listed : List (List Char) → List Char
  | [] => []
  | [text] => text
  | text :: more => text ++ ',' :: ' ' :: listed more

/-- An expression after a mark, if there is one. -/
def marked (mark : List Char) : Option Expr → List Char
  | none => []
  | some e => mark ++ e.spaced

/-- A name with its type and its value. -/
def declaration (name : String) (annotation? value? : Option Expr) : List Char :=
  name.toList ++ (marked [':'] annotation? ++ marked [' ', '='] value?)

/-- A parameter in a parameter list. -/
def Param.written (p : Param) : List Char := declaration p.name p.annotation? p.default?

/-- What stands between parentheses. -/
def grouped (items : List (List Char)) : List Char := '(' :: (listed items ++ [')'])

/-- The end of the first line of a function, after its parameters. -/
def resultMark (result? : Option Expr) : List Char := marked [' ', '-', '>'] result? ++ [':']

/-! ## Lines -/

namespace Stmt

/-- The first line of a statement, its decorators aside. -/
def headLine : Stmt → List Char
  | function _ name _ params result? _ =>
    "def".toList ++ ' ' ::
      (name.toList ++ (grouped (params.map Param.written) ++ resultMark result?))
  | classDef _ name bases _ =>
    "class".toList ++ ' ' :: (name.toList ++ (grouped (bases.map Expr.written) ++ [':']))
  | conditional _ cond _ _ => "if".toList ++ (cond.spaced ++ [':'])
  | binding _ name annotation? value? => declaration name annotation? value?
  | result _ value? => "return".toList ++ marked [] value?
  | imports _ none names => "import".toList ++ ' ' :: listed (names.map String.toList)
  | imports _ (some module) names =>
    "from".toList ++ ' ' ::
      (module.toList ++ (" import ".toList ++ listed (names.map String.toList)))
  | expr _ value => value.written
  | pass _ => "pass".toList

mutual

/-- The lines of a statement that stands in a block of indentation `indent`. -/
def lines (indent : Nat) : Stmt → List (Nat × List Char)
  | s@(function _ _ decorators _ _ body) =>
    decorators.map (fun d => (indent, '@' :: d.written)) ++
      (indent, s.headLine) :: linesAll (indent + 4) body
  | s@(classDef _ _ _ body) => (indent, s.headLine) :: linesAll (indent + 4) body
  | s@(conditional _ _ body orelse) =>
    (indent, s.headLine) :: (linesAll (indent + 4) body ++
      if orelse.isEmpty then [] else (indent, "else:".toList) :: linesAll (indent + 4) orelse)
  | s => [(indent, s.headLine)]

/-- The lines of a block of indentation `indent`. -/
def linesAll (indent : Nat) : List Stmt → List (Nat × List Char)
  | [] => []
  | s :: rest => s.lines indent ++ linesAll indent rest

end

end Stmt

/-- The file with some statements. -/
def source (body : List Stmt) : List Char := (Stmt.linesAll 0 body).flatMap lineText

/-! ## Which statements can be written -/

/-- Names with points between them. -/
def isDotted (text : List Char) : Bool := (splitOn '.' text).all isName

/-- Whether a parameter can be written. -/
def Param.fits (p : Param) : Bool :=
  isName p.name.toList && p.annotation?.all (Expr.fits .bar) && p.default?.all (Expr.fits .bar)

namespace Stmt

mutual

/-- Whether a statement can be written. -/
def fits : Stmt → Bool
  | function _ name decorators params result? body =>
    isName name.toList && decorators.all (Expr.fits .whole) && params.all Param.fits &&
      result?.all (Expr.fits .whole) && !body.isEmpty && fitsAll body
  | classDef _ name bases body =>
    isName name.toList && bases.all (Expr.fits .bar) && !body.isEmpty && fitsAll body
  | conditional _ cond body orelse =>
    cond.fits .whole && !body.isEmpty && fitsAll body && fitsAll orelse
  | binding _ name annotation? value? =>
    isName name.toList && !keywords.contains name && (annotation?.isSome || value?.isSome) &&
      annotation?.all (Expr.fits .whole) && value?.all (Expr.fits .whole)
  | result _ value? => value?.all (Expr.fits .whole)
  | imports _ module? names =>
    module?.all (fun m => isDotted m.toList) && !names.isEmpty &&
      names.all fun name => isName name.toList
  | expr _ value =>
    value.fits .whole && !keywords.any fun k => value.tokens.head? == some (.word k)
  | pass _ => true

/-- Whether all statements of a block can be written. -/
def fitsAll : List Stmt → Bool
  | [] => true
  | s :: rest => s.fits && fitsAll rest

end

end Stmt

/-! ## Spans aside -/

/-- A parameter without its spans. -/
def Param.bare (p : Param) : Param :=
  ⟨default, p.name, p.annotation?.map Expr.bare, p.default?.map Expr.bare⟩

namespace Stmt

mutual

/-- A statement without its spans. -/
def bare : Stmt → Stmt
  | function _ name decorators params result? body =>
    function default name (decorators.map Expr.bare) (params.map Param.bare)
      (result?.map Expr.bare) (bareAll body)
  | classDef _ name bases body => classDef default name (bases.map Expr.bare) (bareAll body)
  | conditional _ cond body orelse =>
    conditional default cond.bare (bareAll body) (bareAll orelse)
  | binding _ name annotation? value? =>
    binding default name (annotation?.map Expr.bare) (value?.map Expr.bare)
  | result _ value? => result default (value?.map Expr.bare)
  | imports _ module? names => imports default module? names
  | expr _ value => expr default value.bare
  | pass _ => pass default

/-- Statements without their spans. -/
def bareAll : List Stmt → List Stmt
  | [] => []
  | s :: rest => s.bare :: bareAll rest

end

end Stmt

/-- A node without its spans. -/
def Node.bare : Node → Node
  | file _ body => file default (Stmt.bareAll body)
  | stmt s => stmt s.bare
  | param p => param p.bare
  | expr e => expr e.bare

end TypeReveal
