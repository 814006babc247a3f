import TypeReveal.Syntax.Expr

/-!
# Statements

The statements of a file.  A compound statement holds the statements of its block; an `elif` is a
conditional that stands alone in the `orelse` of the one before it.
-/

set_option autoImplicit false
namespace TypeReveal

/-- A parameter of a function definition. -/
structure Param where
  span : Span
  name : String
  annotation? : Option Expr
  default? : Option Expr
deriving Repr

/-- A statement. -/
inductive Stmt where
  /-- A function definition; the decorators are part of it. -/
  | function (span : Span) (name : String) (decorators : List Expr) (params : List Param)
      (result? : Option Expr) (body : List Stmt)
  | classDef (span : Span) (name : String) (bases : List Expr) (body : List Stmt)
  | conditional (span : Span) (cond : Expr) (body orelse : List Stmt)
  /-- The binding of a name: `x = 1`, `x: int` or `x: int = 1`. -/
  | binding (span : Span) (name : String) (annotation? value? : Option Expr)
  | result (span : Span) (value? : Option Expr)
  /-- An import and the names it binds. -/
  | imports (span : Span) (module? : Option String) (names : List String)
  | expr (span : Span) (value : Expr)
  | pass (span : Span)
deriving Repr

namespace Stmt

instance : Inhabited Stmt := ⟨pass default⟩

/-- Where a statement stands. -/
def span : Stmt → Span
  | function span .. | classDef span .. | conditional span .. | binding span .. | result span _
  | imports span .. | expr span _ | pass span => span

end Stmt
end TypeReveal
