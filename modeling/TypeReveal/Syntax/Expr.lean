import TypeReveal.Syntax.Span

/-!
# Expressions

The expressions that annotations, values, defaults, decorators and conditions are made of.  Each
carries the span of its text.

An operator may lack its right operand (`int |`); `Expr.dangling` is such an operation.  A tuple is
bare (`a, b`), or it is the expression inside parentheses; `()` alone is the empty tuple.
-/

set_option autoImplicit false
namespace TypeReveal

/-- The two operators on types. -/
inductive Operator where
  /-- The operator of unions. -/
  | bar
  /-- The operator of intersections. -/
  | amp
deriving DecidableEq, Repr

/-- An expression. -/
inductive Expr where
  /-- A whole number of any size. -/
  | int (span : Span) (value : Int)
  /-- A number with a point, as written. -/
  | float (span : Span) (text : String)
  | bool (span : Span) (value : Bool)
  | none (span : Span)
  | ellipsis (span : Span)
  /-- A quoted string and the text it denotes. -/
  | str (span : Span) (text : String)
  | name (span : Span) (name : String)
  | binary (span : Span) (op : Operator) (lhs rhs : Expr)
  /-- An operator with nothing after it. -/
  | dangling (span : Span) (op : Operator) (lhs : Expr)
  | paren (span : Span) (inner : Expr)
  | tuple (span : Span) (elems : List Expr)
  | list (span : Span) (elems : List Expr)
  | subscript (span : Span) (value index : Expr)
  | member (span : Span) (value : Expr) (attr : String)
  | call (span : Span) (callee : Expr) (args : List Expr)
deriving Repr

namespace Expr

instance : Inhabited Expr := ⟨none default⟩

/-- Where an expression stands. -/
def span : Expr → Span
  | int span _ | float span _ | bool span _ | none span | ellipsis span | str span _
  | name span _ | binary span .. | dangling span .. | paren span _ | tuple span _ | list span _
  | subscript span .. | member span .. | call span .. => span

/-- The parts of an expression, in the order of their text. -/
def children : Expr → List Expr
  | int .. | float .. | bool .. | none _ | ellipsis _ | str .. | name .. => []
  | binary _ _ lhs rhs => [lhs, rhs]
  | dangling _ _ lhs => [lhs]
  | paren _ inner => [inner]
  | tuple _ elems | list _ elems => elems
  | subscript _ value index => [value, index]
  | member _ value _ => [value]
  | call _ callee args => callee :: args

mutual

/-- The number of expressions in an expression, itself included. -/
def size : Expr → Nat
  | int .. | float .. | bool .. | none _ | ellipsis _ | str .. | name .. => 1
  | binary _ _ lhs rhs => 1 + lhs.size + rhs.size
  | dangling _ _ lhs => 1 + lhs.size
  | paren _ inner => 1 + inner.size
  | tuple _ elems | list _ elems => 1 + sizes elems
  | subscript _ value index => 1 + value.size + index.size
  | member _ value _ => 1 + value.size
  | call _ callee args => 1 + callee.size + sizes args

/-- The number of expressions in a list of expressions. -/
def sizes : List Expr → Nat
  | [] => 0
  | e :: es => e.size + sizes es

end

end Expr
end TypeReveal
