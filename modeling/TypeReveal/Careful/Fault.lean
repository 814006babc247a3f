import TypeReveal.Layout.Segment
import TypeReveal.Syntax.ParseError

/-!
# Faults

Reading takes much for granted: that a range of bytes lies in its text and cuts no character, that a
difference is not below zero, that a part of a parse tree has the parts of its own that the grammar
gives it.  A **careful** reading makes sure of each of these where it comes to it, and ends with a
fault where one does not hold.
-/

set_option autoImplicit false
namespace TypeReveal

/-- The rules of the grammar of expressions that leave a pair in a parse tree. -/
inductive Rule where
  | fragment
  | expression
  | comma
  | union
  | bar
  | intersection
  | amp
  | primary
  | call
  | subscript
  | attribute
  | paren
  | list
  | ellipsis
  | number
  | string
  | doubleQuoted
  | doubleQuotedBody
  | singleQuoted
  | singleQuotedBody
  | trueLiteral
  | falseLiteral
  | noneLiteral
  | name
  | word
  | endOfText
deriving DecidableEq, Repr

/-- Something that a parse tree has to have. -/
inductive Part where
  /-- The tree of a whole text. -/
  | fragment
  /-- The expression of a whole text. -/
  | expression
  /-- An element of an expression without commas. -/
  | operand
  /-- What stands before the first operator. -/
  | lhs
  /-- What stands before calls, subscripts and attributes. -/
  | atom
  /-- The quotes of a string and what stands between them. -/
  | quoted
  /-- What stands in a subscript. -/
  | index
  /-- What stands after the point of an attribute. -/
  | attr
deriving DecidableEq, Repr

/-- Something that cannot be done. -/
inductive Fault where
  /-- The bytes of a segment from `start` to `stop` are no text: the range is turned around, goes on
  behind the segment, or cuts a character. -/
  | slice (seg : Segment) (start stop : Nat)
  /-- The difference of `m` and `n` is below zero. -/
  | below (m n : Nat)
  /-- A part of a parse tree is missing. -/
  | missing (part : Part)
  /-- A pair of a parse tree is of a rule that cannot stand there. -/
  | unexpected (rule : Rule)
deriving DecidableEq, Repr

/-- Why a careful reading ends without a result. -/
inductive Abort where
  /-- What is read does not make sense. -/
  | error (e : ParseError)
  | fault (f : Fault)
deriving DecidableEq, Repr

/-- The outcome of a careful reading. -/
abbrev Careful : Type → Type := Except Abort

namespace Careful

variable {α β : Type}

@[simp] theorem ok_bind (a : α) (f : α → Careful β) : ((.ok a : Careful α) >>= f) = f a := rfl

@[simp] theorem map_ok (f : α → β) (a : α) : (f <$> (.ok a : Careful α)) = .ok (f a) := rfl

@[simp] theorem pure_eq_ok (a : α) : (pure a : Careful α) = .ok a := rfl

end Careful
end TypeReveal
