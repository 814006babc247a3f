/-!
# What may follow

Where an expression stops making sense, the error names what could have stood there.
-/

set_option autoImplicit false
namespace TypeReveal

/-- Something that may follow in an expression, in the order in which alternatives are named. -/
inductive Expectation where
  | endOfText
  | comma
  | bar
  | amp
  | operand
  | call
  | subscript
  | member
  | word
deriving DecidableEq, Repr

/-- The name of an expectation in messages. -/
def Expectation.label : Expectation → String
  | endOfText => "EOI"
  | comma => "comma"
  | bar => "or_op"
  | amp => "and_op"
  | operand => "primary"
  | call => "call"
  | subscript => "subscript"
  | member => "attribute"
  | word => "ident"

/-- Names as alternatives: `A`, `A or B`, `A, B, or C`. -/
def alternatives : List String → String
  | [] => ""
  | [a] => a
  | [a, b] => a ++ " or " ++ b
  | names => ", ".intercalate names.dropLast ++ ", or " ++ (names.getLast?.getD "")

/-- An expression that does not make sense from `offset` on. -/
structure Unexpected where
  offset : Nat
  /-- What could have stood there. -/
  expected : List Expectation
deriving DecidableEq, Repr

/-- What is reported about an expression that does not make sense. -/
def Unexpected.message (e : Unexpected) : String :=
  "expected " ++ alternatives (e.expected.map Expectation.label)

end TypeReveal
