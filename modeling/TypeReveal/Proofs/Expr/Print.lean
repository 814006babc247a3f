import TypeReveal.Proofs.Expr.Stratum
import TypeReveal.Ty.Display

/-!
# Writing expressions

`Expr.tokens` is the one way of writing an expression as tokens, and `Printed` says which texts are
printings of a list of tokens: each token is spelled out, and between any two stands a gap.

* A tuple of one element is written with a comma after it, any other tuple without one; the empty
  tuple is an empty pair of parentheses.
* A string is written in double quotes.  A quote and a backslash in it take a backslash in front,
  and a line break is written as `\n` or takes a backslash in front.
* A gap is a run of spaces, tabs, line breaks and line breaks after a backslash that is not empty.

`Token.text` is the spelling that is taken where one has to be chosen, and `Expr.written` the
printing with this spelling and with one space in each gap.
-/

set_option autoImplicit false
namespace TypeReveal

/-! ## Tokens of an expression -/

namespace Expr

mutual

/-- The tokens of an expression. -/
def tokens : Expr → List Token
  | int _ value => [.int value]
  | float _ text => [.float text]
  | bool _ value => [.word (if value then "True" else "False")]
  | none _ => [.word "None"]
  | ellipsis _ => [.ellipsis]
  | str _ text => [.str text]
  | .name _ text => [.word text]
  | binary _ op lhs rhs => lhs.tokens ++ .operator op :: rhs.tokens
  | dangling _ op lhs => lhs.tokens ++ [.operator op]
  | paren _ inner => .opening .round :: (inner.tokens ++ [.closing .round])
  | tuple _ elems =>
    if elems.isEmpty then [.opening .round, .closing .round]
    else separated elems ++ if elems.length = 1 then [.comma] else []
  | list _ elems => .opening .square :: (separated elems ++ [.closing .square])
  | subscript _ value index =>
    value.tokens ++ .opening .square :: (index.tokens ++ [.closing .square])
  | member _ value attr => value.tokens ++ [.dot, .word attr]
  | call _ callee args =>
    callee.tokens ++ .opening .round :: (separated args ++ [.closing .round])

/-- The tokens of expressions with commas between them. -/
def separated : List Expr → List Token
  | [] => []
  | e :: es => e.tokens ++ continued es

/-- The tokens of expressions with a comma before each. -/
def continued : List Expr → List Token
  | [] => []
  | e :: es => .comma :: (e.tokens ++ continued es)

end

end Expr

/-! ## Spellings -/

/-- The ways of writing a character of a string. -/
inductive SpelledChar : Char → List Char → Prop
  | plain {c : Char} (hquote : c ≠ '"') (hslash : c ≠ '\\') (hbreak : c ≠ '\n') : SpelledChar c [c]
  | quote : SpelledChar '"' ['\\', '"']
  | slash : SpelledChar '\\' ['\\', '\\']
  | lineFeed : SpelledChar '\n' ['\\', 'n']
  | lineBreak : SpelledChar '\n' ['\\', '\n']

/-- The ways of writing the characters of a string. -/
inductive SpelledBody : List Char → List Char → Prop
  | nil : SpelledBody [] []
  | cons {c : Char} {cs s body : List Char} (hc : SpelledChar c s) (hcs : SpelledBody cs body) :
    SpelledBody (c :: cs) (s ++ body)

/-- The chosen way of writing a character of a string. -/
def quotedChar (c : Char) : List Char :=
  if c = '"' || c = '\\' then ['\\', c] else if c = '\n' then ['\\', 'n'] else [c]

/-- The chosen spelling of a token. -/
def Token.text : Token → List Char
  | word text => text.toList
  | int value => intText value
  | float text => text.toList
  | str text => '"' :: (text.toList.flatMap quotedChar ++ ['"'])
  | opening .round => ['(']
  | opening .square => ['[']
  | closing .round => [')']
  | closing .square => [']']
  | operator .bar => ['|']
  | operator .amp => ['&']
  | comma => [',']
  | dot => ['.']
  | ellipsis => ['.', '.', '.']
  | junk => []

/-- The ways of writing a token; only strings have more than one. -/
inductive Spelled : Token → List Char → Prop
  | text (t : Token) : Spelled t t.text
  | str {text : String} {body : List Char} (h : SpelledBody text.toList body) :
    Spelled (.str text) ('"' :: (body ++ ['"']))

/-! ## Gaps -/

/-- What a gap is made of. -/
def gapUnits : List (List Char) := [[' '], ['\t'], ['\r'], ['\n'], ['\\', '\n']]

/-- The texts that may stand between two tokens. -/
inductive Gap : List Char → Prop
  | unit {u : List Char} (h : u ∈ gapUnits) : Gap u
  | more {u gap : List Char} (h : u ∈ gapUnits) (hgap : Gap gap) : Gap (u ++ gap)

/-- The texts that are printings of a list of tokens. -/
inductive Printed : List Token → List Char → Prop
  | last {t : Token} {s : List Char} (h : Spelled t s) : Printed [t] s
  | more {t : Token} {ts : List Token} {s gap text : List Char} (h : Spelled t s) (hgap : Gap gap)
    (htext : Printed ts text) : Printed (t :: ts) (s ++ (gap ++ text))

/-! ## One space in each gap -/

/-- A token with a space before it. -/
def Token.spaced (t : Token) : List Char := ' ' :: t.text

/-- An expression with a space before each of its tokens. -/
def Expr.spaced (e : Expr) : List Char := e.tokens.flatMap Token.spaced

/-- An expression on one line, with one space between its tokens. -/
def Expr.written (e : Expr) : List Char := e.spaced.drop 1

end TypeReveal
