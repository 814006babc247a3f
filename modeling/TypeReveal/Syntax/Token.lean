import TypeReveal.Syntax.Expr
import TypeReveal.Text.Basic
import TypeReveal.Text.Letter
import TypeReveal.Text.Quoted

/-!
# Tokens

The text of an expression as a list of tokens.  Between tokens stand spaces, tabs, line breaks and
line breaks after a backslash.  What starts no token becomes `Token.junk`, and nothing is read
after it.

* A word is an ASCII letter or underscore and all letters, digits and underscores after it.
* A number is an optional minus, digits, and optionally a point with further digits; it must not
  run into a word.
* A string ends at its own quote on the same line; a backslash takes the character after it along,
  a quote or a line break too.
-/

set_option autoImplicit false
namespace TypeReveal

/-- The two kinds of brackets. -/
inductive Bracket where
  | round
  | square
deriving DecidableEq, Repr

/-- A token of an expression. -/
inductive Token where
  | word (text : String)
  | int (value : Int)
  | float (text : String)
  | str (text : String)
  | opening (bracket : Bracket)
  | closing (bracket : Bracket)
  | operator (op : Operator)
  | comma
  | dot
  | ellipsis
  /-- The text here starts no token. -/
  | junk
deriving DecidableEq, Repr

/-- A token and its place. -/
structure Lexeme where
  token : Token
  span : Span
deriving DecidableEq, Repr

/-! ## Single tokens -/

/-- The value of decimal digits. -/
def digitsValue (digits : List Char) : Nat :=
  digits.foldl (fun n c => 10 * n + (c.toNat - '0'.toNat)) 0

/-- What stands before the `quote` that ends a string, if the string ends. -/
def stringBody? (quote : Char) : List Char → Option (List Char)
  | [] => none
  | '\\' :: [] => none
  | '\\' :: c :: rest => (stringBody? quote rest).map ('\\' :: c :: ·)
  | c :: rest =>
    if c == quote then some []
    else if c == '\n' then none
    else (stringBody? quote rest).map (c :: ·)

/-- The number whose sign is `sign`, and its length without the sign. -/
def number? (sign rest : List Char) : Option (Token × Nat) :=
  let digits := rest.takeWhile Char.isDigit
  let after := rest.drop digits.length
  let fraction :=
    match after with
    | '.' :: more => '.' :: more.takeWhile Char.isDigit
    | _ => []
  let value := digitsValue digits
  if digits.isEmpty || (after.drop fraction.length).head?.any isWordPart then none
  else if fraction.isEmpty then
    some (.int (if sign.isEmpty then value else -value), digits.length)
  else
    some (.float (String.ofList (sign ++ digits ++ fraction)), digits.length + fraction.length)

/-- The token at the start of a text that is not empty, with the number of its characters after
the first. -/
def token? (c : Char) (rest : List Char) : Option (Token × Nat) :=
  match c with
  | '(' => some (.opening .round, 0)
  | ')' => some (.closing .round, 0)
  | '[' => some (.opening .square, 0)
  | ']' => some (.closing .square, 0)
  | '|' => some (.operator .bar, 0)
  | '&' => some (.operator .amp, 0)
  | ',' => some (.comma, 0)
  | '.' => if ['.', '.'].isPrefixOf rest then some (.ellipsis, 2) else some (.dot, 0)
  | '"' | '\'' =>
    (stringBody? c rest).map fun body =>
      (.str (String.ofList (unescape body)), body.length + 1)
  | '-' => number? [c] rest
  | _ =>
    if isWordStart c then
      let part := rest.takeWhile isWordPart
      some (.word (String.ofList (c :: part)), part.length)
    else if c.isDigit then
      (number? [] (c :: rest)).map fun (token, length) => (token, length - 1)
    else none

/-! ## The tokens of a text -/

/-- A character that stands between tokens. -/
def isSpacing (c : Char) : Bool := c == ' ' || c == '\t' || c == '\r' || c == '\n'

/-- The tokens of a text that starts at `pos`. -/
def lexemes (pos : Nat) : List Char → List Lexeme
  | [] => []
  | '\\' :: '\n' :: rest => lexemes (pos + 2) rest
  | c :: rest =>
    if isSpacing c then lexemes (pos + 1) rest
    else
      match token? c rest with
      | none => [⟨.junk, ⟨pos, pos⟩⟩]
      | some (token, more) =>
        let stop := pos + c.utf8Size + utf8Length (rest.take more)
        ⟨token, ⟨pos, stop⟩⟩ :: lexemes stop (rest.drop more)
termination_by text => text.length
decreasing_by all_goals (simp only [List.length_cons, List.length_drop]; omega)

end TypeReveal
