import TypeReveal.Text.Printable

/-!
# Escapes

Three ways of writing a text inside quotes.

* `escapeAscii` writes what is not printable ASCII by its code point, so the result is ASCII; this
  is how a literal type shows its text.
* `escapePrintable` keeps every printable character; this is how a type is described in detail.
* `unescape` reads the body of a quoted string in an annotation, where a backslash stands before
  `n` for a line break, before `t` for a tab, and before any other character for that character.
-/

set_option autoImplicit false
namespace TypeReveal

/-! ## Writing -/

/-- A character by its code point, in hexadecimal. -/
def codePointEscape (c : Char) : List Char :=
  ['\\', 'u', '\x7b'] ++ Nat.toDigits 16 c.toNat ++ ['\x7d']

/-- One character of a text in which only printable ASCII stands for itself. -/
def escapeAsciiChar (c : Char) : List Char :=
  match c with
  | '\t' => ['\\', 't']
  | '\r' => ['\\', 'r']
  | '\n' => ['\\', 'n']
  | '\'' => ['\\', '\'']
  | '"' => ['\\', '"']
  | '\\' => ['\\', '\\']
  | c => if 0x20 ≤ c.toNat && c.toNat ≤ 0x7e then [c] else codePointEscape c

/-- A text in which only printable ASCII stands for itself. -/
def escapeAscii (s : List Char) : List Char := s.flatMap escapeAsciiChar

/-- One character of a text in which printable characters stand for themselves. -/
def escapePrintableChar (c : Char) : List Char :=
  match c with
  | '\x00' => ['\\', '0']
  | '\t' => ['\\', 't']
  | '\r' => ['\\', 'r']
  | '\n' => ['\\', 'n']
  | '"' => ['\\', '"']
  | '\\' => ['\\', '\\']
  | c => if isPrintable c && !isExtending c then [c] else codePointEscape c

/-- A text in which printable characters stand for themselves. -/
def escapePrintable (s : List Char) : List Char := s.flatMap escapePrintableChar

/-! ## Reading -/

/-- The text that the body of a quoted string denotes. -/
def unescape : List Char → List Char
  | [] => []
  | '\\' :: [] => ['\\']
  | '\\' :: 'n' :: rest => '\n' :: unescape rest
  | '\\' :: 't' :: rest => '\t' :: unescape rest
  | '\\' :: c :: rest => c :: unescape rest
  | c :: rest => c :: unescape rest

end TypeReveal
