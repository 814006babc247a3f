/-!
# Text

Text that is read is a list of characters.  Positions in it count the bytes of its UTF-8 form, so
`utf8Length` is the length that spans are made of.  Blank characters are those with the property
`White_Space`; `trim` removes them at both ends.
-/

set_option autoImplicit false
namespace TypeReveal

/-! ## Length -/

/-- The number of bytes of a text in UTF-8. -/
def utf8Length : List Char → Nat
  | [] => 0
  | c :: rest => c.utf8Size + utf8Length rest

@[simp] theorem utf8Length_nil : utf8Length [] = 0 := rfl

@[simp] theorem utf8Length_cons (c : Char) (rest : List Char) :
    utf8Length (c :: rest) = c.utf8Size + utf8Length rest := rfl

@[simp] theorem utf8Length_append (s t : List Char) :
    utf8Length (s ++ t) = utf8Length s + utf8Length t := by
  induction s with
  | nil => simp
  | cons c s ih => simp [ih, Nat.add_assoc]

/-! ## Blank characters -/

/-- The characters with the property `White_Space`. -/
def isBlank (c : Char) : Bool :=
  let n := c.toNat
  (9 ≤ n && n ≤ 13) || n == 0x20 || n == 0x85 || n == 0xa0 || n == 0x1680 ||
    (0x2000 ≤ n && n ≤ 0x200a) || n == 0x2028 || n == 0x2029 || n == 0x202f || n == 0x205f ||
    n == 0x3000

/-- A text without its blank characters at the start. -/
def trimStart (s : List Char) : List Char := s.dropWhile isBlank

/-- A text without its blank characters at the end. -/
def trimEnd (s : List Char) : List Char := (s.reverse.dropWhile isBlank).reverse

/-- A text without its blank characters at both ends. -/
def trim (s : List Char) : List Char := trimEnd (trimStart s)

/-! ## Parts of a text -/

/-- The rest of a text that starts with `start`. -/
def dropStart? (start s : List Char) : Option (List Char) :=
  if start.isPrefixOf s then some (s.drop start.length) else none

/-- The number of characters before the first occurrence of `part`. -/
def indexOf? (part : List Char) : List Char → Option Nat
  | [] => if part.isEmpty then some 0 else none
  | c :: rest =>
    if part.isPrefixOf (c :: rest) then some 0 else (indexOf? part rest).map (· + 1)

/-- What stands before and after the first occurrence of `part`. -/
def splitAt? (part s : List Char) : Option (List Char × List Char) :=
  (indexOf? part s).map fun i => (s.take i, s.drop (i + part.length))

/-- The parts of a text between occurrences of a character. -/
def splitOn (sep : Char) : List Char → List (List Char)
  | [] => [[]]
  | c :: rest =>
    if c == sep then [] :: splitOn sep rest
    else
      match splitOn sep rest with
      | [] => [[c]]
      | part :: parts => (c :: part) :: parts

/-- The number of characters before the last occurrence of a character. -/
def lastIndexOf? (c : Char) (s : List Char) : Option Nat :=
  (s.reverse.findIdx? (· == c)).map fun i => s.length - 1 - i

end TypeReveal
