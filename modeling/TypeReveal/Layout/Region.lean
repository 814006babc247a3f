import TypeReveal.Text.Basic

/-!
# Regions of a text

Brackets and strings hide what is inside them, and a comment runs to the end of its line.
`regions` tells for each character of a text which it is: only characters of the region `top` can
separate lines and parts of a line.

Every opening bracket opens a group and every closing bracket closes the innermost one, whatever
its shape; a group that is never closed runs to the end of the text, and a closing bracket outside
of all groups is an ordinary character.  A string ends at its own quote or, if there is none, before
the end of the line; a backslash in it takes the next character along.
-/

set_option autoImplicit false
namespace TypeReveal

/-- Where a character stands. -/
inductive Region where
  /-- Outside of brackets, strings and comments. -/
  | top
  /-- The bracket that closes an outermost group. -/
  | close
  /-- In a group or a string. -/
  | inside
  | comment
deriving DecidableEq, Repr

/-- What the characters at a point of a text belong to. -/
inductive Mode where
  | code
  | str (quote : Char)
  /-- After a backslash in a string. -/
  | escape (quote : Char)
  | comment
deriving DecidableEq, Repr

/-- What a scan knows about the text before it. -/
structure Scan where
  /-- How many groups are open. -/
  depth : Nat := 0
  mode : Mode := .code
deriving DecidableEq, Repr

/-- An opening bracket. -/
def isOpening (c : Char) : Bool := c == '(' || c == '[' || c == '\x7b'

/-- A closing bracket. -/
def isClosing (c : Char) : Bool := c == ')' || c == ']' || c == '\x7d'

namespace Scan

/-- One character of code. -/
def code (depth : Nat) (c : Char) : Region × Scan :=
  if isOpening c then (.inside, ⟨depth + 1, .code⟩)
  else if isClosing c then
    match depth with
    | 0 => (.top, ⟨0, .code⟩)
    | 1 => (.close, ⟨0, .code⟩)
    | depth + 1 => (.inside, ⟨depth, .code⟩)
  else if c == '"' || c == '\'' then (.inside, ⟨depth, .str c⟩)
  else if c == '#' then (.comment, ⟨depth, .comment⟩)
  else (if depth = 0 then .top else .inside, ⟨depth, .code⟩)

/-- One character. -/
def step (scan : Scan) (c : Char) : Region × Scan :=
  match scan.mode with
  | .code => code scan.depth c
  | .str quote =>
    if c == '\\' then (.inside, ⟨scan.depth, .escape quote⟩)
    else if c == quote then (.inside, ⟨scan.depth, .code⟩)
    else if c == '\n' then code scan.depth c
    else (.inside, scan)
  | .escape quote => (.inside, ⟨scan.depth, .str quote⟩)
  | .comment => if c == '\n' then code scan.depth c else (.comment, scan)

/-- Each character of a text with its region, the scan going on from `scan`. -/
def label (scan : Scan) : List Char → List (Char × Region)
  | [] => []
  | c :: rest => (c, (scan.step c).1) :: (scan.step c).2.label rest

end Scan

/-- Each character of a text with its region. -/
def regions (text : List Char) : List (Char × Region) := Scan.label {} text

@[simp] theorem Scan.map_fst_label (scan : Scan) (text : List Char) :
    (scan.label text).map Prod.fst = text := by
  induction text generalizing scan with
  | nil => rfl
  | cons c rest ih => simp [Scan.label, ih]

@[simp] theorem Scan.length_label (scan : Scan) (text : List Char) :
    (scan.label text).length = text.length := by
  rw [← List.length_map (f := Prod.fst), map_fst_label]

@[simp] theorem length_regions (text : List Char) : (regions text).length = text.length :=
  Scan.length_label {} text

end TypeReveal
