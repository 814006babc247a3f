import TypeReveal.Layout.Segment

/-!
# Logical lines

A file is a sequence of logical lines.  A line goes on while a bracket is open or a string takes a
line break along.  Comments are blanked out first: as many spaces take their place as they have
bytes, so that all positions stay as they are.  Lines with nothing but blank characters are left
out.
-/

set_option autoImplicit false
namespace TypeReveal

/-! ## Comments -/

/-- A character of a file without its comments. -/
def blankComment : Char × Region → List (Char × Region)
  | (c, .comment) => List.replicate c.utf8Size (' ', .comment)
  | (c, region) => [(c, region)]

/-- The characters of a file and their regions, with comments blanked out. -/
def cleanRegions (source : List Char) : List (Char × Region) :=
  (regions source).flatMap blankComment

/-- A file with its comments blanked out. -/
def clean (source : List Char) : List Char := (cleanRegions source).map Prod.fst

/-! ## Lines -/

/-- The pieces of a text between line breaks outside of brackets and strings, the text starting at
`start`. -/
def splitLines (start : Nat) : List (Char × Region) → List Segment
  | [] => [⟨start, []⟩]
  | (c, region) :: rest =>
    if c == '\n' && region = .top then ⟨start, []⟩ :: splitLines (start + c.utf8Size) rest
    else
      match splitLines (start + c.utf8Size) rest with
      | [] => [⟨start, [c]⟩]
      | seg :: segs => ⟨start, c :: seg.text⟩ :: segs

/-- A logical line that is not blank. -/
structure Line where
  /-- The number of bytes of the blank characters at its start. -/
  indent : Nat
  text : Segment
deriving DecidableEq, Repr

/-- The line that a piece of a file is, unless it is blank. -/
def Line.ofSegment? (seg : Segment) : Option Line :=
  let text := seg.trim
  if text.isEmpty then none else some ⟨text.start - seg.start, text⟩

/-- The logical lines of a file. -/
def Line.ofFile (source : List Char) : List Line :=
  (splitLines 0 (cleanRegions source)).filterMap Line.ofSegment?

end TypeReveal
