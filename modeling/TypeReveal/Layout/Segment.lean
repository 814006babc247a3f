import TypeReveal.Layout.Region
import TypeReveal.Syntax.Span
import TypeReveal.Text.Letter

/-!
# Segments

A segment is a piece of the text of a file that knows where it stands.  Statements are taken apart
at **separators**: characters outside of brackets, strings and comments.  A segment is scanned on
its own, without regard to what stands before it in the file.

Places in a segment are counted in characters here, and a piece of it is taken at such a place, so
that a cut can not fail.  Where the piece stands in the file is computed from the bytes in front of
it.
-/

set_option autoImplicit false
namespace TypeReveal

/-- A piece of a file. -/
structure Segment where
  /-- The position of its first byte in the file. -/
  start : Nat
  text : List Char
deriving DecidableEq, Repr

namespace Segment

/-- Where a segment stands. -/
def span (seg : Segment) : Span := ⟨seg.start, seg.start + utf8Length seg.text⟩

/-- The first `n` characters. -/
def take (seg : Segment) (n : Nat) : Segment := ⟨seg.start, seg.text.take n⟩

/-- What follows the first `n` characters. -/
def drop (seg : Segment) (n : Nat) : Segment :=
  ⟨seg.start + utf8Length (seg.text.take n), seg.text.drop n⟩

/-- The characters from `m` to `n`, the end excluded. -/
def slice (seg : Segment) (m n : Nat) : Segment := (seg.take n).drop m

/-- A segment without blank characters at its ends. -/
def trim (seg : Segment) : Segment :=
  ⟨seg.start + utf8Length (seg.text.takeWhile isBlank), TypeReveal.trim seg.text⟩

/-- Whether there is nothing in a segment. -/
def isEmpty (seg : Segment) : Bool := seg.text.isEmpty

/-- What follows a keyword at the start of a segment; the keyword must not run into a name. -/
def afterKeyword? (seg : Segment) (keyword : String) : Option Segment :=
  match dropStart? keyword.toList seg.text with
  | some rest =>
    if rest.head?.any isNamePart then none else some (seg.drop keyword.length).trim
  | none => none

/-! ## Separators -/

/-- A kind of separator: a test on a character, the one before it and the one after it. -/
abbrev Separator := Option Char → Char → Option Char → Bool

/-- A comma. -/
def comma : Separator := fun _ c _ => c == ','

/-- A colon. -/
def colon : Separator := fun _ c _ => c == ':'

/-- The sign of a binding: an equals sign that is not part of a comparison or of `:=`. -/
def equals : Separator := fun before c after =>
  c == '=' && after != some '=' && !before.any ['=', '<', '>', '!', ':'].contains

/-- The first separator in a text whose regions are known. -/
def indexIn? (sep : Separator) (before : Option Char) : List (Char × Region) → Option Nat
  | [] => none
  | (c, region) :: rest =>
    if region = .top && sep before c (rest.head?.map Prod.fst) then some 0
    else (indexIn? sep (some c) rest).map (· + 1)

/-- How many characters stand before the first separator. -/
def index? (seg : Segment) (sep : Separator) : Option Nat := indexIn? sep none (regions seg.text)

theorem lt_of_indexIn? {sep : Separator} {before : Option Char} {text : List (Char × Region)}
    {n : Nat} (h : indexIn? sep before text = some n) : n < text.length := by
  induction text generalizing before n with
  | nil => simp [indexIn?] at h
  | cons head rest ih =>
    obtain ⟨c, region⟩ := head
    simp only [indexIn?] at h
    split at h
    · cases h; simp
    · obtain ⟨m, hm, rfl⟩ := Option.map_eq_some_iff.1 h
      have := ih hm
      simp only [List.length_cons]; omega

theorem lt_of_index? {seg : Segment} {sep : Separator} {n : Nat} (h : seg.index? sep = some n) :
    n < seg.text.length := by
  have := lt_of_indexIn? h
  simpa using this

/-- How many characters stand before the bracket that closes the group at the start. -/
def closing? (seg : Segment) : Option Nat :=
  (regions seg.text).findIdx? fun (_, region) => region = .close

/-- The parts between commas, without blank characters at their ends.  An empty part counts, unless
it is the last. -/
def parts (seg : Segment) : List Segment :=
  match h : seg.index? comma with
  | none => if seg.trim.isEmpty then [] else [seg.trim]
  | some n => (seg.take n).trim :: (seg.drop (n + 1)).parts
termination_by seg.text.length
decreasing_by
  have := lt_of_index? h
  simp [drop]; omega

end Segment
end TypeReveal
