import TypeReveal.Careful.Fault
import TypeReveal.Text.Position

/-!
# Segments, cut carefully

Here the places in a segment are counted in bytes, and every piece of it is cut out at two such
places by `Careful.cut`, which makes sure that there is such a piece.

The searches look at the bytes of a segment: at each byte which is the start of a character outside
of everything, the text in front of it and the text behind it are compared with what is looked for.
A place that is found is where a cut is made next, or one byte behind that, and whether the cut can
be made is found out by making it.
-/

set_option autoImplicit false
namespace TypeReveal

/-- The number of bytes of the first `n` characters of a segment. -/
def Segment.offset (seg : Segment) (n : Nat) : Nat := utf8Length (seg.text.take n)

namespace Careful

/-! ## Pieces -/

/-- The bytes of a segment from `m` to `n`. -/
def cut (seg : Segment) (m n : Nat) : Careful Segment :=
  match if m ≤ n then byteSlice? seg.text m n else none with
  | some text => .ok ⟨seg.start + m, text⟩
  | none => .error (.fault (.slice seg m n))

/-- The first `n` bytes of a segment. -/
def upTo (seg : Segment) (n : Nat) : Careful Segment := cut seg 0 n

/-- The bytes of a segment after the first `m`. -/
def after (seg : Segment) (m : Nat) : Careful Segment := cut seg m (utf8Length seg.text)

/-- The difference of two numbers. -/
def minus (m n : Nat) : Careful Nat :=
  if n ≤ m then .ok (m - n) else .error (.fault (.below m n))

/-- An error.  The length of the place that it is about is worked out. -/
def report {α : Type} (e : ParseError) : Careful α := do
  let _ ← minus e.span.stop e.span.start
  .error (.error e)

/-- A segment without blank characters at its ends. -/
def trim (seg : Segment) : Careful Segment := do
  let text := trimStart seg.text
  let gap ← minus (utf8Length seg.text) (utf8Length text)
  return ⟨seg.start + gap, trimEnd text⟩

/-- What follows a keyword at the start of a segment; the keyword must not run into a name. -/
def afterKeyword? (seg : Segment) (keyword : String) : Careful (Option Segment) :=
  match dropStart? keyword.toList seg.text with
  | none => return none
  | some rest => do
    if rest.head?.any isNamePart then return none
    let rest ← after seg (utf8Length keyword.toList)
    return some (← trim rest)

/-! ## Separators -/

/-- A kind of separator: a test on the text before a place and the text from there on. -/
abbrev Needle := List Char → List Char → Bool

/-- A comma. -/
def comma : Needle := fun _ rest => [','].isPrefixOf rest

/-- A colon. -/
def colon : Needle := fun _ rest => [':'].isPrefixOf rest

/-- The sign of a binding: an equals sign that is not part of a comparison or of `:=`. -/
def equals : Needle := fun before rest =>
  ['='].isPrefixOf rest && !(['=', '='].isPrefixOf rest) &&
    !before.getLast?.any ['=', '<', '>', '!', ':'].contains

/-- The places of the characters outside of brackets, strings and comments in a text that starts at
`pos`. -/
def topOffsets (pos : Nat) : List (Char × Region) → List Nat
  | [] => []
  | (c, region) :: rest =>
    let places := topOffsets (pos + c.utf8Size) rest
    if region = .top then pos :: places else places

/-- Whether a separator stands at a place of a segment. -/
def standsAt (seg : Segment) (needle : Needle) (i : Nat) : Careful Bool := do
  let before ← upTo seg i
  let rest ← after seg i
  return needle before.text rest.text

/-- The place of the first separator. -/
def index? (seg : Segment) (needle : Needle) : Careful (Option Nat) :=
  (topOffsets 0 (regions seg.text)).findM? (standsAt seg needle)

/-- The place of the bracket that closes the group at the start. -/
def closing? (seg : Segment) : Option Nat := seg.closing?.map seg.offset

theorem length_lt_of_after {seg rest : Segment} {m : Nat} (h : after seg (m + 1) = .ok rest) :
    rest.text.length < seg.text.length := by
  rw [after, cut.eq_def] at h
  split at h
  · next text hslice =>
    cases h
    split at hslice
    · obtain ⟨before, hbefore, hslice⟩ := Option.bind_eq_some_iff.1 hslice
      obtain ⟨through, hthrough, hslice⟩ := Option.bind_eq_some_iff.1 hslice
      obtain rfl := Option.some.inj hslice
      have hpos : before ≠ [] := fun hnil => by
        have hlength := utf8Length_of_takeBytes? hbefore
        simp [hnil] at hlength
      have hcut := List.length_pos_iff.2 hpos
      have hbefore := (prefix_of_takeBytes? hbefore).length_le
      have hthrough := (prefix_of_takeBytes? hthrough).length_le
      rw [List.length_drop]
      omega
    · cases hslice
  · cases h

/-- The parts between commas, without blank characters at their ends.  An empty part counts, unless
it is the last. -/
def parts (seg : Segment) : Careful (List Segment) := do
  match ← index? seg comma with
  | none =>
    let last ← trim seg
    return if last.isEmpty then [] else [last]
  | some i =>
    let part ← trim (← upTo seg i)
    match _h : after seg (i + 1) with
    | .error abort => .error abort
    | .ok rest => return part :: (← parts rest)
termination_by seg.text.length
decreasing_by exact length_lt_of_after _h

end Careful
end TypeReveal
