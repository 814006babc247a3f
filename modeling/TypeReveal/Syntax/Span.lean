/-!
# Spans

A span is a range of byte positions in the text that was read, the end excluded.
-/

set_option autoImplicit false
namespace TypeReveal

/-- A range of byte positions. -/
structure Span where
  /-- The position of the first byte. -/
  start : Nat
  /-- The position after the last byte. -/
  stop : Nat
deriving DecidableEq, Repr, Inhabited

namespace Span

/-- The number of bytes. -/
def length (span : Span) : Nat := span.stop - span.start

/-- Whether there are no bytes. -/
def isEmpty (span : Span) : Bool := span.start == span.stop

/-- The range from the start of one span to the end of another. -/
def through (first last : Span) : Span := ⟨first.start, last.stop⟩

end Span
end TypeReveal
