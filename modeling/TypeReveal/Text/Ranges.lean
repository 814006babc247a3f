/-!
# Tables of code points

A property of characters is written as a list of closed ranges of code points, in increasing order.
-/

set_option autoImplicit false
namespace TypeReveal

/-- A character is in a table when its code point lies in one of the ranges, ends included. -/
def inRanges (table : List (Nat × Nat)) (c : Char) : Bool :=
  table.any fun range => range.1 ≤ c.toNat && c.toNat ≤ range.2

end TypeReveal
