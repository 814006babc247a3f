import TypeReveal.Annotation.Standard
import TypeReveal.Annotation.SignatureText

/-!
# The extended meaning of annotations

More annotations denote a type than by the standard rules: literals (`1 | 2`), `&` (of which the
left side counts), tuples (`(int, str)`), and strings that quote a signature (`"(int) -> str"`).
Where none of that applies the standard meaning is taken.

A **strict** reading takes neither signatures nor the standard meaning, except in the parts of a
form of its own.

The parts of a quoted signature are read in turn; `extendWith` leaves that to its argument
`deeper`.  A quoted signature is shorter than the string around it, so `extended` allows as many of
these steps as the longest string of the annotation has characters.
-/

set_option autoImplicit false
namespace TypeReveal

/-! ## Signatures -/

/-- The parameters that the parameter list of a signature declares, if it is one. -/
def signatureParams? : Expr → Option (List Expr)
  | .tuple _ elems => some elems
  | .paren _ (.tuple _ elems) => some elems
  | .paren _ inner => some [inner]
  | _ => none

/-- The parameters and the result of a text that is a signature. -/
def readSignature? (text : String) : Option (List Expr × Expr) := do
  guard (isSignature text.toList)
  let (params, result) ← signatureParts? text.toList
  let params ← signatureParams? (← Expr.ofText? params)
  return (params, ← Expr.ofText? result)

/-- The callable that a string quotes. -/
def signatureWith (deeper : Site → Expr → Option Ty) (site : Site) : Expr → Option Ty
  | .str span text => do
    let (params, result) ← readSignature? text
    let read (e : Expr) : Ty := (deeper (site.quote span.start) e).getD .unknown
    return .callable (params.map fun e => .anonymous (read e)) (read result)
  | _ => none

/-! ## Annotations -/

/-- The meaning of an annotation that has no extended form of its own. -/
def fallbackWith (deeper : Site → Expr → Option Ty) (site : Site) (strict : Bool) (e : Expr) :
    Option Ty :=
  if strict then none else signatureWith deeper site e <|> standard site e

mutual

/-- The type that an annotation denotes, with `deeper` for the parts of quoted signatures. -/
def extendWith (deeper : Site → Expr → Option Ty) (site : Site) (strict : Bool) :
    Expr → Option Ty
  | .int _ value => some (.literal (.int value))
  | .bool _ value => some (.literal (.bool value))
  | .binary span .bar lhs rhs =>
    Ty.union? (extendWith deeper site false lhs) (extendWith deeper site false rhs) <|>
      fallbackWith deeper site strict (.binary span .bar lhs rhs)
  | .binary span .amp lhs rhs =>
    extendWith deeper site false lhs <|>
      fallbackWith deeper site strict (.binary span .amp lhs rhs)
  | .dangling span .amp lhs =>
    extendWith deeper site false lhs <|>
      fallbackWith deeper site strict (.dangling span .amp lhs)
  | .tuple _ elems => some (.tuple (extendAllWith deeper site elems))
  | .paren span inner =>
    extendWith deeper site false inner <|> fallbackWith deeper site strict (.paren span inner)
  | e => fallbackWith deeper site strict e

/-- The types that annotations denote, the unknown one for those that denote none. -/
def extendAllWith (deeper : Site → Expr → Option Ty) (site : Site) : List Expr → List Ty
  | [] => []
  | e :: es => (extendWith deeper site false e).getD .unknown :: extendAllWith deeper site es

end

mutual

/-- The number of characters of the longest string in an expression. -/
def Expr.longestString : Expr → Nat
  | .int .. | .float .. | .bool .. | .none _ | .ellipsis _ | .name .. => 0
  | .str _ text => text.length
  | .binary _ _ lhs rhs => max lhs.longestString rhs.longestString
  | .dangling _ _ lhs => lhs.longestString
  | .paren _ inner => inner.longestString
  | .tuple _ elems | .list _ elems => Expr.longestStrings elems
  | .subscript _ value index => max value.longestString index.longestString
  | .member _ value _ => value.longestString
  | .call _ callee args => max callee.longestString (Expr.longestStrings args)

/-- The number of characters of the longest string in some expressions. -/
def Expr.longestStrings : List Expr → Nat
  | [] => 0
  | e :: es => max e.longestString (Expr.longestStrings es)

end

/-- The type that an annotation denotes when signatures are nested less than `budget` deep. -/
def extendWithin : (budget : Nat) → Site → Bool → Expr → Option Ty
  | 0, _, _, _ => none
  | budget + 1, site, strict, e =>
    extendWith (fun site e => extendWithin budget site false e) site strict e

/-- **The extended meaning of an annotation**, if it has one. -/
def extended (site : Site) (e : Expr) (strict : Bool := false) : Option Ty :=
  extendWithin (e.longestString + 1) site strict e

end TypeReveal
