import TypeReveal.Ty.Basic

/-!
# The order on types

Types are ordered by their form first (`unknown`, literals, unions, tuples, callables, nominal
types, functions), then part by part; integers come before truth values and those before texts,
texts go by code points, and a shorter list comes before its continuations.  A union counts as the
**set** of its members: it compares by the sorted list of them.

The order is read off a code: `Ty.key` writes a type as a list of integers on which the
lexicographic order is the order of types.  Every list in it is closed by a `0` below the `1` that
opens each further element, and the members of a union are written in increasing order.
-/

set_option autoImplicit false
namespace TypeReveal

/-! ## Codes -/

/-- A code made of the codes of the elements of a list. -/
def listKey (keys : List (List Int)) : List Int :=
  keys.flatMap (fun key => 1 :: key) ++ [0]

/-- The code of a text. -/
def textKey (text : String) : List Int :=
  text.toList.map (fun c => (c.toNat : Int) + 1) ++ [0]

/-- The code of a literal's value. -/
def Literal.key : Literal → List Int
  | int value => [0, value]
  | bool value => [1, if value then 1 else 0]
  | str value => 2 :: textKey value

/-- The code of a parameter's name. -/
def nameKey : Option String → List Int
  | none => [0]
  | some name => 1 :: textKey name

/-- Codes in increasing order. -/
def sortKeys (keys : List (List Int)) : List (List Int) :=
  keys.mergeSort fun a b => (compare a b).isLE

mutual

/-- The code of a type: the lexicographic order on codes is the order on types. -/
def Ty.key : Ty → List Int
  | .unknown => [0]
  | .literal value => 1 :: value.key
  | .union members => 2 :: listKey (sortKeys (Ty.keys members))
  | .tuple elems => 3 :: listKey (Ty.keys elems)
  | .callable params result => 4 :: (listKey (Slot.keys params) ++ result.key)
  | .nominal name args => 5 :: (textKey name ++ listKey (Ty.keys args))
  | .function name params result =>
    6 :: (textKey name ++ listKey (Slot.keys params) ++ result.key)

/-- The code of a parameter. -/
def Slot.key : Slot → List Int
  | .mk name? ty => nameKey name? ++ ty.key

/-- The codes of a list of types. -/
def Ty.keys : List Ty → List (List Int)
  | [] => []
  | ty :: tys => ty.key :: Ty.keys tys

/-- The codes of a list of parameters. -/
def Slot.keys : List Slot → List (List Int)
  | [] => []
  | slot :: slots => slot.key :: Slot.keys slots

end

@[simp] theorem Ty.keys_eq_map (tys : List Ty) : Ty.keys tys = tys.map Ty.key := by
  induction tys with
  | nil => rfl
  | cons ty tys ih => simp [Ty.keys, ih]

@[simp] theorem Slot.keys_eq_map (slots : List Slot) : Slot.keys slots = slots.map Slot.key := by
  induction slots with
  | nil => rfl
  | cons slot slots ih => simp [Slot.keys, ih]

/-! ## Comparison -/

namespace Ty

instance : Ord Ty := ⟨fun a b => compare a.key b.key⟩

/-- **Equality of types** looks at unions as sets, at every depth. -/
instance : BEq Ty := ⟨fun a b => a.key == b.key⟩

/-- Types in increasing order; equal ones keep their places. -/
def sort (tys : List Ty) : List Ty := tys.mergeSort fun a b => (compare a b).isLE

theorem compare_def (a b : Ty) : compare a b = compare a.key b.key := rfl

theorem beq_def (a b : Ty) : (a == b) = (a.key == b.key) := rfl

end Ty
end TypeReveal
