/-!
# Types

The types that annotations denote and values have.  `Ty.nominal` covers classes with or without
arguments, `None` and class objects (`type[A]`); `Ty.callable` comes from annotations,
`Ty.function` from a function that is used as a value.

A `Ty.union` lists its members in the order in which they were added; `TypeReveal.Ty.Union` builds
it and `TypeReveal.Ty.Order` compares it as a set.
-/

set_option autoImplicit false
namespace TypeReveal

/-- The value a literal type is inhabited by. -/
inductive Literal where
  | int (value : Int)
  | bool (value : Bool)
  | str (value : String)
deriving DecidableEq, Repr

mutual

/-- A type. -/
inductive Ty where
  /-- Nothing better is known. -/
  | unknown
  | literal (value : Literal)
  | union (members : List Ty)
  | tuple (elems : List Ty)
  | callable (params : List Slot) (result : Ty)
  | nominal (name : String) (args : List Ty)
  | function (name : String) (params : List Slot) (result : Ty)

/-- A parameter of something callable; it has a name when a function definition declares it. -/
inductive Slot where
  | mk (name? : Option String) (ty : Ty)

end

deriving instance Repr for Ty, Slot

namespace Slot

/-- The name a parameter is declared with. -/
def name? : Slot → Option String
  | mk name? _ => name?

/-- The type of a parameter. -/
def ty : Slot → Ty
  | mk _ ty => ty

/-- A parameter without a name. -/
def anonymous (ty : Ty) : Slot := mk none ty

/-- A parameter with a name. -/
def named (name : String) (ty : Ty) : Slot := mk (some name) ty

end Slot

namespace Ty

instance : Inhabited Ty := ⟨unknown⟩

/-- An instance of a class without arguments. -/
def ofClass (name : String) : Ty := nominal name []

/-- The type of `None`. -/
def noneType : Ty := ofClass "None"

/-- The type of a class as a value, `type[A]`. -/
def classValue (inst : Ty) : Ty := nominal "type" [inst]

/-- Whether a type says nothing. -/
def isUnknown : Ty → Bool
  | unknown => true
  | _ => false

/-- The type of the result of anything callable. -/
def result? : Ty → Option Ty
  | callable _ result => some result
  | function _ _ result => some result
  | _ => none

end Ty
end TypeReveal
