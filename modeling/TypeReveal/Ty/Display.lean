import TypeReveal.Ty.Basic
import TypeReveal.Text.Quoted

/-!
# How a type is shown

The short form reads like an annotation.  In a union all literals are gathered into one
`Literal[...]` at the place of the first, and callables stand in parentheses so that their arrows
stay readable; a parameter of unknown type shows its name alone.

The long form (`Ty.detail`) names every constructor.
-/

set_option autoImplicit false
namespace TypeReveal

/-! ## Pieces -/

/-- An integer in decimal. -/
def intText (i : Int) : List Char :=
  if i < 0 then '-' :: Nat.toDigits 10 i.natAbs else Nat.toDigits 10 i.natAbs

/-- Texts with a comma and a space between them. -/
def commaList (parts : List (List Char)) : List Char := List.intercalate [',', ' '] parts

/-- Texts with a comma and a space between them, in square brackets. -/
def bracketList (parts : List (List Char)) : List Char := '[' :: commaList parts ++ [']']

/-- A literal's value as it is written in an annotation. -/
def Literal.text : Literal → List Char
  | int value => intText value
  | bool true => "True".toList
  | bool false => "False".toList
  | str value => '\'' :: escapeAscii value.toList ++ ['\'']

/-- Literals in one `Literal[...]`. -/
def literalText (values : List Literal) : List Char :=
  "Literal".toList ++ bracketList (values.map Literal.text)

/-- The literals among the members of a union. -/
def Ty.literals (members : List Ty) : List Literal :=
  members.filterMap fun
    | .literal value => some value
    | _ => none

/-- A parameter that shows its type as `type`. -/
def Slot.textWith (type : List Char) : Slot → List Char
  | .mk none _ => type
  | .mk (some name) .unknown => name.toList
  | .mk (some name) _ => name.toList ++ [':', ' '] ++ type

/-! ## The short form -/

mutual

/-- A type as it is shown. -/
def Ty.text : Ty → List Char
  | .unknown => "Any".toList
  | .literal value => literalText [value]
  | .union members =>
    List.intercalate " | ".toList (Ty.memberTexts (literalText (Ty.literals members)) true members)
  | .tuple [] => "tuple[()]".toList
  | .tuple (elem :: elems) => "tuple".toList ++ bracketList (Ty.texts (elem :: elems))
  | .callable params result => '(' :: commaList (Slot.texts params) ++ ") -> ".toList ++ result.text
  | .function _ params result =>
    '(' :: commaList (Slot.texts params) ++ ") -> ".toList ++ result.text
  | .nominal name [] => name.toList
  | .nominal name (arg :: args) => name.toList ++ bracketList (Ty.texts (arg :: args))

/-- A parameter as it is shown. -/
def Slot.text : Slot → List Char
  | .mk name? ty => (Slot.mk name? ty).textWith ty.text

/-- The parts of a union as they are shown; the first literal, if it is still `awaited`, stands for
all literals and is shown as `merged`. -/
def Ty.memberTexts (merged : List Char) (awaited : Bool) : List Ty → List (List Char)
  | [] => []
  | .literal _ :: members =>
    if awaited then merged :: Ty.memberTexts merged false members
    else Ty.memberTexts merged awaited members
  | .callable params result :: members =>
    ('(' :: (Ty.callable params result).text ++ [')']) :: Ty.memberTexts merged awaited members
  | .function name params result :: members =>
    ('(' :: (Ty.function name params result).text ++ [')']) ::
      Ty.memberTexts merged awaited members
  | ty :: members => ty.text :: Ty.memberTexts merged awaited members

/-- Types as they are shown. -/
def Ty.texts : List Ty → List (List Char)
  | [] => []
  | ty :: tys => ty.text :: Ty.texts tys

/-- Parameters as they are shown. -/
def Slot.texts : List Slot → List (List Char)
  | [] => []
  | slot :: slots => slot.text :: Slot.texts slots

end

/-- A type as it is shown. -/
def Ty.display (ty : Ty) : String := String.ofList ty.text

@[simp] theorem Ty.texts_eq_map (tys : List Ty) : Ty.texts tys = tys.map Ty.text := by
  induction tys with
  | nil => rfl
  | cons ty tys ih => simp [Ty.texts, ih]

@[simp] theorem Slot.texts_eq_map (slots : List Slot) :
    Slot.texts slots = slots.map Slot.text := by
  induction slots with
  | nil => rfl
  | cons slot slots ih => simp [Slot.texts, ih]

/-! ## The long form -/

/-- A text in double quotes, printable characters as they are. -/
def quotedText (text : String) : List Char := '"' :: escapePrintable text.toList ++ ['"']

/-- A literal's value in the long form. -/
def Literal.detail : Literal → List Char
  | int value => intText value
  | bool true => "true".toList
  | bool false => "false".toList
  | str value => quotedText value

/-- A parameter's name in the long form. -/
def nameDetail : Option String → List Char
  | none => "None".toList
  | some name => "Some(".toList ++ quotedText name ++ [')']

mutual

/-- A type with its constructors named. -/
def Ty.detail : Ty → List Char
  | .unknown => "Unknown".toList
  | .literal value => "Literal(".toList ++ value.detail ++ [')']
  | .union members => "Union(".toList ++ bracketList (Ty.details members) ++ [')']
  | .tuple elems => "Tuple(".toList ++ bracketList (Ty.details elems) ++ [')']
  | .callable params result =>
    "Callable(".toList ++ bracketList (Slot.details params) ++ " -> ".toList ++ result.detail ++
      [')']
  | .nominal name args => name.toList ++ bracketList (Ty.details args)
  | .function name params result =>
    "Function ".toList ++ name.toList ++ '(' :: bracketList (Slot.details params) ++
      " -> ".toList ++ result.detail ++ [')']

/-- A parameter with its constructors named. -/
def Slot.detail : Slot → List Char
  | .mk name? ty => nameDetail name? ++ [':', ' '] ++ ty.detail

/-- Types with their constructors named. -/
def Ty.details : List Ty → List (List Char)
  | [] => []
  | ty :: tys => ty.detail :: Ty.details tys

/-- Parameters with their constructors named. -/
def Slot.details : List Slot → List (List Char)
  | [] => []
  | slot :: slots => slot.detail :: Slot.details slots

end

/-- A type with its constructors named. -/
def Ty.describe (ty : Ty) : String := String.ofList ty.detail

end TypeReveal
