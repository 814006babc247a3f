import TypeReveal.Scope
import TypeReveal.Syntax.Draft
import TypeReveal.Ty.Union

/-!
# The standard meaning of annotations

An annotation denotes a type by the rules of type hints: names of classes, aliases, strings that
quote an annotation, `|`, and subscripts such as `Optional[int]` or `typing.List[str]`.

Two steps lead out of an annotation: from an alias to its value, and from a string to the
expression in it.  `readWith` leaves both to its argument `deeper`; `standard` allows
`annotationDepth` of them on the way to any part, so an alias of itself denotes nothing.

What stands in front of the brackets of a subscript is a `Head`, and it decides what the arguments
are asked for: most heads ask for the types of their arguments, `Literal` for their values, and
`Callable` for the elements of its first argument.  Arguments are therefore passed on with their
meanings not yet computed.
-/

set_option autoImplicit false
namespace TypeReveal

/-! ## Names with a meaning of their own -/

/-- The classes that need no declaration. -/
def knownClasses : List String :=
  ["object", "int", "float", "complex", "bool", "str", "bytes", "list", "dict", "set",
    "frozenset", "tuple", "type"]

/-- Whether a name is that of a class that needs no declaration. -/
def isKnownClass (name : String) : Bool := knownClasses.contains name

/-- The names under which the module of type hints is known. -/
def hintModules : List String := ["typing", "typing_extensions", "t"]

/-- The class that a name of the typing module stands for; other names stand for themselves. -/
def canonicalName (name : String) : String :=
  match name with
  | "List" => "list"
  | "Dict" => "dict"
  | "Set" => "set"
  | "FrozenSet" => "frozenset"
  | "Tuple" => "tuple"
  | "Type" => "type"
  | _ => name

/-- The type that a name without arguments denotes when the file does not declare it. -/
def namedType? (name : String) : Option Ty :=
  if name = "Any" then some .unknown
  else if isKnownClass (canonicalName name) then some (Ty.ofClass (canonicalName name))
  else none

/-- The name that an expression takes from the typing module. -/
def hintName? : Expr → Option String
  | .member _ (.name _ module) attr => if hintModules.contains module then some attr else none
  | _ => none

/-- Whether an annotation is `Final` alone, which leaves the type to the value. -/
def isFinalAlone : Expr → Bool
  | .name _ name => name == "Final"
  | e => hintName? e == some "Final"

/-- The type of an argument of `Literal[...]`. -/
def literalArgument? : Expr → Option Ty
  | .int _ value => some (.literal (.int value))
  | .bool _ value => some (.literal (.bool value))
  | .str _ text => some (.literal (.str text))
  | .none _ => some Ty.noneType
  | _ => none

/-! ## Subscripts -/

/-- An argument of a subscript, with the meanings that it may be asked for. -/
structure Argument where
  expr : Expr
  /-- The type that it denotes. -/
  type? : Unit → Option Ty
  /-- The types of its elements, if it is a list. -/
  elems : Unit → List Ty

namespace Argument

/-- The type that an argument denotes, or the unknown one. -/
def type (arg : Argument) : Ty := (arg.type? ()).getD .unknown

/-- An argument that may denote a type. -/
def ofType (expr : Expr) (type? : Unit → Option Ty) : Argument := ⟨expr, type?, fun _ => []⟩

/-- An argument that is a list. -/
def ofList (expr : Expr) (elems : Unit → List Ty) : Argument := ⟨expr, fun _ => none, elems⟩

end Argument

/-- What stands before the bracket of a subscript. -/
inductive Head where
  /-- A class that the file declares. -/
  | declared (name : String)
  | special (name : String)
deriving DecidableEq, Repr

/-- The head that an expression is. -/
def head? (site : Site) : Expr → Option Head
  | .name span name =>
    match site.lookup span.start name with
    | some (.declaration place) =>
      match place.node with
      | .stmt (.classDef _ declared ..) => some (.declared declared)
      | _ => none
    | _ => some (.special name)
  | e => (hintName? e).map .special

/-- The type that a subscript denotes. -/
def Head.apply (head : Head) (args : List Argument) : Option Ty :=
  match head with
  | .declared name => some (.nominal name (args.map Argument.type))
  | .special name =>
    match canonicalName name with
    | "Final" | "ClassVar" | "Annotated" => args.head?.bind fun arg => arg.type? ()
    | "Optional" => args.head?.bind fun arg => Ty.union? (some arg.type) (some Ty.noneType)
    | "Union" => Ty.unionOf (args.map Argument.type)
    | "Literal" => Ty.unionOf (args.filterMap fun arg => literalArgument? arg.expr)
    | "tuple" => some (.tuple (args.map Argument.type))
    | "type" => args.head?.map fun arg => Ty.classValue arg.type
    | "Callable" =>
      let params := (args.head?.map fun arg => arg.elems ()).getD []
      let result := (args[1]?.map Argument.type).getD .unknown
      some (.callable (params.map Slot.anonymous) result)
    | name => if isKnownClass name then some (.nominal name (args.map Argument.type)) else none

/-! ## Annotations -/

/-- The declaration of an unannotated binding is an alias of its value. -/
def Place.aliasValue? (place : Place) : Option Expr :=
  match place.node with
  | .stmt (.binding _ _ none value?) => value?
  | _ => none

/-- The type that a name denotes. -/
def readNameWith (deeper : Site → Expr → Option Ty) (site : Site) (start : Nat) (name : String) :
    Option Ty :=
  match site.lookup start name with
  | some (.declaration place) =>
    match place.node with
    | .stmt (.classDef _ declared ..) => some (Ty.ofClass declared)
    | _ => place.aliasValue?.bind (deeper place.interior)
  | _ => namedType? name

/-- The type that the expression in a string denotes. -/
def readQuotedWith (deeper : Site → Expr → Option Ty) (site : Site) (start : Nat) (text : String) :
    Option Ty :=
  (Expr.ofText? text.toList).bind (deeper (site.quote start))

mutual

/-- The type that an annotation denotes, with `deeper` for the values of aliases and the contents of
strings. -/
def readWith (deeper : Site → Expr → Option Ty) (site : Site) : Expr → Option Ty
  | .none _ => some Ty.noneType
  | .str span text => readQuotedWith deeper site span.start text
  | .paren _ inner => readWith deeper site inner
  | .binary _ .bar lhs rhs => Ty.union? (readWith deeper site lhs) (readWith deeper site rhs)
  | .name span name => readNameWith deeper site span.start name
  | .member span value attr => (hintName? (.member span value attr)).bind namedType?
  | .subscript _ value (.tuple _ elems) =>
    (head? site value).bind fun head => head.apply (argumentsWith deeper site elems)
  | .subscript _ value (.list span elems) =>
    (head? site value).bind fun head =>
      head.apply [.ofList (.list span elems) fun _ => readAllWith deeper site elems]
  | .subscript _ value index =>
    (head? site value).bind fun head =>
      head.apply [.ofType index fun _ => readWith deeper site index]
  | _ => none

/-- The arguments of a subscript. -/
def argumentsWith (deeper : Site → Expr → Option Ty) (site : Site) : List Expr → List Argument
  | [] => []
  | .list span elems :: es =>
    .ofList (.list span elems) (fun _ => readAllWith deeper site elems) ::
      argumentsWith deeper site es
  | e :: es => .ofType e (fun _ => readWith deeper site e) :: argumentsWith deeper site es

/-- The types that annotations denote, the unknown one for those that denote none. -/
def readAllWith (deeper : Site → Expr → Option Ty) (site : Site) : List Expr → List Ty
  | [] => []
  | e :: es => (readWith deeper site e).getD .unknown :: readAllWith deeper site es

end

/-- How many aliases and strings may lie between an annotation and a part of its meaning. -/
def annotationDepth : Nat := 32

/-- The type that an annotation denotes when `budget - 1` steps out of it are left. -/
def readWithin : (budget : Nat) → Site → Expr → Option Ty
  | 0, _, _ => none
  | budget + 1, site, e => readWith (readWithin budget) site e

/-- **The standard meaning of an annotation**, if it has one. -/
def standard (site : Site) (e : Expr) : Option Ty := readWithin (annotationDepth + 1) site e

end TypeReveal
