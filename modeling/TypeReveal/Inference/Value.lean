import TypeReveal.Inference.Narrowing
import TypeReveal.Inference.Provider

/-!
# Types of values

The type of an expression as a value.  Literals have the type of their class; a name has the type
of what declares it, unless a provider has an opinion or a conditional narrows it; a call has the
type of the result.

What declarations mean as values is left to an argument of type `Declared`, so this part is a
recursion on the expression alone.
-/

set_option autoImplicit false
namespace TypeReveal

/-- What declarations mean to the expressions that use them. -/
structure Declared where
  binding : (binding : Place) → Ty
  function : (function : Place) → Ty
  parameter : (param function : Place) → Ty
  call : (function : Place) → (call : Node) → Ty
  /-- What the providers say about a name. -/
  reference : Site → Expr → Option Ty

/-- The type that a declaration gives to its name. -/
def Declared.declaration (declared : Declared) (place : Place) : Ty :=
  match place.node with
  | .stmt (.binding ..) => declared.binding place
  | .stmt (.function ..) => declared.function place
  | .stmt (.classDef _ name ..) => Ty.classValue (Ty.ofClass name)
  | .param _ => (place.function?.map (declared.parameter place)).getD .unknown
  | _ => .unknown

/-- The type of a name that is not narrowed. -/
def Declared.bound (declared : Declared) (name : String) : Option Binding → Ty
  | some (.declaration place) => declared.declaration place
  | some (.imported _) => .unknown
  | none => if isKnownClass name then Ty.classValue (Ty.ofClass name) else .unknown

/-- The type of a name. -/
def Declared.name (declared : Declared) (site : Site) (e : Expr) (name : String) : Ty :=
  (declared.reference site e <|> narrowed? site e).getD
    (declared.bound name (site.bindingOf e))

/-- The type of the result of calling a value: an instance, for a class. -/
def Ty.called : Ty → Ty
  | .nominal "type" args => args.head?.getD .unknown
  | ty => ty.result?.getD .unknown

/-- The type of a call, if it is decided by the name that is called. -/
def Declared.namedCall? (declared : Declared) (site : Site) (call callee : Expr) : Option Ty :=
  match callee with
  | .name _ name =>
    match site.bindingOf callee with
    | some (.declaration place) =>
      if place.node.isFunction then some (declared.call place (.expr call)) else none
    | some (.imported _) => none
    | none => if name = "isinstance" then some (Ty.ofClass "bool") else none
  | _ => none

mutual

/-- The type of an expression. -/
def valueWith (declared : Declared) (site : Site) : Expr → Ty
  | .int .. => Ty.ofClass "int"
  | .float .. => Ty.ofClass "float"
  | .bool .. => Ty.ofClass "bool"
  | .str .. => Ty.ofClass "str"
  | .none _ => Ty.noneType
  | .ellipsis _ => Ty.ofClass "ellipsis"
  | .name span name => declared.name site (.name span name) name
  | .paren _ inner => valueWith declared site inner
  | .tuple _ elems => .tuple (valuesWith declared site elems)
  | .list _ elems =>
    .nominal "list" [(Ty.unionOf (valuesWith declared site elems)).getD .unknown]
  | .call span callee args =>
    match declared.namedCall? site (.call span callee args) callee with
    | some ty => ty
    | none => (valueWith declared site callee).called
  | .binary .. | .dangling .. | .subscript .. | .member .. => .unknown

/-- The types of expressions. -/
def valuesWith (declared : Declared) (site : Site) : List Expr → List Ty
  | [] => []
  | e :: es => valueWith declared site e :: valuesWith declared site es

end

end TypeReveal
