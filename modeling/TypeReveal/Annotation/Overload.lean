import TypeReveal.Annotation.Extended

/-!
# Overloads

A function definition and the definitions of the same name before it in its block are overloads of
one function.  A parameter of an overloaded function can have any type that one of the overloads
gives it, and so can the result; nearer overloads come first.
-/

set_option autoImplicit false
namespace TypeReveal

namespace Place

/-- The name of the function that is defined at a place. -/
def functionName? (place : Place) : Option String :=
  match place.node with
  | .stmt (.function _ name ..) => some name
  | _ => none

/-- The annotation of a parameter. -/
def paramAnnotation? (place : Place) : Option Expr :=
  match place.node with
  | .param param => param.annotation?
  | _ => none

/-- The annotation of the result of a function. -/
def resultAnnotation? (place : Place) : Option Expr :=
  match place.node with
  | .stmt (.function _ _ _ _ result? _) => result?
  | _ => none

/-- The overloads that a function definition ends, the function itself first. -/
def overloads (function : Place) : List Place :=
  match function.functionName?, function.siblings? with
  | none, _ => []
  | some _, none => [function]
  | some name, some siblings =>
    let before := siblings.takeWhile (· != function)
    function :: before.reverse.filter (·.functionName? == some name)

end Place

/-- The annotation that an overload gives its parameter `name`, with the place it stands at. -/
def overloadAnnotation? (name : String) (function : Place) : Option (Place × Expr) := do
  let param ← function.params.find? (·.declared? == some name)
  return (param, ← param.paramAnnotation?)

/-- The union of the types that overloads give their parameter `name`. -/
def overloadedParam (overloads : List Place) (name : String) : Option Ty :=
  Ty.unionOf <| overloads.filterMap fun function => do
    let (param, annotation) ← overloadAnnotation? name function
    extended param.interior annotation

/-- The union of the types that overloads give their result. -/
def overloadedResult (overloads : List Place) : Option Ty :=
  Ty.unionOf <| overloads.filterMap fun function => do
    extended function.interior (← function.resultAnnotation?)

end TypeReveal
