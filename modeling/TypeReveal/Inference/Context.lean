import TypeReveal.Inference.Value

/-!
# Inference

A context analyses a file: it answers queries for the types of bindings, parameters, results, calls,
expressions and functions.  Providers are asked first; what they leave open is inferred.

Only two inferences can come back to themselves: that of a binding from its value, and that of the
result of a function from its `return` statements.  A context therefore keeps the declarations that
are still **open** to these two.  An inference closes its declaration for all that it asks, and a
declaration that is closed has the unknown type.  As each such step closes one declaration more,
inference ends.

The default of a parameter may lead to further parameters without closing anything; that is
followed through as many parameters as the file has.
-/

set_option autoImplicit false
namespace TypeReveal

/-- A file under analysis. -/
structure Context where
  file : Place
  mode : AnalysisMode
  providers : List Provider

/-- The types that are inferred for declarations which are open. -/
structure Inferred where
  /-- The type of a binding. -/
  binding : (binding : Place) → Ty
  /-- The type of the result of a function without annotation. -/
  result : (function : Place) → Ty

/-! ## Results in a body -/

/-- The `return` statements in the body of a function. -/
def Place.results (function : Place) : List Place :=
  function.flatStmts.filter fun place =>
    match place.node with
    | .stmt (.result ..) => true
    | _ => false

/-- The type that a `return` statement gives to the result. -/
def resultOf (declared : Declared) (place : Place) : Ty :=
  match place.node with
  | .stmt (.result _ (some value)) => valueWith declared place.interior value
  | _ => Ty.noneType

/-- The type of the result of a function, from its body. -/
def resultFromBody (declared : Declared) (function : Place) : Ty :=
  match function.results with
  | [] => Ty.noneType
  | results => (Ty.unionOf (results.map (resultOf declared))).getD .unknown

/-! ## Bindings -/

/-- The type that the annotation of a binding settles, if it does not leave the type to the
value. -/
def settledType? (site : Site) : Option Expr → Option Ty
  | none => none
  | some annotation =>
    match standard site annotation with
    | some ty => some ty
    | none => if isFinalAlone annotation then none else some .unknown

/-- The type of a binding, from its annotation or else its value. -/
def bindingFromValue (declared : Declared) (binding : Place) : Ty :=
  match binding.node with
  | .stmt (.binding _ _ annotation? value?) =>
    (settledType? binding.interior annotation?).getD
      ((value?.map (valueWith declared binding.interior)).getD .unknown)
  | _ => .unknown

/-! ## Parameters -/

/-- The class of which a function is a method. -/
def Place.methodClass? (function : Place) : Option String :=
  match function.parent?.map Place.node with
  | some (.stmt (.classDef _ name ..)) => some name
  | _ => none

/-- The class that the first parameter of a method is an instance of. -/
def receiverClass? (param function : Place) : Option String :=
  if function.node.isFunction && function.params.head?.any (· == param) then
    function.methodClass?
  else none

/-- The type of a parameter, from its annotation, its place as a receiver or its default. -/
def paramFromDefault (declared : Declared) (param function : Place) : Ty :=
  match param.node with
  | .param p =>
    match p.annotation?, receiverClass? param function with
    | some annotation, _ => (standard param.interior annotation).getD .unknown
    | none, some name => Ty.ofClass name
    | none, none => (p.default?.map (valueWith declared param.interior)).getD .unknown
  | _ => .unknown

namespace Context

variable (ctx : Context)

/-! ## Queries, given what is inferred -/

/-- The first opinion of a provider. -/
def ask (query : Provider → Option Ty) : Option Ty := ctx.providers.findSome? query

/-- The type of a binding. -/
def bindingWith (inferred : Inferred) (binding : Place) : Ty :=
  (ctx.ask fun p => p.binding ctx.mode binding).getD (inferred.binding binding)

/-- The type that is inferred for the result of a function. -/
def inferResultWith (inferred : Inferred) (function : Place) : Ty :=
  match function.node with
  | .stmt (.function _ _ _ _ (some annotation) _) =>
    (standard function.interior annotation).getD .unknown
  | .stmt (.function ..) => inferred.result function
  | _ => .unknown

/-- The type of the result of a function. -/
def resultWith (inferred : Inferred) (function : Place) : Ty :=
  (ctx.ask fun p => p.result ctx.mode function).getD (inferResultWith inferred function)

/-- The type of a call of a function. -/
def callWith (inferred : Inferred) (function : Place) (call : Node) : Ty :=
  (ctx.ask fun p => p.call ctx.mode function call).getD (ctx.resultWith inferred function)

/-- The type that is inferred for a function as a value. -/
def inferFunctionWith (inferred : Inferred) (parameter : Place → Place → Ty) (function : Place) :
    Ty :=
  match function.functionName? with
  | some name =>
    let params := function.params.map fun param =>
      Slot.named (param.declared?.getD "") (parameter param function)
    .function name params (ctx.resultWith inferred function)
  | none => .unknown

/-- The type of a function as a value. -/
def functionWith (inferred : Inferred) (parameter : Place → Place → Ty) (function : Place) : Ty :=
  let answers : Answers := ⟨parameter, ctx.resultWith inferred⟩
  (ctx.ask fun p => p.function ctx.mode answers function).getD
    (ctx.inferFunctionWith inferred parameter function)

/-- What declarations mean to expressions. -/
def declaredWith (inferred : Inferred) (parameter : Place → Place → Ty) : Declared where
  binding := ctx.bindingWith inferred
  function := ctx.functionWith inferred parameter
  parameter := parameter
  call := ctx.callWith inferred
  reference site e := ctx.ask fun p => p.reference ctx.mode site e

/-- The type of a parameter of a function, when defaults lead through less than `budget`
parameters. -/
def paramWithin (inferred : Inferred) : (budget : Nat) → (param function : Place) → Ty
  | 0, _, _ => .unknown
  | budget + 1, param, function =>
    (ctx.ask fun p => p.parameter ctx.mode param function).getD
      (paramFromDefault (ctx.declaredWith inferred (paramWithin inferred budget)) param
        function)

/-- The number of parameters of a file. -/
def paramCount : Nat :=
  ctx.file.preorder.countP fun place =>
    match place.node with
    | .param _ => true
    | _ => false

/-- The type of a parameter of a function. -/
def paramWith (inferred : Inferred) (param function : Place) : Ty :=
  ctx.paramWithin inferred (ctx.paramCount + 1) param function

/-- What declarations mean to expressions. -/
def declared (inferred : Inferred) : Declared :=
  ctx.declaredWith inferred (ctx.paramWith inferred)

/-! ## What is inferred -/

/-- The types that are inferred while only the declarations in `unclosed` are open, when at most
`budget` declarations are closed one after another. -/
def inferredWithin : (budget : Nat) → (unclosed : List Nat) → Inferred
  | 0, _ => { binding := fun _ => .unknown, result := fun _ => .unknown }
  | budget + 1, unclosed =>
    { binding := fun place =>
        if place.index ∈ unclosed then
          bindingFromValue (ctx.declared (inferredWithin budget (unclosed.erase place.index))) place
        else .unknown
      result := fun place =>
        if place.index ∈ unclosed then
          resultFromBody (ctx.declared (inferredWithin budget (unclosed.erase place.index))) place
        else .unknown }

/-- The types that are inferred while only the declarations in `unclosed` are open. -/
def inferredFrom (unclosed : List Nat) : Inferred := ctx.inferredWithin unclosed.length unclosed

/-- Each inference closes its declaration. -/
theorem inferredFrom_eq (unclosed : List Nat) :
    ctx.inferredFrom unclosed =
      { binding := fun place =>
          if place.index ∈ unclosed then
            bindingFromValue (ctx.declared (ctx.inferredFrom (unclosed.erase place.index))) place
          else .unknown
        result := fun place =>
          if place.index ∈ unclosed then
            resultFromBody (ctx.declared (ctx.inferredFrom (unclosed.erase place.index))) place
          else .unknown } := by
  cases unclosed with
  | nil => simp [inferredFrom, inferredWithin]
  | cons index rest =>
    simp only [inferredFrom, List.length_cons, inferredWithin]
    congr 1 <;>
    · funext place
      split
      · next h => rw [List.length_erase_of_mem h, List.length_cons, Nat.add_sub_cancel]
      · rfl

/-- The types that are inferred when all declarations are open. -/
def inferred : Inferred := ctx.inferredFrom (ctx.file.declarations.map Place.index)

/-! ## Queries -/

/-- The type of a binding. -/
def bindingType (binding : Place) : Ty := ctx.bindingWith ctx.inferred binding

/-- The type of a parameter of a function. -/
def paramType (param function : Place) : Ty := ctx.paramWith ctx.inferred param function

/-- The type of the result of a function. -/
def resultType (function : Place) : Ty := ctx.resultWith ctx.inferred function

/-- The type of a call of a function. -/
def typeOfCall (function : Place) (call : Node) : Ty := ctx.callWith ctx.inferred function call

/-- The type of a function as a value. -/
def functionType (function : Place) : Ty :=
  ctx.functionWith ctx.inferred (ctx.paramWith ctx.inferred) function

/-- The type of an expression. -/
def valueType (site : Site) (e : Expr) : Ty := valueWith (ctx.declared ctx.inferred) site e

/-- The type of the expression at a place. -/
def exprType (place : Place) : Ty :=
  match place.node with
  | .expr e => ctx.valueType place.site e
  | _ => .unknown

/-- **The type of whatever is at a place.** -/
def typeAt (place : Place) : Ty :=
  match place.node with
  | .stmt (.binding ..) => ctx.bindingType place
  | .stmt (.function ..) => ctx.functionType place
  | .stmt (.classDef _ name ..) => Ty.classValue (Ty.ofClass name)
  | .param _ => (place.function?.map (ctx.paramType place)).getD .unknown
  | _ => ctx.exprType place

end Context

/-! ## Annotations at a place -/

/-- The standard meaning of the annotation at a place. -/
def Place.standardType? (place : Place) : Option Ty :=
  match place.node with
  | .expr e => standard place.site e
  | _ => none

/-- The extended meaning of the annotation at a place. -/
def Place.extendedType? (place : Place) (strict : Bool) : Option Ty :=
  match place.node with
  | .expr e => extended place.site e strict
  | _ => none

end TypeReveal
