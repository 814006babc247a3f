import TypeReveal.Inference.Context

/-!
# Sessions

A session answers demands one after another and keeps no answers.  All it keeps is which
declarations are **busy**: that of a binding while its value is looked at, and that of a function
while its `return` statements are.  A demand for a busy declaration is answered with the unknown
type.

`Session.step` answers one demand by further ones.  `Session.eval` does so with demands nested
less than a given depth, and fails at that depth; nothing else bounds the demands, neither the
declarations that are left nor the parameters that defaults lead through.  What a session answers is
what its context does (`Context.typeAt` and the other queries), which counts the open declarations
instead.
-/

set_option autoImplicit false
namespace TypeReveal

/-- An action of a session: it reads and changes the numbers of the busy declarations, and fails
when demands are nested too deep. -/
abbrev Run : Type → Type := StateT (List Nat) Option

/-- A question that may lead to further ones. -/
inductive Demand where
  | binding (binding : Place)
  | param (param function : Place)
  | result (function : Place)
  | call (function : Place) (call : Node)
  | value (site : Site) (e : Expr)
  | function (function : Place)

/-- A member of the chain of providers. -/
inductive Adviser where
  | extension
  | silent
  | constant (answer : Provider.Hook → Option Ty)
  | fixed (name? : Option String) (hooks : List Provider.Hook)

/-- The provider that an adviser is when it is given complete answers. -/
def Adviser.provider : Adviser → Provider
  | extension => .extension
  | silent => .silent
  | constant answer => .constant answer
  | fixed name? hooks => .fixed name? hooks

/-- A file, a mode and a chain of providers. -/
structure Session where
  file : Place
  mode : AnalysisMode
  advisers : List Adviser

namespace Session

variable (s : Session)

/-- The context of a session. -/
def context : Context := ⟨s.file, s.mode, s.advisers.map Adviser.provider⟩

/-- Answers a demand about a declaration by `run`, with the declaration busy all the while; the
type is unknown if it is busy already. -/
def guarded (place : Place) (run : Run Ty) : Run Ty := do
  if place.index ∈ (← get) then return .unknown
  modify (place.index :: ·)
  let ty ← run
  modify (·.erase place.index)
  return ty

section

variable (ask : Demand → Run Ty)

/-! ## Values -/

/-- The type that a declaration gives to its name. -/
def declaration (place : Place) : Run Ty :=
  match place.node with
  | .stmt (.binding ..) => ask (.binding place)
  | .stmt (.function ..) => ask (.function place)
  | .stmt (.classDef _ name ..) => return Ty.classValue (Ty.ofClass name)
  | .param _ =>
    match place.function? with
    | some function => ask (.param place function)
    | none => return .unknown
  | _ => return .unknown

/-- The type of a name. -/
def name (site : Site) (e : Expr) (name : String) : Run Ty :=
  ((s.context.ask fun p => p.reference s.mode site e) <|> narrowed? site e).getDM <|
    match site.bindingOf e with
    | some (.declaration place) => declaration ask place
    | some (.imported _) => return .unknown
    | none => return if isKnownClass name then Ty.classValue (Ty.ofClass name) else .unknown

/-- The type of a call, if it is decided by the name that is called. -/
def namedCall? (site : Site) (call callee : Expr) : Option (Run Ty) :=
  match callee with
  | .name _ name =>
    match site.bindingOf callee with
    | some (.declaration place) =>
      if place.node.isFunction then some (ask (.call place (.expr call))) else none
    | some (.imported _) => none
    | none => if name = "isinstance" then some (return Ty.ofClass "bool") else none
  | _ => none

/-- The type of an expression. -/
def value (site : Site) : Expr → Run Ty
  | .int .. => return Ty.ofClass "int"
  | .float .. => return Ty.ofClass "float"
  | .bool .. => return Ty.ofClass "bool"
  | .str .. => return Ty.ofClass "str"
  | .none _ => return Ty.noneType
  | .ellipsis _ => return Ty.ofClass "ellipsis"
  | .name span name => s.name ask site (.name span name) name
  | .paren _ inner => ask (.value site inner)
  | .tuple _ elems => return .tuple (← elems.mapM fun e => ask (.value site e))
  | .list _ elems => do
    let tys ← elems.mapM fun e => ask (.value site e)
    return .nominal "list" [(Ty.unionOf tys).getD .unknown]
  | .call span callee args =>
    (namedCall? ask site (.call span callee args) callee).getD do
      return (← ask (.value site callee)).called
  | .binary .. | .dangling .. | .subscript .. | .member .. => return .unknown

/-- The type of a value that need not be there. -/
def value? (site : Site) : Option Expr → Run Ty
  | some e => ask (.value site e)
  | none => return .unknown

/-! ## Declarations -/

/-- The type of a binding. -/
def binding (place : Place) : Run Ty :=
  (s.context.ask fun p => p.binding s.mode place).getDM <|
    match place.node with
    | .stmt (.binding _ _ annotation? e?) =>
      guarded place <|
        (settledType? place.interior annotation?).getDM (value? ask place.interior e?)
    | _ => return .unknown

/-- The type of a parameter of a function. -/
def param (param function : Place) : Run Ty :=
  (s.context.ask fun p => p.parameter s.mode param function).getDM <|
    match param.node with
    | .param p =>
      match p.annotation?, receiverClass? param function with
      | some annotation, _ => return (standard param.interior annotation).getD .unknown
      | none, some name => return Ty.ofClass name
      | none, none => value? ask param.interior p.default?
    | _ => return .unknown

/-- The type that a `return` statement gives to the result. -/
def resultOf (place : Place) : Run Ty :=
  match place.node with
  | .stmt (.result _ (some e)) => ask (.value place.interior e)
  | _ => return Ty.noneType

/-- The type of the result of a function, from its body. -/
def resultFromBody (function : Place) : Run Ty :=
  match function.results with
  | [] => return Ty.noneType
  | results => return (Ty.unionOf (← results.mapM (resultOf ask))).getD .unknown

/-- The type of the result of a function. -/
def result (function : Place) : Run Ty :=
  (s.context.ask fun p => p.result s.mode function).getDM <|
    match function.node with
    | .stmt (.function _ _ _ _ (some annotation) _) =>
      return (standard function.interior annotation).getD .unknown
    | .stmt (.function ..) => guarded function (resultFromBody ask function)
    | _ => return .unknown

/-- The type of a call of a function. -/
def call (function : Place) (call : Node) : Run Ty :=
  (s.context.ask fun p => p.call s.mode function call).getDM (ask (.result function))

/-! ## Functions as values -/

/-- The parameters of a function, with their types. -/
def slots (function : Place) : Run (List Slot) :=
  function.params.mapM fun param =>
    return Slot.named (param.declared?.getD "") (← ask (.param param function))

/-- The opinion of an adviser on a function as a value.  The extension asks for the parameters, and
for the result if its annotation does not settle it. -/
def advise (function : Place) : Adviser → Run (Option Ty)
  | .extension =>
    match function.functionName? with
    | none => return none
    | some name => do
      let params ← slots ask function
      let result ← (Provider.annotatedResult? function false).getDM (ask (.result function))
      return some (.function name params result)
  | adviser =>
    return adviser.provider.function s.mode ⟨fun _ _ => .unknown, fun _ => .unknown⟩ function

/-- The first opinion of the advisers on a function as a value. -/
def adviseFirst (function : Place) : List Adviser → Run (Option Ty)
  | [] => return none
  | adviser :: advisers => do
    match ← s.advise ask function adviser with
    | some ty => return some ty
    | none => adviseFirst function advisers

/-- The type of a function as a value. -/
def function (function : Place) : Run Ty := do
  let opinion ← s.adviseFirst ask function s.advisers
  opinion.getDM <|
    match function.functionName? with
    | some name => do
      let params ← slots ask function
      return .function name params (← ask (.result function))
    | none => return .unknown

/-! ## Demands -/

/-- Answers a demand by further ones. -/
def step : Demand → Run Ty
  | .binding place => s.binding ask place
  | .param p f => s.param ask p f
  | .result f => s.result ask f
  | .call f node => s.call ask f node
  | .value site e => s.value ask site e
  | .function f => s.function ask f

end

/-- Answers a demand by demands that are nested less than `depth` deep. -/
def eval : (depth : Nat) → Demand → Run Ty
  | 0, _ => failure
  | depth + 1, demand => s.step (eval depth) demand

/-- The type of the expression at a place. -/
def exprType (depth : Nat) (place : Place) : Run Ty :=
  match place.node with
  | .expr e => s.eval depth (.value place.site e)
  | _ => return .unknown

/-- The type of whatever is at a place. -/
def typeAt (depth : Nat) (place : Place) : Run Ty :=
  match place.node with
  | .stmt (.binding ..) | .stmt (.function ..) | .stmt (.classDef ..) | .param _ =>
    declaration (s.eval depth) place
  | _ => s.exprType depth place

end Session
end TypeReveal
