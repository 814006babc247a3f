import TypeReveal.Annotation.Overload

/-!
# Providers

A provider may have an opinion on the type of something; it is asked before the type is inferred.
A chain of providers is asked in order, and the first opinion counts.

`Provider.extension` reads annotations in their extended meaning and takes overloads together.
`Provider.silent` has no opinion.  `Provider.constant` has one for each kind of question that never
changes, or none; `Provider.fixed` has the same one for several kinds.
-/

set_option autoImplicit false
namespace TypeReveal

/-- What an analysis is for. -/
inductive AnalysisMode where
  /-- An analysis in the background. -/
  | codeAnalysis
  /-- The answer to a request of the user. -/
  | userInitiated
deriving DecidableEq, Repr

/-- The name of a mode. -/
def AnalysisMode.label : AnalysisMode → String
  | codeAnalysis => "CodeAnalysis"
  | userInitiated => "UserInitiated"

/-- The complete answers, by providers or by inference, that a provider may build on when it is
asked for the type of a function as a value. -/
structure Answers where
  /-- The type of a parameter of a function. -/
  parameter : (param function : Place) → Ty
  /-- The type of the result of a function. -/
  result : (function : Place) → Ty

/-- Opinions on types; `none` is no opinion. -/
structure Provider where
  /-- The declared type of a binding. -/
  binding : AnalysisMode → (binding : Place) → Option Ty := fun _ _ => none
  /-- The type of a parameter of a function. -/
  parameter : AnalysisMode → (param function : Place) → Option Ty := fun _ _ _ => none
  /-- The type of the result of a function. -/
  result : AnalysisMode → (function : Place) → Option Ty := fun _ _ => none
  /-- The type of a call of a function. -/
  call : AnalysisMode → (function : Place) → (call : Node) → Option Ty := fun _ _ _ => none
  /-- The type of a name as a value. -/
  reference : AnalysisMode → Site → Expr → Option Ty := fun _ _ _ => none
  /-- The type of a function as a value. -/
  function : AnalysisMode → Answers → (function : Place) → Option Ty := fun _ _ _ => none

namespace Provider

/-! ## The extension -/

/-- The extended meaning of the annotation of a binding. -/
def extendedBinding (binding : Place) : Option Ty :=
  match binding.node with
  | .stmt (.binding _ _ (some annotation) _) => extended binding.interior annotation
  | _ => none

/-- The extended meaning of the annotation of a parameter, or else what the overloads say. -/
def extendedParam (param function : Place) : Option Ty :=
  match param.node with
  | .param p =>
    p.annotation?.bind (fun e => extended param.interior e) <|>
      overloadedParam function.overloads p.name
  | _ => none

/-- The extended meaning of the annotation of a result. -/
def annotatedResult? (function : Place) (strict : Bool) : Option Ty :=
  function.resultAnnotation?.bind fun e => extended function.interior e strict

/-- The extended meaning of the annotation of a result, or else what the overloads say. -/
def extendedResult (function : Place) : Option Ty :=
  match function.node with
  | .stmt (.function ..) =>
    annotatedResult? function false <|> overloadedResult function.overloads
  | _ => none

/-- The annotation of the parameter that a name is an alias of, read strictly. -/
def extendedReference (site : Site) (e : Expr) : Option Ty := do
  let param ← site.followAliases e
  extended param.interior (← param.paramAnnotation?) true

/-- A function with the complete types of its parameters and of its result, where an annotation of
the result comes first. -/
def extendedFunction (answers : Answers) (function : Place) : Option Ty := do
  let name ← function.functionName?
  let params := function.params.map fun param =>
    Slot.named (param.declared?.getD "") (answers.parameter param function)
  let result := (annotatedResult? function false).getD (answers.result function)
  return .function name params result

/-- **The extension**: literal, union, tuple and signature annotations, and overloads. -/
def extension : Provider where
  binding _ := extendedBinding
  parameter _ := extendedParam
  result _ := extendedResult
  call _ function _ := annotatedResult? function true
  reference _ := extendedReference
  function _ := extendedFunction

/-! ## Simple providers -/

/-- No opinion on anything. -/
def silent : Provider := {}

/-- The questions that a provider can be asked. -/
inductive Hook where
  | binding
  | parameter
  | result
  | call
  | reference
  | function
deriving DecidableEq, Repr

/-- Answers each question in one way, or not at all. -/
def constant (answer : Hook → Option Ty) : Provider where
  binding _ _ := answer .binding
  parameter _ _ _ := answer .parameter
  result _ _ := answer .result
  call _ _ _ := answer .call
  reference _ _ _ := answer .reference
  function _ _ _ := answer .function

/-- Answers `hooks` with an instance of the class `name?`, or of the class named like the mode, and
has no opinion on other questions. -/
def fixed (name? : Option String) (hooks : List Hook) : Provider :=
  let answer (hook : Hook) (mode : AnalysisMode) : Option Ty :=
    if hooks.contains hook then some (Ty.ofClass (name?.getD mode.label)) else none
  { binding := fun mode _ => answer .binding mode
    parameter := fun mode _ _ => answer .parameter mode
    result := fun mode _ => answer .result mode
    call := fun mode _ _ => answer .call mode
    reference := fun mode _ _ => answer .reference mode
    function := fun mode _ _ => answer .function mode }

end Provider
end TypeReveal
