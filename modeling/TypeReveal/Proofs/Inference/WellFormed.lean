import TypeReveal.Proofs.Annotation.WellFormed
import TypeReveal.Reveal

/-!
# Answers are well-formed types

Whatever a context answers is a well-formed type (`Ty.WellFormed`), if the opinions of its providers
are.  Inference takes types apart (the result of a function, the instance of a class value) and puts
them together (tuples, type arguments, parameters, unions), and each rule keeps the invariant as
soon as what declarations mean is well formed (`Declared.WellFormed`).  That in turn is an induction
on the parameters that defaults lead through, inside one on the declarations that are closed.

What can be asked of a context is collected in `Query`, and there is one theorem about all of it.
Providers are parameters of a context, with a hypothesis about each; the hypothesis is met by the
extension, and a context without a provider needs none.
-/

set_option autoImplicit false
namespace TypeReveal

open Ty hiding function

/-! ## Opinions

The opinions of the extension are read from annotations, and what annotations denote is well formed.
For a function the extension asks back for the types of parameters and of the result, so that its
opinion is only as good as these. -/

/-- The answers that providers build on are well-formed types. -/
structure Answers.WellFormed (answers : Answers) : Prop where
  parameter : ∀ param function, (answers.parameter param function).WellFormed
  result : ∀ function, (answers.result function).WellFormed

/-- The opinions of a provider are well-formed types. -/
structure Provider.WellFormed (provider : Provider) : Prop where
  binding : ∀ mode place, ∀ ty ∈ provider.binding mode place, ty.WellFormed
  parameter : ∀ mode param function, ∀ ty ∈ provider.parameter mode param function, ty.WellFormed
  result : ∀ mode function, ∀ ty ∈ provider.result mode function, ty.WellFormed
  call : ∀ mode function call, ∀ ty ∈ provider.call mode function call, ty.WellFormed
  reference : ∀ mode site e, ∀ ty ∈ provider.reference mode site e, ty.WellFormed
  function : ∀ mode answers, answers.WellFormed → ∀ function,
    ∀ ty ∈ provider.function mode answers function, ty.WellFormed

namespace Provider

theorem wellFormed_extendedBinding (binding : Place) :
    ∀ ty ∈ extendedBinding binding, ty.WellFormed := by
  rw [extendedBinding.eq_def]
  split
  · exact wellFormed_extended _ _ _
  · exact fun _ hty => (by cases hty)

theorem wellFormed_extendedParam (param function : Place) :
    ∀ ty ∈ extendedParam param function, ty.WellFormed := by
  rw [extendedParam.eq_def]
  split
  · refine wellFormed_orElse (fun ty hty => ?_) (wellFormed_overloadedParam _ _)
    obtain ⟨e, -, hty⟩ := Option.bind_eq_some_iff.1 hty
    exact wellFormed_extended _ _ _ ty hty
  · exact fun _ hty => (by cases hty)

theorem wellFormed_annotatedResult? (function : Place) (strict : Bool) :
    ∀ ty ∈ annotatedResult? function strict, ty.WellFormed := by
  intro ty hty
  obtain ⟨e, -, hty⟩ := Option.bind_eq_some_iff.1 hty
  exact wellFormed_extended _ _ _ ty hty

theorem wellFormed_extendedResult (function : Place) :
    ∀ ty ∈ extendedResult function, ty.WellFormed := by
  rw [extendedResult.eq_def]
  split
  · exact wellFormed_orElse (wellFormed_annotatedResult? _ _) (wellFormed_overloadedResult _)
  · exact fun _ hty => (by cases hty)

theorem wellFormed_extendedReference (site : Site) (e : Expr) :
    ∀ ty ∈ extendedReference site e, ty.WellFormed := by
  intro ty hty
  obtain ⟨param, -, hty⟩ := Option.bind_eq_some_iff.1 hty
  obtain ⟨hint, -, hty⟩ := Option.bind_eq_some_iff.1 hty
  exact wellFormed_extended _ _ _ ty hty

/-- The opinion on a function is a type with the parameters and the result that the answers give. -/
theorem wellFormed_extendedFunction {answers : Answers} (h : answers.WellFormed)
    (function : Place) : ∀ ty ∈ extendedFunction answers function, ty.WellFormed := by
  intro ty hty
  obtain ⟨name, -, hty⟩ := Option.bind_eq_some_iff.1 hty
  rw [← Option.some.inj hty]
  refine .function name (fun slot hslot => ?_)
    (wellFormed_getD (wellFormed_annotatedResult? _ _) (h.result _))
  obtain ⟨param, -, rfl⟩ := List.mem_map.1 hslot
  exact h.parameter param function

/-- **The opinions of the extension are well formed.** -/
theorem wellFormed_extension : extension.WellFormed where
  binding _ := wellFormed_extendedBinding
  parameter _ := wellFormed_extendedParam
  result _ := wellFormed_extendedResult
  call _ function _ := wellFormed_annotatedResult? function true
  reference _ := wellFormed_extendedReference
  function _ _ := wellFormed_extendedFunction

end Provider

/-! ## Values

The value of an expression, for any meaning of declarations that is well formed.  By induction on
the expression. -/

/-- Declarations mean well-formed types. -/
structure Declared.WellFormed (declared : Declared) : Prop where
  binding : ∀ place, (declared.binding place).WellFormed
  function : ∀ place, (declared.function place).WellFormed
  parameter : ∀ param function, (declared.parameter param function).WellFormed
  call : ∀ function call, (declared.call function call).WellFormed
  reference : ∀ site e, ∀ ty ∈ declared.reference site e, ty.WellFormed

/-- The type of the result of calling a value of a well-formed type. -/
theorem Ty.WellFormed.called {ty : Ty} (h : ty.WellFormed) : ty.called.WellFormed := by
  rw [Ty.called.eq_def]
  split
  · cases h with
    | nominal _ hargs =>
      exact wellFormed_getD (fun ty hty => hargs ty (List.mem_of_head? hty)) .unknown
  · exact wellFormed_getD h.result? .unknown

section Values

variable {declared : Declared} {site : Site} {place param function : Place}

theorem Declared.WellFormed.declaration (h : declared.WellFormed) (place : Place) :
    (declared.declaration place).WellFormed := by
  rw [Declared.declaration.eq_def]
  split
  · exact h.binding place
  · exact h.function place
  · exact (wellFormed_ofClass _).classValue
  · refine wellFormed_getD (fun ty hty => ?_) .unknown
    obtain ⟨function, -, rfl⟩ := Option.map_eq_some_iff.1 hty
    exact h.parameter place function
  · exact .unknown

/-- A name means what it is bound by, a class that needs no declaration, or nothing. -/
theorem Declared.WellFormed.name (h : declared.WellFormed) (site : Site) (e : Expr)
    (name : String) : (declared.name site e name).WellFormed := by
  refine wellFormed_getD (wellFormed_orElse (h.reference site e) (wellFormed_narrowed? e)) ?_
  rw [Declared.bound.eq_def]
  split
  · exact h.declaration _
  · exact .unknown
  · split
    · exact (wellFormed_ofClass _).classValue
    · exact .unknown

theorem Declared.WellFormed.namedCall? (h : declared.WellFormed) (call callee : Expr) :
    ∀ ty ∈ declared.namedCall? site call callee, ty.WellFormed := by
  intro ty hty
  rw [Declared.namedCall?.eq_def] at hty
  split at hty
  · split at hty
    · split at hty
      · exact Option.some.inj hty ▸ h.call _ _
      · cases hty
    · cases hty
    · split at hty
      · exact Option.some.inj hty ▸ wellFormed_ofClass _
      · cases hty
  · cases hty

mutual

/-- **Values have well-formed types**, if declarations do. -/
theorem wellFormed_valueWith (h : declared.WellFormed) :
    ∀ e, (valueWith declared site e).WellFormed
  | .int .. | .float .. | .bool .. | .str .. | .none _ | .ellipsis _ => wellFormed_ofClass _
  | .name span name => h.name site (.name span name) name
  | .paren _ inner => wellFormed_valueWith h inner
  | .tuple _ elems => .tuple (wellFormed_valuesWith h elems)
  | .list _ elems => .nominal "list" fun _ hty => List.mem_singleton.1 hty ▸
    wellFormed_getD (wellFormed_unionOf (wellFormed_valuesWith h elems)) .unknown
  | .call span callee args => by
    rw [valueWith]
    split
    · next ty hty => exact h.namedCall? _ _ ty hty
    · exact (wellFormed_valueWith h callee).called
  | .binary .. | .dangling .. | .subscript .. | .member .. => .unknown

theorem wellFormed_valuesWith (h : declared.WellFormed) : ∀ es,
    ∀ ty ∈ valuesWith declared site es, ty.WellFormed
  | [], _, hty => absurd hty List.not_mem_nil
  | e :: es, ty, hty => by
    rcases List.mem_cons.1 hty with rfl | hty
    · exact wellFormed_valueWith h e
    · exact wellFormed_valuesWith h es ty hty

end

/-- The type of a value that need not be there. -/
theorem wellFormed_value? (h : declared.WellFormed) (e? : Option Expr) :
    ((e?.map (valueWith declared site)).getD .unknown).WellFormed := by
  refine wellFormed_getD (fun ty hty => ?_) .unknown
  obtain ⟨e, -, rfl⟩ := Option.map_eq_some_iff.1 hty
  exact wellFormed_valueWith h e

theorem wellFormed_settledType? (annotation? : Option Expr) :
    ∀ ty ∈ settledType? site annotation?, ty.WellFormed := by
  intro ty hty
  rw [settledType?.eq_def] at hty
  split at hty
  · cases hty
  · split at hty
    · next hstandard => exact Option.some.inj hty ▸ wellFormed_standard _ _ _ hstandard
    · split at hty
      · cases hty
      · exact Option.some.inj hty ▸ .unknown

/-- A binding has the type of its annotation, or else that of its value. -/
theorem wellFormed_bindingFromValue (h : declared.WellFormed) (place : Place) :
    (bindingFromValue declared place).WellFormed := by
  rw [bindingFromValue.eq_def]
  split
  · exact wellFormed_getD (wellFormed_settledType? _) (wellFormed_value? h _)
  · exact .unknown

theorem wellFormed_resultOf (h : declared.WellFormed) (place : Place) :
    (resultOf declared place).WellFormed := by
  rw [resultOf.eq_def]
  split
  · exact wellFormed_valueWith h _
  · exact wellFormed_ofClass _

/-- A result is the union of what is returned. -/
theorem wellFormed_resultFromBody (h : declared.WellFormed) (function : Place) :
    (resultFromBody declared function).WellFormed := by
  rw [resultFromBody.eq_def]
  split
  · exact wellFormed_ofClass _
  · refine wellFormed_getD (wellFormed_unionOf fun ty hty => ?_) .unknown
    obtain ⟨place, -, rfl⟩ := List.mem_map.1 hty
    exact wellFormed_resultOf h place

theorem wellFormed_paramFromDefault (h : declared.WellFormed) (param function : Place) :
    (paramFromDefault declared param function).WellFormed := by
  rw [paramFromDefault.eq_def]
  split
  · split
    · exact wellFormed_getD (wellFormed_standard _ _) .unknown
    · exact wellFormed_ofClass _
    · exact wellFormed_value? h _
  · exact .unknown

end Values

/-! ## Contexts

The induction on the declarations that are closed is the one by which the context is defined: what
is inferred with a given number of declarations left to close is defined by what is inferred with
one fewer. -/

/-- The opinions of the providers of a context are well-formed types. -/
def Context.WellFormed (ctx : Context) : Prop := ∀ provider ∈ ctx.providers, provider.WellFormed

/-- What is inferred is well formed. -/
structure Inferred.WellFormed (inferred : Inferred) : Prop where
  binding : ∀ place, (inferred.binding place).WellFormed
  result : ∀ function, (inferred.result function).WellFormed

namespace Context.WellFormed

variable {ctx : Context} {inferred : Inferred} {parameter : Place → Place → Ty}

theorem ask (hctx : ctx.WellFormed) {query : Provider → Option Ty}
    (h : ∀ provider : Provider, provider.WellFormed → ∀ ty ∈ query provider, ty.WellFormed) :
    ∀ ty ∈ ctx.ask query, ty.WellFormed := by
  intro ty hty
  obtain ⟨provider, hprovider, hquery⟩ := List.exists_of_findSome?_eq_some hty
  exact h provider (hctx provider hprovider) ty hquery

theorem bindingWith (hctx : ctx.WellFormed) (h : inferred.WellFormed) (place : Place) :
    (ctx.bindingWith inferred place).WellFormed :=
  wellFormed_getD (hctx.ask fun _ hp => hp.binding _ _) (h.binding place)

theorem inferResultWith (h : inferred.WellFormed) (function : Place) :
    (Context.inferResultWith inferred function).WellFormed := by
  rw [Context.inferResultWith.eq_def]
  split
  · exact wellFormed_getD (wellFormed_standard _ _) .unknown
  · exact h.result function
  · exact .unknown

theorem resultWith (hctx : ctx.WellFormed) (h : inferred.WellFormed) (function : Place) :
    (ctx.resultWith inferred function).WellFormed :=
  wellFormed_getD (hctx.ask fun _ hp => hp.result _ _) (inferResultWith h function)

theorem callWith (hctx : ctx.WellFormed) (h : inferred.WellFormed) (function : Place)
    (call : Node) : (ctx.callWith inferred function call).WellFormed :=
  wellFormed_getD (hctx.ask fun _ hp => hp.call _ _ _) (hctx.resultWith h function)

theorem functionWith (hctx : ctx.WellFormed) (h : inferred.WellFormed)
    (hparameter : ∀ param function, (parameter param function).WellFormed) (function : Place) :
    (ctx.functionWith inferred parameter function).WellFormed := by
  refine wellFormed_getD (hctx.ask fun _ hp => hp.function _ _ ⟨hparameter, hctx.resultWith h⟩ _) ?_
  rw [Context.inferFunctionWith.eq_def]
  split
  · refine .function _ (fun slot hslot => ?_) (hctx.resultWith h function)
    obtain ⟨param, -, rfl⟩ := List.mem_map.1 hslot
    exact hparameter param function
  · exact .unknown

theorem declaredWith (hctx : ctx.WellFormed) (h : inferred.WellFormed)
    (hparameter : ∀ param function, (parameter param function).WellFormed) :
    (ctx.declaredWith inferred parameter).WellFormed where
  binding := hctx.bindingWith h
  function := hctx.functionWith h hparameter
  parameter := hparameter
  call := hctx.callWith h
  reference _ _ := hctx.ask fun _ hp => hp.reference _ _ _

/-- A default may lead to other parameters, as often as the budget allows; at the end of it a
parameter is unknown. -/
theorem paramWithin (hctx : ctx.WellFormed) (h : inferred.WellFormed) :
    ∀ budget param function, (ctx.paramWithin inferred budget param function).WellFormed
  | 0, _, _ => .unknown
  | budget + 1, param, function =>
    wellFormed_getD (hctx.ask fun _ hp => hp.parameter _ _ _)
      (wellFormed_paramFromDefault (hctx.declaredWith h (hctx.paramWithin h budget)) param
        function)

theorem declared (hctx : ctx.WellFormed) (h : inferred.WellFormed) :
    (ctx.declared inferred).WellFormed :=
  hctx.declaredWith h (hctx.paramWithin h _)

/-- What is inferred is well formed, whichever declarations are open. -/
theorem inferredWithin (hctx : ctx.WellFormed) :
    ∀ budget unclosed, (ctx.inferredWithin budget unclosed).WellFormed
  | 0, _ => ⟨fun _ => .unknown, fun _ => .unknown⟩
  | budget + 1, unclosed => by
    have hdeclared (place : Place) := hctx.declared (hctx.inferredWithin budget
      (unclosed.erase place.index))
    constructor <;> intro place <;> rw [Context.inferredWithin] <;> dsimp only <;> split
    · exact wellFormed_bindingFromValue (hdeclared place) place
    · exact .unknown
    · exact wellFormed_resultFromBody (hdeclared place) place
    · exact .unknown

theorem inferredFrom (hctx : ctx.WellFormed) (unclosed : List Nat) :
    (ctx.inferredFrom unclosed).WellFormed := hctx.inferredWithin _ _

theorem exprType (hctx : ctx.WellFormed) (place : Place) : (ctx.exprType place).WellFormed := by
  rw [Context.exprType.eq_def]
  split
  · exact wellFormed_valueWith (hctx.declared (hctx.inferredFrom _)) _
  · exact .unknown

theorem typeAt (hctx : ctx.WellFormed) (place : Place) : (ctx.typeAt place).WellFormed := by
  rw [Context.typeAt.eq_def]
  split
  · exact hctx.bindingWith (hctx.inferredFrom _) place
  · exact hctx.functionWith (hctx.inferredFrom _) (hctx.paramWithin (hctx.inferredFrom _) _) place
  · exact (wellFormed_ofClass _).classValue
  · refine wellFormed_getD (fun ty hty => ?_) .unknown
    obtain ⟨function, -, rfl⟩ := Option.map_eq_some_iff.1 hty
    exact hctx.paramWithin (hctx.inferredFrom _) _ place function
  · exact hctx.exprType place

end Context.WellFormed

theorem Context.wellFormed_ofFile (file : Place) (mode : AnalysisMode) (extension : Bool) :
    (Context.ofFile file mode extension).WellFormed := by
  intro provider hprovider
  cases extension with
  | false => cases hprovider
  | true => exact List.mem_singleton.1 hprovider ▸ Provider.wellFormed_extension

/-! ## Queries

A query about a place that is not of the kind it should be has no answer or the unknown type, so
that no hypothesis about the place is needed. -/

/-- What a context can be asked, and what annotations and overloads can be asked in any context. -/
inductive Query where
  /-- The type of whatever is at a place. -/
  | typeAt (place : Place)
  | binding (binding : Place)
  | param (param function : Place)
  | result (function : Place)
  | call (function : Place) (call : Node)
  | expr (place : Place)
  | function (function : Place)
  /-- The standard meaning of an annotation. -/
  | standard (place : Place)
  /-- The extended meaning of an annotation. -/
  | extended (place : Place) (strict : Bool)
  | overloadedParam (overloads : List Place) (name : String)
  | overloadedResult (overloads : List Place)

/-- The answer to a query, if there is one. -/
def Context.answer? (ctx : Context) : Query → Option Ty
  | .typeAt place => ctx.typeAt place
  | .binding binding => ctx.bindingType binding
  | .param param function => ctx.paramType param function
  | .result function => ctx.resultType function
  | .call function call => ctx.typeOfCall function call
  | .expr place => ctx.exprType place
  | .function function => ctx.functionType function
  | .standard place => place.standardType?
  | .extended place strict => place.extendedType? strict
  | .overloadedParam overloads name => TypeReveal.overloadedParam overloads name
  | .overloadedResult overloads => TypeReveal.overloadedResult overloads

/-- **Every answer is a well-formed type**: in every file, in both modes and with or without the
extension. -/
theorem Context.wellFormed_answer? (file : Place) (mode : AnalysisMode) (extension : Bool)
    (query : Query) {ty : Ty} (h : (Context.ofFile file mode extension).answer? query = some ty) :
    ty.WellFormed := by
  have hctx := Context.wellFormed_ofFile file mode extension
  cases query with
  | typeAt place => exact Option.some.inj h ▸ hctx.typeAt place
  | binding place => exact Option.some.inj h ▸ hctx.bindingWith (hctx.inferredFrom _) place
  | param param function =>
    exact Option.some.inj h ▸ hctx.paramWithin (hctx.inferredFrom _) _ param function
  | result function => exact Option.some.inj h ▸ hctx.resultWith (hctx.inferredFrom _) function
  | call function call =>
    exact Option.some.inj h ▸ hctx.callWith (hctx.inferredFrom _) function call
  | expr place => exact Option.some.inj h ▸ hctx.exprType place
  | function function =>
    exact Option.some.inj h ▸
      hctx.functionWith (hctx.inferredFrom _) (hctx.paramWithin (hctx.inferredFrom _) _) function
  | standard place =>
    rw [answer?, Place.standardType?] at h
    split at h
    · exact wellFormed_standard _ _ ty h
    · cases h
  | extended place strict =>
    rw [answer?, Place.extendedType?] at h
    split at h
    · exact wellFormed_extended _ _ _ ty h
    · cases h
  | overloadedParam overloads name => exact wellFormed_overloadedParam overloads name ty h
  | overloadedResult overloads => exact wellFormed_overloadedResult overloads ty h

/-- A function that gives its optional parameter back in a tuple. -/
theorem Context.wellFormed_answer?_optional :
    let stmt : Stmt := .function default "f" []
      [⟨default, "x", some (.binary default .bar (.name default "int") (.none default)), none⟩] none
      [.result ⟨1, 2⟩ (some (.tuple default [.name default "x", .int default 1]))]
    let file := Place.root (.file default [stmt])
    let function := Place.child file 1 (.stmt stmt)
    let ty := Ty.tuple [.union [ofClass "int", noneType], ofClass "int"]
    (Context.ofFile file .codeAnalysis true).answer? (.result function) = some ty ∧
      ty.WellFormed := by
  intro stmt file function ty
  have h : (Context.ofFile file .codeAnalysis true).answer? (.result function) = some ty := by
    subst ty function file stmt
    rfl
  exact ⟨h, Context.wellFormed_answer? file .codeAnalysis true (.result function) h⟩

end TypeReveal
