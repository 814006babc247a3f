import TypeReveal.Proofs.Inference.Context

/-!
# The result of a function

A function is asked for its result in three ways: by its result type, by the type of one of its
calls and by its own type.  With the extension each takes another mixture of strict and full
readings of the annotation, of overloads and of inference, but all agree, because the strict reading
never differs from the full one (`extended_of_strict`).
-/

set_option autoImplicit false
namespace TypeReveal

/-! ## Strict readings

The strict reading leaves out one rule, by which an expression without an extended meaning has its
standard one.  So it has fewer answers, and the ones it has are the same. -/

section Strict

variable {deeper : Site → Expr → Option Ty} {site : Site} {e : Expr} {t : Ty}

/-- An answer that the strict reading gives does not come from the meaning it does without. -/
theorem orElse_fallbackWith_of_strict {own? : Option Ty}
    (h : (own? <|> fallbackWith deeper site true e) = some t) :
    (own? <|> fallbackWith deeper site false e) = some t := by
  cases own? with
  | none => cases h
  | some ty => exact h

theorem extendWith_of_strict (h : extendWith deeper site true e = some t) :
    extendWith deeper site false e = some t := by
  rw [extendWith.eq_def] at h ⊢
  split at h
  · exact h
  · exact h
  · exact orElse_fallbackWith_of_strict h
  · exact orElse_fallbackWith_of_strict h
  · exact orElse_fallbackWith_of_strict h
  · exact h
  · exact orElse_fallbackWith_of_strict h
  · cases h

/-- **The strict reading of an annotation** agrees with the full one where it has an answer. -/
theorem extended_of_strict (h : extended site e true = some t) : extended site e = some t :=
  extendWith_of_strict h

end Strict

/-! ## The ways to a result

In each way the annotation is asked first, and if it says something that is the answer.  If it does
not, all ways go on to the overloads and then to inference. -/

section Result

variable {file function : Place} {mode : AnalysisMode} {extension : Bool} {inferred : Inferred}

theorem extendedResult_of_annotatedResult? {strict : Bool} {t : Ty}
    (h : Provider.annotatedResult? function strict = some t) :
    Provider.extendedResult function = some t := by
  obtain ⟨hint, hhint, hstrict⟩ := Option.bind_eq_some_iff.1 h
  have hfull : Provider.annotatedResult? function false = some t := by
    rw [Provider.annotatedResult?, hhint]
    cases strict with
    | false => exact hstrict
    | true => exact extended_of_strict hstrict
  rw [Place.resultAnnotation?] at hhint
  split at hhint
  · next hnode =>
    simp only [Provider.extendedResult, hnode, hfull]
    rfl
  · cases hhint

/-- What the annotation of a result says, strictly read or not, is the type of the result. -/
theorem Context.resultWith_of_annotatedResult? {strict : Bool} {t : Ty}
    (h : Provider.annotatedResult? function strict = some t) :
    (Context.ofFile file mode true).resultWith inferred function = t := by
  rw [resultWith, ask_ofFile, if_pos rfl]
  exact congrArg (Option.getD · _) (extendedResult_of_annotatedResult? h)

/-- **A call** has the type of the result. -/
theorem Context.callWith_eq_resultWith (call : Node) :
    (Context.ofFile file mode extension).callWith inferred function call =
      (Context.ofFile file mode extension).resultWith inferred function := by
  cases extension with
  | false => rfl
  | true => exact getD_ask_ofFile fun t ht => (resultWith_of_annotatedResult? ht).symm

/-- **A function as a value** has the type of the result as its own result. -/
theorem Context.result?_functionWith (h : function.node.isFunction = true)
    (parameter : Place → Place → Ty) :
    ((Context.ofFile file mode extension).functionWith inferred parameter function).result? =
      some ((Context.ofFile file mode extension).resultWith inferred function) := by
  obtain ⟨name, hname⟩ := Place.exists_functionName? h
  cases extension with
  | false =>
    rw [functionWith, ask_ofFile, inferFunctionWith, hname]
    rfl
  | true =>
    have hresult : (Provider.annotatedResult? function false).getD
        ((Context.ofFile file mode true).resultWith inferred function) =
        (Context.ofFile file mode true).resultWith inferred function := by
      cases hannotated : Provider.annotatedResult? function false with
      | none => rfl
      | some t => exact (resultWith_of_annotatedResult? hannotated).symm
    rw [functionWith, ask_ofFile, if_pos rfl, ← hresult]
    simp only [Provider.extension, Provider.extendedFunction, hname]
    rfl

end Result

/-- **The ways to a result agree**: a call of a function and the function as a value have the type
of its result, whichever declarations are open, and no strict reading differs from the full one.  So
it makes no difference that calls are read strictly and results are not. -/
theorem Context.result_agrees {function : Place} (hfunction : function.node.isFunction = true)
    (file : Place) (mode : AnalysisMode) (extension : Bool) (call : Node) :
    let ctx := Context.ofFile file mode extension
    (ctx.typeOfCall function call = ctx.resultType function ∧
        (ctx.functionType function).result? = some (ctx.resultType function)) ∧
      (∀ unclosed, let inferred := ctx.inferredFrom unclosed
        ctx.callWith inferred function call = ctx.resultWith inferred function ∧
          (ctx.functionWith inferred (ctx.paramWith inferred) function).result? =
            some (ctx.resultWith inferred function)) ∧
      ∀ site e t, extended site e true = some t → extended site e = some t :=
  ⟨⟨callWith_eq_resultWith call, result?_functionWith hfunction _⟩,
    fun _ => ⟨callWith_eq_resultWith call, result?_functionWith hfunction _⟩,
    fun _ _ _ => extended_of_strict⟩

/-- A function with an optional result. -/
theorem Context.result_agrees_optional :
    let hint : Expr := .binary default .bar (.name default "int") (.none default)
    let stmt : Stmt := .function default "f" [] [] (some hint) [.pass default]
    let file := Place.root (.file default [stmt])
    let function := Place.child file 1 (.stmt stmt)
    let ctx := Context.ofFile file .userInitiated true
    let ty := Ty.union [Ty.ofClass "int", Ty.noneType]
    function.node.isFunction = true ∧
      ctx.typeOfCall function function.node = ctx.resultType function ∧
      (ctx.functionType function).result? = some (ctx.resultType function) ∧
      extended function.interior hint true = some ty ∧
      extended function.interior hint = some ty := by
  intro hint stmt file function ctx ty
  have hfunction : function.node.isFunction = true := rfl
  have hstrict : extended function.interior hint true = some ty := by
    subst ty function file stmt hint
    rfl
  have h := Context.result_agrees hfunction file .userInitiated true function.node
  exact ⟨hfunction, h.1.1, h.1.2, hstrict, h.2.2 _ _ _ hstrict⟩

end TypeReveal
