import TypeReveal.Proofs.Scope
import TypeReveal.Reveal

/-!
# Contexts and what they ask

With the extension a context asks it first, and without it infers everything (`ask_ofFile`): an
opinion that agrees with what is inferred makes no difference (`getD_ask_ofFile`).

`Context.declaredFrom` is what declarations mean while some of them are open.  The inference of a
declaration has it closed (`binding_inferredFrom`, `result_inferredFrom`), and asks for nothing but
the values of expressions (`bindingFromValue_congr`, `resultFromBody_congr`), which in turn come
from what names and calls of functions mean (`valueWith_congr`).

The congruence lemmas are what keeps the other modules short.  To show that two contexts give an
expression the same value it is enough to look at its names and at the calls in it, and not at the
rules for operators, tuples, subscripts and attributes.
-/

set_option autoImplicit false
namespace TypeReveal

/-- A function has a name. -/
theorem Place.exists_functionName? {function : Place} (h : function.node.isFunction = true) :
    ∃ name, function.functionName? = some name := by
  rw [Node.isFunction.eq_def] at h
  split at h
  · next _ name _ _ _ _ hnode => exact ⟨name, by rw [functionName?, hnode]⟩
  · cases h

/-! ## Asking the extension

A context of a file has one provider or none. -/

section Ask

variable {file : Place} {mode : AnalysisMode} {extension : Bool} {query : Provider → Option Ty}
  {ty : Ty}

/-- With the extension it is asked, and nobody else is. -/
theorem Context.ask_ofFile (query : Provider → Option Ty) :
    (Context.ofFile file mode extension).ask query =
      if extension then query Provider.extension else none := by
  cases extension with
  | false => rfl
  | true => simp [Context.ask, Context.ofFile]

/-- An opinion that agrees with what is inferred makes no difference. -/
theorem Context.getD_ask_ofFile (h : ∀ t, query Provider.extension = some t → t = ty) :
    ((Context.ofFile file mode extension).ask query).getD ty = ty := by
  rw [ask_ofFile]
  cases extension with
  | false => rfl
  | true =>
    rw [if_pos rfl]
    cases hquery : query Provider.extension with
    | none => rfl
    | some t => exact h t hquery

end Ask

/-! ## Open declarations

The unfolding equations: what a declaration means while some are open, by what others mean while one
fewer is. -/

/-- What declarations mean while only the declarations in `unclosed` are open. -/
def Context.declaredFrom (ctx : Context) (unclosed : List Nat) : Declared :=
  ctx.declared (ctx.inferredFrom unclosed)

/-- The type of an open binding is inferred from its value, with the binding closed meanwhile; a
closed one is unknown. -/
theorem Context.binding_inferredFrom (ctx : Context) (unclosed : List Nat) (place : Place) :
    (ctx.inferredFrom unclosed).binding place =
      if place.index ∈ unclosed then
        bindingFromValue (ctx.declaredFrom (unclosed.erase place.index)) place
      else .unknown := by
  rw [inferredFrom_eq]
  rfl

/-- The type of the result of an open function is inferred from its body, with the function closed
meanwhile; that of a closed one is unknown. -/
theorem Context.result_inferredFrom (ctx : Context) (unclosed : List Nat) (place : Place) :
    (ctx.inferredFrom unclosed).result place =
      if place.index ∈ unclosed then
        resultFromBody (ctx.declaredFrom (unclosed.erase place.index)) place
      else .unknown := by
  rw [inferredFrom_eq]
  rfl

/-- What a function means as a value, with the types of its parameters and its result. -/
theorem Context.function_declaredFrom (ctx : Context) (unclosed : List Nat) (place : Place) :
    (ctx.declaredFrom unclosed).function place =
      ctx.functionWith (ctx.inferredFrom unclosed) (ctx.paramWith (ctx.inferredFrom unclosed))
        place := rfl

/-- What a call of a function means. -/
theorem Context.call_declaredFrom (ctx : Context) (unclosed : List Nat) (place : Place)
    (call : Node) : (ctx.declaredFrom unclosed).call place call =
      ctx.callWith (ctx.inferredFrom unclosed) place call := rfl

/-- What a name is bound by in a file gives it its type. -/
theorem Declared.bound_of_isIn {file : Place} {b : Binding} (hb : b.IsIn file) (d : Declared)
    (name : String) : d.bound name (some b) = d.declaration b.place := by
  cases b with
  | declaration place => rfl
  | imported place =>
    obtain ⟨-, _, _, _, hnode⟩ := hb
    rw [bound, Binding.place, declaration, hnode]

/-! ## What declarations mean to values

By induction on the expression.  A call is decided by the name that is called if there is one, and
otherwise by the value of what is called, so that it has two hypotheses. -/

section Congr

variable {d d' : Declared} {site : Site} {place function : Place}

/-- The type of a binding is inferred from its value alone. -/
theorem bindingFromValue_congr
    (h : ∀ e, valueWith d place.interior e = valueWith d' place.interior e) :
    bindingFromValue d place = bindingFromValue d' place := by
  rw [bindingFromValue, bindingFromValue]
  split
  · next value? _ => cases value? with
    | none => rfl
    | some value => simp only [Option.map_some, h]
  · rfl

/-- The type of a result is inferred from the values that are returned. -/
theorem resultFromBody_congr (h : ∀ stmt ∈ function.results, ∀ e,
    valueWith d stmt.interior e = valueWith d' stmt.interior e) :
    resultFromBody d function = resultFromBody d' function := by
  have hresult : ∀ stmt ∈ function.results, resultOf d stmt = resultOf d' stmt := by
    intro stmt hstmt
    rw [resultOf, resultOf]
    split
    · exact h stmt hstmt _
    · rfl
  have hmap := List.map_congr_left hresult
  rw [resultFromBody, resultFromBody]
  cases hresults : function.results with
  | nil => rfl
  | cons stmt stmts =>
    rw [hresults] at hmap
    simp only [hmap]

/-- A call by name depends on what calls of the function of that name mean. -/
theorem namedCall?_congr {call callee : Expr}
    (hcall : ∀ place call, site.bindingOf callee = some (.declaration place) →
      place.node.isFunction = true → d.call place call = d'.call place call) :
    d.namedCall? site call callee = d'.namedCall? site call callee := by
  rw [Declared.namedCall?.eq_def, Declared.namedCall?.eq_def]
  split
  · split
    · next place hplace =>
      split
      · next hfunction => rw [hcall place _ hplace hfunction]
      · rfl
    · rfl
    · rfl
  · rfl

mutual

/-- A value comes from what names and calls of functions mean. -/
theorem valueWith_congr
    (hname : ∀ span name, d.name site (.name span name) name = d'.name site (.name span name) name)
    (hcall : ∀ callee place call, site.bindingOf callee = some (.declaration place) →
      place.node.isFunction = true → d.call place call = d'.call place call) :
    ∀ e, valueWith d site e = valueWith d' site e
  | .int .. | .float .. | .bool .. | .str .. | .none _ | .ellipsis _ | .binary .. | .dangling ..
  | .subscript .. | .member .. => rfl
  | .name span name => hname span name
  | .paren _ inner => valueWith_congr hname hcall inner
  | .tuple _ elems => by rw [valueWith, valueWith, valuesWith_congr hname hcall elems]
  | .list _ elems => by rw [valueWith, valueWith, valuesWith_congr hname hcall elems]
  | .call _ callee _ => by
    rw [valueWith, valueWith, namedCall?_congr (hcall callee), valueWith_congr hname hcall callee]

/-- The same of the elements of a list. -/
theorem valuesWith_congr
    (hname : ∀ span name, d.name site (.name span name) name = d'.name site (.name span name) name)
    (hcall : ∀ callee place call, site.bindingOf callee = some (.declaration place) →
      place.node.isFunction = true → d.call place call = d'.call place call) :
    ∀ es, valuesWith d site es = valuesWith d' site es
  | [] => rfl
  | e :: es => by
    rw [valuesWith, valuesWith, valueWith_congr hname hcall e, valuesWith_congr hname hcall es]

end

end Congr

end TypeReveal
