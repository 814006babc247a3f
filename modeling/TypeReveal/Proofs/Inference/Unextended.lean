import TypeReveal.Proofs.Annotation.Standard
import TypeReveal.Proofs.Inference.Context

/-!
# Files without extended forms

A file is `Unextended` if the extension finds nothing in it that goes beyond the standard rules: no
extended annotation, no overloads, and none of the two things by which the extension changes the
order of the questions, checks in conditions and names in defaults.

In such a file an opinion of the extension on a parameter, a result, a call or a function is what is
inferred anyway (`paramWith_eq`, `resultWith_eq`, `callWith_eq`, `functionWith_eq`).  Only bindings
and names are left, where an opinion comes without the inference that would close the declaration.

Two of the conditions count by themselves: where no condition is a check no name is narrowed
(`narrowed?_eq_none`), and a default without names means the same whatever declarations mean
(`paramFromDefault_of_isNameFree`).

The conditions are decidable, and every one of them is about a part of the file alone, an
annotation, a block of functions, a condition or a default.  None asks what a name is bound to.

A declaration that is asked about with an opinion is not inferred, and so it is not closed while its
value is evaluated; this can be seen in a recursive file, where a closed declaration has the unknown
type.  For parameters and results this makes no difference, as the opinion is what an annotation
says.  For bindings it is left to the module that goes through sessions.
-/

set_option autoImplicit false
namespace TypeReveal

/-! ## Parts of declarations

The parts that the conditions are about, as functions of a place.  A part of a declaration is an
expression, which is not looked for below other expressions. -/

/-- The annotation of a binding, a parameter or a result. -/
def Place.annotation? (place : Place) : Option Expr :=
  match place.node with
  | .stmt (.binding _ _ annotation? _) => annotation?
  | .stmt (.function _ _ _ _ result? _) => result?
  | .param p => p.annotation?
  | _ => none

/-- The condition of a conditional. -/
def Place.condition? (place : Place) : Option Expr :=
  match place.node with
  | .stmt (.conditional _ cond _ _) => some cond
  | _ => none

/-- The default of a parameter. -/
def Place.default? (place : Place) : Option Expr :=
  match place.node with
  | .param p => p.default?
  | _ => none

theorem Place.exists_param_of_paramAnnotation? {place : Place} {e : Expr}
    (h : place.paramAnnotation? = some e) : ∃ p, place.node = .param p := by
  rw [paramAnnotation?] at h
  split at h
  · next p hnode => exact ⟨p, hnode⟩
  · cases h

theorem Place.annotation?_of_resultAnnotation? {place : Place} {e : Expr}
    (h : place.resultAnnotation? = some e) : place.annotation? = some e := by
  rw [resultAnnotation?] at h
  split at h
  · next hnode => rwa [annotation?, hnode]
  · cases h

namespace Expr

/-- Whether an expression is a call of `isinstance`. -/
def isCheck : Expr → Bool
  | call _ (name _ callee) _ => callee == "isinstance"
  | _ => false

mutual

/-- Whether there is no name in an expression. -/
def isNameFree : Expr → Bool
  | name .. => false
  | int .. | float .. | bool .. | none _ | ellipsis _ | str .. => true
  | binary _ _ lhs rhs => lhs.isNameFree && rhs.isNameFree
  | dangling _ _ lhs => lhs.isNameFree
  | paren _ inner => inner.isNameFree
  | tuple _ elems | list _ elems => areNameFree elems
  | subscript _ value index => value.isNameFree && index.isNameFree
  | member _ value _ => value.isNameFree
  | call _ callee args => callee.isNameFree && areNameFree args

/-- Whether there is no name in some expressions. -/
def areNameFree : List Expr → Bool
  | [] => true
  | e :: es => e.isNameFree && areNameFree es

end

end Expr

/-- **A file without extended forms.** -/
structure Unextended (file : Place) : Prop where
  /-- All annotations are standard. -/
  annotations : ∀ place ∈ file.preorder, ∀ e ∈ place.annotation?, e.isStandard = true
  /-- No block has two functions of one name. -/
  functions : ∀ place ∈ file.preorder, ∀ block ∈ place.blocks,
    (block.filterMap Place.functionName?).Nodup
  /-- No function has two parameters of one name. -/
  params : ∀ place ∈ file.preorder, (place.params.filterMap Place.declared?).Nodup
  /-- No condition is a call of `isinstance`. -/
  conditions : ∀ place ∈ file.preorder, ∀ e ∈ place.condition?, e.isCheck = false
  /-- No default contains a name. -/
  defaults : ∀ place ∈ file.preorder, ∀ e ∈ place.default?, e.isNameFree = true

instance (file : Place) : Decidable (Unextended file) :=
  decidable_of_iff
    ((∀ place ∈ file.preorder, ∀ e ∈ place.annotation?, e.isStandard = true) ∧
      (∀ place ∈ file.preorder, ∀ block ∈ place.blocks,
        (block.filterMap Place.functionName?).Nodup) ∧
      (∀ place ∈ file.preorder, (place.params.filterMap Place.declared?).Nodup) ∧
      (∀ place ∈ file.preorder, ∀ e ∈ place.condition?, e.isCheck = false) ∧
      ∀ place ∈ file.preorder, ∀ e ∈ place.default?, e.isNameFree = true)
    ⟨fun ⟨annotations, functions, params, conditions, defaults⟩ =>
      ⟨annotations, functions, params, conditions, defaults⟩,
    fun h => ⟨h.annotations, h.functions, h.params, h.conditions, h.defaults⟩⟩

/-! ## Values without names

Without names nothing is looked up, so that a value is the same in all contexts. -/

mutual

/-- What declarations mean is of no account to an expression without names. -/
theorem valueWith_of_isNameFree (d d' : Declared) (site : Site) (e : Expr)
    (h : e.isNameFree = true) : valueWith d site e = valueWith d' site e := by
  cases e with
  | name => simp [Expr.isNameFree] at h
  | int | float | bool | none | ellipsis | str | binary | dangling | subscript | member => rfl
  | paren span inner =>
    rw [Expr.isNameFree] at h
    rw [valueWith, valueWith, valueWith_of_isNameFree d d' site inner h]
  | tuple span elems =>
    rw [Expr.isNameFree] at h
    rw [valueWith, valueWith, valuesWith_of_areNameFree d d' site elems h]
  | list span elems =>
    rw [Expr.isNameFree] at h
    rw [valueWith, valueWith, valuesWith_of_areNameFree d d' site elems h]
  | call span callee args =>
    rw [Expr.isNameFree, Bool.and_eq_true] at h
    have hnamed : ∀ d : Declared, d.namedCall? site (.call span callee args) callee = none := by
      intro d
      cases callee with
      | name => simp [Expr.isNameFree] at h
      | _ => rfl
    rw [valueWith, valueWith, hnamed, hnamed, valueWith_of_isNameFree d d' site callee h.1]

theorem valuesWith_of_areNameFree (d d' : Declared) (site : Site) : ∀ es : List Expr,
    Expr.areNameFree es = true → valuesWith d site es = valuesWith d' site es
  | [], _ => rfl
  | e :: es, h => by
    rw [Expr.areNameFree, Bool.and_eq_true] at h
    rw [valuesWith, valuesWith, valueWith_of_isNameFree d d' site e h.1,
      valuesWith_of_areNameFree d d' site es h.2]

end

/-- What declarations mean is of no account to a parameter whose default has no names. -/
theorem paramFromDefault_of_isNameFree {param function : Place}
    (h : ∀ e ∈ param.default?, e.isNameFree = true) (d d' : Declared) :
    paramFromDefault d param function = paramFromDefault d' param function := by
  rw [paramFromDefault, paramFromDefault]
  split
  · next p hnode =>
    split
    · rfl
    · rfl
    · cases hdefault : p.default? with
      | none => rfl
      | some e =>
        have hfree := h e (by rw [Place.default?, hnode]; exact hdefault)
        exact valueWith_of_isNameFree d d' param.interior e hfree
  · rfl

/-- A parameter with an annotation has the type that this denotes. -/
theorem paramFromDefault_of_hint {param function : Place} (d : Declared) {hint : Expr}
    (h : param.paramAnnotation? = some hint) :
    paramFromDefault d param function = (standard param.interior hint).getD .unknown := by
  rw [Place.paramAnnotation?] at h
  split at h
  · next p hnode => simp only [paramFromDefault, hnode, h]
  · cases h

/-! ## Files without checks

The search for a conditional goes through the places above, none of which has a check. -/

section

variable {file : Place} {e : Expr}

theorem checkedType?_eq_none (h : e.isCheck = false) (site : Site) (name : String) :
    checkedType? site name e = none := by
  rw [checkedType?.eq_def]
  split
  · next callee _ _ _ =>
    rw [Expr.isCheck, beq_eq_false_iff_ne] at h
    simp [h]
  · rfl

variable (hconditions : ∀ place ∈ file.preorder, ∀ e ∈ place.condition?, e.isCheck = false)

include hconditions

theorem narrowedIn_eq_none {above : List Place} (habove : ∀ p ∈ above, p ∈ file.preorder)
    (name : String) (binding? : Option Binding) (inner : Option Place) :
    narrowedIn name binding? inner above = none := by
  induction above generalizing inner with
  | nil => rfl
  | cons p above ih =>
    have ih := ih fun q hq => habove q (List.mem_cons_of_mem _ hq)
    rw [narrowedIn]
    split
    · rfl
    · rfl
    · next span cond body orelse hnode =>
      have hcheck := hconditions p (habove p List.mem_cons_self) cond
        (by rw [Place.condition?, hnode]; rfl)
      simp [checkedType?_eq_none hcheck, ih]
    · exact ih _

/-- **No name is narrowed** in a file in which no condition is a check. -/
theorem narrowed?_eq_none {site : Site} (hsite : site.IsIn file) (e : Expr) :
    narrowed? site e = none := by
  rw [narrowed?.eq_def]
  split
  · split
    · rfl
    · exact narrowedIn_eq_none hconditions hsite _ _ _
  · rfl

/-- A name has the type of what it is bound by, if the extension has no opinion. -/
theorem name_eq {mode : AnalysisMode} {extension : Bool} {unclosed : List Nat} {site : Site}
    (hsite : site.IsIn file) (e : Expr) (name : String) :
    ((Context.ofFile file mode extension).declaredFrom unclosed).name site e name =
      ((Context.ofFile file mode extension).ask fun p => p.reference mode site e).getD
        (((Context.ofFile file mode extension).declaredFrom unclosed).bound name
          (site.bindingOf e)) := by
  rw [Declared.name, narrowed?_eq_none hconditions hsite]
  simp only [Option.orElse_eq_orElse, Option.orElse_eq_or, Option.or_none]
  rfl

end

/-! ## Lists without repetitions

A name that occurs once among the functions of a block, or among the parameters of a function,
belongs to one of them. -/

theorem eq_of_nodup_filterMap {α β : Type} {f : α → Option β} {l : List α} {x y : α} {b : β}
    (hl : (l.filterMap f).Nodup) (hx : x ∈ l) (hy : y ∈ l) (hfx : f x = some b)
    (hfy : f y = some b) : x = y := by
  induction l with
  | nil => cases hx
  | cons z l ih =>
    have hmem : ∀ {w : α}, w ∈ l → f w = some b → b ∈ l.filterMap f :=
      fun hw hfw => List.mem_filterMap.2 ⟨_, hw, hfw⟩
    rcases List.mem_cons.1 hx with rfl | hx' <;> rcases List.mem_cons.1 hy with rfl | hy'
    · rfl
    · rw [List.filterMap_cons_some hfx, List.nodup_cons] at hl
      exact absurd (hmem hy' hfy) hl.1
    · rw [List.filterMap_cons_some hfy, List.nodup_cons] at hl
      exact absurd (hmem hx' hfx) hl.1
    · refine ih ?_ hx' hy'
      rw [List.filterMap_cons] at hl
      split at hl
      · exact hl
      · exact (List.nodup_cons.1 hl).2

namespace Unextended

variable {node : Node} {file place param function : Place} {e : Expr}

/-! ## Overloads

A function has as overloads the functions of its name in its block.  In an unextended file that is
the function alone. -/

/-- A function stands alone in its block. -/
theorem filter_functionName?_eq_nil {block : List Place} {name : String}
    (hblock : (block.filterMap Place.functionName?).Nodup)
    (hname : function.functionName? = some name) (hmem : function ∈ block) :
    (block.takeWhile (· != function)).filter (·.functionName? == some name) = [] := by
  rw [List.filter_eq_nil_iff]
  intro before hbefore hsame
  have hother := List.all_takeWhile (p := (· != function)) (l := block)
  have hne := List.all_eq_true.1 hother before hbefore
  have heq : before = function := eq_of_nodup_filterMap hblock
    ((List.takeWhile_sublist _).subset hbefore) hmem (beq_iff_eq.1 hsame) hname
  rw [heq, bne, Place.beq_self] at hne
  cases hne

/-- **A function has no overloads** but itself. -/
theorem overloads_eq (hfile : Unextended (.root node))
    (hmem : function ∈ (Place.root node).preorder) (hfunction : function.node.isFunction = true) :
    function.overloads = [function] := by
  obtain ⟨name, hname⟩ := Place.exists_functionName? hfunction
  rw [Place.overloads, hname]
  cases hsiblings : function.siblings? with
  | none => rfl
  | some block =>
    obtain ⟨parent, hparent, hblock, hin⟩ := Place.exists_parent_of_siblings? hmem hsiblings
    have hnodup := hfile.functions parent hparent block hblock
    simp only [List.filter_reverse, filter_functionName?_eq_nil hnodup hname hin,
      List.reverse_nil]

/-! ## Opinions of the extension

What the extension says of a function that stands alone is what its annotations denote, and these
are standard. -/

theorem extended_eq (hfile : Unextended file) (hplace : place ∈ file.preorder)
    (he : place.annotation? = some e) (site : Site) : extended site e false = standard site e :=
  extended_of_isStandard (hfile.annotations place hplace e he)

/-- The annotation of a parameter is found by its name. -/
theorem overloadAnnotation?_eq (hparams : (function.params.filterMap Place.declared?).Nodup)
    (hparam : param ∈ function.params) {name : String} (hname : param.declared? = some name) :
    overloadAnnotation? name function = param.paramAnnotation?.map (param, ·) := by
  have hfind : function.params.find? (·.declared? == some name) = some param := by
    cases hfound : function.params.find? (·.declared? == some name) with
    | none =>
      rw [List.find?_eq_none] at hfound
      exact absurd (beq_iff_eq.2 hname) (hfound param hparam)
    | some other =>
      have hother := List.find?_some (p := fun p : Place => p.declared? == some name) hfound
      rw [eq_of_nodup_filterMap hparams (List.mem_of_find?_eq_some hfound) hparam
        (beq_iff_eq.1 hother) hname]
  rw [overloadAnnotation?, hfind, Option.map_eq_bind]
  rfl

/-- A function alone says no more of a parameter than its annotation does. -/
theorem overloadedParam_eq_none (hparams : (function.params.filterMap Place.declared?).Nodup)
    (hparam : param ∈ function.params) {name : String} (hname : param.declared? = some name)
    (h : param.paramAnnotation?.bind (fun e => extended param.interior e) = none) :
    overloadedParam [function] name = none := by
  rw [overloadedParam, List.filterMap_eq_nil_iff.2]
  · rfl
  · intro g hg
    rw [List.mem_singleton.1 hg, overloadAnnotation?_eq hparams hparam hname]
    cases hhint : param.paramAnnotation? with
    | none => rfl
    | some e => rwa [hhint] at h

/-- A function alone says no more of its result than its annotation does. -/
theorem overloadedResult_eq_none (h : Provider.annotatedResult? function false = none) :
    overloadedResult [function] = none := by
  rw [overloadedResult, List.filterMap_eq_nil_iff.2]
  · rfl
  · intro g hg
    rw [List.mem_singleton.1 hg]
    exact h

/-- **The opinion on a parameter** is the meaning of its annotation. -/
theorem extendedParam_eq (hfile : Unextended (.root node))
    (hfunction : function ∈ (Place.root node).preorder) (hparam : param ∈ function.params) :
    Provider.extendedParam param function =
      param.paramAnnotation?.bind (standard param.interior) := by
  obtain ⟨p, hnode⟩ := Place.exists_param_of_mem_params hparam
  have hchild := Place.mem_children_of_mem_params hparam
  have hmem := Place.mem_preorder_of_mem_children hfunction hchild
  have hhint : param.paramAnnotation? = p.annotation? := by rw [Place.paramAnnotation?, hnode]
  have hmeaning : p.annotation?.bind (fun e => extended param.interior e) =
      p.annotation?.bind (standard param.interior) := by
    refine Option.bind_congr fun e he => hfile.extended_eq hmem ?_ _
    rw [Place.annotation?, hnode]
    exact he
  simp only [Provider.extendedParam, hnode]
  rw [hhint, hfile.overloads_eq hfunction
    (Place.isFunction_of_param_mem_children hchild hnode)]
  cases hsettled : p.annotation?.bind (fun e => extended param.interior e) with
  | some ty => exact hsettled.symm.trans hmeaning
  | none =>
    rw [← hmeaning, hsettled, overloadedParam_eq_none (hfile.params _ hfunction) hparam
      (by rw [Place.declared?, hnode]; rfl) (hhint ▸ hsettled)]
    rfl

/-- **The opinion on a result** is the meaning of its annotation. -/
theorem annotatedResult?_eq (hfile : Unextended file) (hmem : function ∈ file.preorder) :
    Provider.annotatedResult? function false =
      function.resultAnnotation?.bind (standard function.interior) :=
  Option.bind_congr fun _ he =>
    hfile.extended_eq hmem (Place.annotation?_of_resultAnnotation? he) _

theorem extendedResult_eq (hfile : Unextended (.root node))
    (hmem : function ∈ (Place.root node).preorder) :
    Provider.extendedResult function =
      function.resultAnnotation?.bind (standard function.interior) := by
  rw [← hfile.annotatedResult?_eq hmem, Provider.extendedResult.eq_def]
  split
  · next hnode =>
    rw [hfile.overloads_eq hmem (by rw [hnode]; rfl)]
    cases hresult : Provider.annotatedResult? function false with
    | none => rw [overloadedResult_eq_none hresult]; rfl
    | some ty => rfl
  · next hnode =>
    rw [Provider.annotatedResult?, Place.resultAnnotation?]
    split
    · next hnode' => exact absurd hnode' (hnode _ _ _ _ _ _)
    · rfl

/-! ## Answers

The answer to each question is an opinion or what is inferred.  In all four cases the opinion, where
there is one, is what would be inferred. -/

variable {mode : AnalysisMode} {extension : Bool} {inferred : Inferred}

/-- **The type of a parameter** is what is inferred for it, whatever declarations mean. -/
theorem paramWith_eq (hfile : Unextended (.root node))
    (hfunction : function ∈ (Place.root node).preorder) (hparam : param ∈ function.params)
    (d : Declared) :
    (Context.ofFile (.root node) mode extension).paramWith inferred param function =
      paramFromDefault d param function := by
  have hmem := Place.mem_preorder_of_mem_children hfunction
    (Place.mem_children_of_mem_params hparam)
  rw [Context.paramWith, Context.paramWithin,
    paramFromDefault_of_isNameFree (hfile.defaults param hmem) _ d]
  refine Context.getD_ask_ofFile fun t ht => ?_
  obtain ⟨hint, hhint, hstandard⟩ :=
    Option.bind_eq_some_iff.1 ((hfile.extendedParam_eq hfunction hparam).symm.trans ht)
  rw [paramFromDefault_of_hint d hhint, hstandard]
  rfl

/-- What is inferred for a result with an annotation. -/
theorem inferResultWith_of_hint {hint : Expr}
    (h : function.resultAnnotation? = some hint) :
    Context.inferResultWith inferred function =
      (standard function.interior hint).getD .unknown := by
  rw [Place.resultAnnotation?] at h
  split at h
  · next hnode => simp only [Context.inferResultWith, hnode, h]
  · cases h

/-- **The type of a result** is what is inferred for it. -/
theorem resultWith_eq (hfile : Unextended (.root node))
    (hmem : function ∈ (Place.root node).preorder) :
    (Context.ofFile (.root node) mode extension).resultWith inferred function =
      Context.inferResultWith inferred function := by
  refine Context.getD_ask_ofFile fun t ht => ?_
  obtain ⟨hint, hhint, hstandard⟩ :=
    Option.bind_eq_some_iff.1 ((hfile.extendedResult_eq hmem).symm.trans ht)
  rw [inferResultWith_of_hint hhint, hstandard]
  rfl

/-- **The type of a call** is that of the result. -/
theorem callWith_eq (hfile : Unextended (.root node))
    (hmem : function ∈ (Place.root node).preorder) (call : Node) :
    (Context.ofFile (.root node) mode extension).callWith inferred function call =
      Context.inferResultWith inferred function := by
  rw [Context.callWith, hfile.resultWith_eq hmem]
  refine Context.getD_ask_ofFile fun t ht => ?_
  obtain ⟨hint, hhint, hstrict⟩ := Option.bind_eq_some_iff.1 ht
  have hstandard := hfile.annotations function hmem hint
    (Place.annotation?_of_resultAnnotation? hhint)
  rw [inferResultWith_of_hint hhint, standard_of_strict hstandard hstrict]
  rfl

/-- **The type of a function** is what is inferred for it. -/
theorem functionWith_eq (hfile : Unextended (.root node))
    (hmem : function ∈ (Place.root node).preorder) (parameter : Place → Place → Ty) :
    (Context.ofFile (.root node) mode extension).functionWith inferred parameter function =
      (Context.ofFile (.root node) mode extension).inferFunctionWith inferred parameter
        function := by
  refine Context.getD_ask_ofFile fun t ht => ?_
  obtain ⟨name, hname, ht⟩ := Option.bind_eq_some_iff.1 ht
  have hresult : (Provider.annotatedResult? function false).getD
      ((Context.ofFile (.root node) mode extension).resultWith inferred function) =
      (Context.ofFile (.root node) mode extension).resultWith inferred function := by
    rw [hfile.annotatedResult?_eq hmem]
    cases hstandard : function.resultAnnotation?.bind (standard function.interior) with
    | none => rfl
    | some ty =>
      obtain ⟨hint, hhint, hstandard⟩ := Option.bind_eq_some_iff.1 hstandard
      rw [hfile.resultWith_eq hmem, inferResultWith_of_hint hhint, hstandard]
      rfl
  rw [← Option.some.inj ht, Context.inferFunctionWith, hname]
  simp only [hresult]

end Unextended
end TypeReveal
