import TypeReveal.Proofs.Inference.Aliases

/-!
# The extension is conservative

In a file without extended forms the extension changes no type: `typeAt_extension`.

The opinions of the extension on bindings and names come before anything is inferred, so that they
do not close a declaration, and where inference would find a declaration closed they still have a
type.  The two do not meet declaration by declaration, then, but only while the declarations are
open that have their type **from an annotation** (`Place.FromAnnotation`): a binding that its own
annotation settles, and an alias of a parameter with an annotation.  These stay open
(`Covers.erase`), because their inference asks for nothing that could come back to them:

* the inference of a settled binding asks for nothing;
* that of an alias asks for the next one, up to the parameter, and meets no alias twice; the type of
  the parameter is what its annotation denotes (`valueWith_of_leads`).

With these open, values agree for each set of open declarations if they agree for all sets of which
one more is closed (`agrees_of_erase`), and so they agree (`agrees_of_covers`).
-/

set_option autoImplicit false
namespace TypeReveal

/-! ## Types from annotations

An alias has its type from an annotation if the way from it leads to a parameter that has one, by
the same way that the extension goes. -/

/-- The type that the annotation of a binding denotes. -/
def Place.settled? (place : Place) : Option Ty :=
  match place.node with
  | .stmt (.binding _ _ annotation? _) => annotation?.bind (standard place.interior)
  | _ => none

/-- A declaration has its type from an annotation, its own or that of a parameter it is an alias
of. -/
def Place.FromAnnotation (place : Place) : Prop :=
  place.settled?.isSome = true ∨
    ∃ e ps q hint, place.aliased? = some e ∧ place.interior.Leads e ps q ∧
      q.paramAnnotation? = some hint

/-- All declarations that have their type from an annotation are open. -/
def Covers (file : Place) (unclosed : List Nat) : Prop :=
  ∀ place ∈ file.preorder, place.FromAnnotation → place.index ∈ unclosed

theorem Covers.erase {file place : Place} {unclosed : List Nat} (h : Covers file unclosed)
    (hplace : place ∈ file.preorder) (hfrom : ¬ place.FromAnnotation) :
    Covers file (unclosed.erase place.index) := by
  intro other hother hfrom'
  have hne : other.index ≠ place.index := by
    intro heq
    exact hfrom (Place.eq_of_index_eq hother hplace heq ▸ hfrom')
  exact (List.mem_erase_of_ne hne).2 (h other hother hfrom')

/-- The aliases on the way to a parameter with an annotation are open. -/
theorem Covers.mem_of_leads {node : Node} {unclosed : List Nat} {site : Site} {e : Expr}
    {ps : List Place} {q p : Place} {hint : Expr} (h : Covers (.root node) unclosed)
    (hleads : site.Leads e ps q) (hsite : site.IsIn (.root node))
    (hhint : q.paramAnnotation? = some hint) (hp : p ∈ ps) : p.index ∈ unclosed := by
  obtain ⟨e', tail, halias, hrest, -⟩ := hleads.exists_of_mem hp
  exact h p ((hleads.mem_preorder hsite).2 p hp)
    (.inr ⟨e', tail, q, hint, halias, hrest, hhint⟩)

theorem Place.isDeclaration_of_fromAnnotation {place : Place} (h : place.FromAnnotation) :
    place.isDeclaration = true ∧ place.node.isFunction = false := by
  rcases h with h | ⟨e, ps, q, hint, h, -, -⟩
  · rw [settled?] at h
    split at h
    · next hnode => exact ⟨by rw [isDeclaration, hnode], by rw [hnode]; rfl⟩
    · cases h
  · exact isDeclaration_of_aliased? h

theorem covers_declarations (file : Place) :
    Covers file (file.declarations.map Place.index) := fun _ hplace hfrom =>
  List.mem_map_of_mem
    (List.mem_filter.2 ⟨hplace, (Place.isDeclaration_of_fromAnnotation hfrom).1⟩)

/-! ## Either way

For the three kinds of declarations that have their type from annotations, the type is computed on
both sides and is what the annotation denotes. -/

namespace Unextended

variable {node : Node} {span : Span} {body : List Stmt} {file : Place} {mode : AnalysisMode}
  {extension : Bool} {unclosed : List Nat} {place function q : Place} {site : Site} {e hint : Expr}
  {ps : List Place}

/-- The opinion of the extension on a binding is the meaning of its annotation. -/
theorem extendedBinding_eq (hfile : Unextended file) (hplace : place ∈ file.preorder) :
    Provider.extendedBinding place = place.settled? := by
  rw [Provider.extendedBinding.eq_def, Place.settled?]
  split
  · next hint _ hnode =>
    rw [hnode]
    exact hfile.extended_eq hplace (by rw [Place.annotation?, hnode]) _
  · next h =>
    split
    · next annotation? _ hnode =>
      cases annotation? with
      | none => rfl
      | some hint => exact absurd hnode (h _ _ _ _)
    · rfl

/-- **An alias of a parameter with an annotation** has the type that this denotes, while all
aliases on the way are open. -/
theorem valueWith_of_leads (hfile : Unextended (.root (.file span body)))
    (hleads : site.Leads e ps q) (hsite : site.IsIn (.root (.file span body)))
    (hhint : q.paramAnnotation? = some hint)
    (hopen : ∀ p ∈ ps, p.index ∈ unclosed) :
    valueWith ((Context.ofFile (.root (.file span body)) mode extension).declaredFrom unclosed)
      site e = (standard q.interior hint).getD .unknown := by
  have d := (Context.ofFile (.root (.file span body)) mode extension).declaredFrom unclosed
  have inferred := (Context.ofFile (.root (.file span body)) mode extension).inferredFrom unclosed
  obtain ⟨p, hnode⟩ := Place.exists_param_of_paramAnnotation? hhint
  obtain ⟨function, hfunction, -, hparam⟩ :=
    Place.exists_function_of_param (hleads.mem_preorder hsite).1 hnode
  rw [TypeReveal.valueWith_of_leads hfile.conditions hparam hhint hleads hsite hopen inferred,
    hfile.paramWith_eq hfunction hparam d, paramFromDefault_of_hint d hhint]

/-- A binding that its annotation settles has the type that this denotes, while it is open. -/
theorem declaration_of_settled? (hfile : Unextended file) (hplace : place ∈ file.preorder)
    (hopen : place.index ∈ unclosed) {ty : Ty} (hsettled : place.settled? = some ty) :
    ((Context.ofFile file mode extension).declaredFrom unclosed).declaration place = ty := by
  have hsettled' := hsettled
  rw [Place.settled?] at hsettled
  split at hsettled
  · next annotation? value? hnode =>
    obtain ⟨hint, rfl, hstandard⟩ := Option.bind_eq_some_iff.1 hsettled
    have hvalue : ((Context.ofFile file mode extension).inferredFrom unclosed).binding place =
        ty := by
      rw [Context.binding_inferredFrom, if_pos hopen]
      simp only [bindingFromValue, hnode, settledType?, hstandard, Option.getD_some]
    simp only [Declared.declaration, hnode]
    refine (congrArg (Option.getD _) hvalue).trans (Context.getD_ask_ofFile fun t ht => ?_)
    rw [← hfile.extendedBinding_eq hplace] at hsettled'
    exact Option.some.inj (ht.symm.trans hsettled')
  · cases hsettled

/-- **A declaration that has its type from an annotation** has the same type either way. -/
theorem declaration_of_fromAnnotation (hfile : Unextended (.root (.file span body)))
    (hcovers : Covers (.root (.file span body)) unclosed)
    (hplace : place ∈ (Place.root (.file span body)).preorder) (hfrom : place.FromAnnotation) :
    ∃ ty, ∀ extension, ((Context.ofFile (.root (.file span body)) mode extension).declaredFrom
      unclosed).declaration place = ty := by
  have hopen := hcovers place hplace hfrom
  rcases hfrom with hsettled | ⟨e, ps, q, hint, halias, hleads, hhint⟩
  · obtain ⟨ty, hty⟩ := Option.isSome_iff_exists.1 hsettled
    exact ⟨ty, fun extension => hfile.declaration_of_settled? hplace hopen hty⟩
  · have hsite := Site.isIn_interior hplace
    refine ⟨(standard q.interior hint).getD .unknown, fun extension => ?_⟩
    rw [declaration_of_aliased? halias hopen]
    refine hfile.valueWith_of_leads hleads hsite hhint fun p hp => ?_
    have hne := hleads.index_ne_of_aliased? halias hplace p hp
    exact (List.mem_erase_of_ne hne).2 (hcovers.mem_of_leads hleads hsite hhint hp)

/-- A binding that no annotation settles has the type that is inferred. -/
theorem declaration_of_settled?_eq_none (hfile : Unextended file) (hplace : place ∈ file.preorder)
    {span : Span} {name : String} {annotation? value? : Option Expr}
    (hnode : place.node = .stmt (.binding span name annotation? value?))
    (hsettled : place.settled? = none) :
    ((Context.ofFile file mode extension).declaredFrom unclosed).declaration place =
      ((Context.ofFile file mode extension).inferredFrom unclosed).binding place := by
  rw [← hfile.extendedBinding_eq hplace] at hsettled
  simp only [Declared.declaration, hnode]
  exact Context.getD_ask_ofFile fun t ht => by cases hsettled.symm.trans ht

/-- A parameter has the same type, whatever declarations mean. -/
theorem paramWith_agrees (hfile : Unextended (.root node))
    (hfunction : function ∈ (Place.root node).preorder) (hparam : place ∈ function.params)
    (inferred inferred' : Inferred) :
    (Context.ofFile (.root node) mode false).paramWith inferred place function =
      (Context.ofFile (.root node) mode true).paramWith inferred' place function := by
  have d := (Context.ofFile (.root node) mode false).declared inferred
  rw [hfile.paramWith_eq hfunction hparam d, hfile.paramWith_eq hfunction hparam d]

/-! ## Agreement

For all other declarations there is an induction on the number of open ones.  The inference of a
declaration has it closed, and then everything that it asks for agrees by the hypothesis; that it is
closed does no harm, since the declaration is none of those that must stay open. -/

/-- The value of each expression in a file is the same with and without the extension. -/
def Agrees (file : Place) (mode : AnalysisMode) (unclosed : List Nat) : Prop :=
  ∀ (site : Site) (e : Expr), site.IsIn file →
    valueWith ((Context.ofFile file mode false).declaredFrom unclosed) site e =
      valueWith ((Context.ofFile file mode true).declaredFrom unclosed) site e

theorem not_fromAnnotation_of_isFunction (h : place.node.isFunction = true) :
    ¬ place.FromAnnotation := by
  intro hfrom
  rw [(Place.isDeclaration_of_fromAnnotation hfrom).2] at h
  cases h

section Step

variable (hfile : Unextended (.root (.file span body)))
  (hcovers : Covers (.root (.file span body)) unclosed)
  (ih : ∀ i ∈ unclosed, Covers (.root (.file span body)) (unclosed.erase i) →
    Agrees (.root (.file span body)) mode (unclosed.erase i))

include hcovers ih

/-- What is inferred for a declaration without annotation agrees, as it is closed meanwhile. -/
theorem inferredFrom_agrees (hplace : place ∈ (Place.root (.file span body)).preorder)
    (hfrom : ¬ place.FromAnnotation) :
    ((Context.ofFile (.root (.file span body)) mode false).inferredFrom unclosed).binding place =
        ((Context.ofFile (.root (.file span body)) mode true).inferredFrom unclosed).binding
          place ∧
      ((Context.ofFile (.root (.file span body)) mode false).inferredFrom unclosed).result place =
        ((Context.ofFile (.root (.file span body)) mode true).inferredFrom unclosed).result
          place := by
  rw [Context.binding_inferredFrom, Context.binding_inferredFrom, Context.result_inferredFrom,
    Context.result_inferredFrom]
  by_cases hopen : place.index ∈ unclosed
  · have hagrees := ih _ hopen (hcovers.erase hplace hfrom)
    simp only [if_pos hopen]
    refine ⟨bindingFromValue_congr fun e => hagrees _ e (Site.isIn_interior hplace),
      resultFromBody_congr fun stmt hstmt e => hagrees _ e (Site.isIn_interior ?_)⟩
    exact Place.mem_preorder_of_mem_flatStmts hplace (List.mem_filter.1 hstmt).1
  · simp only [if_neg hopen, and_self]

theorem inferResultWith_agrees (hplace : place ∈ (Place.root (.file span body)).preorder)
    (hfunction : place.node.isFunction = true) :
    Context.inferResultWith
        ((Context.ofFile (.root (.file span body)) mode false).inferredFrom unclosed) place =
      Context.inferResultWith
        ((Context.ofFile (.root (.file span body)) mode true).inferredFrom unclosed) place := by
  have hresult := (inferredFrom_agrees hcovers ih hplace
    (not_fromAnnotation_of_isFunction hfunction)).2
  rw [Context.inferResultWith.eq_def, Context.inferResultWith.eq_def, hresult]

include hfile

theorem functionWith_agrees (hplace : place ∈ (Place.root (.file span body)).preorder)
    (hfunction : place.node.isFunction = true) :
    ((Context.ofFile (.root (.file span body)) mode false).declaredFrom unclosed).function place =
      ((Context.ofFile (.root (.file span body)) mode true).declaredFrom unclosed).function
        place := by
  have hresult := inferResultWith_agrees hcovers ih hplace hfunction
  rw [Context.function_declaredFrom, Context.function_declaredFrom, hfile.functionWith_eq hplace,
    hfile.functionWith_eq hplace, Context.inferFunctionWith, Context.inferFunctionWith]
  cases place.functionName? with
  | none => rfl
  | some name =>
    simp only [hfile.resultWith_eq hplace, hresult]
    congr 1
    refine List.map_congr_left fun param hparam => ?_
    rw [hfile.paramWith_agrees hplace hparam]

/-- **What a declaration means agrees**, if values agree whenever one more declaration is
closed. -/
theorem declaration_agrees (hplace : place ∈ (Place.root (.file span body)).preorder) :
    ((Context.ofFile (.root (.file span body)) mode false).declaredFrom
        unclosed).declaration place =
      ((Context.ofFile (.root (.file span body)) mode true).declaredFrom
        unclosed).declaration place := by
  by_cases hfrom : place.FromAnnotation
  · obtain ⟨ty, hty⟩ := hfile.declaration_of_fromAnnotation hcovers hplace hfrom
    rw [hty, hty]
  cases hnode : place.node with
  | file | expr => simp only [Declared.declaration, hnode]
  | param p =>
    obtain ⟨function, hfunction, habove, hparam⟩ := Place.exists_function_of_param hplace hnode
    simp only [Declared.declaration, hnode, habove, Option.map_some, Option.getD_some]
    exact hfile.paramWith_agrees hfunction hparam _ _
  | stmt s =>
    cases s with
    | binding span name annotation? value? =>
      have hsettled : place.settled? = none := by
        rw [← Option.not_isSome_iff_eq_none]
        exact fun h => hfrom (.inl h)
      rw [hfile.declaration_of_settled?_eq_none hplace hnode hsettled,
        hfile.declaration_of_settled?_eq_none hplace hnode hsettled]
      exact (inferredFrom_agrees hcovers ih hplace hfrom).1
    | function =>
      simp only [Declared.declaration, hnode]
      exact functionWith_agrees hfile hcovers ih hplace (by rw [hnode]; rfl)
    | _ => simp only [Declared.declaration, hnode]

theorem name_agrees (hsite : site.IsIn (.root (.file span body))) (at' : Span) (name : String) :
    ((Context.ofFile (.root (.file span body)) mode false).declaredFrom unclosed).name site
        (.name at' name) name =
      ((Context.ofFile (.root (.file span body)) mode true).declaredFrom unclosed).name site
        (.name at' name) name := by
  by_cases hannotated : ∃ ps q hint, site.Leads (.name at' name) ps q ∧
      q.paramAnnotation? = some hint
  · obtain ⟨ps, q, hint, hleads, hhint⟩ := hannotated
    have hopen : ∀ p ∈ ps, p.index ∈ unclosed := fun p hp =>
      hcovers.mem_of_leads hleads hsite hhint hp
    have hvalue : ∀ extension, valueWith ((Context.ofFile (.root (.file span body)) mode
        extension).declaredFrom unclosed) site (.name at' name) =
          (standard q.interior hint).getD .unknown :=
      fun _ => hfile.valueWith_of_leads hleads hsite hhint hopen
    simp only [valueWith] at hvalue
    rw [hvalue, hvalue]
  · have hopinion : Provider.extendedReference site (.name at' name) = none := by
      rw [Option.eq_none_iff_forall_ne_some]
      intro t ht
      obtain ⟨ps, q, hint, hleads, -, hhint, -⟩ := extendedReference_eq_some_iff.1 ht
      exact hannotated ⟨ps, q, hint, hleads, hhint⟩
    rw [name_eq hfile.conditions hsite, name_eq hfile.conditions hsite, Context.ask_ofFile,
      Context.ask_ofFile, if_pos rfl,
      show Provider.extension.reference mode site (.name at' name) = none from hopinion]
    cases hb : site.bindingOf (.name at' name) with
    | none => simp only [Declared.bound, Option.getD_none, ite_self]
    | some b =>
      have hisIn := Site.isIn_bindingOf hsite hb
      rw [Declared.bound_of_isIn hisIn, Declared.bound_of_isIn hisIn]
      exact declaration_agrees hfile hcovers ih hisIn.mem_preorder

/-- **Values agree**, if they agree whenever one more declaration is closed. -/
theorem agrees_of_erase : Agrees (.root (.file span body)) mode unclosed := by
  intro site e hsite
  refine valueWith_congr (name_agrees hfile hcovers ih hsite) ?_ e
  intro callee function call hcallee hfunction
  have hmem : function ∈ (Place.root (.file span body)).preorder :=
    (Site.isIn_bindingOf hsite hcallee).mem_preorder
  rw [Context.call_declaredFrom, Context.call_declaredFrom, hfile.callWith_eq hmem,
    hfile.callWith_eq hmem]
  exact inferResultWith_agrees hcovers ih hmem hfunction

end Step

/-- **Values agree** while the declarations are open that have their type from an annotation.  By
induction on the number of open declarations.  Closing one of the others leaves these open, and
closing one of these is never called for, since an opinion or an annotation answers for it. -/
theorem agrees_of_covers (hfile : Unextended (.root (.file span body))) {unclosed : List Nat}
    (hcovers : Covers (.root (.file span body)) unclosed) :
    Agrees (.root (.file span body)) mode unclosed := by
  refine hfile.agrees_of_erase hcovers fun i hi hcovers' => ?_
  have hlt := List.length_erase_of_mem hi
  have hpos := List.length_pos_of_mem hi
  exact hfile.agrees_of_covers hcovers'
termination_by unclosed.length

end Unextended

/-! ## The extension

At the beginning all declarations are open, among them those that have to be. -/

/-- The type of a declaration is what it means while all declarations are open. -/
theorem Context.typeAt_eq (ctx : Context) (place : Place) :
    ctx.typeAt place =
      match place.node with
      | .file .. => .unknown
      | .expr e =>
        valueWith (ctx.declaredFrom (ctx.file.declarations.map Place.index)) place.site e
      | _ => (ctx.declaredFrom (ctx.file.declarations.map Place.index)).declaration place := by
  rw [typeAt.eq_def]
  cases hnode : place.node with
  | file => simp only [exprType, hnode]
  | expr e => simp only [exprType, hnode]; rfl
  | param p => simp only [Declared.declaration, hnode]; rfl
  | stmt s =>
    cases s <;> simp only [Declared.declaration, exprType, hnode] <;> rfl

/-- **The extension is conservative**: in a file without extended forms every place has the same
type with and without it, in both modes.  Recursive functions and bindings are no exception,
although with the extension a declaration may be asked for that is closed without it. -/
theorem Unextended.typeAt_extension {span : Span} {body : List Stmt} {place : Place}
    (hfile : Unextended (.root (.file span body)))
    (hplace : place ∈ (Place.root (.file span body)).preorder) (mode : AnalysisMode) :
    (Context.ofFile (.root (.file span body)) mode true).typeAt place =
      (Context.ofFile (.root (.file span body)) mode false).typeAt place := by
  have hcovers := covers_declarations (.root (.file span body))
  rw [Context.typeAt_eq, Context.typeAt_eq]
  split
  · rfl
  · exact (hfile.agrees_of_covers hcovers _ _ (Site.isIn_site hplace)).symm
  · refine (declaration_agrees hfile hcovers (fun i hi hcovers' => ?_) hplace).symm
    exact hfile.agrees_of_covers hcovers'

/-- A function that calls itself with an alias of its parameter. -/
theorem Unextended.typeAt_extension_recursive :
    let file := Place.root (.file default
      [.function default "f" [] [⟨default, "x", some (.name default "int"), none⟩] none
        [.binding ⟨1, 2⟩ "y" none (some (.name default "x")),
          .result default (some (.call default (.name default "f") [.name ⟨3, 4⟩ "y"]))]])
    Unextended file ∧
      file.children.map (Context.ofFile file .codeAnalysis true).typeAt =
        file.children.map (Context.ofFile file .codeAnalysis false).typeAt := by
  intro file
  have hfile : Unextended file := by decide
  refine ⟨hfile, List.map_congr_left fun place hplace => ?_⟩
  exact hfile.typeAt_extension
    (Place.mem_preorder_of_mem_children file.self_mem_preorder hplace) .codeAnalysis

end TypeReveal
