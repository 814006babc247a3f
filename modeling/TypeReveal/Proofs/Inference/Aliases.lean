import TypeReveal.Proofs.Inference.Narrowing
import TypeReveal.Proofs.Inference.Queries
import TypeReveal.Proofs.Inference.Result

/-!
# Aliases of parameters

A name that leads to a parameter with an annotation has the type of that parameter, however many
aliases are between (`Session.answer_of_leads`), in files in which nothing narrows a name.

There are two ways to this type.  The extension follows aliases up to its bound and reads the
annotation strictly; where it finds a type, it is the one that the parameter is given first
(`extendedParam_of_extendedReference`).  All other names have the type of what binds them, and for
an alias that is inferred from the next alias, the first one being closed meanwhile.  As no alias
is met twice on the way to a parameter, none of them is closed when its turn comes
(`valueWith_of_leads`).  A parameter with an annotation asks for nothing, so it does not matter
either which declarations are closed at the end (`Context.paramWith_of_hint`).

The induction is on the way from the name to the parameter.  It has to carry that the aliases still
to come are open, and closing the present one keeps this because it does not occur again: a way that
came back to an alias would go round for ever and lead to no parameter.
-/

set_option autoImplicit false
namespace TypeReveal

variable {node : Node} {mode : AnalysisMode} {extension : Bool} {unclosed : List Nat}
  {param function q place : Place} {site : Site} {e hint : Expr} {ps : List Place}

/-! ## Parameters with annotations

A parameter with an annotation is settled by it.  The extension reads the annotation first, and what
it reads for a reference it reads for the parameter too. -/

/-- Nothing that is inferred is of account to a parameter with an annotation. -/
theorem Context.paramWith_of_hint (ctx : Context) (h : param.paramAnnotation? = some hint)
    (inferred inferred' : Inferred) :
    ctx.paramWith inferred param function = ctx.paramWith inferred' param function := by
  simp only [paramWith, paramWithin, paramFromDefault_of_hint _ h]

theorem Context.paramWith_of_extendedParam {file : Place} {t : Ty}
    (h : Provider.extendedParam param function = some t) (inferred : Inferred) :
    (ofFile file mode true).paramWith inferred param function = t := by
  have hopinion : Provider.extension.parameter mode param function = some t := h
  rw [paramWith, paramWithin, ask_ofFile, if_pos rfl]
  exact congrArg (Option.getD · _) hopinion

/-- What the extension finds at the end of the way it gives to the parameter as well. -/
theorem extendedParam_of_extendedReference (hleads : site.Leads e ps q)
    (hparam : q ∈ function.params) {t : Ty} (h : Provider.extendedReference site e = some t) :
    Provider.extendedParam q function = some t := by
  obtain ⟨ps', q', hint, hleads', -, hhint, hstrict⟩ := extendedReference_eq_some_iff.1 h
  obtain ⟨rfl, rfl⟩ := hleads.unique hleads'
  obtain ⟨p, hnode⟩ := Place.exists_param_of_mem_params hparam
  rw [Place.paramAnnotation?, hnode] at hhint
  have hmeaning : p.annotation?.bind (fun e => extended q.interior e) = some t :=
    Option.bind_eq_some_iff.2 ⟨hint, hhint, extended_of_strict hstrict⟩
  simp only [Provider.extendedParam, hnode, hmeaning]
  rfl

/-! ## Aliases

An alias is a binding without annotation whose value is a name.  Its type is inferred from the name
while the alias itself is closed. -/

/-- An alias that is open has the type of its value. -/
theorem declaration_of_aliased? {file : Place} (halias : place.aliased? = some e)
    (hopen : place.index ∈ unclosed) :
    ((Context.ofFile file mode extension).declaredFrom unclosed).declaration place =
      valueWith ((Context.ofFile file mode extension).declaredFrom (unclosed.erase place.index))
        place.interior e := by
  rw [Place.aliased?] at halias
  split at halias
  · next hnode =>
    cases halias
    have hopinion : Provider.extendedBinding place = none := by
      rw [Provider.extendedBinding, hnode]
    simp only [Declared.declaration, hnode]
    refine (Context.getD_ask_ofFile fun t ht => ?_).trans ?_
    · cases hopinion.symm.trans ht
    · rw [Context.binding_inferredFrom, if_pos hopen]
      simp only [bindingFromValue, hnode]
      rfl
  · cases halias

theorem Place.isDeclaration_of_aliased? (h : place.aliased? = some e) :
    place.isDeclaration = true ∧ place.node.isFunction = false := by
  rw [aliased?] at h
  split at h
  · next hnode => exact ⟨by rw [isDeclaration, hnode], by rw [hnode]; rfl⟩
  · cases h

/-- All aliases on a way are declarations of the file. -/
theorem Site.Leads.mem_declarations (h : site.Leads e ps q) (hsite : site.IsIn (.root node)) :
    ∀ p ∈ ps, p ∈ (Place.root node).declarations := by
  intro p hp
  obtain ⟨e', tail, halias, -, -⟩ := h.exists_of_mem hp
  exact List.mem_filter.2 ⟨(h.mem_preorder hsite).2 p hp,
    (Place.isDeclaration_of_aliased? halias).1⟩

/-- The way from an alias does not come back to it. -/
theorem Site.Leads.index_ne_of_aliased? (halias : place.aliased? = some e)
    (h : place.interior.Leads e ps q) (hplace : place ∈ (Place.root node).preorder) :
    ∀ p ∈ ps, p.index ≠ place.index := by
  intro p hp heq
  have hp' := (h.mem_preorder (Site.isIn_interior hplace)).2 p hp
  exact h.not_mem_of_aliased? halias (Place.eq_of_index_eq hp' hplace heq ▸ hp)

section

variable (hconditions : ∀ place ∈ (Place.root node).preorder, ∀ e ∈ place.condition?,
    e.isCheck = false)
  (hparam : q ∈ function.params) (hhint : q.paramAnnotation? = some hint)

include hconditions hparam

/-- A name on the way to a parameter has the type of the parameter if what binds the name has it:
an opinion of the extension is that on the parameter. -/
theorem valueWith_of_bound (hleads : site.Leads e ps q) (hsite : site.IsIn (.root node))
    (inferred : Inferred) {b : Binding} (hb : site.bindingOf e = some b)
    (hbound : ((Context.ofFile (.root node) mode extension).declaredFrom unclosed).declaration
      b.place = (Context.ofFile (.root node) mode extension).paramWith inferred q function) :
    valueWith ((Context.ofFile (.root node) mode extension).declaredFrom unclosed) site e =
      (Context.ofFile (.root node) mode extension).paramWith inferred q function := by
  obtain ⟨span, name, rfl⟩ := Site.exists_name_of_bindingOf hb
  rw [valueWith, name_eq hconditions hsite, hb,
    Declared.bound_of_isIn (Site.isIn_bindingOf hsite hb), hbound, Context.ask_ofFile]
  cases extension with
  | false => rfl
  | true =>
    rw [if_pos rfl]
    cases hopinion : Provider.extendedReference site (.name span name) with
    | none => exact congrArg (Option.getD · _) hopinion
    | some t =>
      have hsame := extendedParam_of_extendedReference hleads hparam hopinion
      rw [Context.paramWith_of_extendedParam hsame]
      exact congrArg (Option.getD · t) hopinion

include hhint

/-- **A name that leads to a parameter with an annotation** has the type of the parameter, while
all aliases on the way are open. -/
theorem valueWith_of_leads (hleads : site.Leads e ps q) (hsite : site.IsIn (.root node))
    (hopen : ∀ p ∈ ps, p.index ∈ unclosed) (inferred : Inferred) :
    valueWith ((Context.ofFile (.root node) mode extension).declaredFrom unclosed) site e =
      (Context.ofFile (.root node) mode extension).paramWith inferred q function := by
  induction hleads generalizing unclosed with
  | @last site e b hb hend =>
    refine valueWith_of_bound hconditions hparam (.last hb hend) hsite inferred hb ?_
    obtain ⟨p, hnode⟩ := Place.exists_param_of_mem_params hparam
    simp only [Declared.declaration, hnode, Place.function?_of_mem_params hparam, Option.map_some,
      Option.getD_some]
    exact Context.paramWith_of_hint _ hhint _ _
  | @step site e e' b ps q hb halias hrest ih =>
    have hmem := (Site.isIn_bindingOf hsite hb).mem_preorder
    refine valueWith_of_bound hconditions hparam (.step hb halias hrest) hsite inferred hb ?_
    rw [declaration_of_aliased? halias (hopen _ List.mem_cons_self)]
    -- The alias is closed from here on, but the rest of the way does not come back to it.
    refine ih hparam hhint (Site.isIn_interior hmem) fun p hp => ?_
    have hne := hrest.index_ne_of_aliased? halias hmem p hp
    exact (List.mem_erase_of_ne hne).2 (hopen p (List.mem_cons_of_mem _ hp))

/-- **A reference that leads to a parameter with an annotation** has the type of the parameter. -/
theorem Context.exprType_of_leads {r : Place} (hr : r ∈ (Place.root node).preorder)
    (hnode : r.node = .expr e) (hleads : r.site.Leads e ps q) :
    (ofFile (.root node) mode extension).exprType r =
      (ofFile (.root node) mode extension).paramType q function := by
  have hsite := Site.isIn_site hr
  have hopen : ∀ p ∈ ps, p.index ∈ (Place.root node).declarations.map Place.index :=
    fun p hp => List.mem_map_of_mem (hleads.mem_declarations hsite p hp)
  simp only [exprType, hnode]
  exact valueWith_of_leads hconditions hparam hhint hleads hsite hopen _

end

/-! ## Sessions

A fresh session answers as its context does, so nothing is left to show but that all aliases are
open in it. -/

/-- **Aliases make no difference**, however many they are: a fresh session without providers, or
with the extension alone, gives a reference the type that it gives to the parameter with an
annotation which the reference leads to.  Beyond the number of aliases that the extension follows
the type is inferred from one alias after the other, and is the same. -/
theorem Session.answer_of_leads {s : Session} (hroot : s.file = .root node)
    (hadvisers : s.advisers = [] ∨ s.advisers = [.extension])
    (hconditions : ∀ place ∈ s.file.preorder, ∀ e ∈ place.condition?, e.isCheck = false)
    (hdefaults : ∀ place ∈ s.file.preorder, ∀ e ∈ place.default?, e.isNameFree = true)
    {r : Place} (hr : r ∈ s.file.preorder) (hnode : r.node = .expr e)
    (hleads : r.site.Leads e ps q) (hfunction : function ∈ s.file.preorder)
    (hparam : q ∈ function.params) (hhint : q.paramAnnotation? = some hint) :
    s.context.exprType r = s.context.paramType q function ∧
      ∀ depth, (s.file.declarations.length + 2) * (s.file.node.size + 2) ≤ depth →
        s.answer depth (.expr r) [] = some (some (s.context.paramType q function), []) ∧
          s.answer depth (.param q function) [] =
            some (some (s.context.paramType q function), []) := by
  obtain ⟨extension, hcontext⟩ :
      ∃ extension, s.context = Context.ofFile (.root node) s.mode extension := by
    rcases hadvisers with h | h
    · exact ⟨false, by rw [context, h, hroot]; rfl⟩
    · exact ⟨true, by rw [context, h, hroot]; rfl⟩
  have htype : s.context.exprType r = s.context.paramType q function := by
    rw [hroot] at hconditions hr
    rw [hcontext]
    exact Context.exprType_of_leads hconditions hparam hhint hr hnode hleads
  refine ⟨htype, fun depth hdepth => ⟨?_, ?_⟩⟩
  · rw [← htype]
    exact returns_answer hroot hdefaults hdepth (show (Query.expr r).IsIn s.file from hr)
  · have hquery : (Query.param q function).IsIn s.file := by
      refine ⟨?_, hfunction⟩
      rw [hroot] at hfunction ⊢
      exact Place.mem_preorder_of_mem_children hfunction (Place.mem_children_of_mem_params hparam)
    exact returns_answer hroot hdefaults hdepth hquery

/-- Forty aliases, each of the one before: more than the extension follows. -/
theorem Session.answer_of_leads_far :
    let again (i : Nat) : Stmt :=
      .binding ⟨10 * i, 10 * i + 5⟩ "x" none (some (.name ⟨10 * i + 4, 10 * i + 5⟩ "x"))
    let x : Param := ⟨⟨1, 2⟩, "x", some (.none default), none⟩
    let last := Stmt.result ⟨400, 408⟩ (some (.name ⟨407, 408⟩ "x"))
    let f := Stmt.function default "f" [] [x] none ((List.range 40).map again ++ [last])
    let session : Session := ⟨.root (.file default [f]), .codeAnalysis, [.extension]⟩
    let function := Place.child session.file 1 (.stmt f)
    let r := Place.child (.child function 84 (.stmt last)) 85 (.expr (.name ⟨407, 408⟩ "x"))
    r.site.followAliases (.name ⟨407, 408⟩ "x") = none ∧
      session.answer 5000 (.expr r) [] = some (some Ty.noneType, []) := by
  intro again x last f session function r
  have hnone : r.site.followAliases (.name ⟨407, 408⟩ "x") = none := by
    rw [← Option.isNone_iff_eq_none]
    decide +kernel
  have hfollow : (Site.follow 41 r.site (.name ⟨407, 408⟩ "x")).map Place.index = some 2 := by
    decide +kernel
  have hconditions : ∀ place ∈ session.file.preorder, ∀ e ∈ place.condition?,
      e.isCheck = false := by decide +kernel
  have hdefaults : ∀ place ∈ session.file.preorder, ∀ e ∈ place.default?,
      e.isNameFree = true := by decide +kernel
  have hdepth : (session.file.declarations.length + 2) * (session.file.node.size + 2) ≤ 5000 := by
    decide +kernel
  have hfunction : function ∈ session.file.preorder :=
    Place.mem_preorder_of_mem_children session.file.self_mem_preorder List.mem_cons_self
  have hlast : Place.child function 84 (.stmt last) ∈ function.children :=
    List.mem_of_getElem? (show function.children[41]? = _ from rfl)
  have hr : r ∈ session.file.preorder :=
    Place.mem_preorder_of_mem_children (Place.mem_preorder_of_mem_children hfunction hlast)
      List.mem_cons_self
  have hparam : Place.child function 2 (.param x) ∈ function.params := List.mem_cons_self
  -- One step more than the bound reaches the parameter, which its index identifies.
  obtain ⟨q, hfollow, hindex⟩ := Option.map_eq_some_iff.1 hfollow
  obtain ⟨ps, hleads, -⟩ := Site.follow_eq_some_iff.1 hfollow
  obtain rfl := Place.eq_of_index_eq (hleads.mem_preorder (Site.isIn_site hr)).1
    (Place.mem_preorder_of_mem_children hfunction (Place.mem_children_of_mem_params hparam)) hindex
  have hanswer := (answer_of_leads rfl (.inr rfl) hconditions hdefaults hr rfl hleads
    hfunction hparam rfl).2 5000 hdepth
  have hopinion : Provider.extendedParam (.child function 2 (.param x)) function =
      some Ty.noneType := rfl
  have htype : session.context.paramType (.child function 2 (.param x)) function =
      Ty.noneType := Context.paramWith_of_extendedParam hopinion session.context.inferred
  exact ⟨hnone, htype ▸ hanswer.1⟩

end TypeReveal
