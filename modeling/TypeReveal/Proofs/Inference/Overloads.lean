import Mathlib.Data.List.Pairwise
import TypeReveal.Proofs.Inference.Unextended
import TypeReveal.Proofs.Inference.WellFormed
import TypeReveal.Proofs.Ty.Alternatives

/-!
# What overloads say

The overloads of a function at position `i` of a block are the functions of its name at positions up
to `i`, the nearest first (`Place.overloads_eq`).  Where the extension cannot read the annotation of
a parameter, or there is none, the type of the parameter is the union of what can be read of the
overloads, and it is inferred if nothing can (`Context.types_of_overloads`); results go the same
way.

An annotation that can be read denotes a well-formed type, and a union of these has a member.  So
what is inferred counts only if no overload says anything (`Ty.unionOf_eq_none_iff_of_proper`).

Three kinds of reading are told apart: what the annotation of a parameter itself is read as, what
that of the first parameter with a given name in another function is, and what that of a result is.
Each may have no answer.  The union of the answers that there are is one over a list of functions in
which those without an answer are left out (`overloadedParam_eq`, `overloadedResult_eq`).

Overloads are found in the block in which the function stands, and not in its scope: a function in a
branch of a conditional has no overloads outside of the branch.
-/

set_option autoImplicit false
namespace TypeReveal

/-! ## Overloads by position

Statements are identified by their place in the tree, so the position of a function in its block is
unique, and what comes before it in the block is what the search for overloads goes through. -/

namespace Place

variable {node : Node} {parent function : Place} {block block' : List Place} {i : Nat}
  {name : String}

/-- The blocks of a place share no statement, nor does one of them have a statement twice. -/
theorem nodup_flatten_blocks (parent : Place) : parent.blocks.flatten.Nodup := by
  have hstmts : parent.stmts.Nodup :=
    (parent.nodup_index_children.sublist (List.filter_sublist.map index)).of_map
  rw [blocks.eq_def]
  split
  · rwa [List.flatten_singleton]
  · rwa [List.flatten_singleton]
  · rwa [List.flatten_singleton]
  · rwa [List.flatten_cons, List.flatten_singleton, List.take_append_drop]
  · exact List.nodup_nil

theorem nodup_of_mem_blocks (hblock : block ∈ parent.blocks) : block.Nodup :=
  (List.nodup_flatten.1 parent.nodup_flatten_blocks).1 block hblock

/-- A statement stands in one block. -/
theorem block_unique (hblock : block ∈ parent.blocks) (hblock' : block' ∈ parent.blocks)
    (hmem : function ∈ block) (hmem' : function ∈ block') : block = block' := by
  by_contra hne
  have hdisjoint := (List.nodup_flatten.1 parent.nodup_flatten_blocks).2
  have hsymm : Std.Symm (@List.Disjoint Place) := ⟨fun _ _ h => h.symm⟩
  exact hdisjoint.forall hblock hblock' hne hmem hmem'

theorem eq_of_beq_of_mem_blocks {stmt stmt' : Place} (hblock : block ∈ parent.blocks)
    (hblock' : block' ∈ parent.blocks) (hstmt : stmt ∈ block) (hstmt' : stmt' ∈ block')
    (h : (stmt == stmt') = true) : stmt = stmt' :=
  eq_of_beq
    (mem_preorder_of_mem_children parent.self_mem_preorder
      (mem_children_of_mem_blocks hblock hstmt))
    (mem_preorder_of_mem_children parent.self_mem_preorder
      (mem_children_of_mem_blocks hblock' hstmt')) h

/-- The block of a statement is the one that it stands in. -/
theorem siblings?_of_mem_blocks (hblock : block ∈ parent.blocks) (hmem : function ∈ block) :
    function.siblings? = some block := by
  have hparent := parent?_of_mem_children (mem_children_of_mem_blocks hblock hmem)
  rw [siblings?, hparent]
  show parent.blocks.find? (fun block => block.any (· == function)) = some block
  cases hfound : parent.blocks.find? (fun block => block.any (· == function)) with
  | none =>
    have hany : block.any (· == function) = true :=
      List.any_eq_true.2 ⟨function, hmem, function.beq_self⟩
    exact absurd hany (List.find?_eq_none.1 hfound block hblock)
  | some other =>
    have hother := List.mem_of_find?_eq_some hfound
    obtain ⟨stmt, hstmt, heq⟩ := List.any_eq_true.1
      (List.find?_some (p := fun block : List Place => block.any (· == function)) hfound)
    obtain rfl := eq_of_beq_of_mem_blocks hother hblock hstmt hmem heq
    rw [block_unique hother hblock hstmt hmem]

/-- What comes before a statement of a block are the statements at the positions before. -/
theorem takeWhile_bne_eq_take (hblock : block ∈ parent.blocks) (hlt : i < block.length) :
    block.takeWhile (· != block[i]) = block.take i := by
  have hbefore : ∀ stmt ∈ block.take i, (stmt != block[i]) = true := by
    intro stmt hstmt
    -- The walk ends no earlier than at position `i`, as no place stands in a block twice.
    have hne : stmt ≠ block[i] := by
      rintro rfl
      have hdisjoint := List.disjoint_take_drop (nodup_of_mem_blocks hblock) (Nat.le_refl i)
      refine hdisjoint hstmt ?_
      rw [List.drop_eq_getElem_cons hlt]
      exact List.mem_cons_self
    rw [bne, Bool.not_eq_true', Bool.eq_false_iff]
    exact fun heq => hne (eq_of_beq_of_mem_blocks hblock hblock (List.mem_of_mem_take hstmt)
      (List.getElem_mem hlt) heq)
  conv_lhs => arg 2; rw [← List.take_append_drop i block, List.drop_eq_getElem_cons hlt]
  rw [List.takeWhile_append_of_pos hbefore, List.takeWhile_cons_of_neg, List.append_nil]
  rw [bne, beq_self]
  exact Bool.false_ne_true

theorem isFunction_of_functionName? (h : function.functionName? = some name) :
    function.node.isFunction = true := by
  rw [functionName?] at h
  split at h
  · next hnode =>
    rw [hnode]
    rfl
  · cases h

/-- **The overloads of a function** are the functions of its name in its block, up to itself, the
nearest first. -/
theorem overloads_eq (hblock : block ∈ parent.blocks) (hi : block[i]? = some function)
    (hname : function.functionName? = some name) :
    function.overloads = (block.take (i + 1)).reverse.filter (·.functionName? == some name) := by
  obtain ⟨hlt, rfl⟩ := List.getElem?_eq_some_iff.1 hi
  have hbefore := takeWhile_bne_eq_take hblock hlt
  simp only [overloads, hname, siblings?_of_mem_blocks hblock (List.getElem_mem hlt), hbefore]
  rw [List.take_succ_eq_append_getElem hlt, List.reverse_append, List.reverse_singleton,
    List.singleton_append, List.filter_cons_of_pos (by rw [hname, beq_self_eq_true])]

/-! ## What is read of annotations

A union of readings is missing only if there is no reading: each reading is a well-formed type, so
it has a member that the union has as well. -/

/-- What the extension reads of the annotation of a parameter. -/
def paramMeaning? (param : Place) : Option Ty :=
  param.paramAnnotation?.bind fun e => extended param.interior e

/-- What the extension reads of the annotation of a function's first parameter of a name. -/
def slotMeaning? (name : String) (function : Place) : Option Ty :=
  (function.params.find? (·.declared? == some name)).bind paramMeaning?

/-- What the extension reads of the annotation of a function's result. -/
def resultMeaning? (function : Place) : Option Ty :=
  function.resultAnnotation?.bind fun e => extended function.interior e

theorem wellFormed_paramMeaning? (param : Place) : ∀ ty ∈ param.paramMeaning?, ty.WellFormed := by
  intro ty hty
  obtain ⟨e, -, hty⟩ := Option.bind_eq_some_iff.1 hty
  exact wellFormed_extended _ _ _ ty hty

theorem wellFormed_slotMeaning? (name : String) (function : Place) :
    ∀ ty ∈ slotMeaning? name function, ty.WellFormed := by
  intro ty hty
  obtain ⟨param, -, hty⟩ := Option.bind_eq_some_iff.1 hty
  exact wellFormed_paramMeaning? param ty hty

theorem wellFormed_resultMeaning? (function : Place) :
    ∀ ty ∈ function.resultMeaning?, ty.WellFormed :=
  Provider.wellFormed_annotatedResult? function false

end Place

open Place

theorem overloadedParam_eq (overloads : List Place) (name : String) :
    overloadedParam overloads name = Ty.unionOf (overloads.filterMap (slotMeaning? name)) := by
  rw [overloadedParam]
  refine congrArg Ty.unionOf (congrArg (List.filterMap · overloads) (funext fun function => ?_))
  rw [slotMeaning?, overloadAnnotation?]
  cases function.params.find? (·.declared? == some name) with
  | none => rfl
  | some param =>
    show (param.paramAnnotation?.bind _).bind _ = param.paramMeaning?
    rw [paramMeaning?]
    cases param.paramAnnotation? <;> rfl

theorem overloadedResult_eq (overloads : List Place) :
    overloadedResult overloads = Ty.unionOf (overloads.filterMap resultMeaning?) := rfl

/-- If there is something to read, it has a union. -/
theorem unionOf_filterMap_eq_none_iff {read : Place → Option Ty} (overloads : List Place)
    (h : ∀ function, ∀ ty ∈ read function, ty.WellFormed) :
    Ty.unionOf (overloads.filterMap read) = none ↔ overloads.filterMap read = [] := by
  refine Ty.unionOf_eq_none_iff_of_proper fun ty hty => ?_
  obtain ⟨function, -, hty⟩ := List.mem_filterMap.1 hty
  exact (h function ty hty).proper

/-! ## Types from overloads

The rule for parameters and the rule for results are the same rule.  What differs is where a context
takes the inferred type from. -/

namespace Context

/-- The type that is inferred for a parameter. -/
def inferParam (ctx : Context) (param function : Place) : Ty :=
  paramFromDefault (ctx.declared ctx.inferred) param function

/-- The type that is inferred for a result. -/
def inferResult (ctx : Context) (function : Place) : Ty := inferResultWith ctx.inferred function

variable {node : Node} {mode : AnalysisMode} {param function : Place} {slot : String}

/-- A parameter of which no annotation can be read has the type that its overloads give it, or else
what is inferred for it. -/
theorem paramType_of_overloads (hfunction : function ∈ (Place.root node).preorder)
    (hdefaults : ∀ place ∈ (Place.root node).preorder, ∀ e ∈ place.default?, e.isNameFree = true)
    (hparam : param ∈ function.params) (hslot : param.declared? = some slot)
    (hnone : param.paramMeaning? = none) :
    (ofFile (.root node) mode true).paramType param function =
      (overloadedParam function.overloads slot).getD
        ((ofFile (.root node) mode true).inferParam param function) := by
  obtain ⟨p, hnode⟩ := exists_param_of_mem_params hparam
  have hmem := mem_preorder_of_mem_children hfunction (mem_children_of_mem_params hparam)
  have hopinion : Provider.extendedParam param function =
      overloadedParam function.overloads slot := by
    rw [paramMeaning?, paramAnnotation?, hnode] at hnone
    rw [declared?, hnode] at hslot
    simp only [Provider.extendedParam, hnode, hnone, Option.some.inj hslot]
    rfl
  rw [paramType, paramWith, paramWithin, ask_ofFile, if_pos rfl, inferParam,
    paramFromDefault_of_isNameFree (hdefaults param hmem) _
      ((ofFile (.root node) mode true).declared (ofFile (.root node) mode true).inferred)]
  exact congrArg (Option.getD · _) hopinion

/-- A result of which no annotation can be read has the type that the overloads give it, or else
what is inferred for it. -/
theorem resultType_of_overloads {file : Place} (hfunction : function.node.isFunction = true)
    (hnone : function.resultMeaning? = none) :
    (ofFile file mode true).resultType function =
      (overloadedResult function.overloads).getD
        ((ofFile file mode true).inferResult function) := by
  have hopinion : Provider.extendedResult function = overloadedResult function.overloads := by
    have hannotated : Provider.annotatedResult? function false = none := hnone
    rw [Node.isFunction.eq_def] at hfunction
    split at hfunction
    · next hnode =>
      simp only [Provider.extendedResult, hnode, hannotated]
      rfl
    · cases hfunction
  rw [resultType, resultWith, ask_ofFile, if_pos rfl]
  exact congrArg (Option.getD · _) hopinion

/-- **Overloads give types to what has no annotation of its own.**  Let `overloads` be the
functions of the name of the one at position `i` of a block up to that one, the nearest first.  A
parameter whose own annotation is missing or cannot be read has the union of what is read of the
overloads' first parameters of its name, or what is inferred for it if nothing is; so has the
result, of the annotations of their results.  The order of the overloads makes no difference to
`==`. -/
theorem types_of_overloads {parent : Place} {block : List Place} {i : Nat} {name : String}
    (hparent : parent ∈ (Place.root node).preorder) (hblock : block ∈ parent.blocks)
    (hi : block[i]? = some function) (hname : function.functionName? = some name)
    (hdefaults : ∀ place ∈ (Place.root node).preorder, ∀ e ∈ place.default?, e.isNameFree = true)
    (mode : AnalysisMode) :
    let ctx := ofFile (.root node) mode true
    let overloads := (block.take (i + 1)).reverse.filter (·.functionName? == some name)
    (∀ param ∈ function.params, ∀ slot, param.declared? = some slot →
      param.paramAnnotation?.bind (fun e => extended param.interior e) = none →
      let tys := overloads.filterMap fun g =>
        (g.params.find? (·.declared? == some slot)).bind fun q =>
          q.paramAnnotation?.bind fun e => extended q.interior e
      ctx.paramType param function = (Ty.unionOf tys).getD (ctx.inferParam param function) ∧
        (Ty.unionOf tys = none ↔ tys = [])) ∧
    (function.resultAnnotation?.bind (fun e => extended function.interior e) = none →
      let tys := overloads.filterMap fun g =>
        g.resultAnnotation?.bind fun e => extended g.interior e
      ctx.resultType function = (Ty.unionOf tys).getD (ctx.inferResult function) ∧
        (Ty.unionOf tys = none ↔ tys = [])) ∧
    ∀ others, others.Perm overloads →
      (∀ slot, (overloadedParam others slot == overloadedParam overloads slot) = true) ∧
        (overloadedResult others == overloadedResult overloads) = true := by
  intro ctx overloads
  have hmem : function ∈ block := List.mem_of_getElem? hi
  have hfunction := mem_preorder_of_mem_children hparent (mem_children_of_mem_blocks hblock hmem)
  have hoverloads : function.overloads = overloads := overloads_eq hblock hi hname
  refine ⟨fun param hparam slot hslot hnone => ⟨?_, ?_⟩, fun hnone => ⟨?_, ?_⟩,
    fun others hperm => ⟨fun slot => ?_, ?_⟩⟩
  · have htype : ctx.paramType param function = _ :=
      paramType_of_overloads hfunction hdefaults hparam hslot hnone
    rwa [hoverloads, overloadedParam_eq] at htype
  · exact unionOf_filterMap_eq_none_iff overloads (wellFormed_slotMeaning? slot)
  · have htype : ctx.resultType function = _ :=
      resultType_of_overloads (isFunction_of_functionName? hname) hnone
    rwa [hoverloads, overloadedResult_eq] at htype
  · exact unionOf_filterMap_eq_none_iff overloads wellFormed_resultMeaning?
  · rw [overloadedParam_eq, overloadedParam_eq]
    exact Ty.unionOf_beq_of_perm (hperm.filterMap _)
  · exact Ty.unionOf_beq_of_perm (hperm.filterMap _)

/-- Two overloads before, one of them with the parameter in second place, and another function
between.  The function's own annotation is a number that is no literal type. -/
theorem types_of_overloads_interleaved :
    let slot (name hint : String) : Param := ⟨default, name, some (.name default hint), none⟩
    let f (params : List Param) (result? : Option Expr) : Stmt :=
      .function default "f" [] params result? [.pass default]
    let x : Param := ⟨default, "x", some (.float default "1.5"), none⟩
    let file := Place.root (.file default [
      f [slot "x" "str"] (some (.name default "str")), .pass default,
      .function default "g" [] [slot "x" "bool"] none [.pass default],
      f [⟨default, "y", none, none⟩, slot "x" "int"] none, f [x] none])
    let function := Place.child file 16 (.stmt (f [x] none))
    let ctx := ofFile file .codeAnalysis true
    ctx.paramType (.child function 17 (.param x)) function =
        .union [Ty.ofClass "int", Ty.ofClass "str"] ∧
      ctx.resultType function = Ty.ofClass "str" := by
  intro slot f x file function ctx
  have hblock : file.stmts ∈ file.blocks := List.mem_cons_self
  have hdefaults : ∀ place ∈ file.preorder, ∀ e ∈ place.default?, e.isNameFree = true := by
    decide
  have hposition : file.stmts[4]? = some function := rfl
  have htypes := types_of_overloads file.self_mem_preorder hblock hposition rfl hdefaults
    .codeAnalysis
  refine ⟨(htypes.1 _ List.mem_cons_self "x" rfl ?_).1.trans ?_, (htypes.2.1 rfl).1.trans ?_⟩
  · rfl
  · rfl
  · rfl

end Context
end TypeReveal
