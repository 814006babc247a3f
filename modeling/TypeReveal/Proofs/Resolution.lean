import TypeReveal.Proofs.Scope
import TypeReveal.Proofs.Statement.Extent

/-!
# What names are bound by

The rules of scopes in terms of positions in the text, apart from the lists in which bindings are
collected.

* What `Place.Binds` a name in a scope: parameters of a function and the statements of the body, the
  branches of conditionals being part of the body (`Place.Holds`).
* Which scopes a place `Place.Sees`: the functions and the file around it, and a class if there is
  no function between.
* Which binding of a scope is picked (`Place.Picks`): the one that starts last, among those that end
  before the place if there are any.

`Place.bindingOf_finds` says that a name in a file is bound by what is picked in the innermost scope
in which there is anything to pick.  The bindings of a scope are collected in the order of the text,
and they take up text, so that "the last" means the one that starts last
(`Place.pairwise_scopeBindings`).

The program goes through lists.  It collects the bindings of a scope from its parameters and the
statements of its body, takes away those around the place, looks for the last one that ends before
it, takes the last one of all if there is none, and goes on with the next scope outwards if the list
is empty.  The relations here have none of these lists in them, and each is shown to say what one of
the loops does.

Spans are what makes positions meaningful: the tree of a file is a tree over its text
(`Place.IsTreeOver`), where siblings stand apart and in order, and a binding takes up text
(`Place.IsExtended`), so that no two bindings of a scope start at the same position.
-/

set_option autoImplicit false
namespace TypeReveal

/-- The last element of a list in which `f` grows is where `f` is greatest. -/
theorem getLast?_eq_some_iff_of_pairwise {α : Type} {f : α → Nat} {l : List α} {a : α}
    (h : l.Pairwise fun x y => f x < f y) :
    l.getLast? = some a ↔ a ∈ l ∧ ∀ b ∈ l, f b ≤ f a := by
  rcases List.eq_nil_or_concat l with rfl | ⟨front, last, rfl⟩
  · simp
  · rw [List.concat_eq_append] at h ⊢
    obtain ⟨-, -, hlast⟩ := List.pairwise_append.1 h
    rw [List.getLast?_concat, Option.some_inj]
    constructor
    · rintro rfl
      refine ⟨List.mem_append_right _ List.mem_cons_self, fun b hb => ?_⟩
      rcases List.mem_append.1 hb with hb | hb
      · exact Nat.le_of_lt (hlast b hb last List.mem_cons_self)
      · exact Nat.le_of_eq (congrArg f (List.mem_singleton.1 hb))
    · rintro ⟨ha, hmax⟩
      rcases List.mem_append.1 ha with ha | ha
      · have hlt := hlast a ha last List.mem_cons_self
        have hle := hmax last (List.mem_append_right _ List.mem_cons_self)
        exact absurd hlt (Nat.not_lt.2 hle)
      · exact (List.mem_singleton.1 ha).symm

/-- Statements come last among the children of a node. -/
theorem Node.exists_children_append (node : Node) : ∃ header block,
    node.children = header ++ block ∧ (∀ child ∈ header, child.isStmt = false) ∧
      ∀ child ∈ block, child.isStmt = true := by
  have hexprs (es : List Expr) : ∀ child ∈ es.map Node.expr, child.isStmt = false :=
    List.forall_mem_map.2 fun _ _ => rfl
  have hparams (ps : List Param) : ∀ child ∈ ps.map Node.param, child.isStmt = false :=
    List.forall_mem_map.2 fun _ _ => rfl
  have hblock (body : List Stmt) : ∀ child ∈ body.map Node.stmt, child.isStmt = true :=
    List.forall_mem_map.2 fun _ _ => rfl
  have hnone (es : List Expr) : ∃ header block, es.map Node.expr = header ++ block ∧
      (∀ child ∈ header, child.isStmt = false) ∧ ∀ child ∈ block, child.isStmt = true :=
    ⟨_, [], (List.append_nil _).symm, hexprs es, List.forall_mem_nil _⟩
  cases node with
  | file span body => exact ⟨[], _, rfl, List.forall_mem_nil _, hblock body⟩
  | stmt s =>
    cases s with
    | function span name decorators params result? body =>
      have hheader := List.forall_mem_append.2 ⟨hexprs decorators, hparams params⟩
      exact ⟨_, _, rfl, List.forall_mem_append.2 ⟨hheader, hexprs _⟩, hblock body⟩
    | classDef span name bases body => exact ⟨_, _, rfl, hexprs bases, hblock body⟩
    | conditional span cond body orelse =>
      exact ⟨_, _, rfl, hexprs [cond], List.forall_mem_append.2 ⟨hblock body, hblock orelse⟩⟩
    | binding | result => exact hnone _
    | expr span value => exact hnone [value]
    | imports | pass => exact hnone []
  | param p => exact hnone _
  | expr e => exact hnone _

namespace Place

variable {root scope place : Place} {name : String} {b : Binding}

theorem exists_children_append (place : Place) : ∃ header block,
    place.children = header ++ block ∧ (∀ child ∈ header, child.node.isStmt = false) ∧
      ∀ child ∈ block, child.node.isStmt = true := by
  obtain ⟨headerNodes, blockNodes, hchildren, hheader, hblock⟩ := place.node.exists_children_append
  rw [← map_node_children] at hchildren
  obtain ⟨header, block, hsplit, rfl, rfl⟩ := List.map_eq_append_iff.1 hchildren
  exact ⟨header, block, hsplit, List.forall_mem_map.1 hheader, List.forall_mem_map.1 hblock⟩

/-! ## Bodies

A conditional is no scope, and its statements belong to the scope around it.  A statement that is
held is reached by a chain of conditionals, as the flattening does it. -/

/-- A statement belongs to the body of `scope`: it stands in it, or in a branch of a conditional
that belongs to it. -/
inductive Holds (scope : Place) : Place → Prop
  | body {stmt : Place} (h : stmt ∈ scope.stmts) : Holds scope stmt
  | branch {conditional stmt : Place} {span : Span} {cond : Expr} {body orelse : List Stmt}
    (h : Holds scope conditional)
    (hnode : conditional.node = .stmt (.conditional span cond body orelse))
    (hstmt : stmt ∈ conditional.stmts) : Holds scope stmt

/-- Whether a place is a conditional. -/
def IsConditional (place : Place) : Prop :=
  ∃ span cond body orelse, place.node = .stmt (.conditional span cond body orelse)

theorem flatten_of_isConditional (h : place.IsConditional) :
    place.flatten = place.stmts.flatMap flatten := by
  obtain ⟨span, cond, body, orelse, hnode⟩ := h
  rw [flatten_eq, hnode]

theorem flatten_of_not_isConditional (h : ¬ place.IsConditional) : place.flatten = [place] := by
  rw [flatten_eq]
  split
  · next hnode => exact absurd ⟨_, _, _, _, hnode⟩ h
  · rfl

theorem not_isConditional_of_mem_flatten {place stmt : Place} (h : stmt ∈ place.flatten) :
    ¬ stmt.IsConditional := by
  by_cases hconditional : place.IsConditional
  · rw [flatten_of_isConditional hconditional] at h
    obtain ⟨below, hbelow, h⟩ := List.mem_flatMap.1 h
    have hlt := size_lt_of_mem_children (mem_children_of_mem_stmts hbelow)
    exact not_isConditional_of_mem_flatten h
  · rw [flatten_of_not_isConditional hconditional] at h
    exact List.mem_singleton.1 h ▸ hconditional
termination_by place.node.size

theorem Holds.of_mem_flatten {place stmt : Place} (hplace : scope.Holds place)
    (h : stmt ∈ place.flatten) : scope.Holds stmt := by
  by_cases hconditional : place.IsConditional
  · rw [flatten_of_isConditional hconditional] at h
    obtain ⟨below, hbelow, h⟩ := List.mem_flatMap.1 h
    obtain ⟨_, _, _, _, hnode⟩ := hconditional
    have hlt := size_lt_of_mem_children (mem_children_of_mem_stmts hbelow)
    exact of_mem_flatten (.branch hplace hnode hbelow) h
  · rw [flatten_of_not_isConditional hconditional] at h
    exact List.mem_singleton.1 h ▸ hplace
termination_by place.node.size

theorem Holds.flatten_subset (h : scope.Holds place) : place.flatten ⊆ scope.flatStmts := by
  induction h with
  | body h => exact fun stmt hstmt => List.mem_flatMap.2 ⟨_, h, hstmt⟩
  | branch h hnode hstmt ih =>
    rw [flatten_of_isConditional ⟨_, _, _, _, hnode⟩] at ih
    exact fun stmt hmem => ih (List.mem_flatMap.2 ⟨_, hstmt, hmem⟩)

/-- **The statements of a body**, conditionals flattened. -/
theorem mem_flatStmts_iff {stmt : Place} :
    stmt ∈ scope.flatStmts ↔ scope.Holds stmt ∧ ¬ stmt.IsConditional := by
  constructor
  · intro h
    obtain ⟨below, hbelow, h⟩ := List.mem_flatMap.1 h
    exact ⟨(Holds.body hbelow).of_mem_flatten h, not_isConditional_of_mem_flatten h⟩
  · rintro ⟨hholds, hconditional⟩
    refine hholds.flatten_subset ?_
    rw [flatten_of_not_isConditional hconditional]
    exact List.mem_cons_self

/-! ## The order of bodies

Flattening keeps the order of the text, since the statements of a conditional stand inside of it and
behind everything that ends before it. -/

/-- `a` ends before `b` starts. -/
def Precedes (a b : Place) : Prop := a.span.stop ≤ b.span.start

section

variable {length : Nat} (htree : root.IsTreeOver length)

include htree

/-- The statements that a statement is flattened to stand in it, apart and in order. -/
theorem pairwise_flatten {place : Place} (hplace : place ∈ root.preorder) :
    place.flatten.Pairwise Precedes ∧ ∀ stmt ∈ place.flatten,
      place.span.start ≤ stmt.span.start ∧ stmt.span.stop ≤ place.span.stop := by
  by_cases hconditional : place.IsConditional
  · rw [flatten_of_isConditional hconditional]
    have hbelow : ∀ below ∈ place.stmts, below.flatten.Pairwise Precedes ∧
        ∀ stmt ∈ below.flatten,
          below.span.start ≤ stmt.span.start ∧ stmt.span.stop ≤ below.span.stop := by
      intro below hbelow
      have hchild := mem_children_of_mem_stmts hbelow
      have hlt := size_lt_of_mem_children hchild
      exact pairwise_flatten (mem_preorder_of_mem_children hplace hchild)
    refine ⟨List.pairwise_flatMap.2 ⟨fun below hmem => (hbelow below hmem).1, ?_⟩, ?_⟩
    · refine ((htree.apart place hplace).sublist List.filter_sublist).imp_of_mem ?_
      intro a b ha hb hab s hs t ht
      exact Nat.le_trans ((hbelow a ha).2 s hs).2 (Nat.le_trans hab ((hbelow b hb).2 t ht).1)
    · intro stmt hstmt
      obtain ⟨below, hmem, hstmt⟩ := List.mem_flatMap.1 hstmt
      obtain ⟨hstart, hstop⟩ := htree.inside place hplace below (mem_children_of_mem_stmts hmem)
      obtain ⟨hstart', hstop'⟩ := (hbelow below hmem).2 stmt hstmt
      exact ⟨Nat.le_trans hstart hstart', Nat.le_trans hstop' hstop⟩
  · rw [flatten_of_not_isConditional hconditional]
    exact ⟨List.pairwise_singleton _ _, fun stmt hstmt => by
      rw [List.mem_singleton.1 hstmt]
      exact ⟨Nat.le_refl _, Nat.le_refl _⟩⟩
termination_by place.node.size

/-- **The statements of a body** stand apart, in order. -/
theorem pairwise_flatStmts (hscope : scope ∈ root.preorder) :
    scope.flatStmts.Pairwise Precedes := by
  have hbelow : ∀ below ∈ scope.stmts, below ∈ root.preorder := fun below hbelow =>
    mem_preorder_of_mem_children hscope (mem_children_of_mem_stmts hbelow)
  refine List.pairwise_flatMap.2
    ⟨fun below hmem => (pairwise_flatten htree (hbelow below hmem)).1, ?_⟩
  refine ((htree.apart scope hscope).sublist List.filter_sublist).imp_of_mem ?_
  intro a b ha hb hab s hs t ht
  exact Nat.le_trans ((pairwise_flatten htree (hbelow a ha)).2 s hs).2
    (Nat.le_trans hab ((pairwise_flatten htree (hbelow b hb)).2 t ht).1)

/-- Parameters come before the body. -/
theorem precedes_of_mem_params {param stmt : Place} (hscope : scope ∈ root.preorder)
    (hparam : param ∈ scope.params) (hstmt : stmt ∈ scope.stmts) : param.Precedes stmt := by
  obtain ⟨header, block, hchildren, hheader, hblock⟩ := scope.exists_children_append
  obtain ⟨p, hp⟩ := exists_param_of_mem_params hparam
  have hapart := htree.apart scope hscope
  have hparamMem := mem_children_of_mem_params hparam
  obtain ⟨hstmtMem, hkind⟩ := List.mem_filter.1 hstmt
  rw [hchildren] at hapart hparamMem hstmtMem
  refine (List.pairwise_append.1 hapart).2.2 param ?_ stmt ?_
  · refine (List.mem_append.1 hparamMem).resolve_right fun hmem => ?_
    have hkind := hblock param hmem
    rw [hp] at hkind
    cases hkind
  · refine (List.mem_append.1 hstmtMem).resolve_left fun hmem => ?_
    rw [hheader stmt hmem] at hkind
    cases hkind

end

/-! ## Bindings

Of the children of a scope only parameters and statements bind.  Parameters come first in the text,
and so the list of bindings is ordered by where they start. -/

/-- What binds `name` in a scope: a parameter, or a statement of the body. -/
inductive Binds (name : String) (scope : Place) : Binding → Prop
  | param {p : Place} (h : p ∈ scope.params) (hname : p.declared? = some name) :
    Binds name scope (.declaration p)
  | declaration {stmt : Place} (h : scope.Holds stmt) (hname : stmt.declared? = some name) :
    Binds name scope (.declaration stmt)
  | imported {stmt : Place} {span : Span} {module? : Option String} {names : List String}
    (h : scope.Holds stmt) (hnode : stmt.node = .stmt (.imports span module? names))
    (hname : name ∈ names) : Binds name scope (.imported stmt)

/-- Whether a place is a scope that names are looked up in: the file, a function, or a class if it
is open to the place of the name. -/
def IsScope (classOpen : Prop) (scope : Place) : Prop :=
  match scope.node with
  | .file .. | .stmt (.function ..) => True
  | .stmt (.classDef ..) => classOpen
  | _ => False

theorem isScope_congr {p q : Prop} (h : p ↔ q) : scope.IsScope p ↔ scope.IsScope q := by
  rw [propext h]

/-- The bindings that a statement makes. -/
theorem mem_bindings_iff {stmt : Place} (hstmt : stmt.node.isStmt = true) :
    b ∈ stmt.bindings name ↔ (b = .declaration stmt ∧ stmt.declared? = some name) ∨
      (b = .imported stmt ∧ ∃ span module? names,
        stmt.node = .stmt (.imports span module? names) ∧ name ∈ names) := by
  rw [bindings, declared?]
  cases hnode : stmt.node with
  | file | param | expr =>
    rw [hnode] at hstmt
    cases hstmt
  | stmt s =>
    cases s with
    | function | classDef | binding => simp [Node.declared?, and_comm]
    | imports span module? names => simp [Node.declared?, and_comm]
    | conditional | result | expr | pass => simp [Node.declared?]

/-- A statement makes one binding of a name at most. -/
theorem bindings_eq (name : String) (stmt : Place) :
    stmt.bindings name = [] ∨ ∃ b, b.place = stmt ∧ stmt.bindings name = [b] := by
  have hone (c : Bool) (b : Binding) (hb : b.place = stmt) : (if c = true then [b] else []) = [] ∨
      ∃ b', b'.place = stmt ∧ (if c = true then [b] else []) = [b'] := by
    cases c with
    | false => exact .inl rfl
    | true => exact .inr ⟨b, hb, rfl⟩
  rw [bindings]
  split
  · exact hone _ _ rfl
  · exact hone _ _ rfl
  · exact hone _ _ rfl
  · exact hone _ _ rfl
  · exact .inl rfl

theorem place_of_mem_bindings {stmt : Place} (h : b ∈ stmt.bindings name) : b.place = stmt := by
  rcases bindings_eq name stmt with hnil | ⟨b', hb', hsingle⟩
  · rw [hnil] at h
    cases h
  · rw [hsingle] at h
    exact List.mem_singleton.1 h ▸ hb'

theorem declared?_of_isConditional (h : place.IsConditional) : place.declared? = none := by
  obtain ⟨_, _, _, _, hnode⟩ := h
  rw [declared?, hnode]
  rfl

theorem Holds.isStmt {stmt : Place} (h : scope.Holds stmt) : stmt.node.isStmt = true := by
  cases h with
  | body h => exact (List.mem_filter.1 h).2
  | branch _ _ h => exact (List.mem_filter.1 h).2

theorem Holds.mem_preorder {stmt : Place} (h : scope.Holds stmt) (hscope : scope ∈ root.preorder) :
    stmt ∈ root.preorder := by
  induction h with
  | body h => exact mem_preorder_of_mem_children hscope (mem_children_of_mem_stmts h)
  | branch _ _ h ih => exact mem_preorder_of_mem_children ih (mem_children_of_mem_stmts h)

/-- What binds a name in a scope of a tree is a place of the tree. -/
theorem Binds.mem_preorder (h : scope.Binds name b) (hscope : scope ∈ root.preorder) :
    b.place ∈ root.preorder := by
  cases h with
  | param hparam => exact mem_preorder_of_mem_children hscope (mem_children_of_mem_params hparam)
  | declaration hholds => exact hholds.mem_preorder hscope
  | imported hholds => exact hholds.mem_preorder hscope

/-- The bindings that the statements of a body make. -/
theorem mem_flatMap_bindings_iff :
    b ∈ scope.flatStmts.flatMap (·.bindings name) ↔
      (∃ stmt, scope.Holds stmt ∧ b = .declaration stmt ∧ stmt.declared? = some name) ∨
      ∃ stmt, scope.Holds stmt ∧ b = .imported stmt ∧ ∃ span module? names,
        stmt.node = .stmt (.imports span module? names) ∧ name ∈ names := by
  rw [List.mem_flatMap]
  constructor
  · rintro ⟨stmt, hstmt, hb⟩
    have hholds := (mem_flatStmts_iff.1 hstmt).1
    rcases (mem_bindings_iff hholds.isStmt).1 hb with ⟨hb, hname⟩ | ⟨hb, himport⟩
    · exact .inl ⟨stmt, hholds, hb, hname⟩
    · exact .inr ⟨stmt, hholds, hb, himport⟩
  · rintro (⟨stmt, hholds, hb, hname⟩ | ⟨stmt, hholds, hb, span, module?, names, hnode, hname⟩)
    · refine ⟨stmt, mem_flatStmts_iff.2 ⟨hholds, fun hconditional => ?_⟩,
        (mem_bindings_iff hholds.isStmt).2 (.inl ⟨hb, hname⟩)⟩
      rw [declared?_of_isConditional hconditional] at hname
      cases hname
    · refine ⟨stmt, mem_flatStmts_iff.2 ⟨hholds, fun hconditional => ?_⟩,
        (mem_bindings_iff hholds.isStmt).2 (.inr ⟨hb, span, module?, names, hnode, hname⟩)⟩
      obtain ⟨_, _, _, _, hconditional⟩ := hconditional
      rw [hnode] at hconditional
      cases hconditional

theorem params_eq_nil (h : scope.node.isFunction = false) : scope.params = [] := by
  refine List.eq_nil_iff_forall_not_mem.2 fun param hparam => ?_
  obtain ⟨p, hp⟩ := exists_param_of_mem_params hparam
  rw [isFunction_of_param_mem_children (mem_children_of_mem_params hparam) hp] at h
  cases h

/-- The bindings of a scope, in the order of the text: those of its parameters and of its body. -/
theorem scopeBindings_eq {classOpen : Bool} (h : scope.IsScope (classOpen = true)) :
    scope.scopeBindings name classOpen =
      (scope.params.filter (·.declared? == some name)).map .declaration ++
        scope.flatStmts.flatMap (·.bindings name) := by
  rw [IsScope] at h
  rw [scopeBindings]
  cases hnode : scope.node with
  | file =>
    rw [params_eq_nil (by rw [hnode]; rfl)]
    rfl
  | stmt s =>
    rw [hnode] at h
    cases s with
    | function => rfl
    | classDef =>
      rw [params_eq_nil (by rw [hnode]; rfl)]
      exact if_pos h
    | _ => cases h
  | param | expr =>
    rw [hnode] at h
    cases h

theorem scopeBindings_eq_nil {classOpen : Bool} (h : ¬ scope.IsScope (classOpen = true)) :
    scope.scopeBindings name classOpen = [] := by
  rw [IsScope] at h
  rw [scopeBindings]
  cases hnode : scope.node with
  | file =>
    rw [hnode] at h
    exact absurd trivial h
  | stmt s =>
    rw [hnode] at h
    cases s with
    | function => exact absurd trivial h
    | classDef => exact if_neg h
    | _ => rfl
  | param | expr => rfl

/-- **The bindings of a scope** are those of its parameters and of its body. -/
theorem mem_scopeBindings_iff {classOpen : Bool} :
    b ∈ scope.scopeBindings name classOpen ↔
      scope.IsScope (classOpen = true) ∧ scope.Binds name b := by
  by_cases hscope : scope.IsScope (classOpen = true)
  · rw [scopeBindings_eq hscope, List.mem_append, mem_flatMap_bindings_iff, List.mem_map]
    constructor
    · rintro (⟨param, hparam, rfl⟩ | ⟨stmt, hholds, rfl, hname⟩ |
        ⟨stmt, hholds, rfl, span, module?, names, hnode, hname⟩)
      · obtain ⟨hmem, hname⟩ := List.mem_filter.1 hparam
        exact ⟨hscope, .param hmem (beq_iff_eq.1 hname)⟩
      · exact ⟨hscope, .declaration hholds hname⟩
      · exact ⟨hscope, .imported hholds hnode hname⟩
    · rintro ⟨-, hbinds⟩
      cases hbinds with
      | @param p hmem hname =>
        exact .inl ⟨p, List.mem_filter.2 ⟨hmem, beq_iff_eq.2 hname⟩, rfl⟩
      | @declaration stmt hholds hname => exact .inr (.inl ⟨stmt, hholds, rfl, hname⟩)
      | @imported stmt span module? names hholds hnode hname =>
        exact .inr (.inr ⟨stmt, hholds, rfl, span, module?, names, hnode, hname⟩)
  · rw [scopeBindings_eq_nil hscope]
    exact ⟨fun h => absurd h List.not_mem_nil, fun h => absurd h.1 hscope⟩

/-- What binds a name takes up text. -/
theorem Binds.start_lt_stop (h : scope.Binds name b) (hext : root.IsExtended)
    (hscope : scope ∈ root.preorder) : b.place.span.start < b.place.span.stop := by
  have hmem := h.mem_preorder hscope
  cases h with
  | param hparam hname =>
    obtain ⟨q, hq⟩ := exists_param_of_mem_params hparam
    exact hext.param _ hmem q hq
  | declaration hholds hname => exact hext.stmt _ hmem hholds.isStmt
  | imported hholds hnode hname => exact hext.stmt _ hmem hholds.isStmt

/-- **The bindings of a scope** are listed in the order in which they start. -/
theorem pairwise_scopeBindings {length : Nat} {classOpen : Bool} (htree : root.IsTreeOver length)
    (hext : root.IsExtended) (hscope : scope ∈ root.preorder) :
    (scope.scopeBindings name classOpen).Pairwise
      fun a b => a.place.span.start < b.place.span.start := by
  have happart : (scope.scopeBindings name classOpen).Pairwise
      fun a b => a.place.Precedes b.place := by
    by_cases hopen : scope.IsScope (classOpen = true)
    · rw [scopeBindings_eq hopen]
      refine List.pairwise_append.2 ⟨?_, List.pairwise_flatMap.2 ⟨fun stmt _ => ?_, ?_⟩, ?_⟩
      · rw [List.pairwise_map]
        exact (htree.apart scope hscope).sublist
          (List.filter_sublist.trans List.filter_sublist)
      · rcases bindings_eq name stmt with h | ⟨b, -, h⟩
        · rw [h]
          exact .nil
        · rw [h]
          exact List.pairwise_singleton _ _
      · refine (pairwise_flatStmts htree hscope).imp fun {s t} hst a ha b hb => ?_
        rw [place_of_mem_bindings ha, place_of_mem_bindings hb]
        exact hst
      -- The parameters stand before every statement of the body.
      · intro a ha b hb
        obtain ⟨param, hparam, rfl⟩ := List.mem_map.1 ha
        obtain ⟨stmt, hstmt, hb⟩ := List.mem_flatMap.1 hb
        obtain ⟨below, hbelow, hstmt⟩ := List.mem_flatMap.1 hstmt
        have hbefore := precedes_of_mem_params htree hscope (List.mem_filter.1 hparam).1 hbelow
        have hinside := (pairwise_flatten htree (mem_preorder_of_mem_children hscope
          (mem_children_of_mem_stmts hbelow))).2 stmt hstmt
        rw [place_of_mem_bindings hb]
        exact Nat.le_trans hbefore hinside.1
    · rw [scopeBindings_eq_nil hopen]
      exact .nil
  refine happart.imp_of_mem fun ha _ hab => ?_
  exact Nat.lt_of_lt_of_le ((mem_scopeBindings_iff.1 ha).2.start_lt_stop hext hscope) hab

/-! ## The binding that is picked

A list that is ordered by positions has its last element where the position is greatest.  So the two
searches from the end of the list are two maxima. -/

/-- A binding of `name` in `scope` that counts at the place `u`: it does not enclose it. -/
def Counts (u scope : Place) (name : String) (b : Binding) : Prop :=
  scope.Binds name b ∧ b.place ≠ u ∧ b.place ∉ u.ancestors

/-- Of the bindings of `name` in `scope` that count at `u`, the one that starts last among those
that end before `u`; if none does, the one that starts last. -/
def Picks (u scope : Place) (name : String) (b : Binding) : Prop :=
  u.Counts scope name b ∧
    ((b.place.span.stop ≤ u.span.start ∧ ∀ other, u.Counts scope name other →
        other.place.span.stop ≤ u.span.start → other.place.span.start ≤ b.place.span.start) ∨
      ∀ other, u.Counts scope name other →
        u.span.start < other.place.span.stop ∧ other.place.span.start ≤ b.place.span.start)

/-- The scopes in which names at `u` are looked up: the file, the functions around `u`, and the
classes around it with no function between. -/
def Sees (u scope : Place) : Prop :=
  scope ∈ u.ancestors ∧
    scope.IsScope (∀ f ∈ u.ancestors, f.node.isFunction = true → scope ∉ f.ancestors)

section

variable {node : Node} {u : Place} {length : Nat} {classOpen : Bool}
  (htree : (Place.root node).IsTreeOver length) (hext : (Place.root node).IsExtended)
  (hu : u ∈ (Place.root node).preorder)

include hu

/-- The bindings of a scope that are left when those around the place are taken away. -/
theorem mem_usable_iff (hscope : scope ∈ (Place.root node).preorder) :
    b ∈ (scope.scopeBindings name classOpen).filter
        (fun b => !u.site.inside.any (· == b.place)) ↔
      scope.IsScope (classOpen = true) ∧ u.Counts scope name b := by
  have hinside (hb : b ∈ scope.scopeBindings name classOpen) :
      u.site.inside.any (· == b.place) = true ↔ b.place ∈ u.chain :=
    any_beq_iff (isIn_of_mem_scopeBindings hscope hb).mem_preorder fun p hp =>
      mem_preorder_of_mem_chain hu hp
  have hcounts : u.Counts scope name b ↔ scope.Binds name b ∧ b.place ∉ u.chain := by
    rw [Counts, chain, List.mem_cons, not_or]
  rw [List.mem_filter, Bool.not_eq_true', ← Bool.not_eq_true, hcounts]
  constructor
  · rintro ⟨hb, hfresh⟩
    obtain ⟨hopen, hbinds⟩ := mem_scopeBindings_iff.1 hb
    exact ⟨hopen, hbinds, fun hchain => hfresh ((hinside hb).2 hchain)⟩
  · rintro ⟨hopen, hbinds, hchain⟩
    have hb := mem_scopeBindings_iff.2 ⟨hopen, hbinds⟩
    exact ⟨hb, fun hfresh => hchain ((hinside hb).1 hfresh)⟩

/-- Nothing is picked in a scope if no binding counts. -/
theorem pick?_eq_none_iff (hscope : scope ∈ (Place.root node).preorder) :
    u.site.pick? u.span.start (scope.scopeBindings name classOpen) = none ↔
      (scope.IsScope (classOpen = true) → ∀ b, ¬ u.Counts scope name b) := by
  rw [Site.pick?, Option.orElse_eq_orElse, Option.orElse_eq_or, Option.or_eq_none_iff,
    List.getLast?_eq_none_iff, List.getLast?_eq_none_iff]
  constructor
  · rintro ⟨-, hnil⟩ hopen b hcounts
    have hmem := (mem_usable_iff hu hscope).2 ⟨hopen, hcounts⟩
    rw [hnil] at hmem
    cases hmem
  · intro hnone
    have hnil : (scope.scopeBindings name classOpen).filter
        (fun b => !u.site.inside.any (· == b.place)) = [] := by
      refine List.eq_nil_iff_forall_not_mem.2 fun b hb => ?_
      obtain ⟨hopen, hcounts⟩ := (mem_usable_iff hu hscope).1 hb
      exact hnone hopen b hcounts
    rw [hnil]
    exact ⟨rfl, rfl⟩

include htree hext

/-- **What is picked in a scope.** -/
theorem pick?_eq_some_iff (hscope : scope ∈ (Place.root node).preorder) :
    u.site.pick? u.span.start (scope.scopeBindings name classOpen) = some b ↔
      scope.IsScope (classOpen = true) ∧ u.Picks scope name b := by
  have hsorted : (scope.scopeBindings name classOpen).Pairwise
      fun a b => a.place.span.start < b.place.span.start := pairwise_scopeBindings htree hext hscope
  have hmem (b : Binding) : b ∈ (scope.scopeBindings name classOpen).filter
      (fun b => !u.site.inside.any (· == b.place)) ↔
      scope.IsScope (classOpen = true) ∧ u.Counts scope name b := mem_usable_iff hu hscope
  rw [Site.pick?]
  generalize hus : (scope.scopeBindings name classOpen).filter
    (fun b => !u.site.inside.any (· == b.place)) = usable at hmem ⊢
  -- The usable bindings stand in the order of the source, so the last of a list is the latest.
  have hsorted : usable.Pairwise fun a b => a.place.span.start < b.place.span.start :=
    hus ▸ hsorted.sublist List.filter_sublist
  rw [Option.orElse_eq_orElse, Option.orElse_eq_or, Option.or_eq_some_iff,
    getLast?_eq_some_iff_of_pairwise (hsorted.sublist List.filter_sublist),
    getLast?_eq_some_iff_of_pairwise hsorted, List.getLast?_eq_none_iff]
  simp only [List.mem_filter, decide_eq_true_eq, hmem]
  constructor
  · rintro (⟨⟨⟨hopen, hcounts⟩, hstop⟩, hlast⟩ | ⟨hnone, ⟨hopen, hcounts⟩, hlast⟩)
    · exact ⟨hopen, hcounts, .inl ⟨hstop, fun other hother hbefore =>
        hlast other ⟨⟨hopen, hother⟩, hbefore⟩⟩⟩
    · refine ⟨hopen, hcounts, .inr fun other hother => ⟨?_, hlast other ⟨hopen, hother⟩⟩⟩
      refine Nat.lt_of_not_le fun hle => ?_
      have hin : other ∈ usable.filter fun b => b.place.span.stop ≤ u.span.start :=
        List.mem_filter.2 ⟨(hmem other).2 ⟨hopen, hother⟩, decide_eq_true hle⟩
      rw [hnone] at hin
      cases hin
  · rintro ⟨hopen, hcounts, ⟨hstop, hlast⟩ | hlast⟩
    · exact .inl ⟨⟨⟨hopen, hcounts⟩, hstop⟩, fun other hother => hlast other hother.1.2 hother.2⟩
    · refine .inr ⟨?_, ⟨hopen, hcounts⟩, fun other hother => (hlast other hother.2).2⟩
      refine List.filter_eq_nil_iff.2 fun other hother => ?_
      have hlt := (hlast other ((hmem other).1 hother).2).1
      simpa using hlt

end

/-! ## The scope that counts

Scopes are looked at from the inside out.  A class counts only as long as no function has been left,
so the statement about the places above has to say whether classes are still open. -/

/-- Of the scopes at and above a place, one that is looked at after another is not below it. -/
theorem not_mem_ancestors_of_mem_chain {p q : Place} (h : q ∈ p.chain) : p ∉ q.ancestors := by
  intro hp
  rcases List.mem_cons.1 h with rfl | h
  · exact not_mem_chain_of_mem_ancestors hp List.mem_cons_self
  · exact not_mem_chain_of_mem_ancestors h (List.mem_cons_of_mem _ hp)

/-- The scopes in which names are looked up from `p` on outwards; classes are passed over if they
are not `classOpen`, or if a function has been left before. -/
def Reaches (p : Place) (classOpen : Bool) (scope : Place) : Prop :=
  scope ∈ p.chain ∧ scope.IsScope (classOpen = true ∧
    ∀ f ∈ p.chain, f.node.isFunction = true → scope ∉ f.ancestors)

theorem reaches_self_iff {p : Place} {classOpen : Bool} :
    p.Reaches classOpen p ↔ p.IsScope (classOpen = true) :=
  ⟨fun h => (isScope_congr ⟨And.left, fun hopen =>
      ⟨hopen, fun _ hf _ => not_mem_ancestors_of_mem_chain hf⟩⟩).1 h.2,
    fun h => ⟨List.mem_cons_self, (isScope_congr ⟨And.left, fun hopen =>
      ⟨hopen, fun _ hf _ => not_mem_ancestors_of_mem_chain hf⟩⟩).2 h⟩⟩

/-- Beyond a function, classes are no longer open. -/
theorem reaches_child_iff {q : Place} {i : Nat} {n : Node} {classOpen : Bool} :
    (child q i n).Reaches classOpen scope ↔
      (scope = child q i n ∧ scope.IsScope (classOpen = true)) ∨
        q.Reaches (classOpen && !n.isFunction) scope := by
  have hbeyond (hscope : scope ∈ q.chain) :
      scope.IsScope (classOpen = true ∧ ∀ f ∈ (child q i n).chain, f.node.isFunction = true →
          scope ∉ f.ancestors) ↔
        scope.IsScope ((classOpen && !n.isFunction) = true ∧ ∀ f ∈ q.chain,
          f.node.isFunction = true → scope ∉ f.ancestors) := by
    refine isScope_congr ?_
    rw [Bool.and_eq_true, Bool.not_eq_true', ← Bool.not_eq_true, and_assoc]
    refine and_congr_right fun _ => ?_
    show (∀ f ∈ child q i n :: q.chain, _) ↔ _
    rw [List.forall_mem_cons]
    exact and_congr_left fun _ =>
      ⟨fun h hfunction => h hfunction hscope, fun h hfunction => absurd hfunction h⟩
  constructor
  · rintro ⟨hmem, hscope⟩
    rcases List.mem_cons.1 hmem with rfl | hmem
    · exact .inl ⟨rfl, reaches_self_iff.1 ⟨List.mem_cons_self, hscope⟩⟩
    · exact .inr ⟨hmem, (hbeyond hmem).1 hscope⟩
  · rintro (⟨rfl, hscope⟩ | ⟨hmem, hscope⟩)
    · exact reaches_self_iff.2 hscope
    · exact ⟨List.mem_cons_of_mem _ hmem, (hbeyond hmem).2 hscope⟩

/-- The binding of `name` that `u` picks in the innermost of the scopes that has any that count. -/
def Finds (u : Place) (scopes : Place → Prop) (name : String) (b : Binding) : Prop :=
  ∃ scope, scopes scope ∧ u.Picks scope name b ∧
    ∀ inner, scopes inner → scope ∈ inner.ancestors → ∀ other, ¬ u.Counts inner name other

section

variable {node : Node} {u : Place} {length : Nat}
  (htree : (Place.root node).IsTreeOver length) (hext : (Place.root node).IsExtended)
  (hu : u ∈ (Place.root node).preorder)

include hu

/-- Nothing is found if nothing counts in any of the scopes. -/
theorem lookupIn_chain_eq_none_iff {p : Place} {classOpen : Bool}
    (hp : ∀ q ∈ p.chain, q ∈ (Place.root node).preorder) :
    u.site.lookupIn u.span.start name classOpen p.chain = none ↔
      ∀ scope, p.Reaches classOpen scope → ∀ b, ¬ u.Counts scope name b := by
  induction p generalizing classOpen with
  | root n =>
    show u.site.lookupIn u.span.start name classOpen [root n] = none ↔ _
    rw [Site.lookupIn, Site.lookupIn, Option.orElse_eq_orElse, Option.orElse_eq_or,
      Option.or_none, pick?_eq_none_iff hu (hp _ List.mem_cons_self), ← reaches_self_iff]
    refine ⟨fun h scope hscope => ?_, fun h => h _⟩
    obtain rfl := List.mem_singleton.1 hscope.1
    exact h hscope
  | child q i n ih =>
    show u.site.lookupIn u.span.start name classOpen (child q i n :: q.chain) = none ↔ _
    rw [Site.lookupIn, Option.orElse_eq_orElse, Option.orElse_eq_or, Option.or_eq_none_iff,
      pick?_eq_none_iff hu (hp _ List.mem_cons_self),
      ih fun r hr => hp r (List.mem_cons_of_mem _ hr)]
    simp only [reaches_child_iff]
    constructor
    · rintro ⟨hself, hbeyond⟩ scope (⟨rfl, hscope⟩ | hscope)
      · exact hself hscope
      · exact hbeyond scope hscope
    · exact fun h =>
        ⟨fun hscope => h _ (.inl ⟨rfl, hscope⟩), fun scope hscope => h scope (.inr hscope)⟩

include htree hext

/-- **From a place outwards**, the innermost scope counts in which anything counts.  The induction
is on the chain of places, with the flag for classes carried along; a scope in which nothing is
picked is passed over. -/
theorem lookupIn_chain_eq_some_iff {p : Place} {classOpen : Bool}
    (hp : ∀ q ∈ p.chain, q ∈ (Place.root node).preorder) :
    u.site.lookupIn u.span.start name classOpen p.chain = some b ↔
      u.Finds (p.Reaches classOpen) name b := by
  -- The chain goes outwards: a scope is asked first, and those around it only if it has nothing.
  induction p generalizing classOpen with
  | root n =>
    show u.site.lookupIn u.span.start name classOpen [root n] = some b ↔ _
    rw [Site.lookupIn, Site.lookupIn, Option.orElse_eq_orElse, Option.orElse_eq_or,
      Option.or_none, pick?_eq_some_iff htree hext hu (hp _ List.mem_cons_self),
      ← reaches_self_iff]
    constructor
    · rintro ⟨hscope, hpicks⟩
      exact ⟨_, hscope, hpicks, fun inner hinner habove =>
        absurd habove (not_mem_ancestors_of_mem_chain hinner.1)⟩
    · rintro ⟨scope, hscope, hpicks, -⟩
      obtain rfl := List.mem_singleton.1 hscope.1
      exact ⟨hscope, hpicks⟩
  | child q i n ih =>
    show u.site.lookupIn u.span.start name classOpen (child q i n :: q.chain) = some b ↔ _
    rw [Site.lookupIn, Option.orElse_eq_orElse, Option.orElse_eq_or, Option.or_eq_some_iff,
      pick?_eq_some_iff htree hext hu (hp _ List.mem_cons_self),
      pick?_eq_none_iff hu (hp _ List.mem_cons_self),
      ih fun r hr => hp r (List.mem_cons_of_mem _ hr)]
    constructor
    · rintro (⟨hscope, hpicks⟩ | ⟨hself, scope, hscope, hpicks, hinner⟩)
      · exact ⟨_, reaches_self_iff.2 hscope, hpicks, fun inner hinner habove =>
          absurd habove (not_mem_ancestors_of_mem_chain hinner.1)⟩
      · refine ⟨scope, reaches_child_iff.2 (.inr hscope), hpicks, fun inner hmem habove => ?_⟩
        rcases reaches_child_iff.1 hmem with ⟨rfl, hopen⟩ | hmem
        · exact hself hopen
        · exact hinner inner hmem habove
    · rintro ⟨scope, hscope, hpicks, hinner⟩
      rcases reaches_child_iff.1 hscope with ⟨rfl, hopen⟩ | hbeyond
      · exact .inl ⟨hopen, hpicks⟩
      · refine .inr ⟨fun hopen => ?_, scope, hbeyond, hpicks, fun inner hmem =>
          hinner inner (reaches_child_iff.2 (.inr hmem))⟩
        exact hinner _ (reaches_self_iff.2 hopen) hbeyond.1

end

section

variable {source : List Char} {node : Node} {u p : Place} {i : Nat} {n : Node} {span : Span}

/-- What a child sees is what is reached from its parent. -/
theorem sees_child : (child p i n).Sees = p.Reaches true := by
  funext scope
  refine propext (and_congr_right fun _ => isScope_congr ?_)
  exact ⟨fun h => ⟨rfl, h⟩, And.right⟩

theorem not_sees_of_root (scope : Place) : ¬ (Place.root n).Sees scope :=
  fun h => List.not_mem_nil h.1

theorem bindingOf_name_eq (hnode : u.node = .expr (.name span name)) :
    u.site.bindingOf (.name span name) = u.site.lookup u.span.start name := by
  rw [Place.span, hnode]
  rfl

/-- A name is bound by nothing if nothing counts in the scopes that it sees. -/
theorem bindingOf_eq_none_iff (hu : u ∈ (Place.root node).preorder)
    (hnode : u.node = .expr (.name span name)) :
    u.site.bindingOf (.name span name) = none ↔
      ∀ scope, u.Sees scope → ∀ b, ¬ u.Counts scope name b := by
  rw [bindingOf_name_eq hnode]
  cases u with
  | root n => exact ⟨fun _ scope h => absurd h (not_sees_of_root scope), fun _ => rfl⟩
  | child p i n =>
    rw [sees_child]
    exact lookupIn_chain_eq_none_iff hu fun q hq => mem_preorder_of_mem_ancestors hu hq

/-- A name is bound by what is found for it. -/
theorem bindingOf_eq_some_iff (hread : Node.read source = .ok node)
    (hu : u ∈ (Place.root node).preorder) (hnode : u.node = .expr (.name span name)) :
    u.site.bindingOf (.name span name) = some b ↔ u.Finds u.Sees name b := by
  rw [bindingOf_name_eq hnode]
  cases u with
  | root n =>
    -- Nothing is above the root, where nothing is found and nothing is seen.
    constructor
    · intro h
      cases h
    · rintro ⟨scope, h, -⟩
      exact absurd h (not_sees_of_root scope)
  | child p i n =>
    rw [sees_child]
    exact lookupIn_chain_eq_some_iff (Node.isTreeOver_file hread) (Node.isExtended_of_read hread) hu
      fun q hq => mem_preorder_of_mem_ancestors hu hq

end

/-- **What a name of a file is bound by**: nothing if no scope that it sees has a binding that
counts, and else what is picked in the innermost scope that has one.  The scopes further out are not
looked at then, even if what is picked comes behind the name and one of their bindings before it. -/
theorem bindingOf_finds {source : List Char} {node : Node} (hread : Node.read source = .ok node)
    {u : Place} (hu : u ∈ (Place.root node).preorder) {span : Span}
    (hnode : u.node = .expr (.name span name)) :
    (u.site.bindingOf (.name span name) = none ↔
        ∀ scope, u.Sees scope → ∀ b, ¬ u.Counts scope name b) ∧
      ∀ b, u.site.bindingOf (.name span name) = some b ↔ u.Finds u.Sees name b :=
  ⟨bindingOf_eq_none_iff hu hnode, fun _ => bindingOf_eq_some_iff hread hu hnode⟩

/-- The name in the method is bound by the first line: the body of the class is not seen from
there. -/
theorem bindingOf_finds_method :
    let x := Stmt.binding ⟨0, 4⟩ "x" (some (.name ⟨3, 4⟩ "a")) none
    let file := Node.file ⟨0, 33⟩ [x,
      .classDef ⟨5, 33⟩ "C" [] [.binding ⟨15, 19⟩ "x" (some (.name ⟨18, 19⟩ "b")) none,
        .function ⟨21, 33⟩ "f" [] [] none [.expr ⟨32, 33⟩ (.name ⟨32, 33⟩ "x")]]]
    ∃ u ∈ (Place.root file).preorder, u.node = .expr (.name ⟨32, 33⟩ "x") ∧
      u.Finds u.Sees "x" (.declaration (.child (.root file) 1 (.stmt x))) := by
  intro x file
  have hread : Node.read "x: a\nclass C:\n x: b\n def f():\n  x".toList = .ok file := by
    decide +kernel
  have hne : (Place.root file).preorder ≠ [] := by
    rw [preorder_eq]
    exact List.cons_ne_nil _ _
  have hu := List.getLast_mem hne
  refine ⟨_, hu, rfl, ((bindingOf_finds hread hu rfl).2 _).1 ?_⟩
  rfl

end Place
end TypeReveal
