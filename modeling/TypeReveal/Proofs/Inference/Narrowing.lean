import TypeReveal.Proofs.Inference.Context

/-!
# Which conditional narrows a name

A conditional **narrows** a name at a place (`Place.NarrowedBy`) if its condition checks the name,
the place is in its first branch, no function or class lies between, and the name is bound outside
of the conditional.  What the search among the places above finds is what the innermost of these
conditionals says, and nothing else (`narrowed?_eq_some_iff`): the others that narrow the name are
above it.

The extension is asked before the conditionals are searched.  It has an opinion on a name that leads
to a parameter with an annotation (`Site.TakesAnnotation`) if that is not too far away and can be
read strictly, and then the check does not count; on all other names narrowing is what it is without
the extension (`exprType_of_narrowed`).

The search is a loop with a state: it goes through the places above from the inside out, keeps the
place it came from, and stops at a function, at a class, or where a check applies.  To be below a
branch is to have come from one of the statements of the branch, and it is by this that the state of
the loop says the same as the relation.
-/

set_option autoImplicit false
namespace TypeReveal
namespace Place

variable {place parent c : Place} {name : String} {binding? : Option Binding} {ty : Ty}

/-! ## Steps up

The places above a place are its parent and the places above that, and what is said of them is said
one step at a time. -/

theorem chain_of_parent? (h : place.parent? = some parent) :
    place.chain = place :: parent.chain := by
  rw [chain, ancestors_of_parent? h]

/-- The place above one that is at or above a place is above that place. -/
theorem mem_ancestors_of_parent? {stmt : Place} (hparent : stmt.parent? = some c)
    (hstmt : stmt ∈ place.chain) : c ∈ place.ancestors := by
  induction place with
  | root =>
    rw [List.mem_singleton.1 hstmt] at hparent
    cases hparent
  | child p i n ih =>
    rcases List.mem_cons.1 hstmt with rfl | hstmt
    · cases hparent
      exact List.mem_cons_self
    · exact List.mem_cons_of_mem _ (ih hstmt)

/-! ## Conditionals -/

/-- The first branch of a conditional. -/
def thenBranch (place : Place) : List Place :=
  match place.node with
  | .stmt (.conditional _ _ body _) => place.stmts.take body.length
  | _ => []

theorem mem_stmts_of_mem_thenBranch {stmt : Place} (h : stmt ∈ c.thenBranch) : stmt ∈ c.stmts := by
  rw [thenBranch] at h
  split at h
  · exact List.mem_of_mem_take h
  · cases h

theorem parent?_of_mem_thenBranch {stmt : Place} (h : stmt ∈ c.thenBranch) :
    stmt.parent? = some c :=
  parent?_of_mem_children (mem_children_of_mem_stmts (mem_stmts_of_mem_thenBranch h))

/-- A conditional checks whether `name` is an instance of something that has the type `ty`. -/
def Checks (name : String) (c : Place) (ty : Ty) : Prop :=
  ∃ span cond callee subject info body orelse,
    c.node = .stmt (.conditional span
      (.call cond (.name callee "isinstance") [.name subject name, info]) body orelse) ∧
    admitted? c.interior info = some ty

/-- **A conditional narrows a name at a place**, where `binding?` is what binds the name. -/
structure NarrowedBy (place : Place) (name : String) (binding? : Option Binding) (c : Place)
    (ty : Ty) : Prop where
  /-- The place is in the first branch of the conditional. -/
  branch : ∃ stmt ∈ c.thenBranch, stmt ∈ place.chain
  /-- No function and no class lies between. -/
  scope : ∀ p ∈ place.ancestors, c ∈ p.ancestors →
    p.node.isFunction = false ∧ p.node.isClass = false
  /-- The name is bound outside of the conditional. -/
  fresh : ∀ b ∈ binding?, c ∉ b.place.chain
  /-- The conditional checks the name. -/
  check : c.Checks name ty

/-- The innermost of the conditionals that narrow a name at a place gives it the type `ty`. -/
def NarrowedTo (place : Place) (name : String) (binding? : Option Binding) (ty : Ty) : Prop :=
  ∃ c, place.NarrowedBy name binding? c ty ∧
    ∀ c' ty', place.NarrowedBy name binding? c' ty' → c' ∈ c.chain

/-- The conditional directly above a place narrows a name at it. -/
def CheckedBelow (place : Place) (name : String) (binding? : Option Binding) (parent : Place)
    (ty : Ty) : Prop :=
  place ∈ parent.thenBranch ∧ (∀ b ∈ binding?, parent ∉ b.place.chain) ∧ parent.Checks name ty

namespace NarrowedBy

theorem mem_ancestors (h : place.NarrowedBy name binding? c ty) : c ∈ place.ancestors := by
  obtain ⟨stmt, hstmt, hchain⟩ := h.branch
  exact mem_ancestors_of_parent? (parent?_of_mem_thenBranch hstmt) hchain

/-- **One step up.** What narrows a name at a place stands directly above it, or narrows it at the
place above. -/
theorem iff_of_parent? (hparent : place.parent? = some parent) :
    place.NarrowedBy name binding? c ty ↔
      c = parent ∧ place.CheckedBelow name binding? parent ty ∨
        parent.node.isFunction = false ∧ parent.node.isClass = false ∧
          parent.NarrowedBy name binding? c ty := by
  have habove := ancestors_of_parent? hparent
  constructor
  · intro h
    obtain ⟨stmt, hstmt, hchain⟩ := h.branch
    have hc := parent?_of_mem_thenBranch hstmt
    rw [chain_of_parent? hparent] at hchain
    rcases List.mem_cons.1 hchain with rfl | hchain
    · rw [hparent] at hc
      cases hc
      exact .inl ⟨rfl, hstmt, h.fresh, h.check⟩
    · have hkind := h.scope parent (habove ▸ List.mem_cons_self)
        (mem_ancestors_of_parent? hc hchain)
      refine .inr ⟨hkind.1, hkind.2, ⟨stmt, hstmt, hchain⟩, fun p hp => ?_, h.fresh, h.check⟩
      exact h.scope p (habove ▸ List.mem_cons_of_mem _ hp)
  · rintro (⟨rfl, hbranch, hfresh, hcheck⟩ | ⟨hfunction, hclass, h⟩)
    · refine ⟨⟨place, hbranch, List.mem_cons_self⟩, fun p hp hc => ?_, hfresh, hcheck⟩
      exact absurd (habove ▸ hp) (not_mem_chain_of_mem_ancestors hc)
    · obtain ⟨stmt, hstmt, hchain⟩ := h.branch
      refine ⟨⟨stmt, hstmt, ?_⟩, fun p hp hc => ?_, h.fresh, h.check⟩
      · rw [chain_of_parent? hparent]
        exact List.mem_cons_of_mem _ hchain
      · rw [habove] at hp
        rcases List.mem_cons.1 hp with rfl | hp
        · exact ⟨hfunction, hclass⟩
        · exact h.scope p hp hc

end NarrowedBy

theorem isFunction_eq_false_of_mem_thenBranch {stmt : Place} (h : stmt ∈ c.thenBranch) :
    c.node.isFunction = false ∧ c.node.isClass = false := by
  rw [thenBranch] at h
  split at h
  · next hnode =>
    rw [hnode]
    exact ⟨rfl, rfl⟩
  · cases h

/-- **The innermost conditional** that narrows a name stands directly above, or it is the innermost
one for the place above. -/
theorem narrowedTo_iff_of_parent? (hparent : place.parent? = some parent) :
    place.NarrowedTo name binding? ty ↔
      parent.node.isFunction = false ∧ parent.node.isClass = false ∧
        (place.CheckedBelow name binding? parent ty ∨
          (∀ ty', ¬ place.CheckedBelow name binding? parent ty') ∧
            parent.NarrowedTo name binding? ty) := by
  constructor
  · rintro ⟨c, hc, hinnermost⟩
    rcases (NarrowedBy.iff_of_parent? hparent).1 hc with ⟨rfl, hbelow⟩ | ⟨hfunction, hclass, hup⟩
    · obtain ⟨hfunction, hclass⟩ := isFunction_eq_false_of_mem_thenBranch hbelow.1
      exact ⟨hfunction, hclass, .inl hbelow⟩
    · refine ⟨hfunction, hclass, .inr ⟨fun ty' hbelow => ?_, c, hup, fun c' ty' hc' => ?_⟩⟩
      · have hnarrowed := (NarrowedBy.iff_of_parent? hparent).2 (.inl ⟨rfl, hbelow⟩)
        exact not_mem_chain_of_mem_ancestors hup.mem_ancestors (hinnermost _ _ hnarrowed)
      · exact hinnermost c' ty'
          ((NarrowedBy.iff_of_parent? hparent).2 (.inr ⟨hfunction, hclass, hc'⟩))
  · rintro ⟨hfunction, hclass, hbelow | ⟨hbelow, c, hup, hinnermost⟩⟩
    · refine ⟨parent, (NarrowedBy.iff_of_parent? hparent).2 (.inl ⟨rfl, hbelow⟩),
        fun c' ty' hc' => ?_⟩
      have habove := hc'.mem_ancestors
      rwa [ancestors_of_parent? hparent] at habove
    · refine ⟨c, (NarrowedBy.iff_of_parent? hparent).2 (.inr ⟨hfunction, hclass, hup⟩),
        fun c' ty' hc' => ?_⟩
      rcases (NarrowedBy.iff_of_parent? hparent).1 hc' with ⟨rfl, hbelow'⟩ | ⟨-, -, hup'⟩
      · exact absurd hbelow' (hbelow ty')
      · exact hinnermost c' ty' hup'

end Place

/-! ## The search

Both sides are followed upwards together.  At a conditional whose check applies the search ends, and
the relation has its innermost conditional; at any other place both go on above. -/

section Search

variable {node : Node} {place parent inner c : Place} {name : String} {binding? : Option Binding}
  {ty : Ty}

theorem checkedType?_eq_some_iff {span : Span} {cond : Expr} {body orelse : List Stmt}
    (hnode : c.node = .stmt (.conditional span cond body orelse)) :
    checkedType? c.interior name cond = some ty ↔ c.Checks name ty := by
  constructor
  · intro h
    rw [checkedType?.eq_def] at h
    split at h
    · next at₁ at₂ function at₃ subject info =>
      split at h
      · next hnames =>
        rw [Bool.and_eq_true, decide_eq_true_eq, decide_eq_true_eq] at hnames
        obtain ⟨rfl, rfl⟩ := hnames
        exact ⟨span, at₁, at₂, at₃, info, body, orelse, hnode, h⟩
      · cases h
    · cases h
  · rintro ⟨_, _, _, _, _, _, _, hnode', h⟩
    rw [hnode] at hnode'
    cases hnode'
    simp [checkedType?, h]

/-- The type that the check of a conditional gives to `name` at a place directly below it. -/
def Place.checkedBelow? (parent : Place) (name : String) (binding? : Option Binding)
    (inner : Place) : Option Ty :=
  match parent.node with
  | .stmt (.conditional _ cond body _) =>
    if (parent.stmts.take body.length).any (· == inner) &&
        !binding?.any (·.place.isInside parent) then
      checkedType? parent.interior name cond
    else none
  | _ => none

/-- The search goes up until it meets a function or a class. -/
theorem narrowedIn_cons (above : List Place) :
    narrowedIn name binding? (some inner) (parent :: above) =
      if parent.node.isFunction || parent.node.isClass then none
      else parent.checkedBelow? name binding? inner <|>
        narrowedIn name binding? (some parent) above := by
  rw [narrowedIn]
  cases hnode : parent.node with
  | stmt s =>
    cases s with
    | function | classDef => rfl
    | conditional => simp only [Place.checkedBelow?, hnode]; rfl
    | _ => simp only [Place.checkedBelow?, hnode]; rfl
  | _ => simp only [Place.checkedBelow?, hnode]; rfl

/-- What a check gives below it. -/
theorem checkedBelow?_eq_some_iff (hinner : inner ∈ (Place.root node).preorder)
    (hparent : parent ∈ (Place.root node).preorder)
    (hbinding : ∀ b ∈ binding?, b.IsIn (.root node)) :
    parent.checkedBelow? name binding? inner = some ty ↔
      inner.CheckedBelow name binding? parent ty := by
  rw [Place.checkedBelow?, Place.CheckedBelow, Place.thenBranch]
  cases hnode : parent.node with
  | stmt s =>
    cases s with
    | conditional span cond body orelse =>
      have hbranch : (parent.stmts.take body.length).any (· == inner) = true ↔
          inner ∈ parent.stmts.take body.length :=
        Place.any_beq_iff hinner fun stmt hstmt =>
          Place.mem_preorder_of_mem_children hparent
            (Place.mem_children_of_mem_stmts (List.mem_of_mem_take hstmt))
      have hfresh : binding?.any (·.place.isInside parent) = false ↔
          ∀ b ∈ binding?, parent ∉ b.place.chain := by
        cases binding? with
        | none => simp
        | some b =>
          have hinside : b.place.isInside parent = true ↔ parent ∈ b.place.chain :=
            Place.any_beq_iff hparent fun p hp =>
              Place.mem_preorder_of_mem_chain (hbinding b rfl).mem_preorder hp
          simp [← hinside]
      simp only [Option.ite_none_right_eq_some, Bool.and_eq_true, Bool.not_eq_true', hbranch,
        hfresh, and_assoc, checkedType?_eq_some_iff hnode]
    | _ => simp
  | _ => simp

/-- What the innermost conditional that narrows a name says is found.  The induction is on the
places above, with the place from which the search comes as a parameter; a place is below the branch
in which this one is. -/
theorem narrowedIn_eq_some_iff (hplace : place ∈ (Place.root node).preorder)
    (hbinding : ∀ b ∈ binding?, b.IsIn (.root node)) :
    narrowedIn name binding? (some place) place.ancestors = some ty ↔
      place.NarrowedTo name binding? ty := by
  induction place with
  | root =>
    refine ⟨fun h => (by cases h), ?_⟩
    rintro ⟨c, hc, -⟩
    cases hc.mem_ancestors
  | child parent i n ih =>
    have habove : parent ∈ (Place.child parent i n).ancestors := List.mem_cons_self
    have hparent := Place.mem_preorder_of_mem_ancestors hplace habove
    have hbelow : ∀ ty', parent.checkedBelow? name binding? (.child parent i n) = some ty' ↔
        (Place.child parent i n).CheckedBelow name binding? parent ty' :=
      fun _ => checkedBelow?_eq_some_iff hplace hparent hbinding
    rw [Place.narrowedTo_iff_of_parent? rfl, Place.ancestors, narrowedIn_cons, ← ih hparent,
      ← hbelow ty]
    simp only [← hbelow, ← Option.eq_none_iff_forall_ne_some, Option.orElse_eq_orElse,
      Option.orElse_eq_or, Option.ite_none_left_eq_some, Option.or_eq_some_iff, Bool.not_eq_true,
      Bool.or_eq_false_iff, and_assoc]

/-- No place but a statement is in a branch. -/
theorem narrowedIn_none (hplace : place ∈ (Place.root node).preorder)
    (hstmt : place.node.isStmt = false) :
    narrowedIn name binding? none place.ancestors =
      narrowedIn name binding? (some place) place.ancestors := by
  cases place with
  | root => rfl
  | child parent i n =>
    have hparent := Place.mem_preorder_of_mem_ancestors hplace List.mem_cons_self
    rw [Place.ancestors, narrowedIn, narrowedIn]
    split
    · rfl
    · rfl
    · next span cond body orelse hnode =>
      have hnot : (parent.stmts.take body.length).any (· == .child parent i n) = false := by
        rw [Bool.eq_false_iff]
        intro h
        rw [Place.any_beq_iff hplace fun stmt h => Place.mem_preorder_of_mem_children hparent
          (Place.mem_children_of_mem_stmts (List.mem_of_mem_take h))] at h
        have hisStmt := (List.mem_filter.1 (List.mem_of_mem_take h)).2
        rw [hstmt] at hisStmt
        cases hisStmt
      simp [hnot]
    · rfl

/-- **What narrows a name** is the innermost of the conditionals that narrow it. -/
theorem narrowed?_eq_some_iff {at' : Span} (hplace : place ∈ (Place.root node).preorder)
    (hnode : place.node = .expr (.name at' name)) :
    narrowed? place.site (.name at' name) = some ty ↔
      place.NarrowedTo name (place.site.bindingOf (.name at' name)) ty := by
  have hbinding : ∀ b ∈ place.site.bindingOf (.name at' name), b.IsIn (.root node) :=
    fun b hb => Site.isIn_bindingOf (Site.isIn_site hplace) hb
  rw [← narrowedIn_eq_some_iff hplace hbinding,
    ← narrowedIn_none hplace (by rw [hnode]; rfl), narrowed?, Site.bindingOf]
  rfl

end Search

/-! ## Names with the extension

An opinion of the extension comes before everything else.  Which names it has an opinion on can be
said without the search: those that lead, through aliases, to a parameter with an annotation. -/

/-- A name leads to a parameter that is not too far away and has an annotation that is read strictly
as `ty`. -/
def Site.TakesAnnotation (site : Site) (e : Expr) (ty : Ty) : Prop :=
  ∃ ps q hint, site.Leads e ps q ∧ ps.length < aliasSteps ∧
    q.paramAnnotation? = some hint ∧ extended q.interior hint true = some ty

theorem extendedReference_eq_some_iff {site : Site} {e : Expr} {ty : Ty} :
    Provider.extendedReference site e = some ty ↔ site.TakesAnnotation e ty := by
  constructor
  · intro h
    obtain ⟨q, hfollow, h⟩ := Option.bind_eq_some_iff.1 h
    obtain ⟨hint, hhint, hstrict⟩ := Option.bind_eq_some_iff.1 h
    obtain ⟨ps, hleads, hlt⟩ := Site.follow_eq_some_iff.1 hfollow
    exact ⟨ps, q, hint, hleads, hlt, hhint, hstrict⟩
  · rintro ⟨ps, q, hint, hleads, hlt, hhint, hstrict⟩
    refine Option.bind_eq_some_iff.2 ⟨q, Site.follow_eq_some_iff.2 ⟨ps, hleads, hlt⟩, ?_⟩
    exact Option.bind_eq_some_iff.2 ⟨hint, hhint, hstrict⟩

/-- The type of a name that is narrowed, unless the extension has an opinion. -/
theorem exprType_eq_of_narrowed {file place : Place} {at' : Span} {name : String} {ty : Ty}
    (hnode : place.node = .expr (.name at' name))
    (h : narrowed? place.site (.name at' name) = some ty) (mode : AnalysisMode)
    (extension : Bool) :
    (Context.ofFile file mode extension).exprType place =
      (if extension then Provider.extendedReference place.site (.name at' name)
        else none).getD ty := by
  have hnarrowed : ∀ d : Declared, d.name place.site (.name at' name) name =
      (d.reference place.site (.name at' name)).getD ty := by
    intro d
    rw [Declared.name, h]
    cases d.reference place.site (.name at' name) <;> rfl
  simp only [Context.exprType, hnode]
  rw [Context.valueType, valueWith, hnarrowed]
  exact congrArg (Option.getD · ty) (Context.ask_ofFile _)

/-- **Narrowing with the extension.** A name that a check narrows has the type that the innermost
check gives it, and with the extension as well unless it takes the annotation of a parameter; then
it has the type of that annotation, which the check has no part in. -/
theorem Context.exprType_of_narrowed {node : Node} {place : Place} {at' : Span} {name : String}
    {ty : Ty} (hplace : place ∈ (Place.root node).preorder)
    (hnode : place.node = .expr (.name at' name))
    (h : narrowed? place.site (.name at' name) = some ty) (mode : AnalysisMode) :
    place.NarrowedTo name (place.site.bindingOf (.name at' name)) ty ∧
      (Context.ofFile (.root node) mode false).exprType place = ty ∧
      (∀ t, place.site.TakesAnnotation (.name at' name) t →
        (Context.ofFile (.root node) mode true).exprType place = t) ∧
      ((∀ t, ¬ place.site.TakesAnnotation (.name at' name) t) →
        (Context.ofFile (.root node) mode true).exprType place = ty) := by
  refine ⟨(narrowed?_eq_some_iff hplace hnode).1 h, exprType_eq_of_narrowed hnode h mode false,
    fun t ht => ?_, fun hnot => ?_⟩
  · rw [exprType_eq_of_narrowed hnode h, if_pos rfl, extendedReference_eq_some_iff.2 ht]
    rfl
  · have hnone : Provider.extendedReference place.site (.name at' name) = none := by
      rw [Option.eq_none_iff_forall_ne_some]
      exact fun t ht => hnot t (extendedReference_eq_some_iff.1 ht)
    rw [exprType_eq_of_narrowed hnode h, if_pos rfl, hnone]
    rfl

/-- A parameter with an annotation that is not read strictly: the check counts with the extension
and without it. -/
theorem Context.exprType_of_narrowed_object :
    let file := Place.root (.file default
      [.function default "f" [] [⟨default, "x", some (.name default "object"), none⟩] none
        [.conditional default
          (.call default (.name default "isinstance") [.name default "x", .name default "int"])
          [.binding default "y" none (some (.name default "x"))] []]])
    let place := file.preorder.getLast (by decide)
    narrowed? place.site (.name default "x") = some (Ty.ofClass "int") ∧
      (Context.ofFile file .userInitiated true).exprType place = Ty.ofClass "int" := by
  intro file place
  have hplace : place ∈ file.preorder := List.getLast_mem _
  have hnode : place.node = .expr (.name default "x") := by
    subst place file
    rfl
  have hnarrowed : narrowed? place.site (.name default "x") = some (Ty.ofClass "int") := by
    subst place file
    rfl
  refine ⟨hnarrowed, (exprType_of_narrowed hplace hnode hnarrowed .userInitiated).2.2.2 ?_⟩
  intro t ht
  have hnone : Provider.extendedReference place.site (.name default "x") = none := by
    subst place file
    rfl
  rw [extendedReference_eq_some_iff.2 ht] at hnone
  cases hnone

/-- A parameter with an annotation that is read strictly, which hides the check from the
extension. -/
theorem Context.exprType_of_narrowed_optional :
    let file := Place.root (.file default
      [.function default "f" []
        [⟨default, "x", some (.binary default .bar (.name default "int") (.none default)), none⟩]
        none
        [.conditional default
          (.call default (.name default "isinstance") [.name default "x", .name default "int"])
          [.binding default "y" none (some (.name default "x"))] []]])
    let place := file.preorder.getLast (by decide)
    place ∈ file.preorder ∧ place.node = .expr (.name default "x") ∧
      narrowed? place.site (.name default "x") = some (Ty.ofClass "int") ∧
      (Context.ofFile file .codeAnalysis false).exprType place = Ty.ofClass "int" ∧
      (Context.ofFile file .codeAnalysis true).exprType place ≠ Ty.ofClass "int" := by
  intro file place
  have hnode : place.node = .expr (.name default "x") := by
    subst place file
    rfl
  have hnarrowed : narrowed? place.site (.name default "x") = some (Ty.ofClass "int") := by
    subst place file
    rfl
  have hopinion : Provider.extendedReference place.site (.name default "x") =
      some (.union [Ty.ofClass "int", Ty.noneType]) := by
    subst place file
    rfl
  refine ⟨List.getLast_mem _, hnode, hnarrowed, exprType_eq_of_narrowed hnode hnarrowed _ false, ?_⟩
  rw [exprType_eq_of_narrowed hnode hnarrowed, hopinion, Ty.ofClass]
  exact Ty.noConfusion

end TypeReveal
