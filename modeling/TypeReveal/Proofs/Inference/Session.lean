import TypeReveal.Inference.Session
import TypeReveal.Proofs.Inference.Unextended
import TypeReveal.Proofs.Inference.WellFormed

/-!
# What sessions answer

A session answers as its context does, and leaves the busy declarations as they were
(`Session.answers_eval`), if no default of a parameter contains a name.  The demands that a
demand leads to are nested no deeper than `Demand.depth`: each of them is about a smaller
expression, or is followed by one with a declaration more that is busy.

Actions are put together by `Returns`: an action that leaves the busy declarations as they are and
yields a value.

A session changes as it answers: it notes which declarations it is in the middle of, and answers a
question about one of these as unknown.  A context has no such notes.  It is told which declarations
are still open, and defines the type of a declaration by that of others with this one closed.  The
correspondence is that the busy declarations are just those that are not open (`Unclosed`), and it
is kept through every action because an action returns with the same declarations busy as before.

Whether the recursion ends is not asked here by itself.  The step of a session is a function of the
answers to smaller demands, and what is proved is that it answers rightly if they are answered
rightly.  That there is a level at which every demand is answered is a matter of counting: going
from a declaration into its value closes one declaration, and going from an expression to a part of
it makes the expression smaller.  `Demand.depth` puts the two together, with room for all
expressions of a file at each declaration.
-/

set_option autoImplicit false
namespace TypeReveal

/-! ## Actions that leave everything as it was

`Returns` is the triple of an action in this monad: started with some busy declarations it ends with
the same ones and yields the value.  There is one rule for each way in which actions are built. -/

/-- An action that yields `a` and leaves the busy declarations as they are. -/
def Returns {α : Type} (run : Run α) (busy : List Nat) (a : α) : Prop := run busy = some (a, busy)

namespace Returns

variable {α β : Type} {run : Run α} {busy : List Nat} {a : α} {b : β}

theorem pure (a : α) : Returns (Pure.pure a) busy a := rfl

/-- One action after another. -/
theorem bind {f : α → Run β} (h : Returns run busy a) (h' : Returns (f a) busy b) :
    Returns (run >>= f) busy b := by
  show (run busy).bind (fun x => f x.1 x.2) = _
  rw [h]
  exact h'

theorem bind_pure {f : α → β} (h : Returns run busy a) :
    Returns (do return f (← run)) busy (f a) :=
  h.bind (pure (f a))

/-- An opinion counts, or else what is yielded without it. -/
theorem getDM (h : Returns run busy a) (opinion : Option α) :
    Returns (opinion.getDM run) busy (opinion.getD a) := by
  cases opinion with
  | none => exact h
  | some b => exact pure b

/-- An action for each element of a list. -/
theorem mapM {f : α → Run β} {g : α → β} {as : List α} (h : ∀ a ∈ as, Returns (f a) busy (g a)) :
    Returns (as.mapM f) busy (as.map g) := by
  induction as with
  | nil => exact pure []
  | cons a as ih =>
    rw [List.mapM_cons]
    exact (h a List.mem_cons_self).bind
      ((ih fun b hb => h b (List.mem_cons_of_mem _ hb)).bind (pure _))

/-- A declaration that is busy has the unknown type. -/
theorem guarded_busy {place : Place} {run : Run Ty} (h : place.index ∈ busy) :
    Returns (Session.guarded place run) busy .unknown := by
  have hget : Returns get busy busy := rfl
  refine hget.bind ?_
  rw [if_pos h]
  exact pure _

/-- A declaration that is not busy is so while it is answered, and not any more afterwards. -/
theorem guarded {place : Place} {run : Run Ty} {ty : Ty} (h : place.index ∉ busy)
    (hrun : Returns run (place.index :: busy) ty) :
    Returns (Session.guarded place run) busy ty := by
  have hget : Returns get busy busy := rfl
  refine hget.bind ?_
  rw [if_neg h]
  show ((run (place.index :: busy)).bind fun x => _) = _
  rw [hrun]
  show some (ty, (place.index :: busy).erase place.index) = _
  rw [List.erase_cons_head]

end Returns

/-! ## Parts of expressions

The value of an expression is computed from the values of its children, and names are the leaves at
which the recursion goes to a declaration. -/

namespace Expr

/-- There is no name in a list of expressions if there is none in any of them. -/
theorem areNameFree_iff {es : List Expr} :
    areNameFree es = true ↔ ∀ e ∈ es, e.isNameFree = true := by
  induction es with
  | nil => simp [areNameFree]
  | cons e es ih => rw [areNameFree, Bool.and_eq_true, ih, List.forall_mem_cons]

theorem isNameFree_of_mem_children {e c : Expr} (h : e.isNameFree = true) (hc : c ∈ e.children) :
    c.isNameFree = true := by
  cases e with
  | tuple _ elems | list _ elems => exact areNameFree_iff.1 h c hc
  | call _ callee args =>
    rw [isNameFree, Bool.and_eq_true] at h
    rcases List.mem_cons.1 hc with rfl | hc
    · exact h.1
    · exact areNameFree_iff.1 h.2 c hc
  | binary _ _ lhs rhs | subscript _ lhs rhs =>
    rw [isNameFree, Bool.and_eq_true] at h
    simp only [children, List.mem_cons, List.not_mem_nil, or_false] at hc
    rcases hc with rfl | rfl
    · exact h.1
    · exact h.2
  | _ => simp_all [isNameFree, children]

end Expr

theorem valuesWith_eq_map (d : Declared) (site : Site) (es : List Expr) :
    valuesWith d site es = es.map (valueWith d site) := by
  induction es with
  | nil => rfl
  | cons e es ih => rw [valuesWith, ih, List.map_cons]

theorem valueWith_call (d : Declared) (site : Site) (span : Span) (callee : Expr)
    (args : List Expr) :
    valueWith d site (.call span callee args) =
      (d.namedCall? site (.call span callee args) callee).getD
        (valueWith d site callee).called := by
  rw [valueWith]
  cases d.namedCall? site (.call span callee args) callee <;> rfl

/-! ## Demands

A demand is a question with its subject.  Of the depths it matters only that each demand leads to
less deep ones; a default of a parameter leads to a value without names, which never closes a
declaration. -/

namespace Demand

/-- A demand about places of a file. -/
def IsIn (file : Place) : Demand → Prop
  | binding place | result place | call place _ | function place => place ∈ file.preorder
  | param p f => p ∈ file.preorder ∧ f ∈ file.preorder
  | value site e => site.IsIn file ∧ e.size ≤ file.node.size

/-- How deep the demands are nested that a demand leads to, itself included, in a file of `size`
nodes while `unclosed` declarations are not busy. -/
def depth (size unclosed : Nat) : Demand → Nat
  | binding _ | result _ => size + 1 + unclosed * (size + 2)
  | param .. => size + 1
  | call .. | function _ => size + 2 + unclosed * (size + 2)
  | value _ e => if e.isNameFree then e.size else e.size + (size + 2 + unclosed * (size + 2))

theorem depth_pos (size unclosed : Nat) (demand : Demand) : 0 < demand.depth size unclosed := by
  cases demand with
  | value site e =>
    have hsize := e.size_eq
    rw [depth]
    split <;> omega
  | _ =>
    rw [depth]
    omega

/-- A value leads no deeper than its size and a declaration more. -/
theorem depth_value_le (size unclosed : Nat) (site : Site) (e : Expr) :
    (value site e).depth size unclosed ≤ e.size + (size + 2 + unclosed * (size + 2)) := by
  rw [depth]
  split
  · exact Nat.le_add_right _ _
  · exact Nat.le_refl _

/-- A part of an expression leads less deep. -/
theorem depth_lt_of_mem_children {size unclosed : Nat} {site : Site} {e c : Expr}
    (hc : c ∈ e.children) :
    (value site c).depth size unclosed < (value site e).depth size unclosed := by
  have hsize := Expr.size_lt_of_mem_children hc
  have hfree : e.isNameFree = true → c.isNameFree = true := fun h =>
    Expr.isNameFree_of_mem_children h hc
  rw [depth, depth]
  split <;> split <;> first | omega | exact absurd (hfree ‹_›) ‹_›

end Demand

/-- The answer of a context to a demand, while only the declarations in `unclosed` are open. -/
def Context.reply (ctx : Context) (unclosed : List Nat) : Demand → Ty
  | .binding place => ctx.bindingWith (ctx.inferredFrom unclosed) place
  | .param param function => ctx.paramWith (ctx.inferredFrom unclosed) param function
  | .result function => ctx.resultWith (ctx.inferredFrom unclosed) function
  | .call function call => ctx.callWith (ctx.inferredFrom unclosed) function call
  | .value site e => valueWith (ctx.declaredFrom unclosed) site e
  | .function function =>
    ctx.functionWith (ctx.inferredFrom unclosed) (ctx.paramWith (ctx.inferredFrom unclosed))
      function

/-- The answers that providers can build on, while only the declarations in `unclosed` are open. -/
def Context.answersFrom (ctx : Context) (unclosed : List Nat) : TypeReveal.Answers :=
  ⟨ctx.paramWith (ctx.inferredFrom unclosed), ctx.resultWith (ctx.inferredFrom unclosed)⟩

/-! ## Open and busy declarations

A demand about a declaration that is busy is answered at once, and one that is open is answered with
it closed. -/

/-- The declarations of a file that are not busy are open. -/
structure Unclosed (file : Place) (busy unclosed : List Nat) : Prop where
  nodup : unclosed.Nodup
  mem_iff : ∀ place ∈ file.declarations, place.index ∈ unclosed ↔ place.index ∉ busy

namespace Unclosed

variable {file place : Place} {busy unclosed : List Nat}

theorem all (file : Place) : Unclosed file [] (file.declarations.map Place.index) where
  nodup := file.nodup_index_preorder.sublist (List.filter_sublist.map _)
  mem_iff place hplace := by simpa using ⟨place, hplace, rfl⟩

/-- A declaration that becomes busy is closed. -/
theorem close (h : Unclosed file busy unclosed) (index : Nat) :
    Unclosed file (index :: busy) (unclosed.erase index) where
  nodup := h.nodup.erase index
  mem_iff place hplace := by
    rw [h.nodup.mem_erase_iff, h.mem_iff place hplace, List.mem_cons, not_or]

/-- A declaration that is open is answered with it busy; otherwise it is busy already. -/
theorem guarded (h : Unclosed file busy unclosed) (hplace : place ∈ file.declarations)
    {run : Run Ty} {ty : Ty}
    (hrun : place.index ∈ unclosed → Returns run (place.index :: busy) ty) :
    Returns (Session.guarded place run) busy
      (if place.index ∈ unclosed then ty else .unknown) := by
  by_cases hbusy : place.index ∈ busy
  · rw [if_neg fun hmem => (h.mem_iff place hplace).1 hmem hbusy]
    exact .guarded_busy hbusy
  · have hmem := (h.mem_iff place hplace).2 hbusy
    rw [if_pos hmem]
    exact .guarded hbusy (hrun hmem)

end Unclosed

/-! ## Sizes

The expressions of a file are smaller than the file, so that the size of the file bounds how deep a
value leads before it comes to the next declaration. -/

theorem Place.size_le_of_mem_preorder {root place : Place} (h : place ∈ root.preorder) :
    place.node.size ≤ root.node.size := by
  induction mem_preorder_iff.1 h with
  | refl => exact Nat.le_refl _
  | tail hparent hchild ih =>
    exact Nat.le_trans (Nat.le_of_lt (size_lt_of_mem_children hchild))
      (ih (mem_preorder_iff.2 hparent))

/-- The expressions of a declaration are smaller than the file. -/
theorem Place.size_lt_of_expr_mem {root place : Place} {e : Expr} (h : place ∈ root.preorder)
    (he : .expr e ∈ place.node.children) : e.size < root.node.size := by
  have hle := size_le_of_mem_preorder h
  have hlt : e.size ≤ _ := Node.size_le_sizes he
  rw [place.node.size_eq] at hle
  omega

/-! ## Steps

One lemma for each kind of demand.  The hypothesis is always the same, that what is asked answers as
the context does at a smaller depth, and each lemma has to say at which depth the demands of its
kind are met. -/

namespace Session

/-- `ask` answers as the context does every demand that leads less than `n` deep. -/
def Answers (s : Session) (ask : Demand → Run Ty) (n : Nat) : Prop :=
  ∀ busy unclosed, Unclosed s.file busy unclosed → ∀ demand : Demand, demand.IsIn s.file →
    demand.depth s.file.node.size unclosed.length ≤ n →
      Returns (ask demand) busy (s.context.reply unclosed demand)

namespace Answers

variable {s : Session} {node : Node} {ask : Demand → Run Ty} {n : Nat} {busy unclosed : List Nat}
  (h : s.Answers ask n) (hopen : Unclosed s.file busy unclosed)

section Values

variable {site : Site} {e : Expr} {place : Place}

include h hopen

/-- **The value of a part** that need not be there. -/
theorem value? {e? : Option Expr} (hsite : site.IsIn s.file)
    (hsize : ∀ e ∈ e?, e.size ≤ s.file.node.size)
    (hdepth : ∀ e ∈ e?,
      (Demand.value site e).depth s.file.node.size unclosed.length ≤ n) :
    Returns (Session.value? ask site e?) busy
      ((e?.map (valueWith (s.context.declaredFrom unclosed) site)).getD .unknown) := by
  cases e? with
  | none => exact .pure _
  | some e => exact h busy unclosed hopen _ ⟨hsite, hsize e rfl⟩ (hdepth e rfl)

variable (hdepth : s.file.node.size + 2 + unclosed.length * (s.file.node.size + 2) ≤ n)

include hdepth

/-- **What a declaration means**: that of a binding, a parameter, a function or a class. -/
theorem declaration (hroot : s.file = .root node) (hplace : place ∈ s.file.preorder) :
    Returns (Session.declaration ask place) busy
      ((s.context.declaredFrom unclosed).declaration place) := by
  rw [Session.declaration, Declared.declaration]
  cases hnode : place.node with
  | file | expr => exact .pure _
  | stmt stmt =>
    cases stmt with
    | binding =>
      exact h busy unclosed hopen (.binding place) hplace (by rw [Demand.depth]; omega)
    | function => exact h busy unclosed hopen (.function place) hplace hdepth
    | _ => exact .pure _
  | param =>
    cases hfunction : place.function? with
    | none => exact .pure _
    | some function =>
      have hmem : function ∈ s.file.preorder := by
        rw [hroot] at hplace ⊢
        exact Place.mem_preorder_of_mem_ancestors hplace (List.mem_of_find?_eq_some hfunction)
      exact h busy unclosed hopen (.param place function) ⟨hplace, hmem⟩
        (by rw [Demand.depth]; omega)

/-- **A name** is looked up without any demand, and what it is bound by is demanded. -/
theorem name (hroot : s.file = .root node) (hsite : site.IsIn s.file) (name : String) :
    Returns (s.name ask site e name) busy
      ((s.context.declaredFrom unclosed).name site e name) := by
  refine Returns.getDM ?_ _
  cases hbinding : site.bindingOf e with
  | none => exact .pure _
  | some b =>
    cases b with
    | declaration place =>
      exact h.declaration hopen hdepth hroot (Site.isIn_bindingOf hsite hbinding)
    | imported place => exact .pure _

omit hdepth in
/-- A call is decided by the name that is called, or else by the value of what is called. -/
theorem namedCall {call callee : Expr} {other : Run Ty} {ty : Ty}
    (hdepth : callee.isNameFree = false →
      s.file.node.size + 2 + unclosed.length * (s.file.node.size + 2) ≤ n)
    (hsite : site.IsIn s.file) (hother : Returns other busy ty) :
    Returns ((Session.namedCall? ask site call callee).getD other) busy
      (((s.context.declaredFrom unclosed).namedCall? site call callee).getD ty) := by
  cases callee with
  | name span name =>
    rw [Session.namedCall?, Declared.namedCall?]
    cases hbinding : site.bindingOf (.name span name) with
    | none =>
      by_cases hname : name = "isinstance"
      · rw [if_pos hname, if_pos hname]
        exact .pure _
      · rw [if_neg hname, if_neg hname]
        exact hother
    | some b =>
      cases b with
      | imported => exact hother
      | declaration place =>
        dsimp only
        by_cases hfunction : place.node.isFunction = true
        · rw [if_pos hfunction, if_pos hfunction]
          exact h busy unclosed hopen (.call place (.expr call))
            (Site.isIn_bindingOf hsite hbinding) (hdepth rfl)
        · rw [if_neg hfunction, if_neg hfunction]
          exact hother
  | _ => exact hother

omit hdepth in
/-- The value of an expression, from the values of its parts. -/
theorem value (hroot : s.file = .root node) (hsite : site.IsIn s.file)
    (hsize : e.size ≤ s.file.node.size)
    (hdepth : (Demand.value site e).depth s.file.node.size unclosed.length ≤ n + 1) :
    Returns (s.value ask site e) busy (valueWith (s.context.declaredFrom unclosed) site e) := by
  have hpart : ∀ c ∈ e.children,
      Returns (ask (.value site c)) busy (valueWith (s.context.declaredFrom unclosed) site c) := by
    intro c hc
    have hlt : (Demand.value site c).depth s.file.node.size unclosed.length <
        (Demand.value site e).depth s.file.node.size unclosed.length :=
      Demand.depth_lt_of_mem_children hc
    exact h busy unclosed hopen (.value site c)
      ⟨hsite, Nat.le_trans (Nat.le_of_lt (Expr.size_lt_of_mem_children hc)) hsize⟩ (by omega)
  cases e with
  | int | float | bool | none | ellipsis | str | binary | dangling | subscript | member =>
    exact .pure _
  | name span name =>
    rw [Demand.depth, Expr.isNameFree, if_neg Bool.false_ne_true, Expr.size] at hdepth
    exact h.name hopen (by omega) hroot hsite name
  | paren span inner => exact hpart inner List.mem_cons_self
  | tuple span elems =>
    rw [valueWith, valuesWith_eq_map]
    exact (Returns.mapM hpart).bind_pure
  | list span elems =>
    rw [valueWith, valuesWith_eq_map]
    exact (Returns.mapM hpart).bind_pure
  | call span callee args =>
    -- Only a callee that names something costs a further level.
    have hdeep : callee.isNameFree = false →
        s.file.node.size + 2 + unclosed.length * (s.file.node.size + 2) ≤ n := by
      intro hfree
      rw [Demand.depth, Expr.isNameFree, hfree, Bool.false_and, if_neg Bool.false_ne_true,
        Expr.size] at hdepth
      omega
    rw [valueWith_call]
    exact h.namedCall hopen hdeep hsite (hpart callee List.mem_cons_self).bind_pure

end Values

/-! ### Declarations -/

section Declarations

variable {place : Place}

include h hopen

/-- While a declaration is busy, values lead less deep than it. -/
theorem value_busy (hmem : place.index ∈ unclosed) (hroot : s.file = .root node)
    (hdepth : s.file.node.size + 1 + unclosed.length * (s.file.node.size + 2) ≤ n + 1)
    {below : Place} (hbelow : below ∈ s.file.preorder) {e : Expr}
    (he : .expr e ∈ below.node.children) :
    Returns (ask (.value below.interior e)) (place.index :: busy)
      (valueWith (s.context.declaredFrom (unclosed.erase place.index)) below.interior e) := by
  have hsize := Place.size_lt_of_expr_mem hbelow he
  have hlength := List.length_erase_of_mem hmem
  obtain ⟨k, hk⟩ : ∃ k, unclosed.length = k + 1 :=
    Nat.exists_eq_add_one.2 (List.length_pos_of_mem hmem)
  have hvalue := Demand.depth_value_le s.file.node.size k below.interior e
  rw [hk, Nat.add_one_mul] at hdepth
  rw [hk, Nat.add_sub_cancel] at hlength
  refine h _ _ (hopen.close place.index) (.value below.interior e) ⟨?_, Nat.le_of_lt hsize⟩ ?_
  · rw [hroot] at hbelow ⊢
    exact Site.isIn_interior hbelow
  · rw [hlength]
    omega

/-- **A binding**: it is settled by its annotation, or it is busy while its value is evaluated. -/
theorem binding (hroot : s.file = .root node) (hplace : place ∈ s.file.preorder)
    (hdepth : s.file.node.size + 1 + unclosed.length * (s.file.node.size + 2) ≤ n + 1) :
    Returns (s.binding ask place) busy
      (s.context.bindingWith (s.context.inferredFrom unclosed) place) := by
  refine Returns.getDM ?_ _
  rw [Context.binding_inferredFrom, bindingFromValue]
  cases hnode : place.node with
  | file | param | expr =>
    dsimp only
    rw [ite_self]
    exact .pure _
  | stmt stmt =>
    cases stmt with
    | binding span name annotation? e? =>
      dsimp only
      have hdeclaration : place ∈ s.file.declarations :=
        List.mem_filter.2 ⟨hplace, by rw [Place.isDeclaration, hnode]⟩
      refine hopen.guarded hdeclaration fun hmem => .getDM ?_ _
      cases e? with
      | none => exact .pure _
      | some e =>
        exact h.value_busy hopen hmem hroot hdepth hplace
          (by simp [hnode, Node.children, Stmt.children])
    | _ =>
      dsimp only
      rw [ite_self]
      exact .pure _

/-- The values that a function returns, while the function is busy. -/
theorem resultFromBody (hmem : place.index ∈ unclosed) (hroot : s.file = .root node)
    (hplace : place ∈ s.file.preorder)
    (hdepth : s.file.node.size + 1 + unclosed.length * (s.file.node.size + 2) ≤ n + 1) :
    Returns (Session.resultFromBody ask place) (place.index :: busy)
      (TypeReveal.resultFromBody (s.context.declaredFrom (unclosed.erase place.index)) place) := by
  have hresult : ∀ stmt ∈ place.results, Returns (Session.resultOf ask stmt) (place.index :: busy)
      (TypeReveal.resultOf (s.context.declaredFrom (unclosed.erase place.index)) stmt) := by
    intro stmt hstmt
    have hbelow := Place.mem_preorder_of_mem_flatStmts hplace (List.mem_filter.1 hstmt).1
    rw [Session.resultOf, TypeReveal.resultOf]
    cases hnode : stmt.node with
    | file | param | expr => exact .pure _
    | stmt st =>
      cases st with
      | result span e? =>
        cases e? with
        | none => exact .pure _
        | some e =>
          exact h.value_busy hopen hmem hroot hdepth hbelow
            (by simp [hnode, Node.children, Stmt.children])
      | _ => exact .pure _
  rw [Session.resultFromBody, TypeReveal.resultFromBody]
  cases hresults : place.results with
  | nil => exact .pure _
  | cons stmt stmts =>
    rw [hresults] at hresult
    exact (Returns.mapM hresult).bind_pure

/-- **A result**: the opinion of a provider, the annotation, or the body. -/
theorem result (hroot : s.file = .root node) (hplace : place ∈ s.file.preorder)
    (hdepth : s.file.node.size + 1 + unclosed.length * (s.file.node.size + 2) ≤ n + 1) :
    Returns (s.result ask place) busy
      (s.context.resultWith (s.context.inferredFrom unclosed) place) := by
  refine Returns.getDM ?_ _
  rw [Context.inferResultWith]
  cases hnode : place.node with
  | file | param | expr => exact .pure _
  | stmt stmt =>
    cases stmt with
    | function span name decorators params result? body =>
      cases result? with
      | some annotation => exact .pure _
      | none =>
        have hdeclaration : place ∈ s.file.declarations :=
          List.mem_filter.2 ⟨hplace, by rw [Place.isDeclaration, hnode]⟩
        dsimp only
        rw [Context.result_inferredFrom]
        exact hopen.guarded hdeclaration fun hmem =>
          h.resultFromBody hopen hmem hroot hplace hdepth
    | _ => exact .pure _

/-- **A call** of a function: what an adviser says of it, or the result. -/
theorem call (call : Node) (hplace : place ∈ s.file.preorder)
    (hdepth : s.file.node.size + 2 + unclosed.length * (s.file.node.size + 2) ≤ n + 1) :
    Returns (s.call ask place call) busy
      (s.context.callWith (s.context.inferredFrom unclosed) place call) := by
  refine Returns.getDM ?_ _
  exact h busy unclosed hopen (.result place) hplace (by rw [Demand.depth]; omega)

/-- A parameter leads to its default, in which there are no names. -/
theorem param {function : Place} (hroot : s.file = .root node) (hplace : place ∈ s.file.preorder)
    (hdefault : ∀ e ∈ place.default?, e.isNameFree = true) (hdepth : s.file.node.size ≤ n) :
    Returns (s.param ask place function) busy
      (s.context.paramWith (s.context.inferredFrom unclosed) place function) := by
  -- A default without names means the same whatever is busy, so the chain above can be changed.
  rw [Context.paramWith, Context.paramWithin,
    paramFromDefault_of_isNameFree hdefault _ (s.context.declaredFrom unclosed)]
  refine Returns.getDM ?_ _
  rw [paramFromDefault]
  cases hnode : place.node with
  | file | stmt | expr => exact .pure _
  | param p =>
    cases hhint : p.annotation? with
    | some hint =>
      simp only [hhint]
      exact .pure _
    | none =>
      simp only [hhint]
      cases receiverClass? place function with
      | some name => exact .pure _
      | none =>
        have hchild : ∀ e ∈ p.default?, e.size < s.file.node.size := fun e he =>
          Place.size_lt_of_expr_mem hplace (by
            rw [Option.mem_def] at he
            simp [hnode, Node.children, Param.children, he])
        refine h.value? hopen ?_ (fun e he => Nat.le_of_lt (hchild e he)) fun e he => ?_
        · rw [hroot] at hplace ⊢
          exact Site.isIn_interior hplace
        · have hfree := hdefault e (by rw [Place.default?, hnode]; exact he)
          have hsize := hchild e he
          rw [Demand.depth, if_pos hfree]
          omega

section Functions

variable (hplace : place ∈ s.file.preorder)
  (hdepth : s.file.node.size + 1 + unclosed.length * (s.file.node.size + 2) ≤ n)

include hplace hdepth

theorem slots : Returns (Session.slots ask place) busy (place.params.map fun param =>
    Slot.named (param.declared?.getD "")
      (s.context.paramWith (s.context.inferredFrom unclosed) param place)) := by
  refine Returns.mapM fun param hparam => Returns.bind_pure ?_
  have hmem := Place.mem_preorder_of_mem_children hplace (Place.mem_children_of_mem_params hparam)
  exact h busy unclosed hopen (.param param place) ⟨hmem, hplace⟩ (by rw [Demand.depth]; omega)

theorem advise (adviser : Adviser) : Returns (s.advise ask place adviser) busy
    (adviser.provider.function s.mode (s.context.answersFrom unclosed) place) := by
  cases adviser with
  | silent => exact .pure _
  | constant answer => exact .pure _
  | fixed name? hooks => exact .pure _
  | extension =>
    show Returns _ busy (Provider.extendedFunction _ place)
    rw [Session.advise, Provider.extendedFunction]
    cases place.functionName? with
    | none => exact .pure _
    | some name =>
      have hresult := h busy unclosed hopen (.result place) hplace hdepth
      exact (h.slots hopen hplace hdepth).bind
        (hresult.getDM (Provider.annotatedResult? place false)).bind_pure

theorem adviseFirst (advisers : List Adviser) : Returns (s.adviseFirst ask place advisers) busy
    ((advisers.map Adviser.provider).findSome? fun p =>
      p.function s.mode (s.context.answersFrom unclosed) place) := by
  induction advisers with
  | nil => exact .pure _
  | cons adviser advisers ih =>
    rw [List.map_cons, List.findSome?_cons]
    refine (h.advise hopen hplace hdepth adviser).bind ?_
    generalize adviser.provider.function s.mode _ place = opinion
    cases opinion with
    | some ty => exact .pure _
    | none => exact ih

/-- **A function as a value**, with the types of its parameters and its result. -/
theorem function : Returns (s.function ask place) busy
    (s.context.functionWith (s.context.inferredFrom unclosed)
      (s.context.paramWith (s.context.inferredFrom unclosed)) place) := by
  refine (h.adviseFirst hopen hplace hdepth s.advisers).bind (.getDM ?_ _)
  rw [Context.inferFunctionWith]
  cases place.functionName? with
  | none => exact .pure _
  | some name =>
    have hresult := h busy unclosed hopen (.result place) hplace hdepth
    exact (h.slots hopen hplace hdepth).bind hresult.bind_pure

end Functions

end Declarations

/-- **A step answers as the context does**, one level deeper than the demands it makes.  The cases
are those of demands, and the two parts of the answer that come from outside of the file,
annotations and providers, are the same in a session and in its context. -/
theorem step (hroot : s.file = .root node)
    (hdefaults : ∀ place ∈ s.file.preorder, ∀ e ∈ place.default?, e.isNameFree = true)
    (h : s.Answers ask n) : s.Answers (s.step ask) (n + 1) := by
  intro busy unclosed hopen demand hin hdepth
  cases demand with
  | binding place => exact h.binding hopen hroot hin hdepth
  | param p f => exact h.param hopen hroot hin.1 (hdefaults p hin.1) (Nat.le_of_succ_le_succ hdepth)
  | result place => exact h.result hopen hroot hin hdepth
  | call place node => exact h.call hopen node hin hdepth
  | value site e => exact h.value hopen hroot hin.1 hin.2 hdepth
  | function place =>
    exact h.function hopen hin (by rw [Demand.depth] at hdepth; omega)

end Answers

/-- **A session answers as its context does**, with demands that are nested no deeper than
`Demand.depth`, and the same declarations are busy afterwards. -/
theorem answers_eval {s : Session} {node : Node} (hroot : s.file = .root node)
    (hdefaults : ∀ place ∈ s.file.preorder, ∀ e ∈ place.default?, e.isNameFree = true)
    (depth : Nat) : s.Answers (s.eval depth) depth := by
  induction depth with
  | zero =>
    intro busy unclosed hopen demand hin hdepth
    have hpos := demand.depth_pos s.file.node.size unclosed.length
    omega
  | succ depth ih => exact ih.step hroot hdefaults

end Session

end TypeReveal
