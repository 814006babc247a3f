import Mathlib.Data.List.Forall2
import TypeReveal.Proofs.Quoting.Edit
import TypeReveal.Proofs.Resolution

/-!
# The places of a file before and after

Each place of a file that is not below an expression has a **twin** in what becomes of the tree: the
place that the same way down from the root leads to (`Quotation.Twin`).  What is listed for a place
when names are looked up is listed for its twin, twin by twin: the places above it, its statements
with conditionals flattened, the bindings of a scope.

A way down goes from child to child by position.  It stops at expressions, since an expression that
becomes a string loses its parts, and the way down may not go on in the same manner.  Nothing that
names are looked up in stands below an expression, so that this is no loss.

Everything a place lists is a list of places, and the lemmas are all of one form: two lists are
related element by element (`List.Forall₂`).  From there on the library takes over: what is
filtered, mapped, reversed or concatenated on both sides stays related, provided that the filter
asks only what twins answer alike (`forall₂_filter`).
-/

set_option autoImplicit false
namespace TypeReveal

open List (Forall₂)

/-- What a filter keeps, if it does not tell an element from what is related to it. -/
theorem forall₂_filter {α β : Type} {R : α → β → Prop} {f : α → Bool} {g : β → Bool} {l : List α}
    {l' : List β} (h : Forall₂ R l l') (hfg : ∀ a ∈ l, ∀ b, R a b → f a = g b) :
    Forall₂ R (l.filter f) (l'.filter g) := by
  have hmem := (List.forall₂_and_left _ _).2 ⟨fun a (ha : a ∈ l) => ha, h⟩
  refine (List.rel_filter ?_ hmem).imp fun _ _ => And.right
  rintro a b ⟨ha, hab⟩
  show f a = true ↔ g b = true
  rw [hfg a ha b hab]

/-- A child is never the root of a tree. -/
theorem Place.ne_root_of_mem_children {p c : Place} {n : Node} (hc : c ∈ p.children) :
    c ≠ root n := by
  rintro rfl
  cases parent?_of_mem_children hc

/-- A child is told by its parent and by how many children come before it. -/
theorem Place.child_eq_iff {p r c d : Place} {k l : Nat} (hc : p.children[k]? = some c)
    (hd : r.children[l]? = some d) : c = d ↔ p = r ∧ k = l := by
  constructor
  · rintro rfl
    have hparent := (parent?_of_mem_children (List.mem_of_getElem? hc)).symm.trans
      (parent?_of_mem_children (List.mem_of_getElem? hd))
    obtain rfl := Option.some_inj.1 hparent
    obtain ⟨hk, -⟩ := List.getElem?_eq_some_iff.1 hc
    exact ⟨rfl, (List.getElem?_inj hk (p.nodup_index_children.of_map _)).1 (hc.trans hd.symm)⟩
  · rintro ⟨rfl, rfl⟩
    exact Option.some_inj.1 (hc.symm.trans hd)

/-- Below an expression there are expressions only. -/
theorem Place.node_ne_expr_of_mem_children {p c : Place} (hc : c ∈ p.children)
    (h : ∀ e, c.node ≠ .expr e) : ∀ e, p.node ≠ .expr e := by
  intro e hp
  have hmem := node_of_mem_placeAll hc
  rw [hp] at hmem
  obtain ⟨d, -, hd⟩ := List.mem_map.1 hmem
  exact h d hd.symm

namespace Quotation

variable (q : Quotation) (file : Node)

/-! ## Nodes

The edit changes spans and one expression.  Of a node that is no expression it changes neither its
kind nor the name it declares, nor how many children it has. -/

/-- What becomes of the children of a node. -/
theorem children_node {n : Node} (hn : ∀ e, n ≠ .expr e) :
    (q.node n).children = n.children.map q.node := by
  have hexprs : q.node ∘ Node.expr = Node.expr ∘ q.expr := rfl
  have hparams : q.node ∘ Node.param = Node.param ∘ q.param := rfl
  have hstmts : q.node ∘ Node.stmt = Node.stmt ∘ q.stmt := rfl
  have hopt (e? : Option Expr) : (e?.map q.expr).toList = e?.toList.map q.expr := by
    cases e? <;> rfl
  cases n with
  | expr e => exact absurd rfl (hn e)
  | file span body => simp [node, Node.children, stmts_eq_map, hstmts]
  | param p => simp [node, Node.children, param, Param.children, hopt, hexprs]
  | stmt s =>
    cases s <;> simp [node, Node.children, stmt, Stmt.children, stmts_eq_map, hopt, hexprs, hparams,
      hstmts]

/-- Statements stay statements. -/
@[simp] theorem isStmt_node (n : Node) : (q.node n).isStmt = n.isStmt := by cases n <;> rfl

/-- Functions stay functions. -/
@[simp] theorem isFunction_node (n : Node) : (q.node n).isFunction = n.isFunction := by
  cases n with
  | stmt s => cases s <;> simp [node, stmt, Node.isFunction]
  | _ => rfl

/-- Names that are declared stay. -/
@[simp] theorem declared?_node (n : Node) : (q.node n).declared? = n.declared? := by
  cases n with
  | stmt s => cases s <;> simp [node, stmt, Node.declared?]
  | _ => rfl

/-! ## Twins

That twins are unique on both sides is what lets a statement about identity go across: two places of
the one file are the same just if their twins are.  Places are identified by the way down to them,
so the proof follows the ways. -/

/-- **Twins**: a place of the file and the place that the same way down leads to afterwards. -/
inductive Twin : Place → Place → Prop
  | root : Twin (.root file) (.root (q.node file))
  | child {p p' c c' : Place} {k : Nat} (h : Twin p p') (hp : ∀ e, p.node ≠ .expr e)
    (hc : p.children[k]? = some c) (hc' : p'.children[k]? = some c') : Twin c c'

variable {q file} {p p' r r' c : Place}

namespace Twin

/-- The node of the twin is what becomes of the node. -/
theorem node (h : q.Twin file p p') : p'.node = q.node p.node := by
  induction h with
  | root => rfl
  | @child p p' c c' k _ hp hc hc' ih =>
    have hmap {p c : Place} (h : p.children[k]? = some c) : p.node.children[k]? = some c.node := by
      rw [← Place.map_node_children, List.getElem?_map, h]
      rfl
    have hnode := hmap hc'
    rw [ih, q.children_node hp, List.getElem?_map, hmap hc] at hnode
    exact (Option.some_inj.1 hnode).symm

/-- Twins are places of the two files. -/
theorem mem_preorder (h : q.Twin file p p') :
    p ∈ (Place.root file).preorder ∧ p' ∈ (Place.root (q.node file)).preorder := by
  induction h with
  | root => exact ⟨Place.self_mem_preorder _, Place.self_mem_preorder _⟩
  | child _ _ hc hc' ih =>
    exact ⟨Place.mem_preorder_of_mem_children ih.1 (List.mem_of_getElem? hc),
      Place.mem_preorder_of_mem_children ih.2 (List.mem_of_getElem? hc')⟩

/-- **A place has one twin**, and is the twin of one place. -/
theorem eq_iff (h : q.Twin file p p') (h' : q.Twin file r r') : p = r ↔ p' = r' := by
  induction h generalizing r r' with
  | root =>
    cases h' with
    | root => exact ⟨fun _ => rfl, fun _ => rfl⟩
    | child _ _ hc hc' =>
      exact ⟨fun heq => absurd heq.symm (Place.ne_root_of_mem_children (List.mem_of_getElem? hc)),
        fun heq => absurd heq.symm (Place.ne_root_of_mem_children (List.mem_of_getElem? hc'))⟩
  | child _ _ hc hc' ih =>
    cases h' with
    | root =>
      exact ⟨fun heq => absurd heq (Place.ne_root_of_mem_children (List.mem_of_getElem? hc)),
        fun heq => absurd heq (Place.ne_root_of_mem_children (List.mem_of_getElem? hc'))⟩
    | child hparent _ hd hd' =>
      rw [Place.child_eq_iff hc hd, Place.child_eq_iff hc' hd', ih hparent]

theorem biUnique : Relator.BiUnique (q.Twin file) :=
  ⟨fun _ _ _ h h' => (h.eq_iff h').2 rfl, fun _ _ _ h h' => (h.eq_iff h').1 rfl⟩

/-- The children of twins. -/
theorem children (h : q.Twin file p p') (hp : ∀ e, p.node ≠ .expr e) :
    Forall₂ (q.Twin file) p.children p'.children := by
  have hlength : p.children.length = p'.children.length := by
    have hmap (p : Place) : p.children.length = p.node.children.length := by
      rw [← Place.map_node_children, List.length_map]
    rw [hmap, hmap, h.node, q.children_node hp, List.length_map]
  exact List.forall₂_of_length_eq_of_get hlength fun k hk hk' =>
    .child h hp (List.getElem?_eq_getElem hk) (List.getElem?_eq_getElem hk')

/-- **The places at and above twins.** -/
theorem chain (h : q.Twin file p p') : Forall₂ (q.Twin file) p.chain p'.chain := by
  induction h with
  | root => exact .cons .root .nil
  | child h hp hc hc' ih =>
    refine .cons (.child h hp hc hc') ?_
    rw [Place.ancestors_of_parent? (Place.parent?_of_mem_children (List.mem_of_getElem? hc)),
      Place.ancestors_of_parent? (Place.parent?_of_mem_children (List.mem_of_getElem? hc'))]
    exact ih

/-- The places above twins. -/
theorem ancestors (h : q.Twin file p p') : Forall₂ (q.Twin file) p.ancestors p'.ancestors :=
  (List.forall₂_cons.1 h.chain).2

/-- One place stands at or above another just if their twins do. -/
theorem mem_chain_iff (h : q.Twin file p p') (h' : q.Twin file r r') :
    p ∈ r.chain ↔ p' ∈ r'.chain :=
  List.rel_mem biUnique h h'.chain

end Twin

/-- **A place that is not below an expression** has a twin. -/
theorem exists_twin (hp : p ∈ (Place.root file).preorder)
    (h : ∀ above ∈ p.ancestors, ∀ e, above.node ≠ .expr e) : ∃ p', q.Twin file p p' := by
  induction p with
  | root n =>
    rcases Place.eq_root_or_mem_children hp with heq | ⟨parent, -, hchild⟩
    · cases heq
      exact ⟨_, .root⟩
    · exact absurd rfl (Place.ne_root_of_mem_children hchild)
  | child parent i n ih =>
    have hparent := Place.mem_preorder_of_mem_ancestors hp List.mem_cons_self
    obtain ⟨parent', htwin⟩ := ih hparent fun above habove =>
      h above (List.mem_cons_of_mem _ habove)
    have hnode := h parent List.mem_cons_self
    obtain ⟨k, hk⟩ := List.getElem?_of_mem (Place.mem_children_of_parent? hp rfl)
    obtain ⟨hlt, -⟩ := List.getElem?_eq_some_iff.1 hk
    rw [(htwin.children hnode).length_eq] at hlt
    exact ⟨_, .child htwin hnode hk (List.getElem?_eq_getElem hlt)⟩

/-- What stands above a place that is no expression is no expression. -/
theorem node_ne_expr_of_mem_chain (hp : p ∈ (Place.root file).preorder)
    (h : ∀ e, p.node ≠ .expr e) : ∀ above ∈ p.chain, ∀ e, above.node ≠ .expr e := by
  induction p with
  | root n => exact List.forall_mem_singleton.2 h
  | child parent i n ih =>
    have hparent := Place.mem_preorder_of_mem_ancestors hp List.mem_cons_self
    refine List.forall_mem_cons.2 ⟨h, ih hparent ?_⟩
    exact Place.node_ne_expr_of_mem_children (Place.mem_children_of_parent? hp rfl) h

/-! ## Statements

Names are looked up in blocks, and conditionals open no scope: their statements count as statements
of the block around them.  `Place.flatten` is that rule, and goes down through conditionals as the
twins do. -/

namespace Twin

/-- The statements below twins. -/
theorem stmts (h : q.Twin file p p') (hp : ∀ e, p.node ≠ .expr e) :
    Forall₂ (q.Twin file) p.stmts p'.stmts :=
  forall₂_filter (h.children hp) fun _ _ _ h => by rw [h.node, isStmt_node]

/-- The parameters of twins. -/
theorem params (h : q.Twin file p p') (hp : ∀ e, p.node ≠ .expr e) :
    Forall₂ (q.Twin file) p.params p'.params := by
  refine forall₂_filter (h.children hp) fun c _ c' h => ?_
  rw [h.node]
  cases c.node <;> rfl

/-- A twin of a conditional is one. -/
theorem isConditional_iff (h : q.Twin file p p') : p.IsConditional ↔ p'.IsConditional := by
  rw [Place.IsConditional, Place.IsConditional, h.node]
  cases p.node with
  | stmt s => cases s <;> simp [Quotation.node, stmt]
  | _ => simp [Quotation.node]

/-- The statements that twins are flattened to. -/
theorem flatten {p p' : Place} (h : q.Twin file p p') :
    Forall₂ (q.Twin file) p.flatten p'.flatten := by
  by_cases hconditional : p.IsConditional
  · rw [Place.flatten_of_isConditional hconditional,
      Place.flatten_of_isConditional (h.isConditional_iff.1 hconditional)]
    obtain ⟨_, _, _, _, hnode⟩ := hconditional
    have hstmts := h.stmts (by simp [hnode])
    refine List.rel_flatMap ((List.forall₂_and_left _ _).2 ⟨fun _ hmem => hmem, hstmts⟩) ?_
    rintro below below' ⟨hbelow, htwin⟩
    have hlt := Place.size_lt_of_mem_children (Place.mem_children_of_mem_stmts hbelow)
    exact flatten htwin
  · rw [Place.flatten_of_not_isConditional hconditional,
      Place.flatten_of_not_isConditional (mt h.isConditional_iff.2 hconditional)]
    exact .cons h .nil
termination_by p.node.size

/-- The statements in a block, with conditionals flattened. -/
theorem flatStmts (h : q.Twin file p p') (hp : ∀ e, p.node ≠ .expr e) :
    Forall₂ (q.Twin file) p.flatStmts p'.flatStmts :=
  List.rel_flatMap (h.stmts hp) fun _ _ h => h.flatten

end Twin

/-! ## Bindings

A binding is a declaration or an import, together with its place.  The list of those with a given
name is related to the list for the twin, in the same order, so that a rule that picks one of them
by order and position can be followed. -/

variable (q file) in
/-- Bindings of the same kind by twins. -/
inductive TwinBinding : Binding → Binding → Prop
  | declaration {p p' : Place} (h : q.Twin file p p') :
    TwinBinding (.declaration p) (.declaration p')
  | imported {p p' : Place} (h : q.Twin file p p') : TwinBinding (.imported p) (.imported p')

/-- Bindings that are twins stand at twins. -/
theorem TwinBinding.place {b b' : Binding} (h : q.TwinBinding file b b') :
    q.Twin file b.place b'.place := by
  cases h with
  | declaration h => exact h
  | imported h => exact h

namespace Twin

variable {name : String}

/-- What twins bind by a name. -/
theorem bindings (h : q.Twin file p p') :
    Forall₂ (q.TwinBinding file) (p.bindings name) (p'.bindings name) := by
  have hone (c : Bool) {b b' : Binding} (hb : q.TwinBinding file b b') :
      Forall₂ (q.TwinBinding file) (if c = true then [b] else [])
        (if c = true then [b'] else []) := by
    cases c with
    | false => exact .nil
    | true => exact .cons hb .nil
  rw [Place.bindings, Place.bindings, h.node]
  cases p.node with
  | stmt s =>
    cases s with
    | function | classDef | binding => exact hone _ (.declaration h)
    | imports => exact hone _ (.imported h)
    | conditional | result | expr | pass => exact .nil
  | _ => exact .nil

/-- **The bindings of a scope** and of its twin. -/
theorem scopeBindings (h : q.Twin file p p') (hp : ∀ e, p.node ≠ .expr e) (classOpen : Bool) :
    Forall₂ (q.TwinBinding file) (p.scopeBindings name classOpen)
      (p'.scopeBindings name classOpen) := by
  have hbody : Forall₂ (q.TwinBinding file) (p.flatStmts.flatMap (·.bindings name))
      (p'.flatStmts.flatMap (·.bindings name)) :=
    List.rel_flatMap (h.flatStmts hp) fun _ _ h => h.bindings
  have hparams : Forall₂ (q.Twin file) (p.params.filter (·.declared? == some name))
      (p'.params.filter (·.declared? == some name)) :=
    forall₂_filter (h.params hp) fun c _ c' h => by
      simp only [Place.declared?, h.node, declared?_node]
  rw [Place.scopeBindings, Place.scopeBindings, h.node]
  cases p.node with
  | file => exact hbody
  | stmt s =>
    cases s with
    | function => exact List.rel_append (List.rel_map (fun _ _ h => .declaration h) hparams) hbody
    | classDef =>
      cases classOpen with
      | false => exact .nil
      | true => exact hbody
    | _ => exact .nil
  | _ => exact .nil

end Twin

end Quotation
end TypeReveal
