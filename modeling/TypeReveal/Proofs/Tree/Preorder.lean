import Mathlib.Data.List.Nodup
import Mathlib.Logic.Relation
import TypeReveal.Tree.Block

/-!
# The places of a file

The places of a tree are closed under going down (`mem_preorder_of_mem_children`) and, from the
root, under going up (`mem_preorder_of_mem_ancestors`).  Each has a number of its own: the numbers
of a tree count from that of its root (`map_index_preorder`), so that a place is told by its number
(`eq_of_index_eq`).

The children of a node are sorted by kind: parameters stand below functions only
(`exists_function_of_param`).
-/

set_option autoImplicit false
namespace TypeReveal
namespace Place

/-! ## Down

The places of a tree are its root and the places of the trees below it. -/

theorem self_mem_preorder (place : Place) : place ∈ place.preorder := by
  rw [preorder_eq]
  exact List.mem_cons_self

/-- What is below a place of a tree is in the tree. -/
theorem mem_preorder_trans {root place below : Place} (hplace : place ∈ root.preorder)
    (hbelow : below ∈ place.preorder) : below ∈ root.preorder := by
  rw [preorder_eq] at hplace ⊢
  rcases List.mem_cons.1 hplace with rfl | hplace
  · rwa [← preorder_eq]
  · obtain ⟨child, hchild, hplace⟩ := List.mem_flatMap.1 hplace
    have hlt := size_lt_of_mem_children hchild
    exact List.mem_cons_of_mem _
      (List.mem_flatMap.2 ⟨child, hchild, mem_preorder_trans hplace hbelow⟩)
termination_by root.node.size

theorem mem_preorder_of_mem_children {root place child : Place} (hplace : place ∈ root.preorder)
    (hchild : child ∈ place.children) : child ∈ root.preorder := by
  refine mem_preorder_trans hplace ?_
  rw [preorder_eq]
  exact List.mem_cons_of_mem _ (List.mem_flatMap.2 ⟨child, hchild, child.self_mem_preorder⟩)

/-! ## Up

A place holds the way down to it, so its parent and those above are read off it.  They are places of
the same tree if the way starts at its root. -/

theorem parent?_of_mem_placeAll {parent place : Place} {nodes : List Node} {index : Nat}
    (h : place ∈ placeAll parent index nodes) : place.parent? = some parent := by
  induction nodes generalizing index with
  | nil => cases h
  | cons node nodes ih =>
    rcases List.mem_cons.1 h with rfl | h
    · rfl
    · exact ih h

/-- A place is the parent of its children. -/
theorem parent?_of_mem_children {place child : Place} (h : child ∈ place.children) :
    child.parent? = some place :=
  parent?_of_mem_placeAll h

/-- Above a place are its parent and what is above that. -/
theorem ancestors_of_parent? {place parent : Place} (h : place.parent? = some parent) :
    place.ancestors = parent.chain := by
  cases place with
  | root => cases h
  | child p i n =>
    cases h
    rfl

theorem exists_parent?_of_mem_ancestors {above place : Place} (h : above ∈ place.ancestors) :
    ∃ parent, place.parent? = some parent := by
  cases place with
  | root => cases h
  | child parent => exact ⟨parent, rfl⟩

/-- A place below another is the other or one of its children's. -/
theorem mem_ancestors_or {root place above : Place} (hplace : place ∈ root.preorder)
    (habove : above ∈ place.ancestors) : above ∈ root.preorder ∨ above ∈ root.ancestors := by
  rw [preorder_eq] at hplace
  rcases List.mem_cons.1 hplace with rfl | hplace
  · exact .inr habove
  · obtain ⟨child, hchild, hplace⟩ := List.mem_flatMap.1 hplace
    have hlt := size_lt_of_mem_children hchild
    rcases mem_ancestors_or hplace habove with h | h
    · exact .inl (mem_preorder_trans (mem_preorder_of_mem_children root.self_mem_preorder hchild) h)
    · rw [ancestors_of_parent? (parent?_of_mem_children hchild)] at h
      rcases List.mem_cons.1 h with rfl | h
      · exact .inl above.self_mem_preorder
      · exact .inr h
termination_by root.node.size

/-- A place that is above another has fewer places above it. -/
theorem length_ancestors_lt {c place : Place} (h : c ∈ place.ancestors) :
    c.ancestors.length < place.ancestors.length := by
  induction place with
  | root => cases h
  | child p i n ih =>
    rw [ancestors, List.length_cons]
    rcases List.mem_cons.1 h with rfl | h
    · exact Nat.lt_succ_self _
    · exact Nat.lt_succ_of_lt (ih h)

/-- Of two places neither is above the other twice. -/
theorem not_mem_chain_of_mem_ancestors {c place : Place} (h : c ∈ place.ancestors) :
    place ∉ c.chain := by
  intro hplace
  have hlt := length_ancestors_lt h
  rcases List.mem_cons.1 hplace with rfl | hplace
  · exact Nat.lt_irrefl _ hlt
  · exact Nat.lt_asymm hlt (length_ancestors_lt hplace)

/-- What is above a place above another is above the other. -/
theorem mem_ancestors_trans {above c place : Place} (h : above ∈ c.ancestors)
    (hc : c ∈ place.ancestors) : above ∈ place.ancestors := by
  induction place with
  | root => cases hc
  | child parent i n ih =>
    rcases List.mem_cons.1 hc with rfl | hc
    · exact List.mem_cons_of_mem _ h
    · exact List.mem_cons_of_mem _ (ih hc)

/-- Of two places above a third, the first is at or above the second, or else below it. -/
theorem mem_chain_or_mem_ancestors {p q place : Place} (hp : p ∈ place.ancestors)
    (hq : q ∈ place.ancestors) : p ∈ q.chain ∨ q ∈ p.ancestors := by
  induction place with
  | root => cases hp
  | child parent i n ih =>
    rcases List.mem_cons.1 hp with rfl | hp <;> rcases List.mem_cons.1 hq with rfl | hq
    · exact .inl List.mem_cons_self
    · exact .inr hq
    · exact .inl (List.mem_cons_of_mem _ hp)
    · exact ih hp hq

variable {node : Node} {place : Place}

/-- **Whatever stands above a place of a tree** is a place of the tree. -/
theorem mem_preorder_of_mem_ancestors {above : Place} (hplace : place ∈ (root node).preorder)
    (habove : above ∈ place.ancestors) : above ∈ (root node).preorder :=
  (mem_ancestors_or hplace habove).resolve_right (by simp [ancestors])

theorem mem_preorder_of_mem_chain {above : Place} (hplace : place ∈ (root node).preorder)
    (habove : above ∈ place.chain) : above ∈ (root node).preorder := by
  rcases List.mem_cons.1 habove with rfl | habove
  · exact hplace
  · exact mem_preorder_of_mem_ancestors hplace habove

/-- A place of a tree is the root or a child of a place of the tree. -/
theorem eq_root_or_mem_children {r : Place} (h : place ∈ r.preorder) :
    place = r ∨ ∃ parent ∈ r.preorder, place ∈ parent.children := by
  rw [preorder_eq] at h
  rcases List.mem_cons.1 h with rfl | h
  · exact .inl rfl
  · obtain ⟨child, hchild, h⟩ := List.mem_flatMap.1 h
    have hlt := size_lt_of_mem_children hchild
    rcases eq_root_or_mem_children h with rfl | ⟨parent, hparent, h⟩
    · exact .inr ⟨r, r.self_mem_preorder, hchild⟩
    · exact .inr ⟨parent, mem_preorder_trans
        (mem_preorder_of_mem_children r.self_mem_preorder hchild) hparent, h⟩
termination_by r.node.size

/-- The places of a tree are those that lead down from its root. -/
theorem mem_preorder_iff {root place : Place} :
    place ∈ root.preorder ↔
      Relation.ReflTransGen (fun above below => below ∈ above.children) root place := by
  constructor
  · intro h
    rcases eq_root_or_mem_children h with rfl | ⟨parent, hparent, hchild⟩
    · exact .refl
    · exact .tail (mem_preorder_iff.1 hparent) hchild
  · intro h
    induction h with
    | refl => exact root.self_mem_preorder
    | tail _ hchild ih => exact mem_preorder_of_mem_children ih hchild
termination_by place.ancestors.length
decreasing_by
  rw [ancestors_of_parent? (parent?_of_mem_children hchild)]
  exact Nat.lt_succ_self _

/-! ## Numbers

Places are numbered in the order in which they are listed, and the number of a child is that of its
parent and the sizes of the siblings before it.  So the list of the numbers has no repetitions. -/

theorem map_node_placeAll (parent : Place) (index : Nat) (nodes : List Node) :
    (placeAll parent index nodes).map Place.node = nodes := by
  induction nodes generalizing index with
  | nil => rfl
  | cons node nodes ih =>
    rw [placeAll, List.map_cons, ih]
    rfl

/-- The children of a place are places of the children of its node. -/
@[simp] theorem map_node_children (place : Place) :
    place.children.map Place.node = place.node.children :=
  map_node_placeAll place _ _

/-- The numbers of the places below some siblings, one after another, if they are as they should be
below each of them. -/
theorem map_index_flatMap_placeAll {parent : Place} {nodes : List Node} {index : Nat}
    (h : ∀ child ∈ placeAll parent index nodes,
      child.preorder.map Place.index = List.range' child.index child.node.size) :
    ((placeAll parent index nodes).flatMap preorder).map Place.index =
      List.range' index (Node.sizes nodes) := by
  induction nodes generalizing index with
  | nil => rfl
  | cons node nodes ih =>
    rw [placeAll, List.flatMap_cons, List.map_append, h _ List.mem_cons_self,
      ih fun child hchild => h child (List.mem_cons_of_mem _ hchild), Node.sizes_cons,
      ← List.range'_append_1]
    rfl

/-- **The numbers of the places of a tree.** -/
theorem map_index_preorder (place : Place) :
    place.preorder.map Place.index = List.range' place.index place.node.size := by
  have hchildren : ∀ child ∈ place.children,
      child.preorder.map Place.index = List.range' child.index child.node.size := by
    intro child hchild
    have hlt := size_lt_of_mem_children hchild
    exact map_index_preorder child
  rw [preorder_eq, List.map_cons, children, map_index_flatMap_placeAll hchildren,
    place.node.size_eq, Nat.add_comm 1, List.range'_succ]
termination_by place.node.size

/-- No two places of a tree have one number. -/
theorem nodup_index_preorder (root : Place) : (root.preorder.map index).Nodup := by
  rw [map_index_preorder]
  exact List.nodup_range'

theorem nodup_index_children (place : Place) : (place.children.map index).Nodup := by
  have h := place.nodup_index_preorder
  rw [preorder_eq, List.map_cons, List.map_flatMap] at h
  refine List.pairwise_map.2 ((List.nodup_flatMap.1 h.of_cons).2.imp fun hdisjoint heq => ?_)
  exact hdisjoint (List.mem_map_of_mem (self_mem_preorder _))
    (heq ▸ List.mem_map_of_mem (self_mem_preorder _))

/-- **A place of a tree is told by its number.** -/
theorem eq_of_index_eq {root p q : Place} (hp : p ∈ root.preorder) (hq : q ∈ root.preorder)
    (h : p.index = q.index) : p = q :=
  List.inj_on_of_nodup_map root.nodup_index_preorder hp hq h

theorem eq_of_beq {root p q : Place} (hp : p ∈ root.preorder) (hq : q ∈ root.preorder)
    (h : (p == q) = true) : p = q :=
  eq_of_index_eq hp hq (beq_iff_eq.1 (show (p.index == q.index) = true from h))

theorem beq_self (p : Place) : (p == p) = true := show (p.index == p.index) = true from
  beq_self_eq_true p.index

/-- Whether a place is in a list is seen from its number, if all of them are of one tree. -/
theorem any_beq_iff {root : Place} {l : List Place} (hplace : place ∈ root.preorder)
    (hl : ∀ p ∈ l, p ∈ root.preorder) : l.any (· == place) = true ↔ place ∈ l := by
  rw [List.any_eq_true]
  constructor
  · rintro ⟨p, hp, heq⟩
    exact eq_of_beq (hl p hp) hplace heq ▸ hp
  · intro h
    exact ⟨place, h, place.beq_self⟩

/-! ## Kinds of children

Blocks hold statements, a list of parameters holds parameters, and all other children are
expressions. -/

/-- The file stands below nothing. -/
theorem node_ne_file_of_mem_children {parent : Place} (hchild : place ∈ parent.children)
    (span : Span) (body : List Stmt) : place.node ≠ .file span body := by
  intro hnode
  have hmem : Node.file span body ∈ parent.node.children :=
    hnode ▸ node_of_mem_placeAll hchild
  cases hparent : parent.node with
  | stmt s => cases s <;> simp [hparent, Node.children, Stmt.children] at hmem
  | _ => simp [hparent, Node.children, Param.children] at hmem

/-- Parameters stand below functions only. -/
theorem isFunction_of_param_mem_children {parent : Place} {p : Param}
    (hchild : place ∈ parent.children) (hnode : place.node = .param p) :
    parent.node.isFunction = true := by
  have hmem : Node.param p ∈ parent.node.children := hnode ▸ node_of_mem_placeAll hchild
  cases hparent : parent.node with
  | stmt s =>
    cases s with
    | function => rfl
    | conditional => simp [hparent, Node.children, Stmt.children] at hmem
    | _ => simp [hparent, Node.children, Stmt.children] at hmem
  | _ => simp [hparent, Node.children, Param.children] at hmem

theorem mem_children_of_mem_params {function : Place} (h : place ∈ function.params) :
    place ∈ function.children :=
  (List.mem_filter.1 h).1

/-- The function around a parameter is the one whose parameter it is. -/
theorem function?_of_mem_params {function : Place} (h : place ∈ function.params) :
    place.function? = some function := by
  have hchild := mem_children_of_mem_params h
  have hkind := (List.mem_filter.1 h).2
  split at hkind
  · next p hnode =>
    rw [function?, ancestors_of_parent? (parent?_of_mem_children hchild), chain]
    exact List.find?_cons_of_pos (isFunction_of_param_mem_children hchild hnode)
  · cases hkind

/-- **A parameter belongs to the function around it.** -/
theorem exists_function_of_param {span : Span} {body : List Stmt} {p : Param}
    (hplace : place ∈ (root (.file span body)).preorder) (hnode : place.node = .param p) :
    ∃ function ∈ (root (.file span body)).preorder,
      place.function? = some function ∧ place ∈ function.params := by
  rcases eq_root_or_mem_children hplace with rfl | ⟨parent, hparent, hchild⟩
  · cases hnode
  · have hmem : place ∈ parent.params := List.mem_filter.2 ⟨hchild, by simp [hnode]⟩
    exact ⟨parent, hparent, function?_of_mem_params hmem, hmem⟩

theorem exists_param_of_mem_params {function : Place} (h : place ∈ function.params) :
    ∃ p, place.node = .param p := by
  have := (List.mem_filter.1 h).2
  split at this
  · next p hnode => exact ⟨p, hnode⟩
  · cases this

theorem mem_children_of_mem_blocks {stmt : Place} {block : List Place}
    (hblock : block ∈ place.blocks) (hstmt : stmt ∈ block) : stmt ∈ place.children := by
  refine mem_children_of_mem_stmts ?_
  rw [blocks] at hblock
  split at hblock
  all_goals try
    rw [List.mem_singleton.1 hblock] at hstmt
    exact hstmt
  · rcases List.mem_cons.1 hblock with rfl | hblock
    · exact List.mem_of_mem_take hstmt
    · rw [List.mem_singleton.1 hblock] at hstmt
      exact List.mem_of_mem_drop hstmt
  · cases hblock

/-- **The block of a place** is one of the place above it, and the place is in it. -/
theorem exists_parent_of_siblings? {block : List Place} (hplace : place ∈ (root node).preorder)
    (h : place.siblings? = some block) :
    ∃ parent ∈ (root node).preorder, block ∈ parent.blocks ∧ place ∈ block := by
  rw [siblings?] at h
  obtain ⟨parent, hparent, hblock⟩ := Option.bind_eq_some_iff.1 h
  have habove : parent ∈ (root node).preorder := by
    refine mem_preorder_of_mem_ancestors hplace ?_
    rw [ancestors_of_parent? hparent]
    exact List.mem_cons_self
  have hmem := List.mem_of_find?_eq_some hblock
  have hany := List.find?_some (p := fun block : List Place => block.any (· == place)) hblock
  refine ⟨parent, habove, hmem, (any_beq_iff hplace fun stmt hstmt => ?_).1 hany⟩
  exact mem_preorder_of_mem_children habove (mem_children_of_mem_blocks hmem hstmt)

end Place
end TypeReveal
