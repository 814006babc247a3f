import TypeReveal.Proofs.Tree.Preorder

/-!
# Nested spans

`Node.Laid lo hi nodes` says that nodes stand one after another between two positions of the text,
each with its subtree laid out inside it; `Node.Nested` is this of one node and its own span.  Rows
of nodes are put together and taken apart by `Node.laid_append`.

A tree whose root is nested is a well-formed tree over the text (`Place.IsTreeOver`): at each of its
places the children stand inside their parent, apart and in order.  Any two places of such a tree
stand one above the other, or apart (`Place.IsTreeOver.above_or_apart`).

Both relations are about nodes, without regard to where they are in a tree, and the readers
establish them for the nodes that they yield.  What later proofs use is about places, which know the
way down to them, and about pairs of places that need not be related.
-/

set_option autoImplicit false
namespace TypeReveal

namespace Node

/-- Nodes that stand one after another between `lo` and `hi`, and so do the nodes below each of
them between its own ends. -/
inductive Laid : Nat → Nat → List Node → Prop
  | nil {lo hi : Nat} (h : lo ≤ hi) : Laid lo hi []
  | cons {lo hi : Nat} {node : Node} {nodes : List Node} (start : lo ≤ node.span.start)
      (nested : Laid node.span.start node.span.stop node.children)
      (rest : Laid node.span.stop hi nodes) : Laid lo hi (node :: nodes)

/-- A node whose subtree is laid out inside it. -/
def Nested (node : Node) : Prop := Laid node.span.start node.span.stop node.children

variable {lo mid hi lo' hi' : Nat} {node : Node} {nodes more : List Node}

theorem Laid.le (h : Laid lo hi nodes) : lo ≤ hi := by
  induction h with
  | nil h => exact h
  | cons start _ _ ihnested ihrest => exact Nat.le_trans start (Nat.le_trans ihnested ihrest)

theorem Nested.le (h : node.Nested) : node.span.start ≤ node.span.stop := Laid.le h

@[simp] theorem laid_nil : Laid lo hi [] ↔ lo ≤ hi := ⟨Laid.le, .nil⟩

theorem laid_cons :
    Laid lo hi (node :: nodes) ↔
      lo ≤ node.span.start ∧ node.Nested ∧ Laid node.span.stop hi nodes := by
  constructor
  · intro h
    cases h with
    | cons start nested rest => exact ⟨start, nested, rest⟩
  · rintro ⟨start, nested, rest⟩
    exact .cons start nested rest

theorem laid_singleton :
    Laid lo hi [node] ↔ lo ≤ node.span.start ∧ node.Nested ∧ node.span.stop ≤ hi := by
  rw [laid_cons, laid_nil]

theorem Laid.mono (h : Laid lo hi nodes) (hlo : lo' ≤ lo) (hhi : hi ≤ hi') :
    Laid lo' hi' nodes := by
  induction h generalizing lo' with
  | nil h => exact .nil (Nat.le_trans hlo (Nat.le_trans h hhi))
  | cons start nested _ _ ih => exact .cons (Nat.le_trans hlo start) nested (ih (Nat.le_refl _) hhi)

theorem Laid.append (h : Laid lo mid nodes) (h' : Laid mid hi more) :
    Laid lo hi (nodes ++ more) := by
  induction h with
  | nil h => exact h'.mono h (Nat.le_refl _)
  | cons start nested _ _ ih => exact .cons start nested (ih h')

/-- Where the last of some nodes that start at `lo` ends. -/
def stopOf (lo : Nat) (nodes : List Node) : Nat := (nodes.getLast?.map fun n => n.span.stop).getD lo

theorem stopOf_cons : stopOf lo (node :: nodes) = stopOf node.span.stop nodes := by
  rw [stopOf, stopOf, List.getLast?_cons]
  cases nodes.getLast? <;> rfl

/-- **A row of nodes is two rows**, the second from where the first ends. -/
theorem laid_append :
    Laid lo hi (nodes ++ more) ↔
      Laid lo (stopOf lo nodes) nodes ∧ Laid (stopOf lo nodes) hi more := by
  refine ⟨fun h => ?_, fun h => h.1.append h.2⟩
  induction nodes generalizing lo with
  | nil => exact ⟨.nil (Nat.le_refl lo), h⟩
  | cons node nodes ih =>
    obtain ⟨start, nested, rest⟩ := laid_cons.1 h
    rw [stopOf_cons]
    exact ⟨.cons start nested (ih rest).1, (ih rest).2⟩

theorem Laid.left (h : Laid lo hi (nodes ++ more)) : Laid lo hi nodes :=
  (laid_append.1 h).1.mono (Nat.le_refl _) (laid_append.1 h).2.le

theorem Laid.right (h : Laid lo hi (nodes ++ more)) : Laid lo hi more :=
  (laid_append.1 h).2.mono (laid_append.1 h).1.le (Nat.le_refl _)

theorem Laid.mem (h : Laid lo hi nodes) (hmem : node ∈ nodes) :
    lo ≤ node.span.start ∧ node.Nested ∧ node.span.stop ≤ hi := by
  obtain ⟨before, after, rfl⟩ := List.append_of_mem hmem
  have hafter : Laid lo hi (node :: after) := h.right
  rw [← List.singleton_append] at hafter
  exact laid_singleton.1 hafter.left

/-- Nodes that are laid out stand apart, in order. -/
theorem Laid.pairwise (h : Laid lo hi nodes) :
    nodes.Pairwise fun a b => a.span.stop ≤ b.span.start := by
  induction h with
  | nil => exact .nil
  | cons _ _ rest _ ih => exact .cons (fun b hb => (rest.mem hb).1) ih

end Node

namespace Place

/-! ## Trees over a text

The spans of the places are those of the nodes, so a nested root makes all places nested, by
induction on the way down. -/

/-- The tree below `root` is a tree over a text of `length` bytes: each of its places is listed once
and stands below one other, and the spans of places nest. -/
structure IsTreeOver (root : Place) (length : Nat) : Prop where
  numbered : root.preorder.map index = List.range root.node.size
  reachable : ∀ p, p ∈ root.preorder ↔
    Relation.ReflTransGen (fun above below => below ∈ above.children) root p
  /-- A place is a child of its parent and of no other place. -/
  parent : ∀ p ∈ root.preorder, p ≠ root → ∃ parent ∈ root.preorder, p.parent? = some parent ∧
    p ∈ parent.children ∧
    ∀ q ∈ root.preorder, ∀ c ∈ q.children, c.index = p.index → c = p ∧ q = parent
  /-- It is the same child only once. -/
  once : ∀ p ∈ root.preorder, (p.children.map index).Nodup
  bounds : ∀ p ∈ root.preorder, p.span.start ≤ p.span.stop ∧ p.span.stop ≤ length
  inside : ∀ p ∈ root.preorder, ∀ c ∈ p.children,
    p.span.start ≤ c.span.start ∧ c.span.stop ≤ p.span.stop
  apart : ∀ p ∈ root.preorder, p.children.Pairwise fun a b => a.span.stop ≤ b.span.start
  sorted : root.preorder.Pairwise fun p q => p.span.start ≤ q.span.start

theorem nested_of_mem_children {place child : Place} (h : place.node.Nested)
    (hchild : child ∈ place.children) :
    place.span.start ≤ child.span.start ∧ child.node.Nested ∧
      child.span.stop ≤ place.span.stop := by
  refine Node.Laid.mem h ?_
  rw [← map_node_children]
  exact List.mem_map_of_mem hchild

/-- **Below a nested place** everything is nested and stands inside it. -/
theorem nested_of_mem_preorder {place below : Place} (h : place.node.Nested)
    (hbelow : below ∈ place.preorder) :
    place.span.start ≤ below.span.start ∧ below.node.Nested ∧
      below.span.stop ≤ place.span.stop := by
  induction mem_preorder_iff.1 hbelow with
  | refl => exact ⟨Nat.le_refl _, h, Nat.le_refl _⟩
  | tail hparent hchild ih =>
    obtain ⟨hstart, hnested, hstop⟩ := ih (mem_preorder_iff.2 hparent)
    obtain ⟨hstart', hnested', hstop'⟩ := nested_of_mem_children hnested hchild
    exact ⟨Nat.le_trans hstart hstart', hnested', Nat.le_trans hstop' hstop⟩

theorem pairwise_children {place : Place} (h : place.node.Nested) :
    place.children.Pairwise fun a b => a.span.stop ≤ b.span.start := by
  have hpairwise := Node.Laid.pairwise h
  rwa [← map_node_children, List.pairwise_map] at hpairwise

/-- **The places of a nested tree** are listed in the order of their starts. -/
theorem pairwise_preorder {place : Place} (h : place.node.Nested) :
    place.preorder.Pairwise fun p q => p.span.start ≤ q.span.start := by
  rw [preorder_eq, List.pairwise_cons, List.pairwise_flatMap]
  refine ⟨fun q hq => ?_, fun child hchild => ?_, ?_⟩
  · refine (nested_of_mem_preorder h ?_).1
    rw [preorder_eq]
    exact List.mem_cons_of_mem _ hq
  · have hlt := size_lt_of_mem_children hchild
    exact pairwise_preorder (nested_of_mem_children h hchild).2.1
  · refine (pairwise_children h).imp_of_mem fun ha hb hab p hp q hq => ?_
    obtain ⟨-, hp, hpa⟩ := nested_of_mem_preorder (nested_of_mem_children h ha).2.1 hp
    obtain ⟨hbq, -, -⟩ := nested_of_mem_preorder (nested_of_mem_children h hb).2.1 hq
    calc p.span.start
      _ ≤ p.span.stop := hp.le
      _ ≤ _ := hpa
      _ ≤ _ := hab
      _ ≤ q.span.start := hbq
termination_by place.node.size

/-- A place of a tree is a child of only one place. -/
theorem exists_parent_unique {root p : Place} (hp : p ∈ root.preorder) (hne : p ≠ root) :
    ∃ parent ∈ root.preorder, p.parent? = some parent ∧ p ∈ parent.children ∧
      ∀ q ∈ root.preorder, ∀ c ∈ q.children, c.index = p.index → c = p ∧ q = parent := by
  obtain ⟨parent, hparent, hchild⟩ := (eq_root_or_mem_children hp).resolve_left hne
  refine ⟨parent, hparent, parent?_of_mem_children hchild, hchild, fun q hq c hc hindex => ?_⟩
  have heq : c = p := eq_of_index_eq (mem_preorder_of_mem_children hq hc) hp hindex
  subst heq
  exact ⟨rfl, Option.some_inj.1
    ((parent?_of_mem_children hc).symm.trans (parent?_of_mem_children hchild))⟩

/-- **A nested tree is a tree over its text.** -/
theorem isTreeOver_of_nested {node : Node} {length : Nat} (h : node.Nested)
    (hlength : node.span.stop ≤ length) : (root node).IsTreeOver length := by
  have hroot : (root node).node.Nested := h
  exact {
    numbered := by
      rw [map_index_preorder, List.range_eq_range']
      rfl
    reachable := fun p => mem_preorder_iff
    parent := fun p hp hne => exists_parent_unique hp hne
    once := fun p _ => p.nodup_index_children
    bounds := fun p hp => by
      obtain ⟨-, hnested, hstop⟩ := nested_of_mem_preorder hroot hp
      exact ⟨hnested.le, Nat.le_trans hstop hlength⟩
    inside := fun p hp c hc => by
      obtain ⟨-, hnested, -⟩ := nested_of_mem_preorder hroot hp
      obtain ⟨hstart, -, hstop⟩ := nested_of_mem_children hnested hc
      exact ⟨hstart, hstop⟩
    apart := fun p hp => pairwise_children (nested_of_mem_preorder hroot hp).2.1
    sorted := pairwise_preorder hroot }

/-! ## Two places of a tree

The ways down to two places have a common part.  Either one of the ways ends there, or they go on to
two children of one place, and these stand apart. -/

section

variable {node : Node} {p q above : Place} {length : Nat}

theorem root_mem_chain (h : p ∈ (root node).preorder) : root node ∈ p.chain := by
  induction p with
  | root n =>
    rcases eq_root_or_mem_children h with h | ⟨parent, -, h⟩
    · exact h ▸ List.mem_cons_self
    · cases parent?_of_mem_children h
  | child parent i n ih =>
    exact List.mem_cons_of_mem _ (ih (mem_preorder_of_mem_ancestors h List.mem_cons_self))

theorem mem_children_of_parent? (h : p ∈ (root node).preorder) (hparent : p.parent? = some q) :
    p ∈ q.children := by
  rcases eq_root_or_mem_children h with rfl | ⟨parent, -, hchild⟩
  · cases hparent
  · cases (parent?_of_mem_children hchild).symm.trans hparent
    exact hchild

/-- The way up to a place leads through one of its children. -/
theorem exists_child_of_mem_ancestors (hp : p ∈ (root node).preorder) (h : above ∈ p.ancestors) :
    ∃ child ∈ above.children, child ∈ p.chain := by
  induction p with
  | root => cases h
  | child parent i n ih =>
    rcases List.mem_cons.1 h with rfl | h
    · exact ⟨_, mem_children_of_parent? hp rfl, List.mem_cons_self⟩
    · obtain ⟨child, hchild, hmem⟩ :=
        ih (mem_preorder_of_mem_ancestors hp List.mem_cons_self) h
      exact ⟨child, hchild, List.mem_cons_of_mem _ hmem⟩

namespace IsTreeOver

variable (htree : (root node).IsTreeOver length)

include htree

/-- A place stands inside all that are above it. -/
theorem inside_of_mem_chain (hp : p ∈ (root node).preorder) (h : above ∈ p.chain) :
    above.span.start ≤ p.span.start ∧ p.span.stop ≤ above.span.stop := by
  induction p with
  | root =>
    rw [List.mem_singleton.1 h]
    exact ⟨Nat.le_refl _, Nat.le_refl _⟩
  | child parent i n ih =>
    rcases List.mem_cons.1 h with rfl | h
    · exact ⟨Nat.le_refl _, Nat.le_refl _⟩
    · have hparent := mem_preorder_of_mem_ancestors hp List.mem_cons_self
      obtain ⟨hstart, hstop⟩ := ih hparent h
      obtain ⟨hstart', hstop'⟩ :=
        htree.inside parent hparent _ (mem_children_of_parent? hp rfl)
      exact ⟨Nat.le_trans hstart hstart', Nat.le_trans hstop' hstop⟩

/-- Two children of one place are the same or stand apart. -/
theorem eq_or_apart (hp : p ∈ (root node).preorder) {a b : Place} (ha : a ∈ p.children)
    (hb : b ∈ p.children) :
    a = b ∨ a.span.stop ≤ b.span.start ∨ b.span.stop ≤ a.span.start := by
  have happart := htree.apart p hp
  let R (a b : Place) := a = b ∨ a.span.stop ≤ b.span.start ∨ b.span.stop ≤ a.span.start
  have hforth : p.children.Pairwise R := happart.imp fun h => .inr (.inl h)
  have hback : p.children.Pairwise (flip R) := happart.imp fun h => Or.inr (.inr h)
  exact hforth.forall_of_forall_of_flip (fun _ _ => .inl rfl) hback ha hb

/-- **Two places of a tree** stand one above the other, or apart. -/
theorem above_or_apart (hp : p ∈ (root node).preorder) (hq : q ∈ (root node).preorder) :
    p ∈ q.chain ∨ q ∈ p.chain ∨ p.span.stop ≤ q.span.start ∨ q.span.stop ≤ p.span.start := by
  induction p with
  | root n =>
    rw [← List.mem_singleton.1 (root_mem_chain hp)]
    exact .inl (root_mem_chain hq)
  | child parent i n ih =>
    have hparent := mem_preorder_of_mem_ancestors hp List.mem_cons_self
    have hchild := mem_children_of_parent? hp rfl
    obtain ⟨hstart, hstop⟩ := htree.inside parent hparent _ hchild
    rcases ih hparent with h | h | h | h
    · rcases List.mem_cons.1 h with rfl | h
      · exact .inr (.inl (List.mem_cons_of_mem _ List.mem_cons_self))
      · -- The two are at or below children of one place.
        obtain ⟨other, hother, hmem⟩ := exists_child_of_mem_ancestors hq h
        obtain ⟨hstart', hstop'⟩ := htree.inside_of_mem_chain hq hmem
        rcases htree.eq_or_apart hparent hchild hother with rfl | h | h
        · exact .inl hmem
        · exact .inr (.inr (.inl (Nat.le_trans h hstart')))
        · exact .inr (.inr (.inr (Nat.le_trans hstop' h)))
    · exact .inr (.inl (List.mem_cons_of_mem _ h))
    · exact .inr (.inr (.inl (Nat.le_trans hstop h)))
    · exact .inr (.inr (.inr (Nat.le_trans h hstart)))

end IsTreeOver

end

end Place
end TypeReveal
