import TypeReveal.Tree.Node

/-!
# Places

A place is a node together with everything above it.  Places are numbered in the order of the text,
a node before the nodes below it; the number identifies the place in its tree.

`Place.preorder` lists a place and all places below it in that order.

A place holds the way down to it, so the places above are parts of it and need not be searched for.
Two places with one number are the same place if they are of one tree, and only places of one tree
are compared.
-/

set_option autoImplicit false
namespace TypeReveal

/-- A node of a tree, with the way to it. -/
inductive Place where
  | root (node : Node)
  | child (parent : Place) (index : Nat) (node : Node)

namespace Place

/-- The node at a place. -/
def node : Place → Node
  | root node => node
  | child _ _ node => node

/-- The number of a place in its tree. -/
def index : Place → Nat
  | root _ => 0
  | child _ index _ => index

/-- The place directly above. -/
def parent? : Place → Option Place
  | root _ => none
  | child parent _ _ => some parent

/-- Where the node of a place stands in the text. -/
def span (place : Place) : Span := place.node.span

/-- The name that the node of a place declares. -/
def declared? (place : Place) : Option String := place.node.declared?

instance : BEq Place := ⟨fun a b => a.index == b.index⟩

/-! ## Above -/

/-- The places above, the innermost first. -/
def ancestors : Place → List Place
  | root _ => []
  | child parent _ _ => parent :: parent.ancestors

/-- A place and the places above it, the innermost first. -/
def chain (place : Place) : List Place := place :: place.ancestors

/-- Whether a place is `other` or lies below it. -/
def isInside (place other : Place) : Bool := place.chain.any (· == other)

/-! ## Below -/

/-- The places of neighbouring nodes, of which the first has the number `index`. -/
def placeAll (parent : Place) (index : Nat) : List Node → List Place
  | [] => []
  | node :: nodes => child parent index node :: placeAll parent (index + node.size) nodes

/-- The places directly below, in the order of their text. -/
def children (place : Place) : List Place :=
  placeAll place (place.index + 1) place.node.children

theorem node_of_mem_placeAll {parent : Place} {nodes : List Node} {index : Nat} {place : Place}
    (h : place ∈ placeAll parent index nodes) : place.node ∈ nodes := by
  induction nodes generalizing index with
  | nil => simp [placeAll] at h
  | cons node nodes ih =>
    rcases List.mem_cons.1 h with rfl | h
    · exact List.mem_cons_self
    · exact List.mem_cons_of_mem _ (ih h)

theorem size_lt_of_mem_children {place below : Place} (h : below ∈ place.children) :
    below.node.size < place.node.size := by
  have := Node.size_le_sizes (node_of_mem_placeAll h)
  rw [place.node.size_eq]
  omega

/-- The first `depth` levels of the tree at a place, in the order of the text. -/
def levels : (depth : Nat) → Place → List Place
  | 0, _ => []
  | depth + 1, place => place :: place.children.flatMap (levels depth)

/-- A tree has no more levels than nodes. -/
theorem levels_eq_levels {m n : Nat} {place : Place} (hm : place.node.size ≤ m)
    (hn : place.node.size ≤ n) : levels m place = levels n place := by
  induction m generalizing n place with
  | zero => have := place.node.size_eq; omega
  | succ m ih =>
    cases n with
    | zero => have := place.node.size_eq; omega
    | succ n =>
      simp only [levels, List.flatMap_def]
      congr 2
      refine List.map_congr_left fun below hbelow => ?_
      have := size_lt_of_mem_children hbelow
      exact ih (by omega) (by omega)

/-- A place and all places below it, in the order of the text. -/
def preorder (place : Place) : List Place := levels place.node.size place

theorem preorder_eq (place : Place) :
    place.preorder = place :: place.children.flatMap preorder := by
  rw [preorder, levels_eq_levels (Nat.le_refl _) (Nat.le_succ _)]
  simp only [levels, List.flatMap_def]
  congr 2
  refine List.map_congr_left fun below hbelow => ?_
  have := size_lt_of_mem_children hbelow
  exact levels_eq_levels (by omega) (Nat.le_refl _)

end Place
end TypeReveal
