import TypeReveal.Tree.Place

/-!
# Statement lists

The places of the statements in a block, the block that a statement belongs to, and the function
that encloses a place.

A statement belongs to a list of statements, of which an `if` has two.  Names are looked up with
conditionals flattened, and overloads are looked for in the list as it is.
-/

set_option autoImplicit false
namespace TypeReveal

namespace Node

/-- Whether a node is a statement. -/
def isStmt : Node → Bool
  | stmt _ => true
  | _ => false

/-- Whether a node is a function definition. -/
def isFunction : Node → Bool
  | stmt (.function ..) => true
  | _ => false

/-- Whether a node is a class definition. -/
def isClass : Node → Bool
  | stmt (.classDef ..) => true
  | _ => false

end Node

namespace Place

/-- The statements directly below a place; those of an `else` come after those of its `if`. -/
def stmts (place : Place) : List Place := place.children.filter (·.node.isStmt)

/-- The parameters of a function definition. -/
def params (place : Place) : List Place :=
  place.children.filter fun p =>
    match p.node with
    | .param _ => true
    | _ => false

theorem mem_children_of_mem_stmts {place child : Place} (h : child ∈ place.stmts) :
    child ∈ place.children :=
  (List.mem_filter.1 h).1

/-- The statement lists directly below a place. -/
def blocks (place : Place) : List (List Place) :=
  match place.node with
  | .file .. | .stmt (.function ..) | .stmt (.classDef ..) => [place.stmts]
  | .stmt (.conditional _ _ body _) =>
    [place.stmts.take body.length, place.stmts.drop body.length]
  | _ => []

/-- The statement list that a place belongs to. -/
def siblings? (place : Place) : Option (List Place) := do
  let parent ← place.parent?
  parent.blocks.find? fun block => block.any (· == place)

/-! ## Flat blocks -/

/-- What `flatten` gives for a statement with conditionals nested less than `depth` deep. -/
def flattenWithin : (depth : Nat) → Place → List Place
  | 0, _ => []
  | depth + 1, place =>
    match place.node with
    | .stmt (.conditional ..) => place.stmts.flatMap (flattenWithin depth)
    | _ => [place]

theorem flattenWithin_eq {m n : Nat} {place : Place} (hm : place.node.size ≤ m)
    (hn : place.node.size ≤ n) : flattenWithin m place = flattenWithin n place := by
  induction m generalizing n place with
  | zero => have := place.node.size_eq; omega
  | succ m ih =>
    cases n with
    | zero => have := place.node.size_eq; omega
    | succ n =>
      simp only [flattenWithin]
      split
      · simp only [List.flatMap_def]
        congr 1
        refine List.map_congr_left fun stmt hstmt => ?_
        have := size_lt_of_mem_children (mem_children_of_mem_stmts hstmt)
        exact ih (by omega) (by omega)
      · rfl

/-- A statement, a conditional being replaced by the statements of its branches, flattened as
well. -/
def flatten (place : Place) : List Place := flattenWithin place.node.size place

theorem flatten_eq (place : Place) :
    place.flatten =
      match place.node with
      | .stmt (.conditional ..) => place.stmts.flatMap flatten
      | _ => [place] := by
  rw [flatten, flattenWithin_eq (Nat.le_refl _) (Nat.le_succ _)]
  simp only [flattenWithin]
  split
  · simp only [List.flatMap_def]
    congr 1
    refine List.map_congr_left fun stmt hstmt => ?_
    have := size_lt_of_mem_children (mem_children_of_mem_stmts hstmt)
    exact flattenWithin_eq (by omega) (Nat.le_refl _)
  · rfl

/-- The statements directly below a place, conditionals flattened. -/
def flatStmts (place : Place) : List Place := place.stmts.flatMap flatten

/-! ## Functions -/

/-- The innermost function definition above a place. -/
def function? (place : Place) : Option Place :=
  place.ancestors.find? (·.node.isFunction)

end Place
end TypeReveal
