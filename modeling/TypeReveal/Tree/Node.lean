import TypeReveal.Syntax.Stmt
import TypeReveal.Text.Position

/-!
# Nodes

A file is a tree whose nodes are the file itself, its statements, the parameters of its functions
and its expressions.  `Node.children` gives the nodes directly below a node in the order of their
text, and `Node.size` counts the nodes of a subtree; the two agree (`Node.size_eq`).

Expressions, statements and parameters are types of their own, since the readers yield them
separately.  Nodes put them into one type, by which places, queries and traversals treat them alike.
-/

set_option autoImplicit false
namespace TypeReveal

/-- A node of a tree. -/
inductive Node where
  | file (span : Span) (body : List Stmt)
  | stmt (stmt : Stmt)
  | param (param : Param)
  | expr (expr : Expr)
deriving Repr

/-! ## Children -/

/-- The nodes below a parameter. -/
def Param.children (param : Param) : List Node :=
  (param.annotation?.toList ++ param.default?.toList).map .expr

/-- The nodes directly below a statement. -/
def Stmt.children : Stmt → List Node
  | .function _ _ decorators params result? body =>
    decorators.map .expr ++ params.map .param ++ result?.toList.map .expr ++ body.map .stmt
  | .classDef _ _ bases body => bases.map .expr ++ body.map .stmt
  | .conditional _ cond body orelse => .expr cond :: (body.map .stmt ++ orelse.map .stmt)
  | .binding _ _ annotation? value? => (annotation?.toList ++ value?.toList).map .expr
  | .result _ value? => value?.toList.map .expr
  | .imports .. => []
  | .expr _ value => [.expr value]
  | .pass _ => []

namespace Node

/-- The nodes directly below a node, in the order of their text. -/
def children : Node → List Node
  | file _ body => body.map .stmt
  | stmt s => s.children
  | param p => p.children
  | expr e => e.children.map .expr

/-- Where a node stands. -/
def span : Node → Span
  | file span _ => span
  | stmt s => s.span
  | param p => p.span
  | expr e => e.span

/-- The text of a node of the file `source`; it counts as empty if the node starts inside a
character. -/
def text (source : List Char) (node : Node) : List Char :=
  (byteSlice? source node.span.start node.span.stop).getD []

/-- The name a node declares, if it is a declaration. -/
def declared? : Node → Option String
  | stmt (.function _ name ..) | stmt (.classDef _ name ..) | stmt (.binding _ name ..) => some name
  | param p => some p.name
  | _ => none

end Node

/-! ## Sizes -/

/-- The number of nodes of a parameter. -/
def Param.size (param : Param) : Nat :=
  1 + Expr.sizes param.annotation?.toList + Expr.sizes param.default?.toList

/-- The number of nodes of a list of parameters. -/
def Param.sizes : List Param → Nat
  | [] => 0
  | param :: params => param.size + Param.sizes params

mutual

/-- The number of nodes of a statement. -/
def Stmt.size : Stmt → Nat
  | .function _ _ decorators params result? body =>
    1 + Expr.sizes decorators + Param.sizes params + Expr.sizes result?.toList + Stmt.sizes body
  | .classDef _ _ bases body => 1 + Expr.sizes bases + Stmt.sizes body
  | .conditional _ cond body orelse => 1 + cond.size + Stmt.sizes body + Stmt.sizes orelse
  | .binding _ _ annotation? value? =>
    1 + Expr.sizes annotation?.toList + Expr.sizes value?.toList
  | .result _ value? => 1 + Expr.sizes value?.toList
  | .imports .. => 1
  | .expr _ value => 1 + value.size
  | .pass _ => 1

/-- The number of nodes of a list of statements. -/
def Stmt.sizes : List Stmt → Nat
  | [] => 0
  | s :: rest => s.size + Stmt.sizes rest

end

namespace Node

/-- The number of nodes of a subtree. -/
def size : Node → Nat
  | file _ body => 1 + Stmt.sizes body
  | stmt s => s.size
  | param p => p.size
  | expr e => e.size

/-- The number of nodes of a list of subtrees. -/
def sizes : List Node → Nat
  | [] => 0
  | node :: nodes => node.size + sizes nodes

@[simp] theorem sizes_nil : sizes [] = 0 := rfl

@[simp] theorem sizes_cons (node : Node) (nodes : List Node) :
    sizes (node :: nodes) = node.size + sizes nodes := rfl

@[simp] theorem sizes_append (nodes more : List Node) :
    sizes (nodes ++ more) = sizes nodes + sizes more := by
  induction nodes with
  | nil => simp
  | cons node nodes ih => simp [ih, Nat.add_assoc]

@[simp] theorem sizes_map_expr (es : List Expr) : sizes (es.map expr) = Expr.sizes es := by
  induction es with
  | nil => rfl
  | cons e es ih => simp [Expr.sizes, size, ih]

@[simp] theorem sizes_map_param (params : List Param) :
    sizes (params.map param) = Param.sizes params := by
  induction params with
  | nil => rfl
  | cons p params ih => simp [Param.sizes, size, ih]

@[simp] theorem sizes_map_stmt (stmts : List Stmt) :
    sizes (stmts.map stmt) = Stmt.sizes stmts := by
  induction stmts with
  | nil => rfl
  | cons s stmts ih => simp [Stmt.sizes, size, ih]

theorem size_le_sizes {node : Node} {nodes : List Node} (h : node ∈ nodes) :
    node.size ≤ sizes nodes := by
  induction nodes with
  | nil => cases h
  | cons head nodes ih =>
    rw [sizes_cons]
    rcases List.mem_cons.1 h with rfl | h
    · exact Nat.le_add_right _ _
    · exact Nat.le_trans (ih h) (Nat.le_add_left _ _)

end Node

theorem Expr.size_eq (e : Expr) : e.size = 1 + Expr.sizes e.children := by
  cases e <;> simp [Expr.size, Expr.children, Expr.sizes, Nat.add_assoc]

theorem Expr.size_lt_of_mem_children {e c : Expr} (hc : c ∈ e.children) : c.size < e.size := by
  have h := Node.size_le_sizes (List.mem_map_of_mem (f := Node.expr) hc)
  rw [Node.sizes_map_expr] at h
  rw [e.size_eq]
  exact Nat.lt_one_add_iff.2 h

/-- A subtree has its root and the subtrees below it. -/
theorem Node.size_eq (node : Node) : node.size = 1 + Node.sizes node.children := by
  cases node with
  | file span body => simp [size, children]
  | param p =>
    cases ha : p.annotation? <;> cases hd : p.default? <;>
      simp [size, children, Param.size, Param.children, ha, hd, Expr.sizes, Nat.add_assoc]
  | expr e => simpa [size, children] using e.size_eq
  | stmt s =>
    cases s with
    | function span name decorators params result? body =>
      simp [size, children, Stmt.size, Stmt.children, Nat.add_assoc]
    | classDef span name bases body =>
      simp [size, children, Stmt.size, Stmt.children, Nat.add_assoc]
    | conditional span cond body orelse =>
      simp [size, children, Stmt.size, Stmt.children, Nat.add_assoc]
    | binding span name annotation? value? =>
      cases annotation? <;> cases value? <;>
        simp [size, children, Stmt.size, Stmt.children, Expr.sizes, Nat.add_assoc]
    | result span value? => simp [size, children, Stmt.size, Stmt.children]
    | imports => simp [size, children, Stmt.size, Stmt.children]
    | expr span value => simp [size, children, Stmt.size, Stmt.children]
    | pass => simp [size, children, Stmt.size, Stmt.children]

end TypeReveal
