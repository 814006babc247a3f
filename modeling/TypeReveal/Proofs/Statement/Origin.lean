import TypeReveal.Proofs.Annotation.Lengths
import TypeReveal.Proofs.Statement.Extent

/-!
# Where the expressions of a file come from

Every expression of a file that is read is one that is read from a segment, or a part of one
(`Node.isRead_of_read`).  What holds of all parts of an expression that is read from a text
therefore holds of all expressions of a file.

Parts of statements are read at different places, from parameters, bases, conditions, decorators,
annotations and values, and all of them by the same function of a segment.  The module goes through
the readers once to say so, and what is needed of expressions of a file is then an induction on
expressions only.
-/

set_option autoImplicit false
namespace TypeReveal

/-- An expression that is read from a segment, or a part of one. -/
def Expr.IsRead (e : Expr) : Prop :=
  ∃ seg outer, Segment.expr seg = .ok outer ∧ (e = outer ∨ outer.HasPart e)

/-- If a node is an expression, then it is read from a segment. -/
def Node.IsSourced : Node → Prop
  | expr e => e.IsRead
  | file .. | stmt _ | param _ => True

/-- Nodes all of whose expressions are read from segments. -/
def Sourced (nodes : List Node) : Prop := ∀ node ∈ nodes, node.Everywhere Node.IsSourced

variable {seg line head rest inline : Segment} {e : Expr}

/-! ## Expressions

The parts of an expression are parts of what is read from the segment. -/

theorem Expr.IsRead.everywhere {e : Expr} (h : e.IsRead) :
    Node.Everywhere Node.IsSourced (.expr e) := by
  obtain ⟨seg, outer, hread, he⟩ := h
  refine .intro ⟨seg, outer, hread, he⟩ fun child hchild => ?_
  obtain ⟨c, hc, rfl⟩ := List.mem_map.1 hchild
  have hlt := Expr.size_lt_of_mem_children hc
  refine Expr.IsRead.everywhere ⟨seg, outer, hread, .inr ?_⟩
  rcases he with rfl | he
  · exact Expr.hasPart_of_mem hc
  · exact he.trans (Expr.hasPart_of_mem hc)
termination_by e.size

/-- All parts of what is read from a segment are parts of what is read from it. -/
theorem everywhere_of_expr (h : seg.expr = .ok e) : Node.Everywhere Node.IsSourced (.expr e) :=
  Expr.IsRead.everywhere ⟨seg, e, h, .inl rfl⟩

namespace Sourced

variable {nodes more : List Node}

theorem nil : Sourced [] := fun _ h => absurd h List.not_mem_nil

theorem append (h : Sourced nodes) (h' : Sourced more) : Sourced (nodes ++ more) :=
  List.forall_mem_append.2 ⟨h, h'⟩

theorem singleton {node : Node} (h : node.Everywhere Node.IsSourced) : Sourced [node] :=
  List.forall_mem_singleton.2 h

/-- A node that is no expression is as its children are. -/
theorem node {node : Node} (h : Sourced node.children) (hnode : node.IsSourced) :
    Sourced [node] :=
  singleton (.intro hnode h)

theorem expr (h : seg.expr = .ok e) : Sourced [.expr e] := singleton (everywhere_of_expr h)

theorem map_stmt {body : List Stmt} (h : ∀ s ∈ body, Sourced [.stmt s]) :
    Sourced (body.map .stmt) := by
  intro node hnode
  obtain ⟨s, hs, rfl⟩ := List.mem_map.1 hnode
  exact h s hs _ List.mem_cons_self

end Sourced

/-! ## Simple statements

From the lemmas that say what has been read when a reader ends. -/

theorem sourced_of_readBinding {annotation? value? : Option Expr} {colon? equals? : Option Nat}
    (h : readBinding seg colon? equals? = .ok (annotation?, value?)) :
    Sourced ((annotation?.toList ++ value?.toList).map .expr) := by
  cases readBinding_eq_ok.1 h with
  | both _ hhint hvalue => exact (Sourced.expr hhint).append (.expr hvalue)
  | value _ hvalue => exact .expr hvalue
  | hint hhint => exact .expr hhint
  | nothing => exact .nil

/-- **The expressions of a statement without a block** are read from segments. -/
theorem Stmt.sourced_of_readSimple {s : Stmt} (h : Stmt.readSimple seg = .ok s) :
    Sourced [.stmt s] := by
  refine .node ?_ trivial
  cases isSimpleIn_of_readSimple h with
  | pass | imports | nothing => exact .nil
  | result _ hvalue | expr hvalue => exact .expr hvalue
  | binding hbinding => exact sourced_of_readBinding hbinding

/-! ## Headers

The expressions in parameters, results, bases and conditions. -/

theorem sourced_of_readNamedParam {p : Param} (h : readNamedParam seg = .ok p) :
    Sourced [.param p] := by
  obtain ⟨name, -, -, -, annotation?, default?, hread, rfl⟩ := exists_of_readNamedParam h
  exact .node (sourced_of_readBinding hread) trivial

theorem sourced_of_readParams {params : List Param} (h : readParams seg = .ok params) :
    Sourced (params.map .param) := by
  intro node hnode
  obtain ⟨p, hp, rfl⟩ := List.mem_map.1 hnode
  obtain ⟨part, hpart⟩ := exists_readNamedParam_of_mem h hp
  exact sourced_of_readNamedParam hpart _ List.mem_cons_self

/-- The annotations and defaults of parameters, and the result. -/
theorem sourced_of_readFunction {header : Header}
    (h : readFunction line rest = .ok (header, inline)) : Sourced header.nodes := by
  obtain ⟨_, _, -, -, -, _, params, result?, -, hresult, hparams, rfl⟩ := readFunction_eq_ok.1 h
  refine (sourced_of_readParams hparams).append ?_
  rcases readResultType_cases hresult with ⟨-, e, he, rfl⟩ | ⟨-, rfl⟩
  · exact .expr he
  · exact .nil

theorem sourced_of_readClass {header : Header}
    (h : readClass line rest = .ok (header, inline)) : Sourced header.nodes := by
  obtain ⟨head, name, bases, -, rfl, -, ⟨-, -, rfl⟩ | ⟨n, -, -, hbases⟩⟩ := readClass_eq_ok.1 h
  · exact .nil
  · obtain ⟨m, -, -, hparts⟩ := exists_of_readBases hbases
    intro node hnode
    obtain ⟨e, he, rfl⟩ := List.mem_map.1 hnode
    obtain ⟨part, -, hpart⟩ := exists_of_mem_mapM hparts he
    exact everywhere_of_expr hpart

theorem sourced_of_readCondition {cond : Expr} (h : readCondition rest = .ok (cond, inline)) :
    Sourced [.expr cond] := by
  obtain ⟨head, -, he⟩ := readCondition_eq_ok.1 h
  exact .expr he

/-- **The expressions of a header** are read from segments. -/
theorem Header.sourced_of_readHeader? {chained : Bool} {header : Header}
    (h : readHeader? chained line = some (.ok (header, inline))) : Sourced header.nodes := by
  rcases readHeader?_cases h with ⟨rest, -, hread⟩ | ⟨rest, -, hread⟩ |
    ⟨rest, cond, -, hread, rfl⟩ | ⟨-, rest, cond, -, hread, rfl⟩ | ⟨-, rest, head, -, -, rfl⟩
  · exact sourced_of_readFunction hread
  · exact sourced_of_readClass hread
  · exact sourced_of_readCondition hread
  · exact sourced_of_readCondition hread
  · exact .nil

/-! ## Clauses

Joining clauses makes no expressions. -/

namespace Clause

/-- The nodes of a clause. -/
def nodes : Clause → List Node
  | stmt s => [.stmt s]
  | conditional _ cond body | alternative _ cond body => .expr cond :: body.map .stmt
  | otherwise body => body.map .stmt

theorem sourced_join {line : Span} {cond : Expr} {body orelse : List Stmt}
    (hbody : Sourced (.expr cond :: body.map .stmt)) (horelse : Sourced (orelse.map .stmt)) :
    Sourced [.stmt (join line cond body orelse)] :=
  .node (hbody.append horelse) trivial

/-- **The statements that clauses make up** have the expressions of the clauses. -/
theorem sourced_statements {clauses : List Clause} (h : ∀ clause ∈ clauses, Sourced clause.nodes) :
    Sourced ((statements clauses).map .stmt) := by
  have heach : ∀ s ∈ statements clauses, Sourced [.stmt s] :=
    forall_statements (P := fun s => Sourced [.stmt s]) (Q := fun clause => Sourced clause.nodes) id
      (fun hbody horelse => sourced_join hbody (.map_stmt horelse)) id
      (fun hbody s hs => .singleton (hbody _ (List.mem_map_of_mem hs))) h
  exact .map_stmt heach

/-- A clause has the expressions of its decorators, its header and its block. -/
theorem sourced_ofHeader {header : Header} {decorators : List Expr} {body : List Stmt}
    (hdecorators : Sourced (decorators.map .expr)) (hheader : Sourced header.nodes)
    (hbody : Sourced (body.map .stmt)) (line : Span) :
    Sourced (ofHeader line decorators header body).nodes := by
  cases header with
  | function name params result? =>
    refine .node ?_ trivial
    rw [Node.children, Stmt.children, List.append_assoc (decorators.map Node.expr)]
    exact (hdecorators.append hheader).append hbody
  | classDef name bases => exact .node (hheader.append hbody) trivial
  | conditional cond => exact hheader.append hbody
  | alternative cond => exact hheader.append hbody
  | otherwise => exact hbody

end Clause

/-! ## Files -/

/-- **The expressions of a block** are read from segments. -/
theorem Outline.sourced_of_clauses {o : Outline} {indent : Nat} {decorators : List Expr}
    {chained : Bool} {clauses : List Clause}
    (h : o.clauses indent decorators chained = .ok clauses)
    (hdecorators : Sourced (decorators.map .expr)) :
    ∀ clause ∈ clauses, Sourced clause.nodes := by
  induction o generalizing indent decorators chained clauses with
  | nil =>
    obtain ⟨-, rfl⟩ := clauses_nil_eq_ok.1 h
    exact List.forall_mem_nil _
  | cons line nested rest ihnested ihrest =>
    obtain ⟨-, ⟨-, d, hd, rfl, hclauses⟩ | ⟨-, clause, more, rfl, hmore, hcases⟩⟩ :=
      clauses_cases h
    · refine ihrest hclauses ?_
      rw [List.map_append]
      exact hdecorators.append (.expr hd)
    · refine List.forall_mem_cons.2 ⟨?_, ihrest hmore .nil⟩
      rcases hcases with ⟨s, rfl, -, -, hs, -⟩ | ⟨header, inline, body, rfl, hheader, hblock⟩
      · exact Stmt.sourced_of_readSimple hs
      · refine Clause.sourced_ofHeader hdecorators (Header.sourced_of_readHeader? hheader) ?_ _
        rcases hblock with ⟨-, -, s, hs, rfl⟩ | ⟨-, first, block, -, hblock, rfl⟩
        · exact Stmt.sourced_of_readSimple hs
        · exact Clause.sourced_statements (ihnested hblock .nil)

/-- **Every expression of a file** is read from a segment, or is a part of one that is. -/
theorem Node.isRead_of_read {source : List Char} {node : Node} (h : Node.read source = .ok node)
    {place : Place} (hplace : place ∈ (Place.root node).preorder) (he : place.node = .expr e) :
    e.IsRead := by
  have hall : Node.Everywhere Node.IsSourced (Place.root node).node := by
    obtain ⟨clauses, hclauses, rfl⟩ := Node.read_eq_ok.1 h
    exact .intro trivial (Clause.sourced_statements (Outline.sourced_of_clauses hclauses .nil))
  have hsourced := hall.of_mem_preorder hplace
  rw [he] at hsourced
  exact hsourced

/-- Every part of an expression that is read from a segment is quoting. -/
theorem Expr.IsRead.quoting (h : e.IsRead) : e.Quoting := by
  obtain ⟨seg, outer, hread, he⟩ := h
  exact Expr.quoting_of_read (Segment.expr_eq_ok.1 hread) e he

end TypeReveal
