import TypeReveal.Proofs.Statement.Nesting
import TypeReveal.Proofs.Statement.Simple

/-!
# What takes up text

The spans of statements and of parameters are not empty, and a function starts strictly before all
that is below it: at its `def`, or one byte before its first decorator (`Node.isExtended_of_read`).

A statement without a block is read from a line that is not blank; any other holds a statement or
starts with the line of its header.  So what is proved of each node that is read is that it takes up
text if no statement is below it (`Node.TakesText`); that the span of a statement is not empty then
follows from the tree (`Place.start_lt_stop_of_isStmt`).
-/

set_option autoImplicit false
namespace TypeReveal

namespace Node

/-! ## Nodes of a subtree

A predicate of nodes is carried through a whole subtree. -/

/-- `P` holds of a node and of all nodes below it. -/
inductive Everywhere (P : Node → Prop) : Node → Prop
  | intro {node : Node} (here : P node) (below : ∀ child ∈ node.children, Everywhere P child) :
    Everywhere P node

variable {P : Node → Prop}

theorem Everywhere.of_mem_preorder {root place : Place} (h : Everywhere P root.node)
    (hplace : place ∈ root.preorder) : P place.node := by
  have hall : Everywhere P place.node := by
    induction Place.mem_preorder_iff.1 hplace with
    | refl => exact h
    | tail hparent hchild ih =>
      cases ih (Place.mem_preorder_iff.2 hparent) with
      | intro _ below => exact below _ (Place.node_of_mem_placeAll hchild)
  cases hall with
  | intro here _ => exact here

/-- A statement that holds no statements takes up text, and so does a parameter; a function starts
before its parts. -/
def TakesText : Node → Prop
  | stmt s => ((∀ child ∈ s.children, child.isStmt = false) → s.span.start < s.span.stop) ∧
    ((stmt s).isFunction = true → ∀ child ∈ s.children, s.span.start < child.span.start)
  | param p => p.span.start < p.span.stop
  | file .. | expr _ => True

theorem everywhere_takesText_expr (e : Expr) : Everywhere TakesText (.expr e) := by
  refine .intro trivial fun child hchild => ?_
  have hlt : child.size < (Node.expr e).size := by
    have hle := Node.size_le_sizes hchild
    rw [(Node.expr e).size_eq]
    omega
  obtain ⟨c, -, rfl⟩ := List.mem_map.1 hchild
  exact everywhere_takesText_expr c
termination_by (Node.expr e).size

end Node

/-! ## Segments

A segment with text in it starts before it ends, and a blank segment is read as nothing. -/

variable {seg line inline : Segment} {e : Expr} {lo hi : Nat}

theorem Segment.start_lt_stop (h : seg.text ≠ []) : seg.start < seg.span.stop := by
  obtain ⟨c, rest, htext⟩ := List.exists_cons_of_ne_nil h
  rw [span, htext]
  exact Nat.lt_add_of_pos_right (Nat.add_pos_left c.utf8Size_pos _)

theorem Segment.ne_nil_of_expr (h : seg.expr = .ok e) : seg.text ≠ [] := by
  intro hnil
  have htrim : seg.trim.text = [] := by
    rw [trim, hnil]
    rfl
  rw [expr, htrim, Expr.read, lexemes.eq_def] at h
  cases h

/-! ## Statements without a block -/

namespace Stmt

variable {s : Stmt}

theorem ne_nil_of_readSimple (h : readSimple seg = .ok s) : seg.text ≠ [] := by
  intro hnil
  have hkeyword {keyword : String} (hk : keyword ∈ keywords) :
      seg.afterKeyword? keyword = none := by
    refine Segment.afterKeyword?_eq_none hk ?_
    rw [hnil]
    exact (by decide : ∀ k ∈ keywords, Segment.firstWord [] ≠ k.toList) keyword hk
  have hplain : boundName? seg = none := by
    rw [boundName?, Segment.index?, Segment.index?, hnil]
    rfl
  rw [readSimple, hkeyword (by decide), hkeyword (by decide), hkeyword (by decide),
    hkeyword (by decide), Option.any_none, if_neg Bool.false_ne_true] at h
  simp only [readPlain, hplain] at h
  obtain ⟨_, hexpr, -⟩ := bind_eq_ok.1 h
  exact Segment.ne_nil_of_expr hexpr hnil

theorem isSimple_of_readSimple (h : readSimple seg = .ok s) : s.isSimple = true := by
  cases isSimpleIn_of_readSimple h <;> rfl

/-- Only expressions are below a statement without a block. -/
theorem exists_expr_of_mem_children (h : s.isSimple = true) {child : Node}
    (hchild : child ∈ s.children) : ∃ e, child = .expr e := by
  cases s with
  | function | classDef | conditional => cases h
  | binding | result =>
    obtain ⟨e, -, rfl⟩ := List.mem_map.1 hchild
    exact ⟨e, rfl⟩
  | expr span value => exact ⟨value, List.mem_singleton.1 hchild⟩
  | imports | pass => cases hchild

/-- **A statement without a block** takes up text. -/
theorem everywhere_of_readSimple (h : readSimple seg = .ok s) :
    Node.Everywhere Node.TakesText (.stmt s) := by
  have hsimple := isSimple_of_readSimple h
  refine .intro ⟨fun _ => ?_, fun hfunction => ?_⟩ fun child hchild => ?_
  · rw [(fills_of_readSimple h).1]
    exact Segment.start_lt_stop (ne_nil_of_readSimple h)
  · cases s with
    | function => cases hsimple
    | _ => cases hfunction
  · obtain ⟨e, rfl⟩ := exists_expr_of_mem_children hsimple hchild
    exact Node.everywhere_takesText_expr e

end Stmt

/-! ## Headers

The nodes in a header are parameters, and expressions, for which nothing is asked. -/

/-- A parameter has a name. -/
theorem takesText_of_readNamedParam {p : Param} (h : readNamedParam seg = .ok p) :
    (Node.param p).TakesText := by
  obtain ⟨name, hname, hproper, -, annotation?, default?, -, rfl⟩ := exists_of_readNamedParam h
  refine Segment.start_lt_stop fun hnil => ?_
  rw [← hname, hnil, List.take_nil] at hproper
  cases hproper

theorem takesText_of_readFunction {name : String} {params : List Param} {result? : Option Expr}
    (h : readFunction line seg = .ok (.function name params result?, inline)) :
    ∀ p ∈ params, (Node.param p).TakesText := by
  obtain ⟨_, _, -, -, -, _, _, _, -, -, hparams, heq⟩ := readFunction_eq_ok.1 h
  cases heq
  intro p hp
  obtain ⟨part, hpart⟩ := exists_readNamedParam_of_mem hparams hp
  exact takesText_of_readNamedParam hpart

/-- The header of a function is the one that is written after `def`. -/
theorem exists_readFunction_of_readHeader? {chained : Bool} {name : String} {params : List Param}
    {result? : Option Expr}
    (h : readHeader? chained line = some (.ok (.function name params result?, inline))) :
    ∃ rest, line.afterKeyword? "def" = some rest ∧
      readFunction line rest = .ok (.function name params result?, inline) := by
  rcases readHeader?_cases h with hread | ⟨_, -, hread⟩ | ⟨_, _, -, -, heq⟩ | ⟨-, _, _, -, -, heq⟩ |
    ⟨-, _, _, -, -, heq⟩
  · exact hread
  · obtain ⟨_, _, _, -, heq, -⟩ := readClass_eq_ok.1 hread
    cases heq
  · cases heq
  · cases heq
  · cases heq

/-- **The nodes of a header** take up text. -/
theorem Header.everywhere_of_readHeader? {chained : Bool} {header : Header}
    (h : readHeader? chained line = some (.ok (header, inline))) :
    ∀ node ∈ header.nodes, Node.Everywhere Node.TakesText node := by
  intro node hnode
  have hmap {es : List Expr} (hmem : node ∈ es.map Node.expr) :
      Node.Everywhere Node.TakesText node := by
    obtain ⟨e, -, rfl⟩ := List.mem_map.1 hmem
    exact Node.everywhere_takesText_expr e
  cases header with
  | function name params result? =>
    obtain ⟨rest, -, hread⟩ := exists_readFunction_of_readHeader? h
    rcases List.mem_append.1 hnode with hmem | hmem
    · obtain ⟨p, hp, rfl⟩ := List.mem_map.1 hmem
      refine .intro (takesText_of_readFunction hread p hp) fun child hchild => ?_
      obtain ⟨e, -, rfl⟩ := List.mem_map.1 hchild
      exact Node.everywhere_takesText_expr e
    · exact hmap hmem
  | classDef name bases => exact hmap hnode
  | conditional cond => exact hmap (show node ∈ [cond].map Node.expr from hnode)
  | alternative cond => exact hmap (show node ∈ [cond].map Node.expr from hnode)
  | otherwise => cases hnode

/-! ## Clauses

Joining two clauses makes a conditional, which holds statements if it does not take up text of its
own. -/

namespace Clause

/-- A clause whose statements take up text, its line being the first of a conditional. -/
def TakesText : Clause → Prop
  | stmt s => Node.Everywhere Node.TakesText (.stmt s)
  | conditional line _ body | alternative line _ body =>
    line.start < line.stop ∧ ∀ s ∈ body, Node.Everywhere Node.TakesText (.stmt s)
  | otherwise body => ∀ s ∈ body, Node.Everywhere Node.TakesText (.stmt s)

/-- Joining makes a conditional of its condition and its branches, and of the line that it starts
on. -/
theorem everywhere_join {line : Span} {cond : Expr} {body orelse : List Stmt}
    (hline : line.start < line.stop) (hbody : ∀ s ∈ body, Node.Everywhere Node.TakesText (.stmt s))
    (horelse : ∀ s ∈ orelse, Node.Everywhere Node.TakesText (.stmt s)) :
    Node.Everywhere Node.TakesText (.stmt (join line cond body orelse)) := by
  refine .intro ⟨fun hnone => ?_, fun hfunction => by cases hfunction⟩ fun child hchild => ?_
  · have hempty {more : List Stmt} (hmore : ∀ s ∈ more, s ∈ body ++ orelse) : more = [] := by
      cases more with
      | nil => rfl
      | cons s more =>
        have hmem : Node.stmt s ∈ (join line cond body orelse).children := by
          refine List.mem_cons_of_mem _ ?_
          rw [← List.map_append]
          exact List.mem_map_of_mem (hmore s List.mem_cons_self)
        cases hnone _ hmem
    rw [hempty fun s hs => List.mem_append_left orelse hs,
      hempty fun s hs => List.mem_append_right body hs]
    exact hline
  · rcases List.mem_cons.1 hchild with rfl | hchild
    · exact Node.everywhere_takesText_expr cond
    · rcases List.mem_append.1 hchild with hchild | hchild
      · obtain ⟨s, hs, rfl⟩ := List.mem_map.1 hchild
        exact hbody s hs
      · obtain ⟨s, hs, rfl⟩ := List.mem_map.1 hchild
        exact horelse s hs

/-- **The statements that clauses make up** take up text if the clauses do. -/
theorem everywhere_statements {clauses : List Clause} (h : ∀ clause ∈ clauses, clause.TakesText) :
    ∀ s ∈ statements clauses, Node.Everywhere Node.TakesText (.stmt s) :=
  forall_statements id (fun hclause horelse => everywhere_join hclause.1 hclause.2 horelse) id id h

/-- A function starts before its first decorator, or else where its line does. -/
theorem start_lt_of_mem_function {decorators : List Expr} {nodes : List Node} {mid stop : Nat}
    (hdecorators : DecoratorsLaid lo line.start decorators)
    (hsign : ∀ d ∈ decorators, 0 < d.span.start) (hmid : line.start < mid)
    (hnodes : Node.Laid mid stop nodes) :
    ∀ child ∈ decorators.map Node.expr ++ nodes,
      decoratorsStart line.start decorators < child.span.start := by
  intro child hchild
  have hle : decoratorsStart line.start decorators ≤ line.start := hdecorators.2.le
  rcases List.mem_append.1 hchild with hchild | hchild
  · obtain ⟨d, hd, rfl⟩ := List.mem_map.1 hchild
    cases decorators with
    | nil => cases hd
    | cons first others =>
      obtain ⟨-, hnested, hothers⟩ := Node.laid_cons.1 hdecorators.2
      have hfirst := hsign first List.mem_cons_self
      have hstart : decoratorsStart line.start (first :: others) = first.span.start - 1 := rfl
      rcases List.mem_cons.1 hd with rfl | hd
      · exact hstart ▸ Nat.sub_lt hfirst Nat.zero_lt_one
      · have hafter : first.span.stop ≤ d.span.start :=
          (hothers.mem (List.mem_map_of_mem hd)).1
        have hnonneg : first.span.start ≤ first.span.stop := hnested.le
        show _ < d.span.start
        omega
  · exact Nat.lt_of_le_of_lt hle (Nat.lt_of_lt_of_le hmid (hnodes.mem hchild).1)

/-- The clause of a header takes up text if its block does. -/
theorem takesText_ofHeader {chained : Bool} {header : Header} {decorators : List Expr}
    {body : List Stmt} (hheader : readHeader? chained line = some (.ok (header, inline)))
    (hdecorators : DecoratorsLaid lo line.start decorators)
    (hsign : ∀ d ∈ decorators, 0 < d.span.start)
    (hlaid : Stmt.Laid inline.start (lastStop line.span.stop body) body)
    (hbody : ∀ s ∈ body, Node.Everywhere Node.TakesText (.stmt s)) :
    (ofHeader line.span decorators header body).TakesText := by
  have hnodes := Header.everywhere_of_readHeader? hheader
  obtain ⟨rest, hrest, hstart, hleads⟩ := exists_leads_of_readHeader? hheader
  have hinline : rest.start ≤ inline.start := hleads.1.le
  have hline : line.start < line.span.stop :=
    Nat.lt_of_lt_of_le hstart (Nat.le_trans rest.start_le_stop hrest.2)
  have hstop : inline.start ≤ lastStop line.span.stop body := hlaid.le
  have hbelow : ∀ child ∈ body.map Node.stmt, Node.Everywhere Node.TakesText child := by
    intro child hchild
    obtain ⟨s, hs, rfl⟩ := List.mem_map.1 hchild
    exact hbody s hs
  cases header with
  | function name params result? =>
    have hparts : Node.Laid rest.start (lastStop line.span.stop body)
        (params.map .param ++ result?.toList.map .expr ++ body.map .stmt) := hleads.1.append hlaid
    -- A function may start before its line, with its first decorator.
    have hfunction := start_lt_of_mem_function hdecorators hsign hstart hparts
    rw [← List.append_assoc, ← List.append_assoc] at hfunction
    refine .intro ⟨fun _ => ?_, fun _ => hfunction⟩ fun child hchild => ?_
    · have hle : decoratorsStart line.start decorators ≤ line.start := hdecorators.2.le
      exact Nat.lt_of_le_of_lt hle (Nat.lt_of_lt_of_le hstart (Nat.le_trans hinline hstop))
    · rcases List.mem_append.1 hchild with hchild | hchild
      · rw [List.append_assoc] at hchild
        rcases List.mem_append.1 hchild with hchild | hchild
        · obtain ⟨d, -, rfl⟩ := List.mem_map.1 hchild
          exact Node.everywhere_takesText_expr d
        · exact hnodes child hchild
      · exact hbelow child hchild
  | classDef name bases =>
    refine .intro ⟨fun _ => ?_, fun hfunction => by cases hfunction⟩ fun child hchild => ?_
    · exact Nat.lt_of_lt_of_le hstart (Nat.le_trans hinline hstop)
    · exact (List.mem_append.1 hchild).elim (hnodes child) (hbelow child)
  | conditional cond => exact ⟨hline, hbody⟩
  | alternative cond => exact ⟨hline, hbody⟩
  | otherwise => exact hbody

end Clause

namespace Outline

variable {indent : Nat} {decorators : List Expr} {chained : Bool} {clauses : List Clause}

/-- **The clauses of a block** take up text. -/
theorem takesText_of_clauses {o : Outline} (h : o.clauses indent decorators chained = .ok clauses)
    {mid : Nat} (hdecorators : DecoratorsLaid lo mid decorators)
    (hsign : ∀ d ∈ decorators, 0 < d.span.start)
    (ho : Span.Laid mid hi (o.toLines.map Line.span)) : ∀ clause ∈ clauses, clause.TakesText := by
  induction o generalizing indent decorators chained clauses lo mid hi with
  | nil =>
    obtain ⟨-, rfl⟩ := clauses_nil_eq_ok.1 h
    exact List.forall_mem_nil _
  | cons line nested rest ihnested ihrest =>
    obtain ⟨hstart, -, hlines⟩ := Span.laid_cons.1 ho
    rw [List.map_append] at hlines
    obtain ⟨stop, hnested, hrest⟩ := Span.laid_append.1 hlines
    have hbefore := hdecorators.mono hstart
    have hafter := hrest.mono hnested.le (Nat.le_refl hi)
    obtain ⟨-, ⟨hat, d, hd, rfl, hclauses⟩ | ⟨-, clause, more, rfl, hmore, hcases⟩⟩ :=
      clauses_cases h
    · have hlaid := laid_of_decorator hat hd
      -- The sign takes up the first byte, so a decorator never starts at zero.
      have hpos := Nat.lt_of_lt_of_le (Nat.succ_pos _) (Expr.laid_singleton.1 hlaid).1
      refine ihrest hclauses (hbefore.concat hlaid) ?_ hafter
      exact List.forall_mem_append.2 ⟨hsign, List.forall_mem_singleton.2 hpos⟩
    · refine List.forall_mem_cons.2
        ⟨?_, ihrest hmore (.nil (Nat.le_refl _)) (List.forall_mem_nil _) hafter⟩
      rcases hcases with ⟨s, rfl, rfl, -, hs, rfl⟩ | ⟨header, inline, body, rfl, hheader, hblock⟩
      · exact Stmt.everywhere_of_readSimple hs
      · have hleads := leads_of_readHeader? hheader
        have hlaid := laid_of_readsBlock hleads hblock hnested fun _ _ hclauses =>
          laid_of_clauses hclauses (.nil (Nat.le_refl _)) hnested
        refine Clause.takesText_ofHeader hheader hbefore hsign hlaid.1 ?_
        rcases hblock with ⟨-, -, s, hs, rfl⟩ | ⟨-, first, block, -, hblock, rfl⟩
        · exact List.forall_mem_singleton.2 (Stmt.everywhere_of_readSimple hs)
        · exact Clause.everywhere_statements
            (ihnested hblock (.nil (Nat.le_refl _)) (List.forall_mem_nil _) hnested)

end Outline

/-! ## Files

A statement that holds others goes from the start of the first to the end of the last at least. -/

namespace Place

/-- Statements and parameters of the tree below `root` are not empty, and a function starts before
what is below it. -/
structure IsExtended (root : Place) : Prop where
  stmt : ∀ p ∈ root.preorder, p.node.isStmt = true → p.span.start < p.span.stop
  param : ∀ p ∈ root.preorder, ∀ q, p.node = .param q → p.span.start < p.span.stop
  function : ∀ p ∈ root.preorder, p.node.isFunction = true →
    ∀ child ∈ p.children, p.span.start < child.span.start

/-- A statement with statements below it spans them, and so it is not empty if they are not. -/
theorem start_lt_stop_of_isStmt {root place : Place} {length : Nat} (htree : root.IsTreeOver length)
    (h : root.node.Everywhere Node.TakesText) (hplace : place ∈ root.preorder)
    (hstmt : place.node.isStmt = true) : place.span.start < place.span.stop := by
  by_cases hnone : ∀ child ∈ place.children, child.node.isStmt = false
  · have htext := h.of_mem_preorder hplace
    cases hnode : place.node with
    | stmt s =>
      rw [hnode] at htext
      rw [span, hnode]
      refine htext.1 fun child hchild => ?_
      have hmem : child ∈ place.children.map node := by rw [map_node_children, hnode]; exact hchild
      obtain ⟨below, hbelow, rfl⟩ := List.mem_map.1 hmem
      exact hnone below hbelow
    | _ =>
      rw [hnode] at hstmt
      cases hstmt
  · push Not at hnone
    obtain ⟨child, hchild, hbelow⟩ := hnone
    have hlt := size_lt_of_mem_children hchild
    have hmem := mem_preorder_of_mem_children hplace hchild
    have hspan := start_lt_stop_of_isStmt htree h hmem (by simpa using hbelow)
    obtain ⟨hstart, hstop⟩ := htree.inside place hplace child hchild
    exact Nat.lt_of_le_of_lt hstart (Nat.lt_of_lt_of_le hspan hstop)
termination_by place.node.size

theorem isExtended_of_everywhere {root : Place} {length : Nat} (htree : root.IsTreeOver length)
    (h : root.node.Everywhere Node.TakesText) : root.IsExtended where
  stmt _ := start_lt_stop_of_isStmt htree h
  param p hp q hnode := by
    have htext := h.of_mem_preorder hp
    rw [hnode] at htext
    rw [span, hnode]
    exact htext
  function p hp hfunction child hchild := by
    have htext := h.of_mem_preorder hp
    have hmem := node_of_mem_placeAll hchild
    cases hnode : p.node with
    | stmt s =>
      rw [hnode] at htext hfunction hmem
      rw [span, hnode]
      exact htext.2 hfunction child.node hmem
    | _ =>
      rw [hnode] at hfunction
      cases hfunction

end Place

/-- **In a file that is read** statements and parameters are not empty, and functions start before
their parts. -/
theorem Node.isExtended_of_read {source : List Char} {node : Node}
    (h : Node.read source = .ok node) : (Place.root node).IsExtended := by
  refine Place.isExtended_of_everywhere (isTreeOver_file h) ?_
  obtain ⟨clauses, hclauses, rfl⟩ := Node.read_eq_ok.1 h
  have hlines := Line.laid_ofFile source
  rw [← Outline.toLines_ofLines (Line.ofFile source)] at hlines
  have htext := Outline.takesText_of_clauses hclauses (.nil (Nat.le_refl 0)) (List.forall_mem_nil _)
    hlines
  refine .intro trivial fun child hchild => ?_
  obtain ⟨s, hs, rfl⟩ := List.mem_map.1 hchild
  exact Clause.everywhere_statements htext s hs

end TypeReveal
