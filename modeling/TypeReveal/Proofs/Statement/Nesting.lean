import TypeReveal.Proofs.Expr.Nesting
import TypeReveal.Proofs.Statement.Readers
import TypeReveal.Proofs.Syntax.Equality

/-!
# Where statements stand

The parts of a statement that is read stand one after another inside it, and it stands inside its
lines: `Outline.laid_of_clauses`.  A file that is read is therefore a tree over its text
(`Node.isTreeOver_of_read`), and so is an expression.

Each reader is given a segment and yields nodes that stand in it.  Where a line is cut, the pieces
are between the positions of the cuts (`Segment.pos`).

Spans are put together by the readers in three ways, from the ends of a segment, from those of
parts, and from the end of the last statement of a block.  In each case it has to be shown that the
parts stand in the span in order.  For segments this is a matter of cuts; for clauses it depends on
what a clause may still take in, since a conditional goes on up to the end of its last branch.
-/

set_option autoImplicit false
namespace TypeReveal

/-! ## Segments

An expression that is read from a part of a segment stands in that part, moved to where the part
starts. -/

variable {seg rest head inline line : Segment} {e : Expr} {lo hi : Nat}

/-- **The expression in a segment** stands in it. -/
theorem Segment.laid_expr (h : seg.expr = .ok e) (hlo : lo ≤ seg.start)
    (hhi : seg.span.stop ≤ hi) : Expr.Laid lo hi [e] := by
  exact (Expr.laid_of_read (expr_eq_ok.1 h)).mono (Nat.le_trans hlo seg.trim_within.1)
    (Nat.le_trans seg.trim_within.2 hhi)

theorem Segment.laid_expr_drop {n : Nat} (h : (seg.drop n).expr = .ok e) :
    Expr.Laid (seg.pos n) seg.span.stop [e] :=
  laid_expr h (Nat.le_refl _) (Nat.le_of_eq (by rw [span_drop]))

theorem Segment.laid_expr_slice {m n : Nat} (h : (seg.slice m n).expr = .ok e) :
    Expr.Laid seg.start (seg.pos n) [e] :=
  laid_expr h (seg.slice_within m n).1 (seg.slice_within m n).2

/-- What is read from the segments of a row stands in a row. -/
theorem laid_of_mapM {α : Type} {f : Segment → Except ParseError α} {nodes : α → List Node}
    (hf : ∀ seg a, f seg = .ok a → Node.Laid seg.start seg.span.stop (nodes a))
    {segs : List Segment} {as : List α} (hsegs : Span.Laid lo hi (segs.map Segment.span))
    (h : segs.mapM f = .ok as) : Node.Laid lo hi (as.flatMap nodes) := by
  induction segs generalizing lo as with
  | nil =>
    cases h
    exact .nil hsegs.le
  | cons seg segs ih =>
    obtain ⟨hstart, -, hrest⟩ := Span.laid_cons.1 hsegs
    rw [List.mapM_cons] at h
    obtain ⟨a, ha, h⟩ := bind_eq_ok.1 h
    obtain ⟨as', has, h⟩ := bind_eq_ok.1 h
    cases h
    rw [List.flatMap_cons]
    exact ((hf seg a ha).mono hstart (Nat.le_refl _)).append (ih hrest has)

/-! ## Simple statements

A statement without a block has the span of its segment, and its expressions were cut out from left
to right. -/

theorem laid_of_readBinding {annotation? value? : Option Expr} {colon? equals? : Option Nat}
    (h : readBinding seg colon? equals? = .ok (annotation?, value?)) :
    Expr.Laid seg.start seg.span.stop (annotation?.toList ++ value?.toList) := by
  have hlast {n : Nat} {f : Expr} (hf : (seg.drop n).expr = .ok f) :
      Expr.Laid seg.start seg.span.stop [f] :=
    (Segment.laid_expr_drop hf).mono (seg.start_le_pos n) (Nat.le_refl _)
  cases readBinding_eq_ok.1 h with
  | both _ hhint hvalue =>
    have hfirst := Segment.laid_expr_slice hhint
    exact Expr.Laid.append (hfirst.mono (Nat.le_refl _) (seg.pos_mono (Nat.le_succ _)))
      (Segment.laid_expr_drop hvalue)
  | value _ hvalue => exact hlast hvalue
  | hint hhint => exact hlast hhint
  | nothing => exact .nil seg.start_le_stop

/-- A statement that takes up a segment and whose parts stand in it. -/
def Stmt.Fills (s : Stmt) (seg : Segment) : Prop :=
  s.span = seg.span ∧ Node.Laid seg.start seg.span.stop s.children

/-- **A statement without a block** takes up its segment. -/
theorem Stmt.fills_of_readSimple {s : Stmt} (h : Stmt.readSimple seg = .ok s) : s.Fills seg := by
  cases isSimpleIn_of_readSimple h with
  | pass | imports | nothing => exact ⟨rfl, .nil seg.start_le_stop⟩
  | result hrest hvalue =>
    have hwithin := Segment.within_of_afterKeyword? hrest
    exact ⟨rfl, Segment.laid_expr hvalue hwithin.1 hwithin.2⟩
  | binding hbinding => exact ⟨rfl, laid_of_readBinding hbinding⟩
  | expr hvalue => exact ⟨rfl, Segment.laid_expr hvalue (Nat.le_refl _) (Nat.le_refl _)⟩

/-! ## Headers

The parts of a header, in the order in which they stand on the line, and behind them the text after
the colon. -/

/-- What a header is cut into stands in a row. -/
theorem laid_of_splitHeader {what : Construct} (h : splitHeader seg what = .ok (head, inline)) :
    seg.start ≤ head.start ∧ head.span.stop ≤ inline.start ∧
      inline.span.stop ≤ seg.span.stop := by
  obtain ⟨n, -, rfl, rfl⟩ := splitHeader_eq_ok.1 h
  have hhead := (seg.take n).trim_within
  have hinline := (seg.drop (n + 1)).trim_within
  rw [Segment.Within, Segment.span_drop] at hinline
  exact ⟨hhead.1, Nat.le_trans hhead.2 (Nat.le_trans (seg.pos_mono (Nat.le_succ n)) hinline.1),
    hinline.2⟩

theorem laid_of_readNamedParam {p : Param} (h : readNamedParam seg = .ok p) :
    Node.Laid seg.start seg.span.stop [.param p] := by
  obtain ⟨name, -, -, -, annotation?, default?, hread, rfl⟩ := exists_of_readNamedParam h
  exact Node.laid_singleton.2 ⟨Nat.le_refl _, laid_of_readBinding hread, Nat.le_refl _⟩

theorem laid_of_readParam? {p? : Option Param} (h : readParam? seg = .ok p?) :
    Node.Laid seg.start seg.span.stop (p?.toList.map .param) := by
  rcases readParam?_cases h with rfl | ⟨p, hp, rfl⟩
  · exact .nil seg.start_le_stop
  · have hwithin := seg.drop_within (seg.text.takeWhile (· == '*')).length
    exact (laid_of_readNamedParam hp).mono hwithin.1 hwithin.2

theorem laid_of_readParams {params : List Param} (h : readParams seg = .ok params) :
    Node.Laid seg.start seg.span.stop (params.map .param) := by
  obtain ⟨ps, hps, rfl⟩ := readParams_eq_ok.1 h
  have hflat : (ps.filterMap id).map Node.param = ps.flatMap fun p? => p?.toList.map .param := by
    clear h hps
    induction ps with
    | nil => rfl
    | cons p? ps ih =>
      rw [List.flatMap_cons, ← ih]
      cases p? <;> rfl
  rw [hflat]
  exact laid_of_mapM (fun seg p? => laid_of_readParam?) seg.laid_parts hps

theorem laid_of_readResultType {result? : Option Expr}
    (h : readResultType line head = .ok result?) :
    Expr.Laid head.start head.span.stop result?.toList := by
  rcases readResultType_cases h with ⟨-, e, he, rfl⟩ | ⟨-, rfl⟩
  · exact (Segment.laid_expr_drop he).mono (head.start_le_pos 2) (Nat.le_refl _)
  · exact .nil head.start_le_stop

theorem laid_of_readBases {n : Nat} {bases : List Expr} (h : readBases line head n = .ok bases) :
    Expr.Laid head.start head.span.stop bases := by
  obtain ⟨m, -, -, hparts⟩ := exists_of_readBases h
  have hwithin := head.slice_within (n + 1) m
  have hlaid : Node.Laid _ _ (bases.flatMap fun e => [Node.expr e]) := laid_of_mapM
    (fun seg e he => Segment.laid_expr he (Nat.le_refl seg.start) (Nat.le_refl _))
    (head.slice (n + 1) m).laid_parts hparts
  rw [← List.map_eq_flatMap] at hlaid
  exact hlaid.mono hwithin.1 (Nat.le_trans hwithin.2 (head.pos_le_stop m))

/-- The nodes in a header, in the order of their text. -/
def Header.nodes : Header → List Node
  | function _ params result? => params.map .param ++ result?.toList.map .expr
  | classDef _ bases => bases.map .expr
  | conditional cond | alternative cond => [.expr cond]
  | otherwise => []

/-- A header that stands in a segment, before what follows its colon. -/
def Header.Leads (header : Header) (inline seg : Segment) : Prop :=
  Node.Laid seg.start inline.start header.nodes ∧ inline.span.stop ≤ seg.span.stop

theorem Header.Leads.mono {header : Header} (h : header.Leads inline rest)
    (hrest : rest.Within seg) : header.Leads inline seg :=
  ⟨h.1.mono hrest.1 (Nat.le_refl _), Nat.le_trans h.2 hrest.2⟩

theorem leads_of_readFunction {header : Header}
    (h : readFunction line rest = .ok (header, inline)) : header.Leads inline rest := by
  obtain ⟨n, close, -, -, -, head, params, result?, hsplit, hresult, hparams, rfl⟩ :=
    readFunction_eq_ok.1 h
  generalize hgroup : rest.drop n = group at hsplit hparams
  have hrest : group.Within rest := hgroup ▸ rest.drop_within n
  obtain ⟨hhead, hinline, hstop⟩ := laid_of_splitHeader hsplit
  have hafter := (group.drop (close + 1)).trim_within
  rw [Segment.Within, Segment.span_drop] at hafter
  have hslice := group.slice_within 1 close
  refine Header.Leads.mono ⟨?_, Nat.le_trans hstop hafter.2⟩ hrest
  refine .append ((laid_of_readParams hparams).mono hslice.1 hslice.2)
    ((laid_of_readResultType hresult).mono ?_ hinline)
  calc group.pos close
    _ ≤ group.pos (close + 1) := group.pos_mono (Nat.le_succ close)
    _ ≤ _ := hafter.1
    _ ≤ head.start := hhead

theorem leads_of_readClass {header : Header}
    (h : readClass line rest = .ok (header, inline)) : header.Leads inline rest := by
  obtain ⟨head, name, bases, hsplit, rfl, -, hbases⟩ := readClass_eq_ok.1 h
  obtain ⟨hhead, hinline, hstop⟩ := laid_of_splitHeader hsplit
  have hlaid : Expr.Laid head.start head.span.stop bases := by
    rcases hbases with ⟨-, -, rfl⟩ | ⟨n, -, -, hbases⟩
    · exact .nil head.start_le_stop
    · exact laid_of_readBases hbases
  exact ⟨hlaid.mono hhead hinline, hstop⟩

theorem laid_of_readCondition {cond : Expr} (h : readCondition rest = .ok (cond, inline)) :
    Expr.Laid rest.start inline.start [cond] ∧ inline.span.stop ≤ rest.span.stop := by
  obtain ⟨head, hsplit, he⟩ := readCondition_eq_ok.1 h
  obtain ⟨hhead, hinline, hstop⟩ := laid_of_splitHeader hsplit
  exact ⟨Segment.laid_expr he hhead hinline, hstop⟩

/-- A header stands in what follows its keyword. -/
theorem exists_leads_of_readHeader? {chained : Bool} {header : Header}
    (h : readHeader? chained line = some (.ok (header, inline))) :
    ∃ rest : Segment, rest.Within line ∧ line.start < rest.start ∧ header.Leads inline rest := by
  have hkeyword {keyword : String} {rest : Segment} (hk : keyword ≠ "")
      (hrest : line.afterKeyword? keyword = some rest) (hleads : header.Leads inline rest) :
      ∃ rest : Segment, rest.Within line ∧ line.start < rest.start ∧ header.Leads inline rest :=
    ⟨rest, Segment.within_of_afterKeyword? hrest,
      Segment.start_lt_of_afterKeyword? hk hrest, hleads⟩
  rcases readHeader?_cases h with ⟨rest, hrest, hread⟩ | ⟨rest, hrest, hread⟩ |
    ⟨rest, cond, hrest, hread, rfl⟩ | ⟨-, rest, cond, hrest, hread, rfl⟩ |
    ⟨-, rest, head, hrest, hread, rfl⟩
  · exact hkeyword (by decide) hrest (leads_of_readFunction hread)
  · exact hkeyword (by decide) hrest (leads_of_readClass hread)
  · exact hkeyword (by decide) hrest (laid_of_readCondition hread)
  · exact hkeyword (by decide) hrest (laid_of_readCondition hread)
  · obtain ⟨hhead, hinline, hstop⟩ := laid_of_splitHeader hread
    refine hkeyword (by decide) hrest ⟨.nil ?_, hstop⟩
    exact Nat.le_trans hhead (Nat.le_trans head.start_le_stop hinline)

/-- **A header** stands in its line, before what follows its colon. -/
theorem leads_of_readHeader? {chained : Bool} {header : Header}
    (h : readHeader? chained line = some (.ok (header, inline))) : header.Leads inline line := by
  obtain ⟨rest, hrest, -, hleads⟩ := exists_leads_of_readHeader? h
  exact hleads.mono hrest

/-! ## Clauses

Clauses are joined to statements from the last one to the first.  A part of a conditional takes in
the clauses that continue it, so the invariant speaks of a row of clauses and the row of statements
that they make up. -/

/-- Statements that stand one after another between `lo` and `hi`. -/
abbrev Stmt.Laid (lo hi : Nat) (body : List Stmt) : Prop := Node.Laid lo hi (body.map .stmt)

theorem stopOf_map_stmt (lo : Nat) (body : List Stmt) :
    Node.stopOf lo (body.map .stmt) = lastStop lo body := by
  rw [Node.stopOf, lastStop, List.getLast?_map, Option.map_map]
  rfl

/-- **A row of statements is two rows**, the second from where the first ends. -/
theorem Stmt.laid_append {body more : List Stmt} :
    Stmt.Laid lo hi (body ++ more) ↔
      Stmt.Laid lo (lastStop lo body) body ∧ Stmt.Laid (lastStop lo body) hi more := by
  rw [Stmt.Laid, List.map_append, Node.laid_append, stopOf_map_stmt]

theorem Stmt.Laid.lastStop {body : List Stmt} (h : Stmt.Laid lo hi body) :
    Stmt.Laid lo (lastStop lo body) body ∧ lastStop lo body ≤ hi := by
  rw [← List.append_nil body] at h
  obtain ⟨hbody, hstop⟩ := Stmt.laid_append.1 h
  exact ⟨hbody, hstop.le⟩

theorem Stmt.Fills.laid {s : Stmt} (h : s.Fills seg) : Stmt.Laid seg.start seg.span.stop [s] := by
  refine Node.laid_singleton.2 ?_
  rw [Node.Nested, show (Node.stmt s).span = seg.span from h.1]
  exact ⟨Nat.le_refl _, h.2, Nat.le_refl _⟩

namespace Clause

/-- A clause that stands between `lo` and `hi`: for a part of a conditional, its condition and its
block stand in a row from the start of its line. -/
def Laid (lo hi : Nat) : Clause → Prop
  | stmt s => Stmt.Laid lo hi [s]
  | conditional line cond body | alternative line cond body =>
    lo ≤ line.start ∧ lastStop line.stop body ≤ hi ∧
      Node.Laid line.start (lastStop line.stop body) (.expr cond :: body.map .stmt)
  | otherwise body => Stmt.Laid lo hi body

/-- Clauses that stand one after another between `lo` and `hi`. -/
def LaidAll : Nat → Nat → List Clause → Prop
  | lo, hi, [] => lo ≤ hi
  | lo, hi, clause :: clauses => ∃ mid, clause.Laid lo mid ∧ LaidAll mid hi clauses

/-- A conditional takes the rest of it in, and stands up to its end. -/
theorem laid_join {line : Span} {cond : Expr} {body orelse more : List Stmt} {mid : Nat}
    (h : (conditional line cond body).Laid lo mid) (hafter : Stmt.Laid mid hi (orelse ++ more)) :
    Stmt.Laid lo hi (join line cond body orelse :: more) := by
  obtain ⟨hstart, hstop, hlaid⟩ := h
  obtain ⟨horelse, hmore⟩ := Stmt.laid_append.1 (hafter.mono hstop (Nat.le_refl hi))
  exact Node.laid_cons.2 ⟨hstart, .append hlaid horelse, hmore⟩

theorem laid_attach {clause : Clause} {after : List Stmt × List Stmt} {mid : Nat}
    (h : clause.Laid lo mid) (hafter : Stmt.Laid mid hi (after.1 ++ after.2)) :
    Stmt.Laid lo hi ((clause.attach after).1 ++ (clause.attach after).2) := by
  have hmore : Stmt.Laid mid hi after.2 := by
    rw [Stmt.Laid, List.map_append] at hafter
    exact hafter.right
  cases clause with
  | stmt s => exact Node.Laid.append h hmore
  | conditional line cond body => exact laid_join h hafter
  | alternative line cond body => exact laid_join h hafter
  | otherwise body =>
    rw [Stmt.Laid, List.map_append]
    exact Node.Laid.append h hmore

/-- **The statements that clauses make up** stand where the clauses do. -/
theorem LaidAll.statements {clauses : List Clause} (h : LaidAll lo hi clauses) :
    Stmt.Laid lo hi (statements clauses) := by
  have hall : Stmt.Laid lo hi
      ((clauses.foldr attach ([], [])).1 ++ (clauses.foldr attach ([], [])).2) := by
    induction clauses generalizing lo with
    | nil => exact .nil h
    | cons clause clauses ih =>
      obtain ⟨mid, hclause, hrest⟩ := h
      exact laid_attach hclause (ih hrest)
  rw [Stmt.Laid, List.map_append] at hall
  exact hall.right

end Clause

/-- Where decorators before the position `lo` start: at the sign before the first. -/
def decoratorsStart (lo : Nat) (decorators : List Expr) : Nat :=
  (decorators.head?.map fun d => d.span.start - 1).getD lo

/-- Decorators that stand, with their signs, in a row between two positions. -/
def DecoratorsLaid (lo hi : Nat) (decorators : List Expr) : Prop :=
  lo ≤ decoratorsStart hi decorators ∧ Expr.Laid (decoratorsStart hi decorators) hi decorators

namespace DecoratorsLaid

variable {decorators : List Expr} {hi' : Nat}

theorem nil (h : lo ≤ hi) : DecoratorsLaid lo hi [] := ⟨h, .nil (Nat.le_refl hi)⟩

theorem le (h : DecoratorsLaid lo hi decorators) : lo ≤ hi := Nat.le_trans h.1 h.2.le

theorem mono (h : DecoratorsLaid lo hi decorators) (hhi : hi ≤ hi') :
    DecoratorsLaid lo hi' decorators := by
  cases decorators with
  | nil => exact nil (Nat.le_trans h.1 hhi)
  | cons d ds => exact ⟨h.1, h.2.mono (Nat.le_refl _) hhi⟩

/-- One more decorator, with its sign before it. -/
theorem concat {d : Expr} (h : DecoratorsLaid lo hi decorators) (hd : Expr.Laid (hi + 1) hi' [d]) :
    DecoratorsLaid lo hi' (decorators ++ [d]) := by
  obtain ⟨hstart, hnested, hstop⟩ := Expr.laid_singleton.1 hd
  cases decorators with
  | nil =>
    have hsign : hi ≤ d.span.start - 1 := by omega
    exact ⟨Nat.le_trans h.1 hsign,
      Expr.laid_singleton.2 ⟨Nat.sub_le _ 1, hnested, hstop⟩⟩
  | cons d' ds => exact ⟨h.1, h.2.append (hd.mono (Nat.le_succ hi) (Nat.le_refl hi'))⟩

end DecoratorsLaid

/-- The clause of a header stands from the decorators before it to the end of its block. -/
theorem Clause.laid_ofHeader {header : Header} {decorators : List Expr} {body : List Stmt}
    (hheader : header.Leads inline line) (hdecorators : DecoratorsLaid lo line.start decorators)
    (hbody : Stmt.Laid inline.start (lastStop line.span.stop body) body) :
    (Clause.ofHeader line.span decorators header body).Laid lo (lastStop line.span.stop body) := by
  have hlaid : Node.Laid line.start (lastStop line.span.stop body)
      (header.nodes ++ body.map .stmt) := .append hheader.1 hbody
  cases header with
  | function name params result? =>
    refine Node.laid_singleton.2 ⟨hdecorators.1, ?_, Nat.le_refl _⟩
    have hall := Node.Laid.append hdecorators.2 hlaid
    rw [Header.nodes, ← List.append_assoc, ← List.append_assoc] at hall
    exact hall
  | classDef name bases => exact Node.laid_singleton.2 ⟨hdecorators.le, hlaid, Nat.le_refl _⟩
  | conditional cond => exact ⟨hdecorators.le, Nat.le_refl _, hlaid⟩
  | alternative cond => exact ⟨hdecorators.le, Nat.le_refl _, hlaid⟩
  | otherwise => exact hlaid.mono hdecorators.le (Nat.le_refl _)

/-! ## Blocks

A line, then the lines below it, then the lines after those; each stands behind the one before.
Decorators that have been read and not yet been used stand before the line. -/

namespace Outline

variable {top : Line} {nested after : Outline} {indent : Nat} {decorators : List Expr}
  {chained : Bool} {clauses : List Clause}

/-- A decorator stands after its sign. -/
theorem laid_of_decorator {d : Expr} (hat : top.text.text.head? = some '@')
    (hd : (top.text.drop 1).expr = .ok d) :
    Expr.Laid (top.span.start + 1) top.span.stop [d] := by
  obtain ⟨rest, hrest⟩ : ∃ rest, top.text.text = '@' :: rest := List.head?_eq_some_iff.1 hat
  have hpos : top.text.pos 1 = top.span.start + 1 := by
    rw [Segment.pos, hrest]
    rfl
  rw [← hpos]
  exact Segment.laid_expr_drop hd

/-- The block of a header stands after the header, as the clauses do that are read for it. -/
theorem laid_of_readsBlock {header : Header} {body : List Stmt} {stop : Nat}
    (hleads : header.Leads inline top.text) (hblock : ReadsBlock inline nested body)
    (hnested : Span.Laid top.span.stop stop (nested.toLines.map Line.span))
    (hclauses : ∀ indent clauses, nested.clauses indent [] false = .ok clauses →
      Clause.LaidAll top.span.stop stop clauses) :
    Stmt.Laid inline.start (lastStop top.span.stop body) body ∧
      lastStop top.span.stop body ≤ stop := by
  rcases hblock with ⟨-, rfl, s, hs, rfl⟩ | ⟨-, first, block, -, hblock, rfl⟩
  · have hfills := Stmt.fills_of_readSimple hs
    have hstop : lastStop top.span.stop [s] = inline.span.stop := congrArg Span.stop hfills.1
    rw [hstop]
    exact ⟨hfills.laid, Nat.le_trans hleads.2 hnested.le⟩
  · have hlaid := (hclauses first.indent block hblock).statements.lastStop
    have hinline : inline.start ≤ top.span.stop := Nat.le_trans inline.start_le_stop hleads.2
    exact ⟨hlaid.1.mono hinline (Nat.le_refl _), hlaid.2⟩

/-- **The clauses of a block** stand in its lines, from the decorators before them on. -/
theorem laid_of_clauses {o : Outline} (h : o.clauses indent decorators chained = .ok clauses)
    {mid : Nat} (hdecorators : DecoratorsLaid lo mid decorators)
    (ho : Span.Laid mid hi (o.toLines.map Line.span)) : Clause.LaidAll lo hi clauses := by
  induction o generalizing indent decorators chained clauses lo mid hi with
  | nil =>
    obtain ⟨-, rfl⟩ := clauses_nil_eq_ok.1 h
    exact Nat.le_trans hdecorators.le ho.le
  | cons line nested rest ihnested ihrest =>
    obtain ⟨hstart, hspan, hlines⟩ := Span.laid_cons.1 ho
    rw [List.map_append] at hlines
    obtain ⟨stop, hnested, hrest⟩ := Span.laid_append.1 hlines
    have hbefore := hdecorators.mono hstart
    have hafter := hrest.mono hnested.le (Nat.le_refl hi)
    obtain ⟨-, ⟨hat, d, hd, rfl, hclauses⟩ | ⟨-, clause, more, rfl, hmore, hcases⟩⟩ :=
      clauses_cases h
    · exact ihrest hclauses (hbefore.concat (laid_of_decorator hat hd)) hafter
    · rcases hcases with ⟨s, rfl, rfl, -, hs, rfl⟩ | ⟨header, inline, body, rfl, hheader, hblock⟩
      · exact ⟨line.span.stop, (Stmt.fills_of_readSimple hs).laid.mono hbefore.le (Nat.le_refl _),
          ihrest hmore (.nil (Nat.le_refl _)) hafter⟩
      · have hleads := leads_of_readHeader? hheader
        obtain ⟨hbody, hstop⟩ := laid_of_readsBlock hleads hblock hnested fun _ _ hclauses =>
          ihnested hclauses (.nil (Nat.le_refl _)) hnested
        exact ⟨lastStop line.span.stop body, Clause.laid_ofHeader hleads hbefore hbody,
          ihrest hmore (.nil (Nat.le_refl _)) (hrest.mono hstop (Nat.le_refl hi))⟩

end Outline

namespace Node

variable {source : List Char} {node : Node}

/-- The tree of a file. -/
theorem isTreeOver_file (h : Node.read source = .ok node) :
    (Place.root node).IsTreeOver (utf8Length source) := by
  obtain ⟨clauses, hclauses, rfl⟩ := read_eq_ok.1 h
  have hlines := Line.laid_ofFile source
  rw [← Outline.toLines_ofLines (Line.ofFile source)] at hlines
  have hbody := Outline.laid_of_clauses hclauses (.nil (Nat.le_refl 0)) hlines
  exact Place.isTreeOver_of_nested hbody.statements (Nat.le_refl _)

/-- **A file that is read** is a tree over its text, and so is an expression that is read by itself:
all spans lie in the text, those of children inside that of their parent, apart and in order, and
the list of all places has each of them once, in the order in which they start. -/
theorem isTreeOver_of_read
    (h : Node.read source = .ok node ∨ ∃ e, Expr.read source 0 = .ok e ∧ node = .expr e) :
    (Place.root node).IsTreeOver (utf8Length source) := by
  rcases h with h | ⟨e, he, rfl⟩
  · exact isTreeOver_file h
  · obtain ⟨-, hnested, hstop⟩ := Expr.laid_singleton.1 (Expr.laid_of_read he)
    rw [Nat.zero_add] at hstop
    exact Place.isTreeOver_of_nested hnested hstop

/-- The decorator is moved to the front of the function, the star is not part of the parameter, and
the tuple ends after its comma. -/
theorem isTreeOver_of_read_decorated :
    let file := Node.file ⟨0, 24⟩ [.function ⟨0, 24⟩ "f" [.name ⟨1, 2⟩ "d"]
      [⟨⟨10, 14⟩, "a", some (.name ⟨13, 14⟩ "b"), none⟩]
      (some (.dangling ⟨17, 20⟩ .bar (.name ⟨17, 18⟩ "c")))
      [.expr ⟨22, 24⟩ (.tuple ⟨22, 24⟩ [.name ⟨22, 23⟩ "a"])]]
    Node.read "@d\ndef f(*a: b)->c |: a,".toList = .ok file ∧ (Place.root file).IsTreeOver 24 := by
  intro file
  have hread : Node.read "@d\ndef f(*a: b)->c |: a,".toList = .ok file := by decide +kernel
  exact ⟨hread, isTreeOver_of_read (.inl hread)⟩

end Node
end TypeReveal
