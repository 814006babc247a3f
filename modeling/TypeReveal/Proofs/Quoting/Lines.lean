import TypeReveal.Proofs.Quoting.Elsewhere

/-!
# Lines, when a piece of a file is put in quotes

The outline of a file stays as it is when its lines keep their indentation, so that the clauses of a
block can be followed line by line (`Quotation.Follows`).

To follow a line is to be read as what becomes of it: a decorator as a decorator, a header as a
header, a statement as a statement, with the same indentation.  Lines that do not touch the piece
are followed by themselves, moved (`Clear.follows`).  Only one line remains to be looked at
elsewhere.

The reader of blocks is run on both outlines at once.  The induction is on the outline, as the
reader goes through it: a line, the lines below it, and those behind it.  A property of a line may
depend on whether an `elif` can stand there, so it carries a flag along, as the reader does.
-/

set_option autoImplicit false
namespace TypeReveal

/-! ## Outlines

An outline is a forest, and which line stands below which is decided by comparing indentation.  So a
function on lines that keeps the indentation can be applied before or after. -/

namespace Outline

/-- A forest with other lines in the same places. -/
def map (f : Line → Line) : Outline → Outline
  | nil => nil
  | cons line nested rest => cons (f line) (nested.map f) (rest.map f)

section

variable {f : Line → Line} (hf : ∀ line, (f line).indent = line.indent)

include hf

/-- The lines that are deeper than a line are the same ones. -/
theorem span_map (indent : Nat) (o : Outline) :
    (o.map f).span indent = Prod.map (map f) (map f) (o.span indent) := by
  induction o with
  | nil => rfl
  | cons line nested rest _ ih =>
    rw [map, span, span, hf, ih]
    split <;> rfl

/-- **The outline depends on the indentation of lines only.** -/
theorem ofLines_map (lines : List Line) : ofLines (lines.map f) = (ofLines lines).map f := by
  induction lines with
  | nil => rfl
  | cons line lines ih =>
    show push (f line) (ofLines (lines.map f)) = map f (push line (ofLines lines))
    rw [ih, push, push, hf, span_map hf]
    rfl

end

/-- A line with the header of a block, and what is read as the block. -/
theorem clauses_of_readsBlock {line : Line} {nested rest : Outline} {indent : Nat} {chained : Bool}
    {decorators : List Expr} {header : Header} {inline : Segment} {body : List Stmt}
    {more : List Clause} (hindent : line.indent = indent) (hat : line.text.text.head? ≠ some '@')
    (hheader : readHeader? chained line.text = some (.ok (header, inline)))
    (hbody : ReadsBlock inline nested body)
    (hmore : rest.clauses indent []
      (Clause.ofHeader line.text.span decorators header body).isOpen = .ok more) :
    (cons line nested rest).clauses indent decorators chained =
      .ok (Clause.ofHeader line.text.span decorators header body :: more) := by
  rcases hbody with ⟨hinline, rfl, s, hs, rfl⟩ | ⟨hinline, first, block, hfirst, hblock, rfl⟩
  · rw [clauses, if_neg (fun h => h hindent), if_neg hat, hheader]
    simp only [bind, Except.bind, hinline, Bool.not_false, if_true, hs, expectNone, pure,
      Except.pure, hmore]
  · exact clauses_header hindent hat hheader hinline hfirst hblock hmore

end Outline

namespace Quotation

variable {q : Quotation} {chained : Bool} {top : Line}

/-! ## Clauses

A decorated function starts at the sign of its first decorator, which is one byte before the
expression.  The sign must stay in front of the expression when both are moved, and it does, because
no piece starts between them (`Signed`). -/

/-- The signs of decorators stay in front of them. -/
def Signed (q : Quotation) (decorators : List Expr) : Prop :=
  ∀ d ∈ decorators, q.pos (d.span.start - 1) = (q.expr d).span.start - 1

/-- An `elif` may follow the clause just if it might before. -/
theorem isOpen_clause (q : Quotation) (clause : Clause) :
    (q.clause clause).isOpen = clause.isOpen := by
  cases clause <;> rfl

/-- What becomes of a statement with a block is put together from what becomes of its parts. -/
theorem clause_ofHeader {decorators : List Expr} (hdecorators : q.Signed decorators)
    (line : Span) (header : Header) (body : List Stmt) :
    q.clause (Clause.ofHeader line decorators header body) =
      Clause.ofHeader (q.span line) (decorators.map q.expr) (q.header header) (q.stmts body) := by
  cases header with
  | function name params result? =>
    have hstart : q.pos ((decorators.head?.map fun d => d.span.start - 1).getD line.start) =
        ((decorators.map q.expr).head?.map fun d => d.span.start - 1).getD (q.pos line.start) := by
      cases decorators with
      | nil => rfl
      | cons d ds => exact hdecorators d List.mem_cons_self
    simp only [Clause.ofHeader, clause, stmt, Quotation.header, span, pos_lastStop, hstart]
  | classDef => simp [Clause.ofHeader, clause, stmt, Quotation.header, span]
  | _ => rfl

/-- `line'` is what becomes of a line in front of which an `if` or `elif` stands if it is
`chained`. -/
structure Follows (q : Quotation) (chained : Bool) (line line' : Line) : Prop where
  indent : line'.indent = line.indent
  span : line'.text.span = q.span line.text.span
  head : line'.text.text.head? = line.text.text.head?
  decorator : line.text.text.head? = some '@' → ∀ d, (line.text.drop 1).expr = .ok d →
    (line'.text.drop 1).expr = .ok (q.expr d) ∧
      q.pos (d.span.start - 1) = (q.expr d).span.start - 1
  plain : readHeader? chained line.text = none → ∀ s, Stmt.readSimple line.text = .ok s →
    readHeader? chained line'.text = none ∧ Stmt.readSimple line'.text = .ok (q.stmt s)
  header : ∀ header inline, readHeader? chained line.text = some (.ok (header, inline)) →
    ∃ inline', readHeader? chained line'.text = some (.ok (q.header header, inline')) ∧
      inline'.isEmpty = inline.isEmpty ∧
      Carries q.stmt (Stmt.readSimple inline) (Stmt.readSimple inline')

/-- Lines that do not touch the piece, where they stand afterwards. -/
def line (q : Quotation) (line : Line) : Line := ⟨line.indent, q.segment line.text⟩

/-- The sign of a decorator moves along with it. -/
theorem Clear.pos_sign {seg : Segment} (h : q.Clear seg) {d : Expr}
    (hd : Expr.Laid (seg.start + 1) seg.span.stop [d]) :
    q.pos (d.span.start - 1) = (q.expr d).span.start - 1 := by
  obtain ⟨hstart, hlaid, hstop⟩ := Expr.laid_singleton.1 hd
  have hle : d.span.start ≤ d.span.stop := hlaid.le
  rw [Quotation.expr, pos]
  rcases h with h | ⟨h, h'⟩
  · rw [if_pos (by omega), if_pos (by omega)]
  · rw [if_neg (by omega), if_neg (by omega), if_pos (by omega), Expr.span_shift, Span.shift]
    show max (d.span.start - 1) q.stop + 2 = d.span.start + 2 - 1
    omega

theorem Clear.follows (h : q.Clear top.text) : q.Follows chained top (q.line top) where
  indent := rfl
  span := h.span_segment
  head := rfl
  decorator hat d hd :=
    ⟨h.segment_drop 1 ▸ (h.drop 1).expr d hd, h.pos_sign (Outline.laid_of_decorator hat hd)⟩
  plain hnone s hs := ⟨h.readHeader?_of_none hnone, h.readSimple s hs⟩
  header header inline hsome := by
    have hleads := leads_of_readHeader? hsome
    have hclear : q.Clear inline := h.within ⟨hleads.1.le, hleads.2⟩
    exact ⟨q.segment inline, h.readHeader?_of_some hsome, rfl, hclear.readSimple⟩

/-- **The clauses of a block** whose lines are followed. -/
theorem carries_clauses {f : Line → Line} {o : Outline} {decorators : List Expr} {indent : Nat}
    (h : o.Every (fun chained line _ _ => q.Follows chained line (f line)) chained)
    (hdecorators : q.Signed decorators) :
    Carries (List.map q.clause) (o.clauses indent decorators chained)
      ((o.map f).clauses indent (decorators.map q.expr) chained) := by
  intro clauses hread
  -- The decorators are carried along, already quoted on one side.
  induction o generalizing indent decorators chained clauses with
  | nil =>
    obtain ⟨rfl, rfl⟩ := Outline.clauses_nil_eq_ok.1 hread
    rfl
  | cons top nested after ihnested ihafter =>
    obtain ⟨hline, hnested, hafter⟩ := h
    obtain ⟨hindent, ⟨hat, d, hd, rfl, hclauses⟩ | ⟨hat, clause, more, rfl, hmore, hcases⟩⟩ :=
      Outline.clauses_cases hread
    · obtain ⟨hd', hsign⟩ := hline.decorator hat d hd
      rw [Line.isOpen_of_head?_at hat] at hafter
      rw [Outline.map, Outline.map, Outline.clauses_decorator (hline.indent.trans hindent)
        (hline.head.trans hat) hd', ← List.map_singleton, ← List.map_append]
      exact ihafter hafter
        (List.forall_mem_append.2 ⟨hdecorators, List.forall_mem_singleton.2 hsign⟩)
        clauses hclauses
    · have hindent' := hline.indent.trans hindent
      have hat' : (f top).text.text.head? ≠ some '@' := hline.head ▸ hat
      have hnil : q.Signed [] := List.forall_mem_nil _
      rcases hcases with ⟨s, rfl, rfl, hnone, hs, rfl⟩ | ⟨header, inline, body, rfl, hheader, hbody⟩
      · obtain ⟨hnone', hs'⟩ := hline.plain hnone s hs
        rw [Line.isOpen_of_readHeader?_eq_none hnone] at hafter
        exact Outline.clauses_simple hindent' hat' hnone' hs' (ihafter hafter hnil more hmore)
      · obtain ⟨inline', hheader', hinline, hcarries⟩ := hline.header header inline hheader
        rw [List.map_cons, clause_ofHeader hdecorators, ← hline.span]
        have hopen : (Clause.ofHeader (f top).text.span (decorators.map q.expr) (q.header header)
            (q.stmts body)).isOpen = top.isOpen chained := by
          rw [hline.span, ← clause_ofHeader hdecorators, isOpen_clause,
            Line.isOpen_ofHeader hheader]
        rw [Line.isOpen_ofHeader hheader] at hmore
        refine Outline.clauses_of_readsBlock hindent' hat' hheader' ?_
          (hopen ▸ ihafter hafter hnil more hmore)
        rcases hbody with ⟨hempty, rfl, s, hs, rfl⟩ | ⟨hempty, first, block, hfirst, hblock, rfl⟩
        · refine .inl ⟨hinline.trans hempty, rfl, q.stmt s, hcarries s hs, ?_⟩
          rw [stmts_eq_map, List.map_singleton]
        · cases nested with
          | nil => cases hfirst
          | cons next deeper others =>
            cases hfirst
            refine .inr ⟨hinline.trans hempty, f first, block.map q.clause, rfl, ?_,
              stmts_statements q block⟩
            rw [hnested.1.indent]
            exact ihnested hnested hnil block hblock

end Quotation
end TypeReveal
