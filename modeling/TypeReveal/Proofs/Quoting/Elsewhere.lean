import TypeReveal.Proofs.Quoting.Edit

/-!
# What does not touch a piece that is put in quotes

What is read from a segment that does not touch the piece is read from the segment where it then
stands: `Carries` says so of one reader after the other, from expressions up to headers.

Each reader takes its segment apart by cuts that do not depend on where the segment stands: at a
sign, after a keyword, at commas, at its blank ends.  A part of a segment that is clear of the piece
is clear of it too (`Clear.within`), so that the lemmas on cuts in `Proofs/Quoting/Edit` apply to
each part again, and what is left to say of a reader is that it makes the same of parts that have
moved.

The order is that of the readers: an expression first, then the statements that stand on one line,
then the headers of those with a block.  Nothing is said of a reading that fails.  A file is put in
quotes only where it is read, so `Carries` asks for the outcome of readings that end well and leaves
the others open.
-/

set_option autoImplicit false
namespace TypeReveal
namespace Quotation

variable {q : Quotation} {seg rest line head inline : Segment}

namespace Clear

variable (h : q.Clear seg)

include h

/-- **Expressions.** -/
theorem expr : Carries q.expr seg.expr (q.segment seg).expr := by
  intro e he
  have hlaid := Expr.laid_singleton.1 (Segment.laid_expr he (Nat.le_refl _) (Nat.le_refl _))
  rcases h with h | ⟨h, h'⟩
  · have hself : q.segment seg = seg := by
      have hstart : seg.start ≤ q.start := Nat.le_trans seg.start_le_stop h
      rw [segment, pos, if_pos hstart]
    rw [hself, he, Quotation.expr, if_pos (Nat.le_trans hlaid.2.2 h)]
  · have hmoved : q.segment seg = ⟨seg.start + 2, seg.text⟩ := by
      rw [segment, pos, if_neg (Nat.not_le.2 h), Nat.max_eq_left h']
    have hread := Expr.read_shift seg.trim.text seg.trim.start 2
    rw [Segment.expr_eq_ok.1 he] at hread
    have hstop : ¬ e.span.stop ≤ q.start := by
      have := hlaid.2.1.le
      simp only [Node.span] at this
      omega
    have htrim : Segment.trim ⟨seg.start + 2, seg.text⟩ = ⟨seg.trim.start + 2, seg.trim.text⟩ :=
      congrArg (Segment.mk · _) (Nat.add_right_comm _ _ _)
    rw [hmoved, Quotation.expr, if_neg hstop, if_pos (Nat.le_trans h' hlaid.1), Segment.expr_eq_ok,
      htrim]
    exact hread

/-! ## Simple statements

A statement on one line is cut at its colon, at its equals sign or after its first word.  The
positions of the signs are handed to the reader of bindings, which is why they are arguments of
`readBinding` and not looked up in it. -/

/-- A binding: what it annotates and what it binds are expressions on the two sides of the signs. -/
theorem readBinding (colon? equals? : Option Nat) :
    Carries (Prod.map (Option.map q.expr) (Option.map q.expr))
      (TypeReveal.readBinding seg colon? equals?)
      (TypeReveal.readBinding (q.segment seg) colon? equals?) := by
  have hlast (n : Nat) : Carries q.expr (seg.drop n).expr ((q.segment seg).drop n).expr :=
    h.segment_drop n ▸ (h.drop n).expr
  rw [readBinding.eq_def, readBinding.eq_def]
  split
  · next c a =>
    split
    · rw [← h.segment_slice]
      exact (h.slice _ _).expr.bind fun annotation _ => (hlast _).bind fun value _ =>
        .ok _ (some annotation, some value)
    · exact (hlast _).bind fun value _ => .ok _ (none, some value)
  · exact (hlast _).bind fun value _ => .ok _ (none, some value)
  · exact (hlast _).bind fun annotation _ => .ok _ (some annotation, none)
  · exact .ok _ (none, none)

/-- A statement with no keyword, which is a binding or an expression. -/
theorem readPlain : Carries q.stmt (TypeReveal.readPlain seg)
    (TypeReveal.readPlain (q.segment seg)) := by
  have hname : boundName? (q.segment seg) = boundName? seg := rfl
  rw [TypeReveal.readPlain, TypeReveal.readPlain, hname, h.span_segment]
  split
  · next name _ =>
    refine (h.readBinding _ _).bind ?_
    rintro ⟨annotation?, value?⟩ -
    exact .ok _ (Stmt.binding seg.span (String.ofList name) annotation? value?)
  · exact h.expr.bind fun value _ => .ok _ (Stmt.expr seg.span value)

/-- A `return`, with a value or without one. -/
theorem readResult (hrest : q.Clear rest) : Carries q.stmt (TypeReveal.readResult seg.span rest)
    (TypeReveal.readResult (q.segment seg).span (q.segment rest)) := by
  have hempty : (q.segment rest).isEmpty = rest.isEmpty := rfl
  rw [TypeReveal.readResult, TypeReveal.readResult, hempty, h.span_segment]
  split
  · exact .ok _ (Stmt.result seg.span none)
  · exact hrest.expr.bind fun value _ => .ok _ (Stmt.result seg.span (some value))

/-- An import from a module.  It has names in it and no expressions, so all that changes is its
span. -/
theorem readFrom (rest : Segment) : Carries q.stmt (TypeReveal.readFrom seg.span rest)
    (TypeReveal.readFrom (q.segment seg).span (q.segment rest)) := by
  rw [TypeReveal.readFrom, TypeReveal.readFrom, h.span_segment]
  split
  · exact .error _
  · next module items hsplit =>
    rw [show splitAt? _ (q.segment rest).text = _ from hsplit]
    exact .ok _ (Stmt.imports seg.span (some _) _)

/-- **Statements without a block.** -/
theorem readSimple : Carries q.stmt (Stmt.readSimple seg) (Stmt.readSimple (q.segment seg)) := by
  have hpass : ((q.segment seg).afterKeyword? "pass").any Segment.isEmpty =
      (seg.afterKeyword? "pass").any Segment.isEmpty := by
    rw [h.afterKeyword?, Option.any_map]
    rfl
  rw [Stmt.readSimple, Stmt.readSimple, hpass, h.afterKeyword? "return", h.afterKeyword? "import",
    h.afterKeyword? "from"]
  split
  · rw [h.span_segment]
    exact .ok _ (Stmt.pass seg.span)
  · cases hreturn : seg.afterKeyword? "return" with
    | some rest => exact h.readResult (h.of_afterKeyword? hreturn)
    | none =>
      cases himport : seg.afterKeyword? "import" with
      | some rest =>
        simp only [Option.map_some, Option.map_none]
        rw [h.span_segment, (h.of_afterKeyword? himport).segment_parts, List.map_map]
        exact .ok _ (Stmt.imports seg.span none _)
      | none =>
        cases hfrom : seg.afterKeyword? "from" with
        | some rest => exact h.readFrom rest
        | none => exact h.readPlain

/-! ## Headers

A header is what stands before the colon of a compound statement, and what follows the colon may be
a block on the same line (`inline`).  Both parts are clear of the piece if the line is
(`of_splitHeader`).  The line itself is an argument of some readers, and only so that an error can
point to it; hence the two lines `line` and `line'` with nothing between them. -/

/-- The line of a compound statement is split at its colon where it stands then, too. -/
theorem splitHeader (what : Construct) :
    Carries (Prod.map q.segment q.segment) (TypeReveal.splitHeader seg what)
      (TypeReveal.splitHeader (q.segment seg) what) := by
  have hcolon : (q.segment seg).index? Segment.colon = seg.index? Segment.colon := rfl
  rw [TypeReveal.splitHeader, TypeReveal.splitHeader, hcolon]
  split
  · exact .error _
  · next n _ =>
    rw [← h.segment_drop, ← (h.drop _).segment_trim]
    have htake : q.segment (seg.take n).trim = ((q.segment seg).take n).trim :=
      (h.take n).segment_trim
    rw [← htake]
    exact .ok _ ((seg.take n).trim, (seg.drop (n + 1)).trim)

/-- Neither part of a split line touches the piece. -/
theorem of_splitHeader {what : Construct}
    (hsplit : TypeReveal.splitHeader seg what = .ok (head, inline)) :
    q.Clear head ∧ q.Clear inline := by
  have hlaid := laid_of_splitHeader hsplit
  have hle := head.start_le_stop
  have hle' := inline.start_le_stop
  exact ⟨h.within ⟨by omega, by omega⟩, h.within ⟨by omega, by omega⟩⟩

/-- A parameter with a name, whose annotation and default are the expressions in it. -/
theorem readNamedParam :
    Carries q.param (TypeReveal.readNamedParam seg)
      (TypeReveal.readNamedParam (q.segment seg)) := by
  have hlast (n : Nat) : Carries q.expr (seg.drop n).expr ((q.segment seg).drop n).expr :=
    h.segment_drop n ▸ (h.drop n).expr
  have hindex (sep : Segment.Separator) : (q.segment seg).index? sep = seg.index? sep := rfl
  rw [TypeReveal.readNamedParam, TypeReveal.readNamedParam, hindex, hindex, h.span_segment]
  simp only [show (q.segment seg).text = seg.text from rfl]
  split
  · exact .error _
  · split
    · split
      · exact .error _
      · rw [← h.segment_slice]
        exact (h.slice _ _).expr.bind fun annotation _ => (hlast _).bind fun default _ =>
          .ok _ (Param.mk seg.span _ (some annotation) (some default))
    · exact (hlast _).bind fun annotation _ =>
        .ok _ (Param.mk seg.span _ (some annotation) none)
    · exact (hlast _).bind fun default _ => .ok _ (Param.mk seg.span _ none (some default))
    · exact .ok _ (Param.mk seg.span _ none none)

/-- A parameter, or one of the separators that stand between parameters. -/
theorem readParam? :
    Carries (Option.map q.param) (TypeReveal.readParam? seg)
      (TypeReveal.readParam? (q.segment seg)) := by
  rw [TypeReveal.readParam?, TypeReveal.readParam?, show (q.segment seg).text = seg.text from rfl]
  split
  · exact .ok _ none
  · rw [← h.segment_drop]
    exact (h.drop _).readNamedParam.map fun _ _ => rfl

/-- The parameters of a function are the parts of what stands in its parentheses. -/
theorem readParams :
    Carries (List.map q.param) (TypeReveal.readParams seg)
      (TypeReveal.readParams (q.segment seg)) := by
  rw [TypeReveal.readParams, TypeReveal.readParams, h.segment_parts]
  refine (Carries.mapM fun part hpart => (h.of_mem_parts hpart).readParam?).bind fun params _ => ?_
  have hfilter : (params.map (Option.map q.param)).filterMap id =
      (params.filterMap id).map q.param := by
    rw [List.filterMap_map, List.map_filterMap]
    rfl
  rw [hfilter]
  exact .ok _ (params.filterMap id)

/-- The bases of a class.  The number says where the parentheses open, which is the same in both
segments. -/
theorem readBases (line line' : Segment) (n : Nat) :
    Carries (List.map q.expr) (TypeReveal.readBases line seg n)
      (TypeReveal.readBases line' (q.segment seg) n) := by
  rw [TypeReveal.readBases, TypeReveal.readBases, show (q.segment seg).text = seg.text from rfl]
  split
  · exact .error _
  · next m _ =>
    split
    · exact .error _
    · have hclear := h.slice (n + 1) m
      rw [← h.segment_slice, hclear.segment_parts]
      exact Carries.mapM fun part hpart => (hclear.of_mem_parts hpart).expr

/-- The annotation behind the arrow of a function. -/
theorem readResultType (line line' : Segment) :
    Carries (Option.map q.expr) (TypeReveal.readResultType line seg)
      (TypeReveal.readResultType line' (q.segment seg)) := by
  have hempty : (q.segment seg).isEmpty = seg.isEmpty := rfl
  rw [TypeReveal.readResultType, TypeReveal.readResultType,
    show (q.segment seg).text = seg.text from rfl, hempty]
  split
  · rw [← h.segment_drop]
    exact (h.drop 2).expr.map fun _ _ => rfl
  · split
    · exact .ok _ none
    · exact .error _

/-- The header of a function, with what stands behind its colon. -/
theorem readFunction (line line' : Segment) :
    Carries (Prod.map q.header q.segment) (TypeReveal.readFunction line seg)
      (TypeReveal.readFunction line' (q.segment seg)) := by
  simp only [TypeReveal.readFunction, show (q.segment seg).text = seg.text from rfl]
  split
  · exact .error _
  · next n _ =>
    have hgroup := h.drop n
    rw [← h.segment_drop]
    simp only [show (q.segment (seg.drop n)).closing? = (seg.drop n).closing? from rfl]
    split
    · next close _ _ =>
      have hhead := (hgroup.drop (close + 1)).trim
      rw [← hgroup.segment_drop, ← (hgroup.drop _).segment_trim, ← hgroup.segment_slice]
      refine (hhead.splitHeader _).bind ?_
      rintro ⟨head, inline⟩ hsplit
      have hclear := (hhead.of_splitHeader hsplit).1
      exact (hclear.readResultType line line').bind fun result? _ =>
        (hgroup.slice 1 close).readParams.bind fun params _ =>
          .ok _ (Header.function _ params result?, inline)
    · exact .error _

/-- The header of a class. -/
theorem readClass (line line' : Segment) :
    Carries (Prod.map q.header q.segment) (TypeReveal.readClass line seg)
      (TypeReveal.readClass line' (q.segment seg)) := by
  rw [TypeReveal.readClass, TypeReveal.readClass]
  refine (h.splitHeader _).bind ?_
  rintro ⟨head, inline⟩ hsplit
  have hclear := (h.of_splitHeader hsplit).1
  simp only [Prod.map, show (q.segment head).text = head.text from rfl]
  refine Carries.bind (f := List.map q.expr) ?_ fun bases _ => ?_
  · cases head.text.findIdx? (· == '(') with
    | none => exact .ok _ []
    | some n => exact hclear.readBases line line' n
  · split
    · exact .ok _ (Header.classDef _ bases, inline)
    · exact .error _

/-- The condition of an `if` or an `elif`. -/
theorem readCondition :
    Carries (Prod.map q.expr q.segment) (TypeReveal.readCondition seg)
      (TypeReveal.readCondition (q.segment seg)) := by
  rw [TypeReveal.readCondition, TypeReveal.readCondition]
  refine (h.splitHeader _).bind ?_
  rintro ⟨head, inline⟩ hsplit
  have hclear := (h.of_splitHeader hsplit).1
  exact hclear.expr.bind fun cond _ => .ok _ (cond, inline)

/-- **Headers.** -/
theorem readHeader? (chained : Bool) :
    Option.Rel (Carries (Prod.map q.header q.segment)) (TypeReveal.readHeader? chained seg)
      (TypeReveal.readHeader? chained (q.segment seg)) := by
  simp only [TypeReveal.readHeader?, h.afterKeyword?]
  -- The two keywords of a chain are only looked for while one is open.
  have hchain (keyword : String) : (if chained = true then
      (seg.afterKeyword? keyword).map q.segment else none) =
        (if chained = true then seg.afterKeyword? keyword else none).map q.segment := by
    split <;> rfl
  have hof {keyword : String} {rest : Segment}
      (hrest : (if chained = true then seg.afterKeyword? keyword else none) = some rest) :
      q.Clear rest := by
    split at hrest
    · exact h.of_afterKeyword? hrest
    · cases hrest
  rw [hchain, hchain]
  cases hdef : seg.afterKeyword? "def" with
  | some rest => exact .some ((h.of_afterKeyword? hdef).readFunction seg _)
  | none =>
  cases hclass : seg.afterKeyword? "class" with
  | some rest => exact .some ((h.of_afterKeyword? hclass).readClass seg _)
  | none =>
  cases hif : seg.afterKeyword? "if" with
  | some rest =>
    refine .some ((h.of_afterKeyword? hif).readCondition.bind ?_)
    rintro ⟨cond, inline⟩ -
    exact .ok _ (Header.conditional cond, inline)
  | none =>
  cases helif : (if chained = true then seg.afterKeyword? "elif" else none) with
  | some rest =>
    refine .some ((hof helif).readCondition.bind ?_)
    rintro ⟨cond, inline⟩ -
    exact .ok _ (Header.alternative cond, inline)
  | none =>
  cases helse : (if chained = true then seg.afterKeyword? "else" else none) with
  | some rest =>
    refine .some (((hof helse).splitHeader _).bind ?_)
    rintro ⟨_, inline⟩ -
    exact .ok _ (Header.otherwise, inline)
  | none => exact .none

/-- A line that starts no compound statement starts none where it stands then. -/
theorem readHeader?_of_none {chained : Bool} (hnone : TypeReveal.readHeader? chained seg = none) :
    TypeReveal.readHeader? chained (q.segment seg) = none := by
  have hrel := h.readHeader? chained
  generalize TypeReveal.readHeader? chained (q.segment seg) = read at hrel ⊢
  rw [hnone] at hrel
  cases hrel
  rfl

/-- A header that was read is read where it stands then, as what becomes of it. -/
theorem readHeader?_of_some {chained : Bool} {header : Header}
    (hsome : TypeReveal.readHeader? chained seg = some (.ok (header, inline))) :
    TypeReveal.readHeader? chained (q.segment seg) =
      some (.ok (q.header header, q.segment inline)) := by
  have hrel := h.readHeader? chained
  generalize TypeReveal.readHeader? chained (q.segment seg) = read at hrel ⊢
  rw [hsome] at hrel
  cases hrel with
  | some hcarries => rw [hcarries _ rfl, Prod.map]

end Clear

end Quotation
end TypeReveal
