import TypeReveal.Careful.File
import TypeReveal.Proofs.Careful.Statement
import TypeReveal.Proofs.Layout.Comments
import TypeReveal.Proofs.Statement.Nesting

/-!
# Files are cut in range

Every comment that is blanked out and every line that is cut out lies in its file, so the lines of
a careful reading are those of one without care (`Careful.lines_eq`).  The clauses of an outline
agree by induction on it, and with them whole files (`read_agrees`).  So a careful reading of a file
ends with one of two faults if it ends with any (`Careful.read_cases`).

Comments are blanked out one after another in the text of the file, and what has been blanked is as
long as before, so that the places of the comments that follow stay where they are.  Lines are cut
out of the blanked file by spans that were found before blanking.

The reader of blocks adds cuts of its own.  A decorated function starts at the sign of its first
decorator, one byte before the expression, and this is a subtraction which could go below zero.  It
does not, because a decorator was read from behind a sign (`IsDecorator`).
-/

set_option autoImplicit false
namespace TypeReveal

variable {known : Fault → Prop} {line : Line}

/-! ## Comments

The span of a comment is found by going through the labelled text with the place at which the
comment that is being gone through has started, if there is one.  So the invariant has two cases. -/

namespace Careful

/-- **A comment** can be blanked out. -/
theorem blank_eq (before comment rest : List Char) :
    blank (before ++ (comment ++ rest))
        ⟨utf8Length before, utf8Length before + utf8Length comment⟩ =
      .ok (before ++ (List.replicate (utf8Length comment) ' ' ++ rest)) := by
  generalize hseg : Segment.mk 0 (before ++ (comment ++ rest)) = seg
  have htext : seg.text = before ++ (comment ++ rest) := by rw [← hseg]
  have hbefore : upTo seg (utf8Length before) = .ok ⟨seg.start, before⟩ := by
    have hcut := @cut_of_append seg [] before (comment ++ rest) htext
    rwa [utf8Length_nil, Nat.zero_add] at hcut
  have hcomment := cut_of_append htext
  have hrest : after seg (utf8Length before + utf8Length comment) =
      .ok ⟨seg.start + (utf8Length before + utf8Length comment), rest⟩ := by
    have hcut := @cut_of_append seg (before ++ comment) rest [] (by rw [htext]; simp)
    rwa [← utf8Length_append, List.append_assoc, ← htext, utf8Length_append before] at hcut
  rw [blank, hseg, hbefore, hcomment, hrest, minus_of_le (Nat.le_add_right _ _),
    Nat.add_sub_cancel_left]
  rfl

/-- **The comments of a text** are blanked out one after another, whatever stands before it; what
does may end in a comment that goes on. -/
theorem foldlM_blank (u : List (Char × Region)) :
    (∀ before, (commentSpans none (utf8Length before) u).foldlM blank (before ++ u.map Prod.fst) =
      .ok (before ++ (u.flatMap blankComment).map Prod.fst)) ∧
    ∀ before comment,
      (commentSpans (some (utf8Length before)) (utf8Length before + utf8Length comment) u).foldlM
          blank (before ++ (comment ++ u.map Prod.fst)) =
        .ok (before ++ (List.replicate (utf8Length comment) ' ' ++
          (u.flatMap blankComment).map Prod.fst)) := by
  -- The two halves are proved together: outside of a comment, and with one begun, whose bytes so
  -- far are `comment`.
  induction u with
  | nil =>
    refine ⟨fun before => rfl, fun before comment => ?_⟩
    have hlast := blank_eq before comment []
    rw [List.append_nil] at hlast
    simp [commentSpans, List.foldlM, hlast]
  | cons x u ih =>
    obtain ⟨c, region⟩ := x
    obtain ⟨ihnone, ihsome⟩ := ih
    have hsize : utf8Length [c] = c.utf8Size := Nat.add_zero _
    by_cases hregion : region = .comment
    · subst hregion
      have hblank : (blankComment (c, .comment)).map Prod.fst = List.replicate c.utf8Size ' ' := by
        rw [blankComment, List.map_replicate]
      simp only [commentSpans, if_true, List.map_cons, List.flatMap_cons, List.map_append, hblank]
      refine ⟨fun before => ?_, fun before comment => ?_⟩
      · have hnext := ihsome before [c]
        rw [hsize] at hnext
        exact hnext
      · have hnext := ihsome before (comment ++ [c])
        rw [utf8Length_append, hsize, List.replicate_add, ← Nat.add_assoc, List.append_assoc,
          List.append_assoc] at hnext
        exact hnext
    · have hkept : blankComment (c, region) = [(c, region)] := by
        cases region with
        | comment => exact absurd rfl hregion
        | _ => rfl
      refine ⟨fun before => ?_, fun before comment => ?_⟩
      · have hnext := ihnone (before ++ [c])
        simpa [commentSpans, hregion, hkept] using hnext
      · have hnext := ihnone (before ++ (List.replicate (utf8Length comment) ' ' ++ [c]))
        simpa [commentSpans, hregion, hkept, blank_eq, utf8Length_replicate_space,
          Nat.add_assoc] using hnext

theorem clean_eq (source : List Char) : clean source = .ok (TypeReveal.clean source) := by
  have hfold := (foldlM_blank (regions source)).1 []
  have hmap : (regions source).map Prod.fst = source := Scan.map_fst_label {} source
  rwa [hmap] at hfold

/-! ## Lines

That a line can be cut out at its span is a fact about all files (`byteSlice?_line`), and nothing is
added here but that the careful reader cuts there. -/

/-- **The line at a span of a file** can be cut out of the file without its comments. -/
theorem line?_eq {source : List Char} {seg : Segment}
    (h : seg ∈ splitLines 0 (cleanRegions source)) :
    line? (TypeReveal.clean source) seg.span = .ok (Line.ofSegment? seg) := by
  have hcut : cut ⟨0, TypeReveal.clean source⟩ seg.span.start seg.span.stop =
      .ok ⟨0 + seg.span.start, seg.text⟩ := by
    rw [cut, if_pos (show seg.span.start ≤ seg.span.stop from seg.start_le_stop), byteSlice?_line h]
  rw [line?, hcut, ok_bind]
  simp only [trimStart_trimEnd]
  split
  · next hempty =>
    have hblank : Line.ofSegment? seg = none := if_pos hempty
    rw [hblank]
    rfl
  · next hne =>
    have hline : Line.ofSegment? seg = some ⟨seg.trim.start - seg.start, seg.trim⟩ := if_neg hne
    have hindent : minus (utf8Length (trimEnd seg.text)) (utf8Length (TypeReveal.trim seg.text)) =
        .ok (utf8Length (seg.text.takeWhile isBlank)) := by
      rw [trimEnd_eq (by simpa using hne), utf8Length_append, minus_of_le (Nat.le_add_left _ _),
        Nat.add_sub_cancel]
    rw [hline, hindent, Segment.trim, Nat.add_sub_cancel_left]
    rfl

/-- **The lines of a file** can be cut out of it. -/
theorem lines_eq (source : List Char) : lines source = .ok (Line.ofFile source) := by
  have hspans : (splitLines 0 (regions source)).map Segment.span =
      (splitLines 0 (cleanRegions source)).map Segment.span :=
    (map_span_splitLines_clean {} 0 source).symm
  have hlines : ∀ segs : List Segment, (∀ seg ∈ segs, seg ∈ splitLines 0 (cleanRegions source)) →
      (segs.map Segment.span).mapM (line? (TypeReveal.clean source)) =
        .ok (segs.map Line.ofSegment?) := by
    intro segs hsegs
    induction segs with
    | nil => rfl
    | cons seg segs ih =>
      obtain ⟨hseg, hsegs⟩ := List.forall_mem_cons.1 hsegs
      simp [line?_eq hseg, ih hsegs]
  rw [lines, clean_eq, ok_bind, hspans, hlines _ fun _ h => h, ok_bind, Line.ofFile,
    List.filterMap_map]
  rfl

end Careful

/-! ## Clauses

The induction is on the outline.  Decorators are carried along until the function that they belong
to, with the fact that each of them was read behind a sign. -/

/-- A decorator stands behind its sign. -/
def IsDecorator (d : Expr) : Prop := 1 ≤ d.span.start ∧ d.span.start ≤ d.span.stop

/-- **The sign of a decorator** can be cut off. -/
theorem after_sign (h : line.text.text.head? = some '@') :
    Careful.after line.text 1 = .ok (line.text.drop 1) := by
  rw [List.head?_eq_getElem?] at h
  exact Careful.after_succ h rfl

theorem isDecorator_of_expr {d : Expr} (hat : line.text.text.head? = some '@')
    (h : (line.text.drop 1).expr = .ok d) : IsDecorator d := by
  obtain ⟨hstart, hnested, -⟩ := Expr.laid_singleton.1 (Outline.laid_of_decorator hat h)
  exact ⟨Nat.le_trans (Nat.le_add_left 1 _) hstart, hnested.le⟩

theorem ofHeader_eq {decorators : List Expr} (h : ∀ d ∈ decorators, IsDecorator d) (line : Span)
    (header : Header) (body : List Stmt) :
    Careful.ofHeader line decorators header body =
      .ok (Clause.ofHeader line decorators header body) := by
  cases header with
  | function name params result? =>
    cases decorators with
    | nil => rfl
    | cons d decorators =>
      have hstart := Careful.minus_of_le (h d List.mem_cons_self).1
      simp [Careful.ofHeader, Clause.ofHeader, hstart]
  | _ => rfl

theorem expectNone_agrees (nested : Outline) :
    Agrees known (Careful.expectNone nested) nested.expectNone := by
  cases nested with
  | nil => exact .ok ()
  | cons line below rest => exact report_agrees line.text.start_le_stop rfl

theorem expectNoDecorators_agrees {decorators : List Expr} (h : ∀ d ∈ decorators, IsDecorator d) :
    Agrees known (Careful.expectNoDecorators decorators) (expectNoDecorators decorators) := by
  rw [Careful.expectNoDecorators, expectNoDecorators]
  cases hlast : decorators.getLast? with
  | none => exact .ok ()
  | some d => exact report_agrees (h d (List.mem_of_getLast? hlast)).2 rfl

theorem readUndecorated_agrees (decorators : List Expr) (line : Segment) :
    Agrees known (Careful.readUndecorated decorators line) (readUndecorated decorators line) := by
  rw [Careful.readUndecorated, readUndecorated]
  split
  · exact readSimple_agrees line
  · exact malformed_agrees .decorator line

/-- **The clauses of a block** are read without a fault, unless the fault is known. -/
theorem clauses_agrees {o : Outline} (hknown : ∀ line ∈ o.toLines, ∀ f : Fault,
      f.Known line.text → known f) {indent : Nat} {decorators : List Expr} {chained : Bool}
    (hdecorators : ∀ d ∈ decorators, IsDecorator d) :
    Agrees known (Careful.clauses indent decorators chained o)
      (o.clauses indent decorators chained) := by
  induction o generalizing indent decorators chained with
  | nil =>
    rw [Careful.clauses, Outline.clauses]
    exact (expectNoDecorators_agrees hdecorators).bind fun _ _ => .ok _
  | cons line nested rest ihnested ihrest =>
    -- A fault known of a line below is one the whole outline knows.
    replace ihnested := @ihnested fun l hl => hknown l (by simp [Outline.toLines, hl])
    replace ihrest := @ihrest fun l hl => hknown l (by simp [Outline.toLines, hl])
    rw [Careful.clauses, Outline.clauses]
    by_cases hindent : line.indent ≠ indent
    · rw [if_pos hindent, if_pos hindent]
      exact (expectNoDecorators_agrees hdecorators).bind fun _ _ =>
        report_agrees line.text.start_le_stop rfl
    · rw [if_neg hindent, if_neg hindent]
      by_cases hat : line.text.text.head? = some '@'
      · rw [if_pos hat, if_pos hat, after_sign hat, Careful.ok_bind]
        refine (expr_agrees _).bind fun d hd => (expectNone_agrees nested).bind fun _ _ => ?_
        exact ihrest fun d' hd' => (List.mem_append.1 hd').elim (hdecorators d')
          fun hlast => List.mem_singleton.1 hlast ▸ isDecorator_of_expr hat hd
      · rw [if_neg hat, if_neg hat]
        have hnone : ∀ d ∈ ([] : List Expr), IsDecorator d := by simp
        -- Every way of reading the line goes on with what is after it, without decorators.
        have hmore (clause : Clause) : Agrees known
            (do
              let clauses ← Careful.clauses indent [] clause.isOpen rest
              pure (clause :: clauses))
            (do
              let clauses ← rest.clauses indent [] clause.isOpen
              pure (clause :: clauses)) :=
          (ihrest hnone).bind fun clauses _ => .ok _
        have hheader := readHeader?_agrees chained line.text (hknown line List.mem_cons_self)
        cases hread : readHeader? chained line.text with
        | none =>
          rw [hread] at hheader
          rw [hheader.eq_ok]
          exact (readUndecorated_agrees decorators line.text).bind fun s _ =>
            (expectNone_agrees nested).bind fun _ _ => hmore _
        | some header =>
          rw [hread] at hheader
          refine hheader.bind_some fun parts => ?_
          obtain ⟨header, inline⟩ := parts
          simp only [ofHeader_eq hdecorators]
          split
          · exact (readSimple_agrees inline).bind fun s _ =>
              (expectNone_agrees nested).bind fun _ _ => hmore _
          · cases nested with
            | nil =>
              have hmissing : Agrees known
                  (Careful.report (.expectedBlock line.text.span) : Careful Clause)
                  (.error (.expectedBlock line.text.span)) :=
                report_agrees line.text.start_le_stop rfl
              exact hmissing.bind fun clause _ => hmore clause
            | cons top below rest => exact (ihnested hnone).bind fun clauses _ => hmore _

/-! ## Files

The known faults of a file are those of its lines. -/

/-- **A careful reading of a file** agrees with one without care, up to the known faults of its
lines. -/
theorem read_agrees (source : List Char) :
    Agrees (fun f => ∃ line ∈ Line.ofFile source, f.Known line.text) (Careful.read source)
      (Node.read source) := by
  rw [Careful.read, Node.read, Careful.lines_eq, Careful.ok_bind]
  refine Agrees.bind (clauses_agrees ?_ (by simp)) fun clauses _ => .ok _
  intro line hline f hf
  rw [Outline.toLines_ofLines] at hline
  exact ⟨line, hline, hf⟩

/-- **Files have two faults.**  A careful reading of a file ends with the tree of the file, with the
error that there is in it, or with a fault.  If it is a fault, then a line of the file is a function
with a parameter whose default comes before its annotation, and the annotation is what could not be
cut out; or it is a class whose last closing parenthesis comes before its first opening one, and the
base classes are what could not be cut out.  Everything else that reading relies on holds in every
file. -/
theorem Careful.read_cases (source : List Char) :
    (∃ node, Careful.read source = .ok node ∧ Node.read source = .ok node) ∨
    (∃ e, Careful.read source = .error (.error e) ∧ Node.read source = .error e ∧
      e.isCrossed = false) ∨
    ∃ f what span line, Careful.read source = .error (.fault f) ∧
      Node.read source = .error (.crossedSeparators what span) ∧ line ∈ Line.ofFile source ∧
      f.Known line.text := by
  have h := read_agrees source
  generalize Careful.read source = x at h
  generalize Node.read source = y at h
  cases h with
  | ok node => exact .inl ⟨node, rfl, rfl⟩
  | @error e he => exact .inr (.inl ⟨e, rfl, rfl, he⟩)
  | @fault f hf what span =>
    obtain ⟨line, hline, hknown⟩ := hf
    exact .inr (.inr ⟨f, what, span, line, rfl, rfl, hline, hknown⟩)

example : Careful.read "def f(a, **b = 1: c): d".toList =
    .error (.fault (.slice ⟨11, "b = 1: c".toList⟩ 6 2)) := by decide +kernel

example : Careful.read "class A)(]: b".toList =
    .error (.fault (.slice ⟨6, "A)(]".toList⟩ 3 1)) := by decide +kernel

end TypeReveal
