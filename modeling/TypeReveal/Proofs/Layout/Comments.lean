import Mathlib.Data.List.Forall2
import TypeReveal.Proofs.Layout.Row
import TypeReveal.Syntax.Block
import TypeReveal.Text.Position

/-!
# Comments

Comments are invisible: a file reads as the same file with blanks in their place
(`Node.read_clean`), to the same tree or the same error, spans and all.

The file is scanned again once its comments are blank, so what has to be seen is that the blanks do
not change how anything after them is taken.  They do not because a comment leaves nothing behind
but the number of open brackets, and that is what a scan of blanks leaves behind too: `Scan.settled`
is a scan that takes the comment it is in for blanks, and `Scan.Sees` relates what the two scans see
of a file.

The lines of a file are found before its comments are blanked (`lineSpans`).  They are pieces of the
file with a single line break between each two (`splitLines_pieces`), they are the same before and
after (`map_span_splitLines_clean`), and the text of a line is what the file without comments has at
the span of it (`byteSlice?_line`).
-/

set_option autoImplicit false
namespace TypeReveal

/-! ## The scan of blanks

The blanks that stand in the place of a comment are read in code, so they are labelled as code where
the comment was labelled a comment.  All other characters are labelled alike, and two scans that are
alike but for the comment that one is in stay so (`step_cases`). -/

namespace Scan

/-- A scan that takes the comment it is in for blanks. -/
def settled (scan : Scan) : Scan :=
  match scan.mode with
  | .comment => ⟨scan.depth, .code⟩
  | _ => scan

/-- A character as a scan sees it that knows of comments, and as one sees it that does not. -/
structure Sees (x y : Char × Region) : Prop where
  char : x.1 = y.1
  region : x.2 = y.2 ∨ (x.2 = .comment ∧ x.1 ≠ '\n')
  not_comment : y.2 ≠ .comment

/-- A scan that is in no comment is settled. -/
theorem settled_of_ne {scan : Scan} (h : scan.mode ≠ .comment) : scan.settled = scan := by
  rw [settled]
  split
  · next hmode => exact absurd hmode h
  · rfl

/-- The labels of code are no comments. -/
theorem codeRegion_ne_comment (depth : Nat) : codeRegion depth ≠ .comment := by
  rw [codeRegion]
  split <;> simp

/-- **A character starts a comment or goes on with one**, or it is no part of a comment and there is
none right after it. -/
theorem step_cases (scan : Scan) (c : Char) :
    (c ≠ '\n' ∧ scan.settled = ⟨scan.depth, .code⟩ ∧
      scan.step c = (.comment, ⟨scan.depth, .comment⟩)) ∨
    ((scan.step c).1 ≠ .comment ∧ (scan.step c).2.mode ≠ .comment ∧
      scan.settled.step c = scan.step c) := by
  obtain ⟨depth, mode⟩ := scan
  cases reads mode c with
  | opening hmode _ h =>
    subst hmode
    exact .inr ⟨by simp [h], by simp [h], rfl⟩
  | closing hmode _ hzero h =>
    subst hmode
    cases depth with
    | zero => exact .inr ⟨by simp [hzero], by simp [hzero], rfl⟩
    | succ depth =>
      refine .inr ⟨?_, by simp [h], rfl⟩
      rw [h, closeRegion]
      split <;> simp
  | plain hmode h =>
    refine .inr ⟨?_, by simp [h], ?_⟩
    · rw [h]
      exact codeRegion_ne_comment depth
    · rcases hmode with rfl | rfl
      · rfl
      · -- A break ends the comment before it as it ends a row of blanks.
        cases mode with
        | comment => exact (step_plain (by decide) depth).trans (h depth).symm
        | _ => rfl
  | quoted mode' hmode hmode' h =>
    exact .inr ⟨by simp [h], by simpa [h] using hmode', by rw [settled_of_ne hmode]⟩
  | comment hmode hc h =>
    refine .inl ⟨hc, ?_, h depth⟩
    rcases hmode with rfl | rfl <;> rfl

/-- Blanks in code are code. -/
theorem label_blanks (depth n : Nat) (rest : List Char) :
    label ⟨depth, .code⟩ (List.replicate n ' ' ++ rest) =
      List.replicate n (' ', codeRegion depth) ++ label ⟨depth, .code⟩ rest := by
  induction n with
  | zero => rfl
  | succ n ih =>
    rw [List.replicate_succ, List.replicate_succ, List.cons_append, List.cons_append, ← ih,
      label.eq_2, step_plain (by decide)]

/-- The blanks of a comment are seen as blanks. -/
theorem sees_blanks (depth n : Nat) :
    List.Forall₂ Sees (List.replicate n (' ', .comment))
      (List.replicate n (' ', codeRegion depth)) := by
  induction n with
  | zero => exact .nil
  | succ n ih => exact .cons ⟨rfl, .inr ⟨rfl, by simp⟩, codeRegion_ne_comment depth⟩ ih

/-- **A scan of a file without its comments** sees what the scan that blanked them saw, but for the
comments. -/
theorem sees_label (scan : Scan) (text : List Char) :
    List.Forall₂ Sees ((scan.label text).flatMap blankComment)
      (scan.settled.label (((scan.label text).flatMap blankComment).map Prod.fst)) := by
  induction text generalizing scan with
  | nil => exact .nil
  | cons c text ih =>
    rw [label.eq_2, List.flatMap_cons, List.map_append]
    rcases scan.step_cases c with ⟨-, hsettled, hstep⟩ | ⟨hregion, hmode, hstep⟩
    · have hnext := ih ⟨scan.depth, .comment⟩
      have hblank : blankComment (c, .comment) = List.replicate c.utf8Size (' ', .comment) := rfl
      rw [hsettled, hstep, hblank, List.map_replicate, label_blanks]
      exact List.rel_append (sees_blanks _ _) hnext
    · have hkept : blankComment (c, (scan.step c).1) = [(c, (scan.step c).1)] := by
        rw [blankComment.eq_def]
        split
        · next h => exact absurd (congrArg Prod.snd h) hregion
        · next h => cases h; rfl
      have hnext := ih (scan.step c).2
      rw [settled_of_ne hmode] at hnext
      rw [hkept, List.map_singleton, List.singleton_append, List.singleton_append, label.eq_2,
        hstep]
      exact .cons ⟨rfl, .inl rfl, hregion⟩ hnext

/-- A scan of blanks sees no comments. -/
theorem not_comment_of_sees {u v : List (Char × Region)} (h : List.Forall₂ Sees u v) :
    ∀ y ∈ v, y.2 ≠ .comment := by
  induction h with
  | nil => intro y hy; cases hy
  | cons hsees _ ih => exact List.forall_mem_cons.2 ⟨hsees.not_comment, ih⟩

end Scan

/-! ## Blanking twice

A file without its comments has none, so that blanking is idempotent, and its lines are the lines of
the file. -/

/-- A scan of the blanked file sees what the blanked labels say. -/
theorem sees_clean (source : List Char) :
    List.Forall₂ Scan.Sees (cleanRegions source) (regions (clean source)) :=
  Scan.sees_label {} source

/-- **There are no comments left** when they have been blanked. -/
theorem cleanRegions_clean (source : List Char) :
    cleanRegions (clean source) = regions (clean source) :=
  flatMap_blankComment (Scan.not_comment_of_sees (sees_clean source))

/-- Blanking twice is blanking once. -/
theorem clean_clean (source : List Char) : clean (clean source) = clean source := by
  rw [clean, cleanRegions_clean, regions, Scan.map_fst_label]

/-- Lines end where line breaks stand in code, and blanks are no line breaks. -/
theorem splitLines_congr {u v : List (Char × Region)} (h : List.Forall₂ Scan.Sees u v)
    (start : Nat) : splitLines start u = splitLines start v := by
  induction h generalizing start with
  | nil => rfl
  | @cons x y u v hsees _ ih =>
    obtain ⟨c, region⟩ := x
    obtain ⟨d, region'⟩ := y
    obtain ⟨rfl, hregion, -⟩ := hsees
    rcases hregion with rfl | ⟨rfl, hbreak⟩
    · rw [splitLines, splitLines, ih]
    · replace hbreak : (c == '\n') = false := by simpa using hbreak
      rw [splitLines, splitLines, hbreak, ih]
      rfl

/-- A file that is blanked has the lines of the file. -/
theorem splitLines_clean (source : List Char) (start : Nat) :
    splitLines start (cleanRegions (clean source)) = splitLines start (cleanRegions source) := by
  rw [cleanRegions_clean, splitLines_congr (sees_clean source)]

/-! ## The spans of lines

Where a line stands is decided by the line breaks outside of everything.  Blanking puts blanks in
the place of comments and breaks no line, and the break behind a comment stays. -/

/-- The spans of the lines of a file, blank lines included. -/
def lineSpans (source : List Char) : List Span := (splitLines 0 (regions source)).map Segment.span

/-- The spans of texts one after another from `start` on, with one byte between each two. -/
def pieceSpans (start : Nat) : List (List Char) → List Span
  | [] => []
  | piece :: pieces =>
    ⟨start, start + utf8Length piece⟩ :: pieceSpans (start + utf8Length piece + 1) pieces

/-- Spans of which the first starts at `start`. -/
def startFirst (start : Nat) : List Span → List Span
  | [] => []
  | span :: spans => ⟨start, span.stop⟩ :: spans

/-- The first line starts where the text does. -/
theorem exists_splitLines (start : Nat) (u : List (Char × Region)) :
    ∃ text segs, splitLines start u = ⟨start, text⟩ :: segs := by
  have hhead := (laid_splitLines start u).2
  cases h : splitLines start u with
  | nil => rw [h] at hhead; cases hhead
  | cons seg segs =>
    rw [h] at hhead
    obtain rfl : seg.start = start := Option.some_inj.1 hhead
    exact ⟨seg.text, segs, rfl⟩

/-- What is no line break in code belongs to the line that goes on after it. -/
theorem map_span_splitLines_append {w : List (Char × Region)}
    (h : ∀ x ∈ w, x.2 = .top → x.1 ≠ '\n') (start : Nat) (v : List (Char × Region)) :
    (splitLines start (w ++ v)).map Segment.span =
      startFirst start
        ((splitLines (start + utf8Length (w.map Prod.fst)) v).map Segment.span) := by
  induction w generalizing start with
  | nil =>
    obtain ⟨text, segs, hv⟩ := exists_splitLines start v
    simp [hv, startFirst, Segment.span]
  | cons x w ih =>
    obtain ⟨c, region⟩ := x
    have hx : ¬ (c == '\n' && region = .top) = true := by
      rw [Bool.and_eq_true, beq_iff_eq, decide_eq_true_eq]
      exact fun hbreak => h _ List.mem_cons_self hbreak.2 hbreak.1
    have hrest := ih (fun y hy => h y (List.mem_cons_of_mem _ hy)) (start + c.utf8Size)
    obtain ⟨text, segs, hsplit⟩ := exists_splitLines (start + c.utf8Size) (w ++ v)
    obtain ⟨text', segs', hsplit'⟩ :=
      exists_splitLines (start + c.utf8Size + utf8Length (w.map Prod.fst)) v
    rw [hsplit, hsplit'] at hrest
    rw [List.cons_append, splitLines, if_neg hx, hsplit, List.map_cons (f := Prod.fst),
      utf8Length_cons, ← Nat.add_assoc, hsplit']
    simp only [List.map_cons, startFirst, List.cons.injEq, Segment.span, Span.mk.injEq] at hrest ⊢
    exact ⟨⟨trivial, by rw [utf8Length_cons, ← Nat.add_assoc]; exact hrest.1.2⟩, hrest.2⟩

/-- **The lines of a file are where they were** before its comments were blanked. -/
theorem map_span_splitLines_clean (scan : Scan) (start : Nat) (text : List Char) :
    (splitLines start ((scan.label text).flatMap blankComment)).map Segment.span =
      (splitLines start (scan.label text)).map Segment.span := by
  induction text generalizing scan start with
  | nil => rfl
  | cons c text ih =>
    have hlabel : scan.label (c :: text) =
        [(c, (scan.step c).1)] ++ (scan.step c).2.label text := rfl
    by_cases hcomment : (scan.step c).1 = .comment
    · -- Neither the comment nor the blanks in its place break the line.
      have hblank : blankComment (c, .comment) = List.replicate c.utf8Size (' ', .comment) := rfl
      have hlength : utf8Length ((List.replicate c.utf8Size (' ', Region.comment)).map Prod.fst) =
          utf8Length ([(c, Region.comment)].map Prod.fst) := by
        rw [List.map_replicate, utf8Length_replicate_space]
        rfl
      rw [hlabel, hcomment, List.flatMap_append, List.flatMap_singleton, hblank,
        map_span_splitLines_append (by simp), map_span_splitLines_append (by simp), hlength, ih]
    · have hkept : [(c, (scan.step c).1)].flatMap blankComment = [(c, (scan.step c).1)] :=
        flatMap_blankComment (List.forall_mem_singleton.2 hcomment)
      rw [hlabel, List.flatMap_append, hkept]
      by_cases hbreak : c = '\n' ∧ (scan.step c).1 = .top
      · obtain ⟨rfl, htop⟩ := hbreak
        simp [splitLines, htop, ih]
      · rw [map_span_splitLines_append (by simpa [imp_not_comm] using hbreak),
          map_span_splitLines_append (by simpa [imp_not_comm] using hbreak), ih]

/-- **The lines of a file** are texts with a single line break between each two. -/
theorem splitLines_pieces (start : Nat) (u : List (Char × Region)) :
    List.intercalate ['\n'] ((splitLines start u).map Segment.text) = u.map Prod.fst ∧
      (splitLines start u).map Segment.span =
        pieceSpans start ((splitLines start u).map Segment.text) := by
  induction u generalizing start with
  | nil => exact ⟨rfl, rfl⟩
  | cons x u ih =>
    obtain ⟨c, region⟩ := x
    obtain ⟨hjoin, hspans⟩ := ih (start + c.utf8Size)
    obtain ⟨text, segs, hsplit⟩ := exists_splitLines (start + c.utf8Size) u
    rw [hsplit] at hjoin hspans
    rw [splitLines, hsplit]
    split
    · next hbreak =>
      rw [Bool.and_eq_true, beq_iff_eq] at hbreak
      obtain ⟨rfl, -⟩ := hbreak
      refine ⟨?_, congrArg (Span.mk start start :: ·) hspans⟩
      rw [List.map_cons, List.map_cons, List.intercalate_cons_cons, ← List.map_cons, hjoin]
      rfl
    · have hmore := (List.cons.inj hspans).2
      refine ⟨?_, congrArg (_ :: ·) (hmore.trans ?_)⟩
      · rw [List.map_cons (f := Prod.fst), ← hjoin]
        cases segs <;> rfl
      · rw [utf8Length_cons, ← Nat.add_assoc]

/-- Pieces of a text stand at their spans. -/
theorem byteSlice?_pieceSpans (before : List Char) (pieces : List (List Char)) :
    (pieceSpans (utf8Length before) pieces).map (fun span =>
      byteSlice? (before ++ List.intercalate ['\n'] pieces) span.start span.stop) =
        pieces.map some := by
  induction pieces generalizing before with
  | nil => rfl
  | cons piece pieces ih =>
    cases pieces with
    | nil =>
      have hslice := byteSlice?_append before piece []
      rw [List.append_nil] at hslice
      simp [pieceSpans, List.intercalate_singleton, hslice]
    | cons next pieces =>
      have hnext := ih (before ++ (piece ++ ['\n']))
      have hlength : utf8Length (before ++ (piece ++ ['\n'])) =
          utf8Length before + utf8Length piece + 1 := by
        simp [Nat.add_assoc, show '\n'.utf8Size = 1 from rfl]
      rw [hlength] at hnext
      rw [List.intercalate_cons_cons, pieceSpans, List.map_cons, List.map_cons, List.append_assoc,
        byteSlice?_append, ← hnext]
      simp only [List.append_assoc]

/-- **The text of a line** is what the file without comments has at its span. -/
theorem byteSlice?_line {source : List Char} {seg : Segment}
    (h : seg ∈ splitLines 0 (cleanRegions source)) :
    byteSlice? (clean source) seg.span.start seg.span.stop = some seg.text := by
  obtain ⟨hjoin, hspans⟩ := splitLines_pieces 0 (cleanRegions source)
  have hslices := byteSlice?_pieceSpans [] ((splitLines 0 (cleanRegions source)).map Segment.text)
  rw [hjoin, utf8Length_nil, ← hspans, List.map_map, List.map_map, List.map_inj_left] at hslices
  exact hslices seg h

/-! ## Files

All readers start from the lines of the blanked file, and a file that is blanked already has the
same lines, so that the tree or the error is the same.  The spans are those of the file itself:
every character that is no part of a comment stands at the byte at which it stood. -/

/-- A character of a file stands where it stood when comments have been blanked, and blanks stand in
the place of one that belongs to a comment. -/
theorem byteSlice?_clean {source : List Char} {n : Nat} {c : Char} {region : Region}
    (h : (regions source)[n]? = some (c, region)) :
    byteSlice? (clean source) (utf8Length (source.take n))
      (utf8Length (source.take n) + c.utf8Size) =
        some (if region = .comment then List.replicate c.utf8Size ' ' else [c]) := by
  obtain ⟨hn, hget⟩ := List.getElem?_eq_some_iff.1 h
  have hsplit : (regions source).take n ++ (c, region) :: (regions source).drop (n + 1) =
      regions source := by
    rw [← hget, List.getElem_cons_drop, List.take_append_drop]
  have hbefore : ((regions source).take n).map Prod.fst = source.take n := by
    rw [List.map_take, regions, Scan.map_fst_label]
  have hplace : (blankComment (c, region)).map Prod.fst =
      if region = .comment then List.replicate c.utf8Size ' ' else [c] := by
    cases region <;> simp [blankComment]
  have hlength : utf8Length ((blankComment (c, region)).map Prod.fst) = c.utf8Size := by
    have := utf8Length_flatMap_blankComment [(c, region)]
    simpa using this
  have hslice := byteSlice?_append ((((regions source).take n).flatMap blankComment).map Prod.fst)
    ((blankComment (c, region)).map Prod.fst)
    ((((regions source).drop (n + 1)).flatMap blankComment).map Prod.fst)
  rw [utf8Length_flatMap_blankComment, hbefore, hlength, hplace, ← hplace, ← List.map_append,
    ← List.map_append, ← List.flatMap_cons, ← List.flatMap_append, hsplit, hplace] at hslice
  exact hslice

/-- **Comments are invisible.**  The lines of a file are texts with a single line break between each
two; a file without its comments is as long, has blanks where the comments were and is otherwise
the same; it has the same lines, no comments, and reads to the same tree or the same error. -/
theorem Node.read_clean (source : List Char) :
    (∃ pieces, List.intercalate ['\n'] pieces = source ∧
      lineSpans source = pieceSpans 0 pieces) ∧
    utf8Length (clean source) = utf8Length source ∧
    (∀ (n : Nat) (c : Char) (region : Region), (regions source)[n]? = some (c, region) →
      byteSlice? (clean source) (utf8Length (source.take n))
        (utf8Length (source.take n) + c.utf8Size) =
          some (if region = .comment then List.replicate c.utf8Size ' ' else [c])) ∧
    clean (clean source) = clean source ∧
    lineSpans (clean source) = lineSpans source ∧
    Node.read (clean source) = Node.read source := by
  have hlines : Line.ofFile (clean source) = Line.ofFile source := by
    rw [Line.ofFile, splitLines_clean, Line.ofFile]
  have hspans : lineSpans (clean source) = lineSpans source := by
    rw [lineSpans, ← cleanRegions_clean, splitLines_clean]
    exact map_span_splitLines_clean {} 0 source
  obtain ⟨hjoin, hpieces⟩ := splitLines_pieces 0 (regions source)
  rw [regions, Scan.map_fst_label] at hjoin
  refine ⟨⟨_, hjoin, hpieces⟩, utf8Length_clean source,
    fun n c region => byteSlice?_clean, clean_clean source, hspans, ?_⟩
  rw [Node.read, Node.read, hlines, utf8Length_clean]

/-- A comment in a bracket that is never closed, with a quote and a character of two bytes in it;
the sign of comments in a string starts none. -/
theorem Node.read_clean_group :
    (regions "f('#',#é'\n\"".toList)[7]? = some ('é', .comment) ∧
    clean "f('#',#é'\n\"".toList = "f('#',    \n\"".toList ∧
    byteSlice? (clean "f('#',#é'\n\"".toList) 7 9 = some [' ', ' '] ∧
    lineSpans "f('#',    \n\"".toList = [⟨0, 12⟩] ∧
    Node.read "f('#',    \n\"".toList = Node.read "f('#',#é'\n\"".toList := by
  have hregion : (regions "f('#',#é'\n\"".toList)[7]? = some ('é', .comment) := by decide
  have hclean : clean "f('#',#é'\n\"".toList = "f('#',    \n\"".toList := by decide
  obtain ⟨-, -, hplace, -, hspans, hread⟩ := read_clean "f('#',#é'\n\"".toList
  rw [hclean] at hspans hread
  exact ⟨hregion, hclean, hplace 7 'é' .comment hregion, hspans.trans (by decide), hread⟩

end TypeReveal
