import TypeReveal.Layout.Outline
import TypeReveal.Proofs.Layout.Sealed
import TypeReveal.Proofs.Text.Trim

/-!
# The lines of a written file

A file that is written line by line is split into the same lines, if the text of each is sealed and
sharp: `Line.shape_ofFile`.  The outline of lines is then found from the indentation alone; what
stands deeper than a line goes below it, up to the first line that does not: `Outline.ofLines_cons`.

A line of the outline has the number of spaces in front of it and a segment, which is a position and
a text.  The position plays no part in how the line is read, but for the spans of the tree.  So
lines are compared by what is left without it, the indentation and the text (`Line.shape`), and it
is the shape that is known of a file that was written line by line.
-/

set_option autoImplicit false
namespace TypeReveal

/-- A line of a file, indented by spaces. -/
def lineText (line : Nat × List Char) : List Char :=
  List.replicate line.1 ' ' ++ (line.2 ++ ['\n'])

/-- A line without its place in the file. -/
def Line.shape (line : Line) : Nat × List Char := (line.indent, line.text.text)

/-! ## Splitting into lines

A line break separates lines only outside of strings, brackets and comments.  A sealed text leaves
the scan in code at depth zero, so the break that is written after it does separate, and a text that
is sealed against line breaks has none of its own that would.  Sharp texts have no blanks at their
ends, so that trimming the line takes off just the spaces that were written in front of it. -/

/-- Where there is no comment, none is blanked. -/
theorem flatMap_blankComment {u : List (Char × Region)} (h : ∀ x ∈ u, x.2 ≠ .comment) :
    u.flatMap blankComment = u := by
  induction u with
  | nil => rfl
  | cons x u ih =>
    obtain ⟨c, region⟩ := x
    have hx : blankComment (c, region) = [(c, region)] := by
      cases region with
      | comment => exact absurd rfl (h _ List.mem_cons_self)
      | _ => rfl
    rw [List.flatMap_cons, hx, ih fun y hy => h y (List.mem_cons_of_mem _ hy),
      List.singleton_append]

/-- A line goes up to its break, and the lines behind it are split from there on. -/
theorem splitLines_append {u : List (Char × Region)} (h : ∀ x ∈ u, x.2 = .top → x.1 ≠ '\n')
    (start : Nat) (v : List (Char × Region)) :
    splitLines start (u ++ ('\n', .top) :: v) = ⟨start, u.map Prod.fst⟩ ::
      splitLines (start + utf8Length (u.map Prod.fst) + '\n'.utf8Size) v := by
  induction u generalizing start with
  | nil => simp [splitLines]
  | cons x u ih =>
    obtain ⟨c, region⟩ := x
    have hx : ¬ (c == '\n' && region = .top) = true := by
      rw [Bool.and_eq_true, beq_iff_eq, decide_eq_true_eq]
      exact fun hbreak => h _ List.mem_cons_self hbreak.2 hbreak.1
    rw [List.cons_append, splitLines, if_neg hx,
      ih (fun y hy => h y (List.mem_cons_of_mem _ hy)), List.map_cons, utf8Length_cons,
      Nat.add_assoc start]

/-- A space takes up one byte. -/
theorem utf8Length_replicate_space (n : Nat) : utf8Length (List.replicate n ' ') = n := by
  induction n with
  | zero => rfl
  | succ n ih =>
    rw [List.replicate_succ, utf8Length_cons, ih, show ' '.utf8Size = 1 from rfl, Nat.add_comm]

/-- The line that a sharp text after spaces is. -/
theorem Line.shape_ofSegment? (start indent : Nat) {text : List Char} (h : Sharp text) :
    (Line.ofSegment? ⟨start, List.replicate indent ' ' ++ text⟩).map Line.shape =
      some (indent, text) := by
  have hblank : ∀ c ∈ List.replicate indent ' ', isBlank c = true := by
    intro c hc
    rw [(List.mem_replicate.1 hc).2]
    rfl
  have htrim : (Segment.trim ⟨start, List.replicate indent ' ' ++ text⟩) =
      ⟨start + indent, text⟩ := by
    have h₁ := trim_append (v := []) hblank h (by simp)
    rw [List.append_nil] at h₁
    rw [Segment.trim, takeWhile_isBlank_append hblank h, utf8Length_replicate_space, h₁]
  have hne : ¬ text.isEmpty = true := by simpa using h.ne_nil
  simp only [Line.ofSegment?, htrim, Segment.isEmpty, if_neg hne, Option.map_some, Line.shape,
    Nat.add_sub_cancel_left]

/-- A sealed text is sealed with spaces in front of it. -/
theorem sealed_indented {text : List Char} (h : Sealed ['\n'] text) (indent : Nat) :
    Sealed ['\n'] (List.replicate indent ' ' ++ text) := by
  refine Sealed.append (.of_forall fun c hc => ?_) h
  rw [(List.mem_replicate.1 hc).2]
  decide

/-- The lines of a written file, from any position on. -/
theorem shape_splitLines {lines : List (Nat × List Char)}
    (h : ∀ line ∈ lines, Sealed ['\n'] line.2 ∧ Sharp line.2) (start : Nat) :
    ((splitLines start ((Scan.label ⟨0, .code⟩ (lines.flatMap lineText)).flatMap
      blankComment)).filterMap Line.ofSegment?).map Line.shape = lines := by
  induction lines generalizing start with
  | nil => rfl
  | cons line lines ih =>
    obtain ⟨hsealed, hsharp⟩ := h line List.mem_cons_self
    have hindented := sealed_indented hsealed line.1
    have hlabel : Scan.label ⟨0, .code⟩ ((line :: lines).flatMap lineText) =
        Scan.label ⟨0, .code⟩ (List.replicate line.1 ' ' ++ line.2) ++
          ('\n', .top) :: Scan.label ⟨0, .code⟩ (lines.flatMap lineText) := by
      rw [List.flatMap_cons, lineText, ← List.append_assoc, List.append_assoc,
        hindented.label_append]
      rfl
    have hbreak : blankComment ('\n', .top) = [('\n', .top)] := rfl
    have hsplit : ∀ x ∈ Scan.label ⟨0, .code⟩ (List.replicate line.1 ' ' ++ line.2),
        x.2 = .top → x.1 ≠ '\n' :=
      fun x hx htop => by simpa using hindented.not_sep x hx htop
    obtain ⟨l, hl, hshape⟩ := Option.map_eq_some_iff.1 (Line.shape_ofSegment? start line.1 hsharp)
    rw [hlabel, List.flatMap_append, flatMap_blankComment (hindented.not_comment 0),
      List.flatMap_cons, hbreak, List.singleton_append, splitLines_append hsplit,
      Scan.map_fst_label, List.filterMap_cons, hl, List.map_cons, hshape,
      ih fun line hline => h line (List.mem_cons_of_mem _ hline)]

/-- **A written file has the lines that were written.** -/
theorem Line.shape_ofFile {lines : List (Nat × List Char)}
    (h : ∀ line ∈ lines, Sealed ['\n'] line.2 ∧ Sharp line.2) :
    (Line.ofFile (lines.flatMap lineText)).map Line.shape = lines :=
  shape_splitLines h 0

/-- A text without a break outside of everything is one line. -/
theorem splitLines_eq_singleton {u : List (Char × Region)}
    (h : ∀ x ∈ u, x.2 = .top → x.1 ≠ '\n') (start : Nat) :
    splitLines start u = [⟨start, u.map Prod.fst⟩] := by
  induction u generalizing start with
  | nil => rfl
  | cons x u ih =>
    obtain ⟨c, region⟩ := x
    have hx : ¬ (c == '\n' && region = .top) = true := by
      rw [Bool.and_eq_true, beq_iff_eq, decide_eq_true_eq]
      exact fun hbreak => h _ List.mem_cons_self hbreak.2 hbreak.1
    rw [splitLines, if_neg hx, ih fun y hy => h y (List.mem_cons_of_mem _ hy), List.map_cons]

/-- **A text without comments that does not break is a file of one line.** -/
theorem Line.ofFile_singleton {text : List Char} (hcomment : ∀ x ∈ regions text, x.2 ≠ .comment)
    (hbreak : ∀ x ∈ regions text, x.2 = .top → x.1 ≠ '\n') (hsharp : Sharp text) :
    Line.ofFile text = [⟨0, ⟨0, text⟩⟩] := by
  have hclean : cleanRegions text = regions text := flatMap_blankComment hcomment
  have htrim : Segment.trim ⟨0, text⟩ = ⟨0, text⟩ := by
    have htake := takeWhile_isBlank_append (u := []) (by simp) hsharp
    rw [List.nil_append] at htake
    rw [Segment.trim, htake, trim_eq_self hsharp, utf8Length_nil]
  have hne : ¬ text.isEmpty = true := by simpa using hsharp.ne_nil
  rw [ofFile, hclean, splitLines_eq_singleton hbreak, regions, Scan.map_fst_label]
  simp [ofSegment?, htrim, Segment.isEmpty, hne]

/-! ## Outlines

The outline is built from the last line to the first (`Outline.push`): a new line takes the deeper
trees at the front of the outline for the lines below it.  The lemmas say so of whole blocks of
lines, deeper than a given indentation and followed by none that is. -/

namespace Outline

/-- Taking off the deeper trees commutes with taking off the deepest. -/
theorem span_span {i j : Nat} (h : i ≤ j) (o : Outline) :
    ((o.span j).2.span i).2 = (o.span i).2 ∧
      (o.span i).1.span j = ((o.span j).1, ((o.span j).2.span i).1) := by
  induction o with
  | nil => exact ⟨rfl, rfl⟩
  | cons line nested rest _ ih =>
    by_cases hj : j < line.indent
    · have hi : i < line.indent := Nat.lt_of_le_of_lt h hj
      simp only [span, if_pos hj, if_pos hi, ih, and_self]
    · by_cases hi : i < line.indent <;> simp [span, hj, hi]

/-- A line that is deeper is taken off together with the trees below it. -/
theorem span_push {i : Nat} {line : Line} (h : i < line.indent) (o : Outline) :
    (o.push line).span i = ((o.span i).1.push line, (o.span i).2) := by
  obtain ⟨hrest, hdeeper⟩ := span_span (Nat.le_of_lt h) o
  simp only [push, span, if_pos h, hrest, hdeeper]

/-- An outline starts with the first line. -/
theorem head?_ofLines (lines : List Line) : (ofLines lines).head? = lines.head? := by
  cases lines <;> rfl

/-- If the first line is not deeper, none is taken off. -/
theorem span_eq_of_head? {i : Nat} {o : Outline} (h : ∀ line ∈ o.head?, line.indent ≤ i) :
    o.span i = (nil, o) := by
  cases o with
  | nil => rfl
  | cons line nested rest => rw [span, if_neg (Nat.not_lt.2 (h line rfl))]

/-- Lines that are deeper than `i` are taken off as a whole. -/
theorem span_ofLines_append {i : Nat} {ls ms : List Line} (hls : ∀ l ∈ ls, i < l.indent)
    (hms : ∀ m ∈ ms.head?, m.indent ≤ i) :
    (ofLines (ls ++ ms)).span i = (ofLines ls, ofLines ms) := by
  induction ls with
  | nil => exact span_eq_of_head? (head?_ofLines ms ▸ hms)
  | cons l ls ih =>
    have hl := span_push (hls l List.mem_cons_self) (ofLines (ls ++ ms))
    rw [ih fun l hl => hls l (List.mem_cons_of_mem _ hl)] at hl
    exact hl

/-- **Below a line stand the deeper lines after it.** -/
theorem ofLines_cons {l : Line} {ls ms : List Line} (hls : ∀ m ∈ ls, l.indent < m.indent)
    (hms : ∀ m ∈ ms.head?, m.indent ≤ l.indent) :
    ofLines (l :: (ls ++ ms)) = cons l (ofLines ls) (ofLines ms) := by
  have h := span_ofLines_append hls hms
  calc ofLines (l :: (ls ++ ms))
    _ = (ofLines (ls ++ ms)).push l := rfl
    _ = cons l (ofLines ls) (ofLines ms) := by rw [push, h]

/-- A line that no deeper line follows has nothing below it. -/
theorem ofLines_cons_nil {l : Line} {ms : List Line} (hms : ∀ m ∈ ms.head?, m.indent ≤ l.indent) :
    ofLines (l :: ms) = cons l nil (ofLines ms) := by
  have hnil : ∀ m ∈ ([] : List Line), l.indent < m.indent := fun _ hm => by cases hm
  exact ofLines_cons hnil hms

end Outline
end TypeReveal
