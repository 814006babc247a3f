import TypeReveal.Layout.Outline
import TypeReveal.Proofs.Layout.Lines

/-!
# Rows of spans

Spans stand in a row between two positions of a text if they follow one another there:
`Span.Laid lo hi spans`.  The pieces that a segment is cut into stand in a row inside it
(`Segment.laid_parts`), and so do the lines of a file (`Line.laid_ofFile`).

A row says of a list of spans that they are ordered, that they do not overlap, that each starts
before it ends, and that all of them lie between two positions.  Nothing in the readers says so
directly.  They cut segments, trim them and drop keywords from them, and each of these steps leaves
a segment that stands in the one before (`Segment.Within`).

Rows are what the spans of siblings in a tree are made from: the parts of a statement stand in a row
in the line of it, and the lines below a header in a row behind it.
-/

set_option autoImplicit false
namespace TypeReveal

/-! ## Spans

The relation is inductive, with the lower end as an index that moves on from span to span, so that a
row is put together from left to right as lists of parts are.  `laid_append` cuts a row in two, and
finds the position to cut it at. -/

namespace Span

/-- Spans that stand one after another between two positions. -/
inductive Laid : Nat → Nat → List Span → Prop
  | nil {lo hi : Nat} (h : lo ≤ hi) : Laid lo hi []
  | cons {lo hi : Nat} {span : Span} {spans : List Span} (start : lo ≤ span.start)
      (stop : span.start ≤ span.stop) (rest : Laid span.stop hi spans) : Laid lo hi (span :: spans)

variable {lo lo' mid hi hi' : Nat} {span : Span} {spans more : List Span}

/-- The ends of a row are in order. -/
theorem Laid.le (h : Laid lo hi spans) : lo ≤ hi := by
  induction h with
  | nil h => exact h
  | cons start stop _ ih => exact Nat.le_trans start (Nat.le_trans stop ih)

/-- A row between two positions is one between positions further apart. -/
theorem Laid.mono (h : Laid lo hi spans) (hlo : lo' ≤ lo) (hhi : hi ≤ hi') :
    Laid lo' hi' spans := by
  induction h generalizing lo' with
  | nil h => exact .nil (Nat.le_trans hlo (Nat.le_trans h hhi))
  | cons start stop _ ih => exact .cons (Nat.le_trans hlo start) stop (ih (Nat.le_refl _) hhi)

/-- A row is its first span and the row from the end of that on. -/
theorem laid_cons : Laid lo hi (span :: spans) ↔
    lo ≤ span.start ∧ span.start ≤ span.stop ∧ Laid span.stop hi spans := by
  constructor
  · intro h
    cases h with
    | cons start stop rest => exact ⟨start, stop, rest⟩
  · rintro ⟨start, stop, rest⟩
    exact .cons start stop rest

/-- **A row of spans is two rows**, up to some position and from there on. -/
theorem laid_append :
    Laid lo hi (spans ++ more) ↔ ∃ mid, Laid lo mid spans ∧ Laid mid hi more := by
  induction spans generalizing lo with
  | nil =>
    exact ⟨fun h => ⟨lo, .nil (Nat.le_refl lo), h⟩, fun ⟨_, h, h'⟩ => h'.mono h.le (Nat.le_refl hi)⟩
  | cons span spans ih =>
    rw [List.cons_append, laid_cons, ih]
    constructor
    · rintro ⟨start, stop, mid, h, h'⟩
      exact ⟨mid, .cons start stop h, h'⟩
    · rintro ⟨mid, h, h'⟩
      obtain ⟨start, stop, rest⟩ := laid_cons.1 h
      exact ⟨start, stop, mid, rest, h'⟩

/-- Every span of a row lies between the ends of it. -/
theorem Laid.mem (h : Laid lo hi spans) (hmem : span ∈ spans) :
    lo ≤ span.start ∧ span.stop ≤ hi := by
  obtain ⟨before, after, rfl⟩ := List.append_of_mem hmem
  obtain ⟨mid, hbefore, hafter⟩ := laid_append.1 h
  obtain ⟨hstart, -, hrest⟩ := laid_cons.1 hafter
  exact ⟨Nat.le_trans hbefore.le hstart, hrest.le⟩

end Span

/-! ## Segments

Positions in a segment are counted in characters while it is cut, and in bytes in its span.
`Segment.pos` is the byte position of a character, and is monotone. -/

/-- The start of a text takes up no more bytes than the text. -/
theorem utf8Length_le {s t : List Char} (h : s <+: t) : utf8Length s ≤ utf8Length t := by
  obtain ⟨rest, rfl⟩ := h
  rw [utf8Length_append]
  exact Nat.le_add_right _ _

/-- What is left of a text without the blanks at its end is a start of it. -/
theorem prefix_trimEnd (s : List Char) : trimEnd s <+: s := by
  have h := List.dropWhile_suffix (l := s.reverse) isBlank
  rwa [← List.reverse_prefix, List.reverse_reverse] at h

namespace Segment

variable {seg rest : Segment} {m n : Nat}

/-- The position of the character number `n`. -/
def pos (seg : Segment) (n : Nat) : Nat := seg.start + utf8Length (seg.text.take n)

/-- A segment ends no earlier than it starts. -/
theorem start_le_stop (seg : Segment) : seg.start ≤ seg.span.stop := Nat.le_add_right _ _

/-- Later characters have later positions. -/
theorem pos_mono (seg : Segment) (h : m ≤ n) : seg.pos m ≤ seg.pos n :=
  Nat.add_le_add_left (utf8Length_le (List.take_prefix_take_left h)) _

/-- Every character stands at the start of the segment or after it. -/
theorem start_le_pos (seg : Segment) (n : Nat) : seg.start ≤ seg.pos n := Nat.le_add_right _ _

/-- Every character stands before the end of the segment, or at it. -/
theorem pos_le_stop (seg : Segment) (n : Nat) : seg.pos n ≤ seg.span.stop :=
  Nat.add_le_add_left (utf8Length_le (List.take_prefix n seg.text)) _

/-- What is left of a segment without its first characters goes from the first of the others up to
the end. -/
@[simp] theorem span_drop (seg : Segment) (n : Nat) :
    (seg.drop n).span = ⟨seg.pos n, seg.span.stop⟩ := by
  have hsplit := utf8Length_append (seg.text.take n) (seg.text.drop n)
  rw [List.take_append_drop] at hsplit
  simp only [span, drop, pos, hsplit, Nat.add_assoc]

/-- `rest` stands in `seg`. -/
def Within (rest seg : Segment) : Prop := seg.start ≤ rest.start ∧ rest.span.stop ≤ seg.span.stop

/-- What stands in a part of a segment stands in the segment. -/
theorem Within.trans {inner : Segment} (h : inner.Within rest) (h' : rest.Within seg) :
    inner.Within seg :=
  ⟨Nat.le_trans h'.1 h.1, Nat.le_trans h.2 h'.2⟩

/-- A trimmed segment stands in the segment. -/
theorem trim_within (seg : Segment) : seg.trim.Within seg := by
  refine ⟨Nat.le_add_right _ _, ?_⟩
  have hstart := utf8Length_append (seg.text.takeWhile isBlank) (trimStart seg.text)
  rw [trimStart, List.takeWhile_append_dropWhile] at hstart
  have hstop := utf8Length_le (prefix_trimEnd (trimStart seg.text))
  simp only [span, trim, TypeReveal.trim, trimStart] at hstart hstop ⊢
  omega

/-- So does a segment without its first characters. -/
theorem drop_within (seg : Segment) (n : Nat) : (seg.drop n).Within seg :=
  ⟨seg.start_le_pos n, Nat.le_of_eq (by rw [span_drop])⟩

/-- A slice ends where it is cut. -/
theorem slice_within (seg : Segment) (m n : Nat) : (seg.slice m n).Within (seg.take n) :=
  (seg.take n).drop_within m

/-- What follows a keyword stands in the segment. -/
theorem within_of_afterKeyword? {keyword : String} (h : seg.afterKeyword? keyword = some rest) :
    rest.Within seg := by
  rw [afterKeyword?] at h
  split at h
  · split at h
    · cases h
    · cases h
      exact (trim_within _).trans (seg.drop_within _)
  · cases h

/-- A keyword takes up text. -/
theorem start_lt_of_afterKeyword? {keyword : String} (hk : keyword ≠ "")
    (h : seg.afterKeyword? keyword = some rest) : seg.start < rest.start := by
  rw [afterKeyword?] at h
  split at h
  · next tail htail =>
    split at h
    · cases h
    · cases h
      rw [dropStart?] at htail
      split at htail
      · next hprefix =>
        obtain ⟨tail', htext⟩ := List.isPrefixOf_iff_prefix.1 hprefix
        have hlength : keyword.length = keyword.toList.length := String.length_toList.symm
        have htake : seg.text.take keyword.length = keyword.toList := by
          rw [hlength, ← htext, List.take_left]
        have hpos : 0 < utf8Length keyword.toList := by
          cases hlist : keyword.toList with
          | nil => exact absurd (String.toList_eq_nil_iff.1 hlist) hk
          | cons c cs => exact Nat.add_pos_left c.utf8Size_pos _
        calc seg.start
          _ < seg.start + utf8Length keyword.toList := Nat.lt_add_of_pos_right hpos
          _ = seg.pos keyword.length := by rw [pos, htake]
          _ ≤ _ := (seg.drop keyword.length).trim_within.1
      · cases htail
  · cases h

/-- A single trimmed segment is a row. -/
theorem laid_trim (seg : Segment) {lo hi : Nat} (hlo : lo ≤ seg.start) (hhi : seg.span.stop ≤ hi) :
    Span.Laid lo hi [seg.trim.span] :=
  .cons (Nat.le_trans hlo seg.trim_within.1) seg.trim.start_le_stop
    (.nil (Nat.le_trans seg.trim_within.2 hhi))

/-- **The parts of a segment** stand in a row in it. -/
theorem laid_parts (seg : Segment) : Span.Laid seg.start seg.span.stop (seg.parts.map span) := by
  induction seg using parts.induct with
  | case1 seg hcomma htrim =>
    rw [parts, hcomma, if_pos htrim]
    exact .nil seg.start_le_stop
  | case2 seg hcomma htrim =>
    rw [parts, hcomma, if_neg htrim]
    exact laid_trim seg (Nat.le_refl _) (Nat.le_refl _)
  | case3 seg n hcomma ih =>
    rw [parts, hcomma]
    have hfirst := laid_trim (seg.take n) (Nat.le_refl seg.start) (seg.pos_mono (Nat.le_succ n))
    rw [span_drop] at ih
    exact Span.laid_append.2 ⟨seg.pos (n + 1), hfirst, ih⟩

end Segment

/-! ## Lines

Lines are cut from the labelled text after its comments have become blanks, as many as the comment
has bytes.  So the length of the text, and every position in it, is the same before and after
(`utf8Length_clean`). -/

/-- The pieces between line breaks stand in a row, and the first of them starts where the text does.
-/
theorem laid_splitLines (start : Nat) (u : List (Char × Region)) :
    Span.Laid start (start + utf8Length (u.map Prod.fst)) ((splitLines start u).map Segment.span) ∧
      (splitLines start u).head?.map Segment.start = some start := by
  induction u generalizing start with
  | nil => exact ⟨.cons (Nat.le_refl _) (Nat.le_refl _) (.nil (Nat.le_refl _)), rfl⟩
  | cons x u ih =>
    obtain ⟨c, region⟩ := x
    obtain ⟨hlaid, hhead⟩ := ih (start + c.utf8Size)
    rw [List.map_cons, utf8Length_cons, ← Nat.add_assoc, splitLines]
    split
    · refine ⟨.cons (Nat.le_refl start) (Nat.le_refl start) ?_, rfl⟩
      exact hlaid.mono (Nat.le_add_right _ _) (Nat.le_refl _)
    · split
      · next hnil =>
        rw [hnil] at hhead
        cases hhead
      · next seg segs hsplit =>
        rw [hsplit] at hlaid hhead
        obtain ⟨-, -, hrest⟩ := Span.laid_cons.1 hlaid
        have hstart : seg.start = start + c.utf8Size := Option.some_inj.1 hhead
        have hspan : (Segment.span ⟨start, c :: seg.text⟩) = ⟨start, seg.span.stop⟩ := by
          rw [Segment.span, Segment.span, utf8Length_cons, hstart, Nat.add_assoc]
        have hle : start ≤ seg.span.stop := by
          have := seg.start_le_stop
          omega
        refine ⟨?_, rfl⟩
        rw [List.map_cons, hspan]
        exact .cons (Nat.le_refl start) hle hrest

/-- Where the text of a line stands. -/
def Line.span (line : Line) : Span := line.text.span

/-- Blank lines are left out, and the indentation of the others is taken off.  Neither disturbs the
row. -/
theorem laid_filterMap_ofSegment? {lo hi : Nat} {segs : List Segment}
    (h : Span.Laid lo hi (segs.map Segment.span)) :
    Span.Laid lo hi ((segs.filterMap Line.ofSegment?).map Line.span) := by
  induction segs generalizing lo with
  | nil => exact h
  | cons seg segs ih =>
    obtain ⟨hstart, hstop, hrest⟩ := Span.laid_cons.1 h
    rw [List.filterMap_cons]
    split
    · exact ih (hrest.mono (Nat.le_trans hstart hstop) (Nat.le_refl hi))
    · next line hline =>
      have htext : line.text = seg.trim := by
        rw [Line.ofSegment?] at hline
        split at hline
        · cases hline
        · cases hline
          rfl
      rw [List.map_cons, Line.span, htext]
      exact Span.laid_append.2 ⟨seg.span.stop,
        seg.laid_trim hstart (Nat.le_refl _), ih hrest⟩

/-- Blanks take up as many bytes as the comments in whose place they stand. -/
theorem utf8Length_flatMap_blankComment (u : List (Char × Region)) :
    utf8Length ((u.flatMap blankComment).map Prod.fst) = utf8Length (u.map Prod.fst) := by
  induction u with
  | nil => rfl
  | cons x u ih =>
    obtain ⟨c, region⟩ := x
    have hblank : utf8Length ((blankComment (c, region)).map Prod.fst) = c.utf8Size := by
      cases region with
      | comment => rw [blankComment, List.map_replicate, utf8Length_replicate_space]
      | _ => rfl
    rw [List.flatMap_cons, List.map_append, utf8Length_append, ih, hblank]
    rfl

/-- A file without its comments is as long as with them. -/
theorem utf8Length_clean (source : List Char) : utf8Length (clean source) = utf8Length source := by
  rw [clean, cleanRegions, utf8Length_flatMap_blankComment, regions, Scan.map_fst_label]

/-- **The lines of a file** stand in a row in it. -/
theorem Line.laid_ofFile (source : List Char) :
    Span.Laid 0 (utf8Length source) ((ofFile source).map Line.span) := by
  have h := (laid_splitLines 0 (cleanRegions source)).1
  rw [Nat.zero_add, ← clean, utf8Length_clean] at h
  exact laid_filterMap_ofSegment? h

end TypeReveal
