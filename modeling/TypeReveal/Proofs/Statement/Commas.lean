import TypeReveal.Proofs.Layout.Swap
import TypeReveal.Proofs.Statement.Pieces

/-!
# Commas

A segment is taken apart at its commas one by one, and what follows a comma is scanned anew.  Here
it is taken apart by a single scan instead: `Segment.pieces` are the texts between the commas that
stand outside of everything in it.

* At such a comma a scan is where it starts (`regions_of_comma`), so what follows is scanned the
  same way, whatever strings and brackets are left open before or after.
* One by one the same pieces are found (`pieces_of_index?_eq_some`), and nothing is lost between
  them but the commas.

`parts_pieces` is both of these, for the parts that are left of the pieces when they are trimmed.
-/

set_option autoImplicit false
namespace TypeReveal

variable {s : List Char} {n : Nat}

/-! ## Scanning behind a comma

A comma outside of everything is met by a scan that has no open bracket and is in no string, which
is the state that a scan starts in. -/

theorem length_regions_take {x : Char × Region} (h : (regions s)[n]? = some x) :
    (regions (s.take n)).length = n := by
  obtain ⟨hlt, -⟩ := List.getElem?_eq_some_iff.1 h
  rw [length_regions] at hlt
  rw [length_regions, List.length_take, Nat.min_eq_left (Nat.le_of_lt hlt)]

/-- **A scan starts anew behind a comma** that stands outside of everything. -/
theorem regions_of_comma (h : (regions s)[n]? = some (',', .top)) :
    regions s = regions (s.take n) ++ (',', .top) :: regions (s.drop (n + 1)) := by
  have hlt : n < s.length := by simpa using (List.getElem?_eq_some_iff.1 h).1
  have hsplit : s = s.take n ++ s[n] :: s.drop (n + 1) := by
    rw [List.getElem_cons_drop, List.take_append_drop]
  have hlength : (Scan.label {} (s.take n)).length = n := length_regions_take h
  have hlabel := Scan.label_append_cons {} (s.take n) s[n] (s.drop (n + 1))
  rw [← hsplit] at hlabel
  rw [regions, hlabel, List.getElem?_append_right (Nat.le_of_eq hlength), hlength, Nat.sub_self,
    List.getElem?_cons_zero, Option.some_inj, Prod.mk.injEq] at h
  obtain ⟨hcomma, htop⟩ := h
  rw [hcomma] at htop hlabel
  rw [Scan.eq_of_step_top htop (by decide)] at hlabel
  exact hlabel

namespace Segment

variable {seg : Segment}

theorem not_mem_of_index?_eq_none (h : seg.index? comma = none) :
    (',', .top) ∉ regions seg.text := by
  rw [index?_eq_findIdx? comma_exact, List.findIdx?_eq_none_iff] at h
  exact fun hmem => absurd (h _ hmem) (by decide)

/-- The first comma is a comma outside of everything, and before it there is none. -/
theorem comma_of_index? (h : seg.index? comma = some n) :
    (regions seg.text)[n]? = some (',', .top) ∧ (',', .top) ∉ regions (seg.text.take n) := by
  rw [index?_eq_findIdx? comma_exact] at h
  obtain ⟨hlt, htop, -⟩ := List.findIdx?_eq_some_iff_getElem.1 h
  have hcomma : (regions seg.text)[n]? = some (',', .top) := by
    rw [List.getElem?_eq_getElem hlt, Option.some_inj]
    simpa [isTop, Prod.ext_iff, and_comm] using htop
  have hlength := length_regions_take hcomma
  rw [regions_of_comma hcomma] at h
  refine ⟨hcomma, fun hmem => ?_⟩
  exact absurd (forall_of_findIdx? (h.trans (congrArg some hlength.symm)) _ hmem) (by decide)

/-- A comma takes up one byte. -/
theorem start_drop_of_index? (h : seg.index? comma = some n) :
    (seg.drop (n + 1)).start = seg.start + utf8Length (seg.text.take n) + 1 := by
  rw [drop, List.take_add_one, getElem?_of_comma h, utf8Length_append, ← Nat.add_assoc]
  rfl

/-! ## Pieces

The induction goes from the last comma to the first, that is along the search for commas; each step
takes the first piece off. -/

/-- The texts between the commas that stand outside of everything in a segment, each with its
place; they are all found by one scan. -/
def pieces (seg : Segment) : List Segment :=
  let texts := ((regions seg.text).splitOn (',', .top)).map (·.map Prod.fst)
  List.zipWith (fun span text => ⟨span.start, text⟩) (pieceSpans seg.start texts) texts

theorem pieces_of_index?_eq_none (h : seg.index? comma = none) : seg.pieces = [seg] := by
  rw [pieces, List.splitOn_eq_singleton (not_mem_of_index?_eq_none h)]
  simp [pieceSpans, regions]

/-- **One by one** the same pieces are found. -/
theorem pieces_of_index?_eq_some (h : seg.index? comma = some n) :
    seg.pieces = seg.take n :: (seg.drop (n + 1)).pieces := by
  obtain ⟨hcomma, hnot⟩ := comma_of_index? h
  rw [pieces, pieces, regions_of_comma hcomma, List.splitOn_append_cons_self_of_not_mem hnot,
    start_drop_of_index? h]
  simp only [List.map_cons, pieceSpans, List.zipWith_cons_cons, regions, Scan.map_fst_label]
  rfl

theorem pieces_ne_nil (seg : Segment) : seg.pieces ≠ [] := by
  cases h : seg.index? comma with
  | none => rw [pieces_of_index?_eq_none h]; exact List.cons_ne_nil _ _
  | some n => rw [pieces_of_index?_eq_some h]; exact List.cons_ne_nil _ _

/-- The commas of a segment, from the last to the first. -/
theorem comma_induction {motive : Segment → Prop}
    (last : ∀ seg, seg.index? comma = none → motive seg)
    (comma : ∀ seg n, seg.index? comma = some n → motive (seg.drop (n + 1)) → motive seg)
    (seg : Segment) : motive seg := by
  induction seg using parts.induct with
  | case1 seg hcomma => exact last seg hcomma
  | case2 seg hcomma => exact last seg hcomma
  | case3 seg n hcomma ih => exact comma seg n hcomma ih

/-- **The pieces scanned each on its own** are what one scan finds between the commas. -/
theorem map_regions_pieces (seg : Segment) :
    seg.pieces.map (fun piece => regions piece.text) =
      (regions seg.text).splitOn (',', .top) := by
  induction seg using comma_induction with
  | last seg hcomma =>
    rw [pieces_of_index?_eq_none hcomma,
      List.splitOn_eq_singleton (not_mem_of_index?_eq_none hcomma)]
    rfl
  | comma seg n hcomma ih =>
    obtain ⟨htop, hnot⟩ := comma_of_index? hcomma
    rw [pieces_of_index?_eq_some hcomma, regions_of_comma htop,
      List.splitOn_append_cons_self_of_not_mem hnot, List.map_cons, ih]
    rfl

/-- **The pieces are the segment** with a comma between each two of them. -/
theorem join_pieces (seg : Segment) :
    [','].intercalate (seg.pieces.map text) = seg.text ∧
      seg.pieces.map span = pieceSpans seg.start (seg.pieces.map text) := by
  induction seg using comma_induction with
  | last seg hcomma =>
    rw [pieces_of_index?_eq_none hcomma]
    exact ⟨List.intercalate_singleton, rfl⟩
  | comma seg n hcomma ih =>
    obtain ⟨hjoin, hspans⟩ := ih
    obtain ⟨next, more, hmore⟩ := List.exists_cons_of_ne_nil (seg.drop (n + 1)).pieces_ne_nil
    have hlt := lt_of_index? hcomma
    have hget : seg.text[n] = ',' := by
      simpa [List.getElem?_eq_getElem hlt] using getElem?_of_comma hcomma
    rw [pieces_of_index?_eq_some hcomma]
    constructor
    · rw [List.map_cons, hmore, List.map_cons, List.intercalate_cons_cons, ← List.map_cons, ← hmore,
        hjoin, List.append_assoc, List.singleton_append, ← hget]
      simp only [take, drop, List.getElem_cons_drop, List.take_append_drop]
    · rw [List.map_cons, List.map_cons, hspans, pieceSpans, start_drop_of_index? hcomma]
      rfl

theorem isPiece_of_mem_pieces {piece : Segment} (h : piece ∈ seg.pieces) : piece.IsPiece seg := by
  induction seg using comma_induction with
  | last seg hcomma =>
    rw [pieces_of_index?_eq_none hcomma] at h
    obtain rfl := List.mem_singleton.1 h
    exact ⟨[], [], by simp, rfl⟩
  | comma seg n hcomma ih =>
    rw [pieces_of_index?_eq_some hcomma] at h
    rcases List.mem_cons.1 h with rfl | h
    · exact ⟨[], seg.text.drop n, by simp [take], rfl⟩
    · exact (ih h).trans (seg.isPiece_drop _)

/-! ## Parts

The last piece is dropped if it is empty, and only the last one. -/

/-- **The parts are what is left of the pieces**, but for an empty one at the end. -/
theorem parts_eq (seg : Segment) : ∃ front last, seg.pieces = front ++ [last] ∧
    seg.parts = front.map trim ++ if last.trim.isEmpty then [] else [last.trim] := by
  induction seg using comma_induction with
  | last seg hcomma =>
    exact ⟨[], seg, pieces_of_index?_eq_none hcomma, parts_of_index?_eq_none hcomma⟩
  | comma seg n hcomma ih =>
    obtain ⟨front, last, hpieces, hparts⟩ := ih
    refine ⟨seg.take n :: front, last, ?_, ?_⟩
    · rw [pieces_of_index?_eq_some hcomma, hpieces, List.cons_append]
    · rw [parts_of_index?_eq_some hcomma, hparts, List.map_cons, List.cons_append]

/-- **The parts of a segment are what one scan of it finds between its commas.**  They are the
pieces of the segment, trimmed; an empty piece counts unless it is the last.  What follows a comma
is scanned anew as it was scanned from the start of the segment, and each piece as the part of it
that it is.  With a comma between each two of them the pieces are the segment, one byte apart; each
part stands in the file where it says, and of its piece it leaves out only blanks at the ends. -/
theorem parts_pieces (seg : Segment) :
    (∃ front last, seg.pieces = front ++ [last] ∧
      seg.parts = front.map trim ++ if last.trim.isEmpty then [] else [last.trim]) ∧
    (∀ n, (regions seg.text)[n]? = some (',', .top) →
      regions (seg.text.drop (n + 1)) = (regions seg.text).drop (n + 1)) ∧
    seg.pieces.map (fun piece => regions piece.text) = (regions seg.text).splitOn (',', .top) ∧
    [','].intercalate (seg.pieces.map text) = seg.text ∧
    seg.pieces.map span = pieceSpans seg.start (seg.pieces.map text) ∧
    ∀ piece ∈ seg.pieces,
      (∃ u v, piece.text = u ++ (piece.trim.text ++ v) ∧
        piece.trim.start = piece.start + utf8Length u ∧
        (∀ c ∈ u ++ v, isBlank c = true) ∧ (piece.trim.text = [] ∨ Sharp piece.trim.text)) ∧
      ∀ before after, utf8Length before = seg.start →
        byteSlice? (before ++ (seg.text ++ after)) piece.trim.span.start piece.trim.span.stop =
          some piece.trim.text := by
  refine ⟨seg.parts_eq, fun n h => ?_, seg.map_regions_pieces, seg.join_pieces.1,
    seg.join_pieces.2, fun piece hpiece => ⟨?_, fun before after hbefore => ?_⟩⟩
  · have hlength := length_regions_take h
    rw [regions_of_comma h, List.drop_append, hlength]
    simp [hlength]
  · obtain ⟨u, v, htext, hstart, hblank⟩ := piece.exists_edges
    exact ⟨u, v, htext, hstart, hblank, or_iff_not_imp_left.2 sharp_trim⟩
  · exact ((isPiece_trim piece).trans (isPiece_of_mem_pieces hpiece)).byteSlice?_eq hbefore after

/-- A bracket that another one closes, a string that ends with its line, and one that ends with the
segment. -/
theorem parts_pieces_open :
    let seg : Segment := ⟨4, " a,,(b,c],\"d,e\n, 'f,".toList⟩
    (regions seg.text)[9]? = some (',', .top) ∧
    regions (seg.text.drop 10) = (regions seg.text).drop 10 ∧
    seg.parts = [⟨5, "a".toList⟩, ⟨7, []⟩, ⟨8, "(b,c]".toList⟩, ⟨14, "\"d,e".toList⟩,
      ⟨21, "'f,".toList⟩] ∧
    byteSlice? ("f = ".toList ++ (seg.text ++ [])) 21 24 = some "'f,".toList := by
  intro seg
  have hcomma : (regions seg.text)[9]? = some (',', .top) := by decide
  have hpieces : seg.pieces = [⟨4, " a".toList⟩, ⟨7, []⟩, ⟨8, "(b,c]".toList⟩,
    ⟨14, "\"d,e\n".toList⟩] ++ [⟨20, " 'f,".toList⟩] := by decide
  obtain ⟨⟨front, last, hsplit, hparts⟩, hanew, -, -, -, hpiece⟩ := parts_pieces seg
  obtain ⟨rfl, hlast⟩ := List.append_inj' (hsplit.symm.trans hpieces) rfl
  obtain rfl := (List.cons.inj hlast).1
  obtain ⟨-, hstands⟩ := hpiece ⟨20, " 'f,".toList⟩ (by rw [hpieces]; decide)
  exact ⟨hcomma, hanew 9 hcomma, hparts.trans (by decide), hstands "f = ".toList [] rfl⟩

end Segment
end TypeReveal
