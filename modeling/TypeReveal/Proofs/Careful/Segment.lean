import TypeReveal.Careful.Segment
import TypeReveal.Proofs.Layout.Row
import TypeReveal.Proofs.Layout.Separator
import TypeReveal.Proofs.Text.Search

/-!
# Careful cuts are in range

At the places of characters every piece of a segment can be cut out.  So what is cut carefully at
the places that a scan finds is what is cut there without care (`Careful.index?_eq`,
`Careful.parts_eq`), and nothing else can be out of range.

A piece of a text can be cut out at two places in bytes if both are boundaries between characters,
the second not before the first.  The places of characters are boundaries, and they are what the
searches yield: a search that goes through the bytes, looking at the text in front of a place and
behind it, finds the place of the first character at which the search through characters stops
(`findM?_topOffsets`).
-/

set_option autoImplicit false
namespace TypeReveal

namespace Careful

variable {seg : Segment} {m n : Nat}

/-! ## Pieces

Cuts between characters, at one character, and behind one.  The equations are tagged for `simp`,
which rewrites a careful reader to the one without care as far as cuts of this kind go. -/

/-- **A part of a segment** can be cut out at the bytes where it starts and stops. -/
theorem cut_of_append {before part rest : List Char} (h : seg.text = before ++ (part ++ rest)) :
    cut seg (utf8Length before) (utf8Length before + utf8Length part) =
      .ok ⟨seg.start + utf8Length before, part⟩ := by
  rw [cut, if_pos (Nat.le_add_right _ _), h, byteSlice?_append]

/-- **Between two characters** a segment can be cut. -/
theorem cut_offset (seg : Segment) (h : m ≤ n) :
    cut seg (seg.offset m) (seg.offset n) = .ok (seg.slice m n) := by
  have htake : (seg.text.take n).take m = seg.text.take m := by
    rw [List.take_take, Nat.min_eq_left h]
  have hsplit : seg.text.take m ++ (seg.text.take n).drop m = seg.text.take n := by
    rw [← htake, List.take_append_drop]
  have htext : seg.text = seg.text.take m ++ ((seg.text.take n).drop m ++ seg.text.drop n) := by
    rw [← List.append_assoc, hsplit, List.take_append_drop]
  have hcut := cut_of_append htext
  rw [← utf8Length_append, hsplit] at hcut
  simp only [Segment.offset, Segment.slice, Segment.take, Segment.drop, htake]
  exact hcut

@[simp] theorem upTo_offset (seg : Segment) (n : Nat) :
    upTo seg (seg.offset n) = .ok (seg.take n) := by
  have hcut := cut_offset seg (Nat.zero_le n)
  simp only [Segment.offset, Segment.slice, Segment.drop, List.take_zero, List.drop_zero,
    utf8Length_nil, Nat.add_zero] at hcut
  exact hcut

@[simp] theorem after_offset (seg : Segment) (n : Nat) :
    after seg (seg.offset n) = .ok (seg.drop n) := by
  have htext : seg.text = seg.text.take n ++ (seg.text.drop n ++ []) := by simp
  have hcut := cut_of_append htext
  rwa [← utf8Length_append, List.take_append_drop] at hcut

/-- What is not greater can be subtracted. -/
theorem minus_of_le (h : n ≤ m) : minus m n = .ok (m - n) := if_pos h

@[simp] theorem trim_eq (seg : Segment) : trim seg = .ok seg.trim := by
  have hsplit := utf8Length_append (seg.text.takeWhile isBlank) (trimStart seg.text)
  rw [trimStart, List.takeWhile_append_dropWhile] at hsplit
  have hgap : minus (utf8Length seg.text) (utf8Length (seg.text.dropWhile isBlank)) =
      .ok (utf8Length (seg.text.takeWhile isBlank)) := by
    rw [minus_of_le (by omega), hsplit, Nat.add_sub_cancel]
  rw [trim, trimStart, hgap]
  rfl

/-- What is behind a keyword is cut off where the keyword ends. -/
@[simp] theorem afterKeyword?_eq (seg : Segment) (keyword : String) :
    afterKeyword? seg keyword = .ok (seg.afterKeyword? keyword) := by
  rw [afterKeyword?, Segment.afterKeyword?]
  split
  · next hnone => rw [hnone]; rfl
  · next rest hsome =>
    rw [hsome]
    have hkeyword : seg.offset keyword.length = utf8Length keyword.toList := by
      rw [Segment.offset, dropStart?_eq_some.1 hsome, ← String.length_toList, List.take_left]
    rw [← hkeyword, after_offset]
    split
    · next hrest => simp [hrest]
    · next hrest => simp [hrest]

/-! ## Separators

A separator is found in the program by comparing texts, and in the model by looking at a character
and its neighbours.  `Needle.Finds` says that a test of the first kind is one of the second. -/

/-- A test on two texts that is a test on the characters where they meet. -/
def Needle.Finds (needle : Needle) (sep : Segment.Separator) : Prop :=
  ∀ before c rest, needle before (c :: rest) = sep before.getLast? c rest.head?

theorem isPrefixOf_singleton (mark c : Char) (rest : List Char) :
    [mark].isPrefixOf (c :: rest) = (c == mark) := by
  rw [List.isPrefixOf_cons_cons, List.isPrefixOf_nil_left, Bool.and_true, BEq.comm]

theorem comma_finds : Needle.Finds comma Segment.comma := fun _ c rest =>
  isPrefixOf_singleton ',' c rest

theorem colon_finds : Needle.Finds colon Segment.colon := fun _ c rest =>
  isPrefixOf_singleton ':' c rest

/-- The equals sign is told by the two characters around it, of which the text in front and the text
behind show one each. -/
theorem equals_finds : Needle.Finds equals Segment.equals := fun before c rest => by
  have hnext : ['='].isPrefixOf rest = (rest.head? == some '=') := by
    cases rest with
    | nil => rfl
    | cons d rest => exact isPrefixOf_singleton '=' d rest
  rw [equals, Segment.equals, isPrefixOf_singleton, List.isPrefixOf_cons_cons, hnext,
    BEq.comm (a := '='), bne]
  cases c == '=' <;> rfl

/-- Both texts at a boundary can be looked at. -/
theorem standsAt_of_append (needle : Needle) {before rest : List Char}
    (h : seg.text = before ++ rest) :
    standsAt seg needle (utf8Length before) = .ok (needle before rest) := by
  have hoffset : seg.offset before.length = utf8Length before := by
    rw [Segment.offset, h, List.take_left]
  rw [standsAt, ← hoffset, upTo_offset, after_offset]
  simp [Segment.take, Segment.drop, h]

/-- **The first place at which the test holds** is that of the first separator.  The places are
those of the characters outside of everything, so the two searches go through the same list. -/
theorem findM?_topOffsets {needle : Needle} {sep : Segment.Separator} (hfinds : needle.Finds sep)
    (before : List Char) (u : List (Char × Region)) (h : seg.text = before ++ u.map Prod.fst) :
    (topOffsets (utf8Length before) u).findM? (standsAt seg needle) =
      .ok ((Segment.indexIn? sep before.getLast? u).map fun n =>
        seg.offset (before.length + n)) := by
  induction u generalizing before with
  | nil => rfl
  | cons x u ih =>
    obtain ⟨c, region⟩ := x
    have hnext := ih (before ++ [c]) (by simp [h])
    rw [utf8Length_append, List.getLast?_concat, List.length_append] at hnext
    -- The test at an offset reads the text on both sides: what is before it is carried along.
    have hstands := standsAt_of_append needle h
    rw [List.map_cons, hfinds, List.head?_map] at hstands
    have hrest : (topOffsets (utf8Length before + c.utf8Size) u).findM? (standsAt seg needle) =
        .ok (((Segment.indexIn? sep (some c) u).map (· + 1)).map fun n =>
          seg.offset (before.length + n)) := by
      refine hnext.trans ?_
      rw [Option.map_map]
      congr 3
      funext n
      simp [Nat.add_assoc, Nat.add_comm 1]
    rw [topOffsets, Segment.indexIn?]
    by_cases htop : region = .top
    · cases hsep : sep before.getLast? c (u.head?.map Prod.fst) with
      | true =>
        rw [hsep] at hstands
        simp [htop, List.findM?, hstands, Segment.offset, h]
      | false =>
        rw [hsep] at hstands
        simp [htop, List.findM?, hstands, hrest]
    · simp [htop, hrest]

/-- **The first separator** is where it is found without care. -/
theorem index?_eq {needle : Needle} {sep : Segment.Separator} (hfinds : needle.Finds sep)
    (seg : Segment) : index? seg needle = .ok ((seg.index? sep).map seg.offset) := by
  have htext : seg.text = [] ++ (regions seg.text).map Prod.fst := by simp [regions]
  have hfirst := findM?_topOffsets hfinds [] (regions seg.text) htext
  simpa [index?, Segment.index?] using hfirst

/-! ## Behind a separator

Commas, colons, equals signs and brackets take up one byte, so the place behind them is one more. -/

/-- **A part of a segment** takes up as many places as it has bytes. -/
theorem offset_append {before part rest : List Char} (h : seg.text = before ++ (part ++ rest)) :
    seg.offset (before.length + part.length) = seg.offset before.length + utf8Length part := by
  have hboth : (before ++ (part ++ rest)).take (before.length + part.length) = before ++ part := by
    rw [← List.append_assoc, ← List.length_append, List.take_left]
  rw [Segment.offset, Segment.offset, h, hboth, List.take_left, utf8Length_append]

/-- A character of one byte takes up one place. -/
theorem offset_succ {c : Char} (h : seg.text[n]? = some c) (hc : c.utf8Size = 1) :
    seg.offset (n + 1) = seg.offset n + 1 := by
  obtain ⟨hn, hget⟩ := List.getElem?_eq_some_iff.1 h
  have hsplit : seg.text = seg.text.take n ++ ([c] ++ seg.text.drop (n + 1)) := by
    rw [List.singleton_append, ← hget, List.getElem_cons_drop, List.take_append_drop]
  have hlength : (seg.text.take n).length = n := List.length_take_of_le (Nat.le_of_lt hn)
  have hsucc := offset_append hsplit
  rwa [hlength, utf8Length_cons, hc, utf8Length_nil] at hsucc

/-! ## Parts

What is behind a comma is cut in the same way again, up to the end of the segment. -/

/-- **The parts between commas** can be cut out. -/
@[simp] theorem parts_eq (seg : Segment) : parts seg = .ok seg.parts := by
  induction seg using Segment.parts.induct with
  | case1 seg hcomma htrim =>
    rw [parts, Segment.parts, index?_eq comma_finds, hcomma]
    simp [htrim]
  | case2 seg hcomma htrim =>
    rw [parts, Segment.parts, index?_eq comma_finds, hcomma]
    simp [htrim]
  | case3 seg n hcomma ih =>
    have hafter : after seg (seg.offset n + 1) = .ok (seg.drop (n + 1)) := by
      rw [← offset_succ (Segment.getElem?_of_comma hcomma) rfl, after_offset]
    rw [parts, Segment.parts, index?_eq comma_finds, hcomma]
    simp only [Option.map_some, ok_bind, upTo_offset, trim_eq]
    split
    · next abort herror =>
      rw [hafter] at herror
      cases herror
    · next rest hrest =>
      obtain rfl := Except.ok.inj (hafter.symm.trans hrest)
      simp [ih]

end Careful
end TypeReveal
