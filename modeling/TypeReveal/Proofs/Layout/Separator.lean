import TypeReveal.Proofs.Layout.Sealed
import TypeReveal.Proofs.Text.Trim

/-!
# Finding separators

Where a segment is taken apart.

* `Segment.getElem?_of_index?` — at the place that is found the separator stands.
* `Segment.index?_of_sealed` — the first separator after a sealed text is found where it stands, and
  `Segment.index?_eq_none` — in a sealed text there is none.
* `Segment.closing?_of_sealed` — the bracket that closes a group is found after its content.
* `Segment.afterKeyword?_eq` — a segment starts with a keyword if the keyword is its first word, all
  of the characters of names at its start.

A search for a separator is a search in the labelled text: the scan of the segment says of each
character whether it stands outside of everything, and the separator says whether a character counts
between its neighbours.  The places that are found are places in the text, since labelling keeps the
characters and their order.

A text is read back from what was written by these lemmas: the writer puts a sealed text in front of
a separator, and the reader finds the separator behind it.
-/

set_option autoImplicit false
namespace TypeReveal

/-! ## Characters

Two searches that do not look at the regions, the first character of a kind and the last one. -/

/-- What is found first stands where it is found. -/
theorem getElem?_of_findIdx? {c : Char} {text : List Char} {n : Nat}
    (h : text.findIdx? (· == c) = some n) : text[n]? = some c := by
  obtain ⟨hn, hc, -⟩ := List.findIdx?_eq_some_iff_getElem.1 h
  rw [List.getElem?_eq_getElem hn, eq_of_beq hc]

/-- What is found last stands where it is found, too. -/
theorem getElem?_of_lastIndexOf? {c : Char} {text : List Char} {n : Nat}
    (h : lastIndexOf? c text = some n) : text[n]? = some c := by
  obtain ⟨i, hi, rfl⟩ := Option.map_eq_some_iff.1 h
  have hlast := getElem?_of_findIdx? hi
  obtain ⟨hlt, -⟩ := List.getElem?_eq_some_iff.1 hlast
  rwa [List.getElem?_reverse (by simpa using hlt)] at hlast

namespace Segment

/-! ## Separators

All three separators are marks.  A comma and a colon are tests of the character, and an equals sign
must moreover not be a part of a comparison or of `:=`. -/

/-- A separator that only ever is the character `c`. -/
def IsMark (sep : Separator) (c : Char) : Prop :=
  ∀ before d after, sep before d after = true → d = c

/-- A comma is the only separator of parts. -/
theorem comma_isMark : IsMark comma ',' := by simp [IsMark, comma]

/-- A colon is the only separator of annotations. -/
theorem colon_isMark : IsMark colon ':' := by simp [IsMark, colon]

/-- An equals sign is the only separator of values. -/
theorem equals_isMark : IsMark equals '=' := by
  intro before d after h
  simp only [equals, Bool.and_eq_true, beq_iff_eq] at h
  exact h.1.1

variable {sep : Separator}

/-- Characters that are no separators are passed over. -/
theorem indexIn?_append {u : List (Char × Region)}
    (hu : ∀ x ∈ u, x.2 = .top → ∀ before after, sep before x.1 after = false)
    (before : Option Char) (v : List (Char × Region)) :
    indexIn? sep before (u ++ v) =
      (indexIn? sep ((u.map Prod.fst).getLast?.or before) v).map (· + u.length) := by
  induction u generalizing before with
  | nil => simp
  | cons x u ih =>
    obtain ⟨c, region⟩ := x
    have hx : ¬ (decide (region = .top) &&
        sep before c ((u ++ v).head?.map Prod.fst)) = true := by
      intro h
      rw [Bool.and_eq_true, decide_eq_true_eq] at h
      rw [hu _ List.mem_cons_self h.1] at h
      exact Bool.false_ne_true h.2
    have hbefore : ((c :: u.map Prod.fst).getLast?.or before) =
        (u.map Prod.fst).getLast?.or (some c) := by
      rw [List.getLast?_cons]
      cases (u.map Prod.fst).getLast? <;> rfl
    rw [List.cons_append, indexIn?, if_neg hx, ih fun y hy => hu y (List.mem_cons_of_mem _ hy),
      List.map_cons, hbefore, Option.map_map]
    rfl

variable {seg : Segment} {seps s t : List Char} {c : Char}

/-- The first separator of a text is a character outside of everything that the test holds for. -/
theorem exists_of_indexIn? {before? : Option Char} {u : List (Char × Region)} {n : Nat}
    (h : indexIn? sep before? u = some n) :
    ∃ front c rest before? after?, u = front ++ (c, .top) :: rest ∧ front.length = n ∧
      sep before? c after? = true := by
  induction u generalizing before? n with
  | nil => cases h
  | cons x u ih =>
    obtain ⟨c, region⟩ := x
    rw [indexIn?] at h
    split at h
    · next hsep =>
      cases h
      rw [Bool.and_eq_true, decide_eq_true_iff] at hsep
      obtain ⟨rfl, hsep⟩ := hsep
      exact ⟨[], c, u, _, _, rfl, rfl, hsep⟩
    · obtain ⟨m, hm, rfl⟩ := Option.map_eq_some_iff.1 h
      obtain ⟨front, d, rest, b, a, rfl, rfl, hsep⟩ := ih hm
      exact ⟨(c, region) :: front, d, rest, b, a, rfl, rfl, hsep⟩

/-- **A separator** stands where it is found. -/
theorem getElem?_of_index? (hmark : IsMark sep c) {n : Nat} (h : seg.index? sep = some n) :
    seg.text[n]? = some c := by
  obtain ⟨front, d, rest, before?, after?, hsplit, rfl, hd⟩ := exists_of_indexIn? h
  have htext : seg.text = front.map Prod.fst ++ d :: rest.map Prod.fst := by
    have hmap := congrArg (List.map Prod.fst) hsplit
    simpa [regions] using hmap
  rw [htext, hmark _ _ _ hd, List.getElem?_append_right (by simp)]
  simp

theorem getElem?_of_comma {n : Nat} (h : seg.index? comma = some n) : seg.text[n]? = some ',' :=
  getElem?_of_index? comma_isMark h

theorem getElem?_of_colon {n : Nat} (h : seg.index? colon = some n) : seg.text[n]? = some ':' :=
  getElem?_of_index? colon_isMark h

theorem getElem?_of_equals {n : Nat} (h : seg.index? equals = some n) : seg.text[n]? = some '=' :=
  getElem?_of_index? equals_isMark h

/-- A sealed text has none of the separators that it is sealed against. -/
theorem not_sep_of_sealed (hmark : IsMark sep c) (hmem : c ∈ seps) (hs : Sealed seps s) :
    ∀ x ∈ Scan.label ⟨0, .code⟩ s, x.2 = .top → ∀ before after, sep before x.1 after = false := by
  intro x hx htop before after
  rw [Bool.eq_false_iff]
  intro hsep
  exact hs.not_sep x hx htop (hmark before x.1 after hsep ▸ hmem)

/-- **The first separator after a sealed text.** -/
theorem index?_of_sealed (hmark : IsMark sep c) (hmem : c ∈ seps) (hc : isPlain c = true)
    (hs : Sealed seps s) (htext : seg.text = s ++ c :: t)
    (hsep : sep s.getLast? c t.head? = true) : seg.index? sep = some s.length := by
  have hhead : ((Scan.label ⟨0, .code⟩ t).head?.map Prod.fst) = t.head? := by
    rw [← List.head?_map, Scan.map_fst_label]
  have hregions : regions seg.text =
      Scan.label ⟨0, .code⟩ s ++ (c, .top) :: Scan.label ⟨0, .code⟩ t := by
    rw [regions, htext, hs.label_append, Scan.label, Scan.step_plain hc]
    rfl
  rw [index?, hregions, indexIn?_append (not_sep_of_sealed hmark hmem hs), Scan.map_fst_label,
    Option.or_none, indexIn?, hhead, hsep]
  simp

/-- There is no separator in a segment that is sealed against it. -/
theorem index?_eq_none (hmark : IsMark sep c) (hmem : c ∈ seps) (hs : Sealed seps seg.text) :
    seg.index? sep = none := by
  rw [index?, regions, ← List.append_nil (Scan.label _ _),
    indexIn?_append (not_sep_of_sealed hmark hmem hs)]
  rfl

/-- **The end of a group.** -/
theorem closing?_of_sealed {o : Char} (ho : isOpening o = true) (hc : isClosing c = true)
    (hs : Sealed [] s) (htext : seg.text = o :: (s ++ c :: t)) :
    seg.closing? = some (s.length + 1) := by
  have hinside : (Scan.label ⟨1, .code⟩ s).findIdx? (fun x => x.2 = .close) = none := by
    rw [List.findIdx?_eq_none_iff]
    intro x hx
    rw [hs.not_outside 0 x hx]
    rfl
  have hregions : regions seg.text = (o, .inside) :: (Scan.label ⟨1, .code⟩ s ++
      (c, .close) :: Scan.label ⟨0, .code⟩ t) := by
    rw [regions, htext, hs.label_bracket ho hc 0]
    rfl
  rw [closing?, hregions, List.findIdx?_cons, List.findIdx?_append, hinside, List.findIdx?_cons]
  simp

/-! ## Keywords

A keyword is taken off the start of a segment if no character of a name follows it.  This is to say
that the characters of names at the start of the text are the keyword and nothing more, which
depends on the text and not on the keyword; so it is decided once for all keywords. -/

/-- The characters of names at the start of a text. -/
def firstWord (text : List Char) : List Char := text.takeWhile isNamePart

/-- A word is the first word of a text if no character of a name follows it. -/
theorem firstWord_append {w : List Char} (hw : ∀ c ∈ w, isNamePart c = true)
    (ht : t.head?.any isNamePart = false) : firstWord (w ++ t) = w := by
  rw [firstWord, List.takeWhile_append_of_pos hw]
  cases t with
  | nil => simp
  | cons c t =>
    have hc : isNamePart c = false := ht
    rw [List.takeWhile_cons_of_neg (by simp [hc]), List.append_nil]

/-- No character of a name follows the first word. -/
theorem head?_dropWhile_isNamePart (text : List Char) :
    (text.dropWhile isNamePart).head?.any isNamePart = false := by
  have h := List.head?_dropWhile_not isNamePart text
  cases hhead : (text.dropWhile isNamePart).head? with
  | none => rfl
  | some c =>
    rw [hhead] at h
    simpa using h

/-- **A segment starts with a keyword if that is its first word.** -/
theorem afterKeyword?_eq (seg : Segment) {keyword : String}
    (hk : ∀ c ∈ keyword.toList, isNamePart c = true) :
    seg.afterKeyword? keyword =
      if firstWord seg.text = keyword.toList then some (seg.drop keyword.length).trim
      else none := by
  have hsplit : seg.text = firstWord seg.text ++ seg.text.dropWhile isNamePart :=
    List.takeWhile_append_dropWhile.symm
  by_cases hword : firstWord seg.text = keyword.toList
  · have hrest : dropStart? keyword.toList seg.text = some (seg.text.dropWhile isNamePart) := by
      rw [hsplit, hword, dropStart?, if_pos (by simp), List.drop_left]
      rw [← hword, ← hsplit]
    simp only [afterKeyword?, hrest, head?_dropWhile_isNamePart, if_pos hword,
      Bool.false_eq_true, if_false]
  · rw [if_neg hword, afterKeyword?]
    split
    · next rest hrest =>
      rw [dropStart?] at hrest
      split at hrest
      · next hprefix =>
        cases hrest
        obtain ⟨tail, htail⟩ := List.isPrefixOf_iff_prefix.1 hprefix
        have hdrop : seg.text.drop keyword.toList.length = tail := by
          rw [← htail, List.drop_left]
        have hany : tail.head?.any isNamePart = true := by
          cases hany : tail.head?.any isNamePart with
          | true => rfl
          | false => exact absurd (by rw [← htail, firstWord_append hk hany]) hword
        rw [hdrop, if_pos hany]
      · cases hrest
    · rfl

/-! ## Parts

Segments are cut at commas from the left, and an empty last part is no part: a trailing comma adds
nothing. -/

/-- Without a comma, a segment is one part, unless it is blank. -/
theorem parts_of_index?_eq_none (h : seg.index? comma = none) :
    seg.parts = if seg.trim.isEmpty then [] else [seg.trim] := by
  rw [parts]
  split
  · rfl
  · next n hsome => rw [h] at hsome; cases hsome

/-- With a comma, the first part goes up to the comma. -/
theorem parts_of_index?_eq_some {n : Nat} (h : seg.index? comma = some n) :
    seg.parts = (seg.take n).trim :: (seg.drop (n + 1)).parts := by
  rw [parts]
  split
  · next hnone => rw [h] at hnone; cases hnone
  · next m hsome =>
    rw [h] at hsome
    cases hsome
    rfl

end Segment
end TypeReveal
