import TypeReveal.Proofs.Expr.Faithful
import TypeReveal.Proofs.Expr.Stringless
import TypeReveal.Proofs.Statement.Nesting
import TypeReveal.Proofs.Text.Position

/-!
# The content of a quoted annotation

An expression can be put in quotes if its text has neither quotes nor backslashes and stands on one
line (`Spells`).  Nothing is cut in such a text, nor in the string around it, unless the expression
is a bare tuple.  Where a segment is read as the expression, only blanks and continued lines stand
around its text, and with the text in quotes the segment is read as the string
(`Spells.expr_literal`).

A bare tuple is left out because its commas are signs to the readers around it: `x: a, b` is no
binding with a tuple for its annotation, while `x: "a, b"` is one with a string.  Quotes and
backslashes are left out because the string would end early or denote another text, and line breaks
because a string in one pair of quotes has none.

The text and the string are compared at the level of tokens.  The text is a run of tokens with gaps
between them, and nothing in it is cut outside of brackets (`Spells.sealed`).  The string is a
single token whatever it holds.
-/

set_option autoImplicit false
namespace TypeReveal

/-! ## Texts that can be quoted -/

/-- Whether an expression is a bare tuple, or the empty one. -/
def Expr.isTuple : Expr → Bool
  | tuple .. => true
  | _ => false

/-- A text that stands for itself between quotes. -/
def IsPlainText (text : List Char) : Prop :=
  ∀ c ∈ text, c ≠ '"' ∧ c ≠ '\'' ∧ c ≠ '\\' ∧ c ≠ '\n'

/-- A text at `start` that is read as the expression `e`, which is no tuple, and that stands for
itself between quotes. -/
structure Spells (text : List Char) (start : Nat) (e : Expr) : Prop where
  read : Expr.read text start = .ok e
  single : e.isTuple = false
  plain : IsPlainText text

/-- A text in quotes. -/
def literal (text : List Char) : List Char := '"' :: (text ++ ['"'])

variable {text u v w seps : List Char} {start pos : Nat} {e : Expr} {ls : List Lexeme}

/-- A plain text has no strings in it. -/
theorem IsPlainText.stringless (h : IsPlainText text) : Stringless text :=
  fun c hc => ⟨(h c hc).1, (h c hc).2.1⟩

/-- The first part of a plain text is plain. -/
theorem IsPlainText.left (h : IsPlainText (u ++ v)) : IsPlainText u :=
  fun c hc => h c (List.mem_append_left v hc)

/-- What is read and is no tuple is derived from the tokens of its text. -/
theorem exists_derives_of_read (hread : Expr.read text pos = .ok e) (he : e.isTuple = false) :
    ∃ ls, Lexed pos text ls ∧ Derives .bar ls e := by
  have hlexed := lexed_of_lexemes _ _ (Expr.not_junk_of_read hread)
  refine ⟨_, hlexed, ?_⟩
  rcases derivesWhole_iff.1 (Expr.derives_of_read hread) with
    hbar | ⟨first, rest, comma, ended, -, rfl⟩
  · exact hbar
  · cases he

/-! ## The string

The printer of tokens writes a string with escapes where it must, and a plain text needs none.  So
the string in the file is the printed token of the text, and what is known of printed tokens holds
of it. -/

section Literal

variable (h : IsPlainText text)

include h

/-- A text that stands for itself is written as it is. -/
theorem literal_eq : literal text = (Token.str (String.ofList text)).text := by
  have hbody : text.flatMap quotedChar = text := by
    induction text with
    | nil => rfl
    | cons c text ih =>
      obtain ⟨⟨hquote, -, hslash, hbreak⟩, hrest⟩ := List.forall_mem_cons.1 h
      rw [List.flatMap_cons, ih hrest]
      simp [quotedChar, hquote, hslash, hbreak]
  rw [literal, Token.text, String.toList_ofList, hbody]

/-- Nothing is cut in the string. -/
theorem sealed_literal (seps : List Char) : Sealed seps (literal text) :=
  literal_eq h ▸ sealed_str _

/-- The string is a single token. -/
theorem lexemes_literal (pos : Nat) : lexemes pos (literal text) =
    [⟨.str (String.ofList text), ⟨pos, pos + utf8Length (literal text)⟩⟩] := by
  have hlex := lexemes_spelled (.text (.str (String.ofList text))) rfl .nil pos
  rwa [List.append_nil, lexemes, ← literal_eq h] at hlex

/-- **Behind gaps the string is read as a string.** -/
theorem read_literal (hw : Lexed pos w []) : Expr.read (w ++ literal text) pos =
    .ok (.str ⟨pos + utf8Length w, pos + utf8Length w + utf8Length (literal text)⟩
      (String.ofList text)) := by
  have hapart : Apart (literal text) := by
    rintro c ⟨⟩
    decide
  have hlex := hw.lexemes_append hapart
  rw [lexemes_literal h, List.nil_append] at hlex
  refine Expr.read_of_derives ?_
  rw [hlex]
  exact Derives.whole (.operand rfl) _

end Literal

/-- A string has no blanks at its ends. -/
theorem sharp_literal (text : List Char) : Sharp (literal text) :=
  ⟨⟨'"', _, rfl, by decide⟩, ⟨'"' :: text, '"', rfl, by decide⟩⟩

namespace Spells

variable (h : Spells text start e)

include h

/-! ## The text

An annotation that is no tuple is derived at the level of `|`, where no comma stands outside of
brackets.  That leaves colons and signs of equality, which are no part of any token outside of
brackets and strings. -/

/-- The tokens of the text. -/
theorem exists_lexed : ∃ ls, Lexed start text ls ∧ Derives .bar ls e :=
  exists_derives_of_read h.read h.single

/-- All characters of the text are such as tokens and gaps are made of. -/
theorem forall_isTextChar : ∀ c ∈ text, isTextChar c = true := by
  obtain ⟨ls, hlexed, -⟩ := h.exists_lexed
  exact hlexed.forall_isTextChar h.plain.stringless

/-- Characters that do not stand in the text. -/
theorem not_mem {marks : List Char} (hmarks : ∀ d ∈ marks, isTextChar d = false ∨ d = '\n') :
    ∀ c ∈ text, c ∉ marks := by
  intro c hc hmark
  rcases hmarks c hmark with hfalse | hbreak
  · rw [h.forall_isTextChar c hc] at hfalse
    cases hfalse
  · exact (h.plain c hc).2.2.2 hbreak

/-- **Nothing is cut in the text.** -/
theorem sealed : Sealed [',', ':', '=', '\n'] text := by
  obtain ⟨ls, hlexed, hderives⟩ := h.exists_lexed
  have hsealed := hderives.sealedAs _ _ hlexed h.plain.stringless
  refine { hsealed with not_sep := fun x hx htop hsep => ?_ }
  rcases List.mem_cons.1 hsep with hcomma | hsep
  · exact hsealed.not_sep x hx htop (List.mem_singleton.2 hcomma)
  · refine @not_mem _ _ _ h [':', '=', '\n'] (by decide) _ ?_ hsep
    rw [← Scan.map_fst_label ⟨0, .code⟩ text]
    exact List.mem_map_of_mem hx

end Spells

/-! ## The ends of a text

The span of an expression goes from its first token to its last, while the text that is put in
quotes may have gaps on both sides.  What is in front is a gap as readers of tokens see it, and may
hold a backslash that continues a line; what is behind is blank. -/

/-- The tokens of a text from where the first starts to where the last stops. -/
theorem Lexed.exists_ends {first last : Nat} (h : Lexed pos text ls) (hstart : StartsAt ls first)
    (hstop : StopsAt ls last) : ∃ front mid back, text = front ++ (mid ++ back) ∧
      Lexed pos front [] ∧ mid ≠ [] ∧ Lexed last back [] ∧ pos + utf8Length front = first ∧
      pos + utf8Length front + utf8Length mid = last := by
  rw [← List.nil_append ls] at h
  obtain ⟨front, rest, rfl, hfront, hrest, hfirst⟩ := h.exists_cut
  obtain ⟨r, hr, hlast⟩ := Option.map_eq_some_iff.1 hstop
  obtain ⟨ls, rfl⟩ := List.getLast?_eq_some_iff.1 hr
  obtain ⟨mid, back, rfl, htokens, hback, hmid⟩ := hrest.exists_trimmed
  have hne : mid ≠ [] := by
    rintro rfl
    have hnil := htokens.eq_nil_of_blank fun c hc => absurd hc List.not_mem_nil
    simp at hnil
  exact ⟨front, mid, back, rfl, hfront, hne, hlast ▸ hmid ▸ hback,
    hfirst.trans (hstart.startOf_eq _), hmid.trans hlast⟩

/-- What stands in front of a text that has no tokens stays without tokens, if what is behind it
does not go on with a line. -/
theorem Lexed.front_of_nil (h : Lexed pos (u ++ v) []) (hv : '\n' ∉ v) : Lexed pos u [] := by
  generalize htext : u ++ v = text at h
  generalize hls : ([] : List Lexeme) = ls at h ⊢
  induction h generalizing u with
  | nil pos =>
    obtain ⟨rfl, -⟩ := List.append_eq_nil_iff.1 htext
    exact .nil pos
  | @gap pos unit text ls hunit h ih =>
    rcases List.append_eq_append_iff.1 htext with ⟨rest, rfl, rfl⟩ | ⟨rest, rfl, rfl⟩
    · cases u with
      | nil => exact hls ▸ .nil pos
      | cons c u =>
        have hrest : rest = [] := by
          rcases gapUnits_cases hunit with hslash | ⟨d, hd, -⟩
          · cases u with
            | nil =>
              have hbreak : rest = ['\n'] := (List.cons.inj hslash).2
              exact absurd (by simp [hbreak]) hv
            | cons d u =>
              exact (List.append_eq_nil_iff.1 (List.cons.inj (List.cons.inj hslash).2).2).2
          · exact (List.append_eq_nil_iff.1 (List.cons.inj hd).2).2
        subst hrest hls
        rw [List.append_nil] at hunit
        have hgap := Lexed.gap hunit (.nil (pos + utf8Length (c :: u)))
        rwa [List.append_nil] at hgap
    · exact .gap hunit (ih rfl hls)
  | token => cases hls

/-- The expression stands in the text. -/
theorem Spells.bounds (h : Spells text start e) : start ≤ e.span.start ∧
    e.span.start < e.span.stop ∧ e.span.stop ≤ start + utf8Length text := by
  obtain ⟨ls, hlexed, hderives⟩ := h.exists_lexed
  obtain ⟨front, mid, back, rfl, -, hne, -, hfirst, hlast⟩ :=
    hlexed.exists_ends hderives.ends.1 hderives.ends.2
  have hpos := utf8Length_pos hne
  simp only [utf8Length_append]
  omega

/-- Blanks at the end of the text are not needed. -/
theorem Spells.of_append_blank (h : Spells (u ++ v) start e) (hv : ∀ c ∈ v, isBlank c = true) :
    Spells u start e where
  read := by
    obtain ⟨ls, hlexed, hderives⟩ := h.exists_lexed
    have hslash : u.getLast? ≠ some '\\' := fun hlast =>
      (h.plain.left _ (List.mem_of_getLast? hlast)).2.2.1 rfl
    refine Expr.read_of_derives ?_
    rw [(hlexed.of_append_blank hv hslash).lexemes_eq]
    exact hderives.whole _
  single := h.single
  plain := h.plain.left

/-! ## Segments

A segment is trimmed before it is read.  Its blanks are those of trimming, any white space there is,
while the gaps between tokens are those of the grammar, so the two have to be told apart at the
ends: `x` and `y` are trimmed away, `front` is left to the reader of tokens. -/

/-- A gap consists of blanks and backslashes. -/
theorem isBlank_of_isGapChar {c : Char} (h : isGapChar c = true) : isBlank c = true ∨ c = '\\' := by
  simp only [isGapChar, isSpacing, Bool.or_eq_true, beq_iff_eq] at h
  rcases h with (((rfl | rfl) | rfl) | rfl) | rfl <;> decide

/-- The last character of a gap is blank. -/
theorem Lexed.eq_nil_of_sharp (h : Lexed pos v []) (hs : Sharp (u ++ v)) : v = [] := by
  rcases List.eq_nil_or_concat v with rfl | ⟨w, c, rfl⟩
  · rfl
  · rw [List.concat_eq_append] at h hs
    obtain ⟨front, d, hlast, hd⟩ := hs.last
    rw [← List.append_assoc] at hlast
    obtain rfl := List.append_inj_right' hlast rfl |> List.singleton_inj.1
    rcases isBlank_of_isGapChar (h.forall_isGapChar c (by simp)) with hblank | rfl
    · rw [hd] at hblank
      cases hblank
    · exact absurd (List.getLast?_concat) h.getLast?_ne

/-- Trimming takes away the blanks around what has none at its ends. -/
theorem Segment.trim_of_sharp {seg : Segment} {mid : List Char} (htext : seg.text = u ++ (mid ++ v))
    (hu : ∀ c ∈ u, isBlank c = true) (hmid : Sharp mid) (hv : ∀ c ∈ v, isBlank c = true) :
    seg.trim = ⟨seg.start + utf8Length u, mid⟩ := by
  obtain ⟨c, rest, rfl, hc⟩ := hmid.head
  rw [Segment.trim, htext, trim_append hu hmid hv, List.takeWhile_append_of_pos hu,
    List.cons_append, List.takeWhile_cons_of_neg (by simp [hc]), List.append_nil]

/-- **The expression in a segment**, with blanks and gaps in front of its tokens and blanks behind
them. -/
theorem Segment.exists_ends {seg : Segment} (hread : seg.expr = .ok e) (he : e.isTuple = false) :
    ∃ x front mid y, seg.text = x ++ (front ++ (mid ++ y)) ∧ (∀ c ∈ x, isBlank c = true) ∧
      Sharp (front ++ mid) ∧ Lexed (seg.start + utf8Length x) front [] ∧
      (∀ c ∈ y, isBlank c = true) ∧ seg.start + utf8Length x + utf8Length front = e.span.start ∧
      seg.start + utf8Length x + utf8Length front + utf8Length mid = e.span.stop := by
  rw [Segment.expr_eq_ok] at hread
  rcases blank_or_exists_sharp seg.text with hall | ⟨x, sharp, y, htext, hx, hsharp, hy⟩
  · rw [trim_text, trim_eq_nil hall] at hread
    obtain ⟨ls, hlexed, hderives⟩ := exists_derives_of_read hread he
    obtain rfl := hlexed.eq_nil_of_blank fun c hc => absurd hc List.not_mem_nil
    cases hderives.ends.1
  · rw [Segment.trim_of_sharp htext hx hsharp hy] at hread
    obtain ⟨ls, hlexed, hderives⟩ := exists_derives_of_read hread he
    obtain ⟨front, mid, back, rfl, hfront, -, hback, hstart, hstop⟩ :=
      hlexed.exists_ends hderives.ends.1 hderives.ends.2
    rw [← List.append_assoc] at hsharp
    obtain rfl := hback.eq_nil_of_sharp hsharp
    rw [List.append_nil] at hsharp htext
    exact ⟨x, front, mid, y, by simp [htext], hx, hsharp, hfront, hy, hstart, hstop⟩

/-- A text of blanks and backslashes: what may stand in front of the tokens of a segment. -/
def IsMargin (u : List Char) : Prop := ∀ c ∈ u, isBlank c = true ∨ c = '\\'

/-- Blanks make a margin. -/
theorem isMargin_of_isBlank (hu : ∀ c ∈ u, isBlank c = true) : IsMargin u :=
  fun c hc => .inl (hu c hc)

/-- So does a text without tokens. -/
theorem Lexed.isMargin (h : Lexed pos u []) : IsMargin u :=
  fun c hc => isBlank_of_isGapChar (h.forall_isGapChar c hc)

/-- **Where a segment is read as the expression**, there are margins and blanks around its text, and
with a text in quotes in its place the segment is read as a string. -/
theorem Spells.expr_literal {seg : Segment} (h : Spells text start e)
    (htext : seg.text = u ++ (text ++ v)) (hstart : seg.start + utf8Length u = start)
    (hread : seg.expr = .ok e) {content : List Char} (hcontent : IsPlainText content) :
    IsMargin u ∧ (∀ c ∈ v, isBlank c = true) ∧
      Segment.expr ⟨seg.start, u ++ (literal content ++ v)⟩ =
        .ok (.str ⟨start, start + utf8Length (literal content)⟩ (String.ofList content)) := by
  obtain ⟨x, front, mid, y, hseg, hx, hsharp, hfront, hy, hfirst, hlast⟩ :=
    Segment.exists_ends hread h.single
  obtain ⟨ls, hlexed, hderives⟩ := h.exists_lexed
  obtain ⟨front', mid', back', rfl, hfront', -, -, hfirst', hlast'⟩ :=
    hlexed.exists_ends hderives.ends.1 hderives.ends.2
  -- The tokens of the text are those of the segment, so they stand at the same places.
  have hsplit : (x ++ front) ++ (mid ++ y) = (u ++ front') ++ (mid' ++ (back' ++ v)) := by
    simpa using hseg.symm.trans htext
  obtain ⟨hbefore, hrest⟩ := append_inj_of_utf8Length hsplit (by
    simp only [utf8Length_append]
    omega)
  obtain ⟨rfl, rfl⟩ := append_inj_of_utf8Length hrest (by omega)
  have hmargin : IsMargin (u ++ front') := by
    rw [← hbefore]
    exact List.forall_mem_append.2 ⟨isMargin_of_isBlank hx, hfront.isMargin⟩
  have hv : ∀ c ∈ v, isBlank c = true := fun c hc => hy c (List.mem_append_right _ hc)
  -- The margin before the text: blanks that trimming takes away, then gaps that are lexed away.
  obtain ⟨x', w, rfl, hx', hw, hsharp'⟩ : ∃ x' w, u = x' ++ w ∧ (∀ c ∈ x', isBlank c = true) ∧
      Lexed (seg.start + utf8Length x') w [] ∧ Sharp (w ++ literal content) := by
    rcases List.append_eq_append_iff.1 hbefore with ⟨w, rfl, rfl⟩ | ⟨w, rfl, rfl⟩
    · have hbreak : '\n' ∉ front' := fun hmem => (h.plain _ (List.mem_append_left _ hmem)).2.2.2 rfl
      refine ⟨x, w, rfl, hx, hfront.front_of_nil hbreak, ?_, ?_⟩
      · cases w with
        | nil => exact (sharp_literal content).head
        | cons c w =>
          obtain ⟨d, rest, heq, hd⟩ := hsharp.head
          exact ⟨c, _, rfl, (List.cons.inj heq).1 ▸ hd⟩
      · obtain ⟨f, c, heq, hc⟩ := (sharp_literal content).last
        exact ⟨w ++ f, c, by rw [heq, List.append_assoc], hc⟩
    · exact ⟨u, [], by simp, fun c hc => hx c (List.mem_append_left w hc), .nil _,
        sharp_literal content⟩
  refine ⟨fun c hc => hmargin c (List.mem_append_left _ hc), hv, ?_⟩
  have htrim := @Segment.trim_of_sharp x' v ⟨seg.start, x' ++ w ++ (literal content ++ v)⟩
    (w ++ literal content) (by simp) hx' hsharp' hv
  rw [Segment.expr_eq_ok, htrim, read_literal hcontent hw, ← hstart, utf8Length_append,
    ← Nat.add_assoc]

end TypeReveal
