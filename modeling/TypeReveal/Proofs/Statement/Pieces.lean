import Mathlib.Data.List.TakeWhile
import TypeReveal.Proofs.Layout.Comments
import TypeReveal.Proofs.Statement.Nesting
import TypeReveal.Proofs.Statement.OneLine
import TypeReveal.Proofs.Text.Lines

/-!
# Pieces of a file

What is read of a file are pieces of it (`Segment.IsPiece`), once its comments are blank.  A
character that is not blank stands in the file where it stands in the file without comments
(`StandsAt.of_clean`), so that a piece with no blanks at its ends starts and stops at such
characters of the file (`Segment.IsPiece.bounds`), and what stands between two of them is a text of
the file (`exists_byteSlice?`).

A line is a piece that does not break: before its first bracket or quote there is no line break
(`Line.not_break`).
-/

set_option autoImplicit false
namespace TypeReveal

/-! ## Characters of a file

A text between two characters that are not blank can be cut out and has these characters at its
ends. -/

/-- A character stands at a position of a text. -/
def StandsAt (source : List Char) (pos : Nat) (c : Char) : Prop :=
  ∃ before after, source = before ++ c :: after ∧ utf8Length before = pos

/-- A text starts at a position with a character that is not blank. -/
def StartsSharp (source : List Char) (pos : Nat) : Prop :=
  ∃ c, StandsAt source pos c ∧ isBlank c = false

/-- A text stops at a position with a character that is not blank. -/
def StopsSharp (source : List Char) (stop : Nat) : Prop :=
  ∃ c pos, StandsAt source pos c ∧ isBlank c = false ∧ pos + c.utf8Size = stop

variable {source : List Char} {c d : Char} {m n : Nat}

/-- Where a character stands is a boundary between characters. -/
theorem StandsAt.isBoundary (h : StandsAt source n c) : IsBoundary source n := by
  obtain ⟨before, after, rfl, rfl⟩ := h
  exact ⟨before, c :: after, rfl, rfl⟩

/-- **What stands between two characters** that are not blank is a text with no blanks at its
ends. -/
theorem exists_byteSlice? (hstart : StandsAt source m c) (hc : isBlank c = false)
    (hstop : StopsSharp source n) (hlt : m < n) :
    ∃ part, byteSlice? source m n = some part ∧ part.head? = some c ∧ Sharp part := by
  obtain ⟨d, pos, ⟨before', after', hsource, rfl⟩, hd, rfl⟩ := hstop
  obtain ⟨before, after, rfl, rfl⟩ := hstart
  rcases Nat.lt_or_ge (utf8Length before') (utf8Length before) with hlt' | hle
  · -- the second character would stop before the first one starts
    obtain ⟨between, rfl, hrest⟩ :=
      exists_between_of_append_eq hsource.symm (Nat.le_of_lt hlt')
    cases between with
    | nil => simp at hlt'
    | cons b between =>
      obtain ⟨rfl, -⟩ := List.cons.inj hrest
      rw [utf8Length_append, utf8Length_cons] at hlt
      omega
  · obtain ⟨between, rfl, hrest⟩ := exists_between_of_append_eq hsource hle
    have hslice := byteSlice?_append before (between ++ [d]) after'
    have htext : before ++ (between ++ [d] ++ after') = before ++ c :: after := by
      rw [hrest, List.append_assoc, List.singleton_append]
    have hlength : utf8Length before + utf8Length (between ++ [d]) =
        utf8Length (before ++ between) + d.utf8Size := by
      rw [utf8Length_append, utf8Length_append, Nat.add_assoc]
      rfl
    have hhead : (between ++ [d]).head? = some c := by
      cases between with
      | nil => exact congrArg some (List.cons.inj hrest).1.symm
      | cons b between => exact congrArg some (List.cons.inj hrest).1.symm
    obtain ⟨tail, htail⟩ := List.head?_eq_some_iff.1 hhead
    rw [htext, hlength] at hslice
    exact ⟨_, hslice, hhead, ⟨c, tail, htail, hc⟩, between, d, rfl, hd⟩

/-! ## Comments

Blanking is done character by character, with as many blanks as the character has bytes, so all
positions stay. -/

theorem exists_append_of_flatMap {u : List (Char × Region)} {before after : List Char}
    (h : (u.flatMap blankComment).map Prod.fst = before ++ c :: after) (hc : c ≠ ' ') :
    ∃ before' after', u.map Prod.fst = before' ++ c :: after' ∧
      utf8Length before' = utf8Length before := by
  induction u generalizing before with
  | nil => simp at h
  | cons x u ih =>
    obtain ⟨b, region⟩ := x
    have hone := utf8Length_flatMap_blankComment [(b, region)]
    rw [List.flatMap_singleton, List.map_singleton] at hone
    rw [List.flatMap_cons, List.map_append] at h
    -- The cut lies beyond the first character: it is counted in and the induction goes on.
    have hpass {rest : List Char}
        (hbefore : before = (blankComment (b, region)).map Prod.fst ++ rest)
        (hrest : (u.flatMap blankComment).map Prod.fst = rest ++ c :: after) :
        ∃ before' after', ((b, region) :: u).map Prod.fst = before' ++ c :: after' ∧
          utf8Length before' = utf8Length before := by
      obtain ⟨before', after', hu, hlength⟩ := ih hrest
      refine ⟨b :: before', after', congrArg (b :: ·) hu, ?_⟩
      rw [hbefore, utf8Length_append, hone, ← hlength]
      simp
    rcases List.append_eq_append_iff.1 h with ⟨rest, hbefore, hrest⟩ | ⟨rest, hblank, hrest⟩
    · exact hpass hbefore hrest
    · cases rest with
      | nil =>
        rw [List.append_nil] at hblank
        refine @hpass [] ?_ hrest.symm
        rw [hblank, List.append_nil]
      | cons r rest =>
        obtain ⟨rfl, -⟩ := List.cons.inj hrest
        have hmem : c ∈ (blankComment (b, region)).map Prod.fst := by
          rw [hblank]
          exact List.mem_append_right _ List.mem_cons_self
        -- The cut lies within what replaces the character: one of the blanks, or the character
        -- itself.
        cases region with
        | comment =>
          rw [blankComment, List.map_replicate] at hmem
          exact absurd (List.eq_of_mem_replicate hmem) hc
        | _ =>
          cases before with
          | nil =>
            obtain ⟨rfl, -⟩ := List.cons.inj hblank
            exact ⟨[], u.map Prod.fst, rfl, rfl⟩
          | cons b' before => cases before <;> simp [blankComment] at hblank

/-- **A character that is not blank** is no blank in the place of a comment. -/
theorem StandsAt.of_clean (h : StandsAt (clean source) n c) (hc : isBlank c = false) :
    StandsAt source n c := by
  obtain ⟨before, after, hclean, rfl⟩ := h
  have hspace : c ≠ ' ' := by
    rintro rfl
    cases hc
  obtain ⟨before', after', hsource, hlength⟩ := exists_append_of_flatMap hclean hspace
  rw [regions, Scan.map_fst_label] at hsource
  exact ⟨before', after', hsource, hlength⟩

/-! ## Pieces

Cutting, trimming and dropping a keyword yield pieces of the segment, and each reader of headers is
a few of these steps. -/

namespace Segment

variable {part rest seg line head inline : Segment} {u v : List Char}

/-- A segment that is a piece of another. -/
def IsPiece (part seg : Segment) : Prop :=
  ∃ before after, seg.text = before ++ (part.text ++ after) ∧
    part.start = seg.start + utf8Length before

/-- A piece of a piece is a piece. -/
theorem IsPiece.trans (h : part.IsPiece rest) (h' : rest.IsPiece seg) : part.IsPiece seg := by
  obtain ⟨before, after, htext, hstart⟩ := h
  obtain ⟨before', after', htext', hstart'⟩ := h'
  refine ⟨before' ++ before, after ++ after', ?_, ?_⟩
  · rw [htext', htext]
    simp only [List.append_assoc]
  · rw [hstart, hstart', utf8Length_append, Nat.add_assoc]

/-- **A piece stands at its place** in every file in which the segment stands at its own. -/
theorem IsPiece.byteSlice?_eq (h : part.IsPiece seg) {before : List Char}
    (hbefore : utf8Length before = seg.start) (after : List Char) :
    byteSlice? (before ++ (seg.text ++ after)) part.span.start part.span.stop = some part.text := by
  obtain ⟨u, v, htext, hstart⟩ := h
  have hslice := byteSlice?_append (before ++ u) part.text (v ++ after)
  rw [utf8Length_append, hbefore, ← hstart] at hslice
  rw [htext]
  simpa only [span, List.append_assoc] using hslice

theorem isPiece_drop (seg : Segment) (n : Nat) : (seg.drop n).IsPiece seg :=
  ⟨seg.text.take n, [], by simp [drop], rfl⟩

/-- **What trimming takes away** are the blanks at both ends. -/
theorem exists_edges (seg : Segment) : ∃ u v, seg.text = u ++ (seg.trim.text ++ v) ∧
    seg.trim.start = seg.start + utf8Length u ∧ ∀ c ∈ u ++ v, isBlank c = true := by
  rcases blank_or_exists_sharp seg.text with hall | ⟨u, mid, v, htext, hu, hmid, hv⟩
  · have htake : seg.text.takeWhile isBlank = seg.text := List.takeWhile_eq_self_iff.2 hall
    refine ⟨seg.text, [], ?_, by rw [trim, htake], by rwa [List.append_nil]⟩
    rw [trim, trim_eq_nil hall, List.append_nil, List.append_nil]
  · have htake : seg.text.takeWhile isBlank = u := by
      obtain ⟨c, rest, rfl, hc⟩ := hmid.head
      rw [htext, List.takeWhile_append_of_pos hu, List.cons_append,
        List.takeWhile_cons_of_neg (by simp [hc]), List.append_nil]
    have htrim : seg.trim = ⟨seg.start + utf8Length u, mid⟩ := by
      rw [trim, htake, htext, trim_append hu hmid hv]
    exact ⟨u, v, by rw [htrim, htext], by rw [htrim], List.forall_mem_append.2 ⟨hu, hv⟩⟩

theorem isPiece_trim (seg : Segment) : seg.trim.IsPiece seg := by
  obtain ⟨u, v, htext, hstart, -⟩ := seg.exists_edges
  exact ⟨u, v, htext, hstart⟩

/-- What is left of a segment has no blanks at its ends. -/
theorem sharp_trim (h : seg.trim.text ≠ []) : Sharp seg.trim.text := TypeReveal.sharp_trim h

theorem isPiece_of_afterKeyword? {keyword : String} (h : seg.afterKeyword? keyword = some rest) :
    rest.IsPiece seg := by
  rw [afterKeyword?] at h
  split at h
  · split at h <;> cases h
    exact (isPiece_trim _).trans (seg.isPiece_drop _)
  · cases h

/-- A piece that has no blanks at its ends. -/
structure IsCore (part seg : Segment) : Prop where
  piece : part.IsPiece seg
  sharp : part.text ≠ [] → Sharp part.text

/-- A piece that is trimmed has no blanks at its ends. -/
theorem IsPiece.core_trim (h : rest.IsPiece seg) : rest.trim.IsCore seg :=
  ⟨(isPiece_trim rest).trans h, sharp_trim⟩

/-- What is behind the colon of a header, trimmed. -/
theorem IsPiece.core_of_splitHeader {what : Construct} (h : rest.IsPiece seg)
    (hsplit : splitHeader rest what = .ok (head, inline)) : inline.IsCore seg := by
  obtain ⟨n, -, -, rfl⟩ := splitHeader_eq_ok.1 hsplit
  exact ((rest.isPiece_drop _).trans h).core_trim

theorem IsPiece.core_of_readFunction {header : Header} (h : rest.IsPiece seg)
    (hread : readFunction line rest = .ok (header, inline)) : inline.IsCore seg := by
  obtain ⟨n, close, -, -, -, _, _, _, hsplit, -, -, -⟩ := readFunction_eq_ok.1 hread
  refine IsPiece.core_of_splitHeader ?_ hsplit
  exact (isPiece_trim _).trans ((isPiece_drop _ _).trans ((rest.isPiece_drop _).trans h))

theorem IsPiece.core_of_readClass {header : Header} (h : rest.IsPiece seg)
    (hread : readClass line rest = .ok (header, inline)) : inline.IsCore seg := by
  obtain ⟨_, _, _, hsplit, -⟩ := readClass_eq_ok.1 hread
  exact h.core_of_splitHeader hsplit

theorem IsPiece.core_of_readCondition {cond : Expr} (h : rest.IsPiece seg)
    (hread : readCondition rest = .ok (cond, inline)) : inline.IsCore seg := by
  obtain ⟨_, hsplit, -⟩ := readCondition_eq_ok.1 hread
  exact h.core_of_splitHeader hsplit

/-- **What follows the colon of a header** is a piece of its line, with no blanks at its ends. -/
theorem core_of_readHeader? {chained : Bool} {header : Header}
    (h : readHeader? chained line = some (.ok (header, inline))) : inline.IsCore line := by
  rcases readHeader?_cases h with ⟨rest, hrest, hread⟩ | ⟨rest, hrest, hread⟩ |
    ⟨rest, cond, hrest, hread, -⟩ | ⟨-, rest, cond, hrest, hread, -⟩ |
    ⟨-, rest, head, hrest, hread, -⟩
  · exact (isPiece_of_afterKeyword? hrest).core_of_readFunction hread
  · exact (isPiece_of_afterKeyword? hrest).core_of_readClass hread
  · exact (isPiece_of_afterKeyword? hrest).core_of_readCondition hread
  · exact (isPiece_of_afterKeyword? hrest).core_of_readCondition hread
  · exact (isPiece_of_afterKeyword? hrest).core_of_splitHeader hread

end Segment

/-! ## Lines

A line is scanned from its start as if it were a file.  That it does not break is known for the scan
of the whole file, which is where it started at the line. -/

/-- A line is a piece of the text that is split. -/
theorem isPiece_of_mem_splitLines {start : Nat} {u : List (Char × Region)} {seg : Segment}
    (h : seg ∈ splitLines start u) : seg.IsPiece ⟨start, u.map Prod.fst⟩ := by
  induction u generalizing start seg with
  | nil =>
    obtain rfl := List.mem_singleton.1 h
    exact ⟨[], [], rfl, rfl⟩
  | cons x u ih =>
    obtain ⟨c, region⟩ := x
    have hpass {seg : Segment} (hseg : seg ∈ splitLines (start + c.utf8Size) u) :
        seg.IsPiece ⟨start, ((c, region) :: u).map Prod.fst⟩ :=
      (ih hseg).trans ⟨[c], [], by simp, by simp⟩
    obtain ⟨text, segs, hsplit⟩ := exists_splitLines (start + c.utf8Size) u
    rw [splitLines, hsplit] at h
    split at h
    · rcases List.mem_cons.1 h with rfl | h
      · exact ⟨[], c :: u.map Prod.fst, rfl, rfl⟩
      · exact hpass (hsplit ▸ h)
    · rcases List.mem_cons.1 h with rfl | h
      · obtain ⟨before, after, htext, hstart⟩ := ih (hsplit ▸ List.mem_cons_self)
        obtain rfl : before = [] := by
          by_contra hne
          exact Nat.lt_irrefl _ (Nat.lt_of_lt_of_eq (Nat.lt_add_of_pos_right (utf8Length_pos hne))
            hstart.symm)
        exact ⟨[], after, congrArg (c :: ·) htext, rfl⟩
      · exact hpass (hsplit ▸ List.mem_cons_of_mem _ h)

/-- The scan starts anew behind a line break. -/
theorem Scan.eq_of_step_break {scan : Scan} (h : (scan.step '\n').1 = .top) :
    (scan.step '\n').2 = ⟨0, .code⟩ := by
  obtain ⟨depth, mode⟩ := scan
  cases reads mode '\n' with
  | opening _ hc => exact absurd hc (by decide)
  | closing _ hc => exact absurd hc (by decide)
  | plain _ hplain =>
    rw [hplain, codeRegion] at h
    rw [hplain]
    split at h
    · next hdepth => rw [hdepth]
    · cases h
  | quoted _ _ _ hstep | comment _ _ hstep => simp [hstep] at h

/-- **A line scanned on its own** does not break. -/
theorem not_isBreak_splitLines {scan : Scan} {start : Nat} {text : List Char} {first : Segment}
    {others : List Segment} (h : splitLines start (scan.label text) = first :: others) :
    (∀ x ∈ scan.label first.text, ¬ isBreak x = true) ∧
      ∀ seg ∈ others, ∀ x ∈ regions seg.text, ¬ isBreak x = true := by
  induction text generalizing scan start first others with
  | nil =>
    cases h
    exact ⟨nofun, nofun⟩
  | cons c text ih =>
    obtain ⟨next, segs, hsplit⟩ :=
      exists_splitLines (start + c.utf8Size) ((scan.step c).2.label text)
    obtain ⟨hnext, hsegs⟩ := ih hsplit
    rw [Scan.label, splitLines, hsplit] at h
    split at h
    · next hbreak =>
      rw [Bool.and_eq_true, beq_iff_eq, decide_eq_true_eq] at hbreak
      obtain ⟨rfl, htop⟩ := hbreak
      rw [Scan.eq_of_step_break htop] at hnext
      cases h
      exact ⟨nofun, List.forall_mem_cons.2 ⟨hnext, hsegs⟩⟩
    · next hbreak =>
      cases h
      refine ⟨?_, hsegs⟩
      rw [Scan.label]
      exact List.forall_mem_cons.2 ⟨hbreak, hnext⟩

theorem isPlain_of_isBlank (h : isBlank c = true) : isPlain c = true := by
  have hne {mark : Char} (hmark : isBlank mark = false) : (c == mark) = false := by
    refine beq_eq_false_iff_ne.2 fun heq => ?_
    rw [heq, hmark] at h
    cases h
  simp only [isPlain, isOpening, isClosing, bne, hne (rfl : isBlank '(' = false),
    hne (rfl : isBlank '[' = false), hne (rfl : isBlank '\x7b' = false),
    hne (rfl : isBlank ')' = false), hne (rfl : isBlank ']' = false),
    hne (rfl : isBlank '\x7d' = false), hne (rfl : isBlank '"' = false),
    hne (rfl : isBlank '\'' = false), hne (rfl : isBlank '#' = false)]
  rfl

namespace Line

variable {line : Line}

/-- A line is a piece of the file that does not break, without the blanks around it. -/
theorem exists_segment (h : line ∈ ofFile source) : ∃ seg : Segment,
    line.text = seg.trim ∧ line.text.text ≠ [] ∧ seg.IsPiece ⟨0, clean source⟩ ∧
      ∀ x ∈ regions seg.text, ¬ isBreak x = true := by
  obtain ⟨seg, hseg, hline⟩ := List.mem_filterMap.1 h
  have hbreak : ∀ x ∈ regions seg.text, ¬ isBreak x = true := by
    have hclean := splitLines_clean source 0
    rw [cleanRegions_clean, regions] at hclean
    obtain ⟨text, segs, hsplit⟩ := exists_splitLines 0 (Scan.label {} (clean source))
    obtain ⟨hfirst, hothers⟩ := not_isBreak_splitLines hsplit
    rw [← hclean, hsplit] at hseg
    rcases List.mem_cons.1 hseg with rfl | hmem
    · exact hfirst
    · exact hothers seg hmem
  rw [ofSegment?] at hline
  split at hline
  · cases hline
  · next hne =>
    cases hline
    exact ⟨seg, rfl, fun hnil => hne (List.isEmpty_iff.2 hnil), isPiece_of_mem_splitLines hseg,
      hbreak⟩

/-- **A line is a piece of the file** with no blanks at its ends. -/
theorem isCore (h : line ∈ ofFile source) :
    line.text.IsCore ⟨0, clean source⟩ ∧ line.text.text ≠ [] := by
  obtain ⟨seg, htext, hne, hpiece, -⟩ := exists_segment h
  exact ⟨htext ▸ hpiece.core_trim, hne⟩

/-- **A line does not break** in what a scan passes over before anything else. -/
theorem not_break (h : line ∈ ofFile source) {u rest : List Char}
    (htext : line.text.text = u ++ '\n' :: rest) : ¬ ∀ c ∈ u, isPlain c = true := by
  intro hu
  obtain ⟨seg, hline, hne, -, hbreak⟩ := exists_segment h
  obtain ⟨before, after, hseg, hbefore, -⟩ := exists_trim seg.text
  have hmargin : Sealed [] (before ++ u) := Sealed.of_forall fun c hc =>
    ⟨(List.mem_append.1 hc).elim (fun h => isPlain_of_isBlank (hbefore c h)) (hu c), by simp⟩
  have hmem : ('\n', Region.top) ∈ regions seg.text := by
    have htrim : trim seg.text = u ++ '\n' :: rest := by rw [← htext, hline]; rfl
    rw [hseg, htrim, List.append_assoc, ← List.append_assoc, regions, hmargin.label_append 0]
    exact List.mem_append_right _ List.mem_cons_self
  exact hbreak _ hmem rfl

end Line
end TypeReveal
