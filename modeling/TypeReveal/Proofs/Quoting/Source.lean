import TypeReveal.Proofs.Quoting.Blocks
import TypeReveal.Proofs.Quoting.Cut

/-!
# A file with an annotation in quotes

The text of an annotation stands on one line of its file, and a scan of the file meets it in code
(`Spells.exists_focus`).  So with the text in quotes the file has the same lines but for this one,
which becomes a line that follows it (`Line.Bears.lines`), and it is read as what becomes of the
tree (`Quotation.read_node`).

The way to this theorem goes from the file to the line and back:

* A file is cut at its line breaks in code.  The text has no line break in it, so that it lies in
  one of the pieces if it starts in it (`exists_within_piece`).
* What is known of the line is that the annotation is read from it (`Focus`): where the sign before
  it stands, and what its text is once comments are blank.  The text in the file is compared with
  that one token by token, since only the blanks around the tokens may differ
  (`Spells.exists_margin`).
* Quotes put around the text leave the scan of the file as it was (`Quotation.Edits`), so that the
  lines before it are the same and the lines behind it are the same two bytes on.
* The lines make up the same outline as before, and the tree is read from it with one line exchanged
  (`relined`).
-/

set_option autoImplicit false
namespace TypeReveal

variable {text before after p u w v : List Char} {start n : Nat} {m : Char} {e : Expr}

/-! ## The text in its line

Two descriptions of one place are brought together here.  On the one side stands the text as it was
given: so many bytes into the file, with comments still in it.  On the other side stands the segment
that the annotation was read from, in a line of the file without comments.  They agree on the
tokens, and differ in the blanks around them at most. -/

/-- A text that stands on one line, and in part in a piece between two line breaks, stands in that
piece. -/
theorem exists_within_piece {a b : List Char} (h : a ++ (p ++ b) = before ++ (text ++ after))
    (htext : '\n' ∉ text) (ha : a = [] ∨ a.getLast? = some '\n')
    (hb : b = [] ∨ b.head? = some '\n') (hstart : utf8Length a < utf8Length (before ++ text))
    (hstop : utf8Length before < utf8Length (a ++ p)) :
    ∃ p₁ p₂, before = a ++ p₁ ∧ p = p₁ ++ (text ++ p₂) ∧ after = p₂ ++ b := by
  obtain ⟨p₁, rfl, hp⟩ : ∃ p₁, before = a ++ p₁ ∧ p ++ b = p₁ ++ (text ++ after) := by
    -- Were the break before the piece inside of the text, the text would hold a line break.
    rcases List.append_eq_append_iff.1 h with ⟨p₁, rfl, hp⟩ | ⟨z, rfl, hz⟩
    · exact ⟨p₁, rfl, hp⟩
    · cases hlast : z.getLast? with
      | none =>
        obtain rfl := List.getLast?_eq_none_iff.1 hlast
        exact ⟨[], by simp, by simpa using hz.symm⟩
      | some c =>
        rw [List.getLast?_append, hlast, Option.some_or] at ha
        have hbreak : c = '\n' := Option.some_inj.1 (ha.resolve_left fun hnil => by
          rw [(List.append_eq_nil_iff.1 hnil).2] at hlast
          cases hlast)
        obtain ⟨between, rfl, -⟩ := exists_between_of_append_eq hz.symm (by
          rw [utf8Length_append, utf8Length_append] at hstart
          omega)
        exact absurd (List.mem_append_left _ (hbreak ▸ List.mem_of_getLast? hlast)) htext
  rw [← List.append_assoc] at hp
  rcases List.append_eq_append_iff.1 hp with ⟨z, hz, rfl⟩ | ⟨p₂, rfl, rfl⟩
  · cases z with
    | nil => exact ⟨p₁, [], rfl, by simpa using hz.symm, rfl⟩
    | cons c z =>
      have hbreak : c = '\n' := by
        rcases hb with hnil | hhead
        · cases hnil
        · exact Option.some_inj.1 hhead
      obtain ⟨between, rfl, hbetween⟩ := exists_between_of_append_eq hz (by
        rw [utf8Length_append, utf8Length_append] at hstop
        omega)
      exact absurd (hbetween ▸ List.mem_append_right _ (hbreak ▸ List.mem_cons_self)) htext
  · exact ⟨p₁, p₂, rfl, List.append_assoc _ _ _, rfl⟩

/-- The text is its tokens, with blanks in front of them and behind them. -/
theorem Spells.exists_tokens (h : Spells text start e) : ∃ gap mid back,
    text = gap ++ (mid ++ back) ∧ (∀ c ∈ gap, isBlank c = true) ∧ mid ≠ [] ∧
      (∀ c ∈ back, isBlank c = true) ∧ start + utf8Length gap = e.span.start ∧
      start + utf8Length gap + utf8Length mid = e.span.stop := by
  obtain ⟨ls, hlexed, hderives⟩ := h.exists_lexed
  obtain ⟨gap, mid, back, rfl, hgap, hne, hback, hfirst, hlast⟩ :=
    hlexed.exists_ends hderives.ends.1 hderives.ends.2
  have hblank {gap : List Char} {pos : Nat} (hgap : Lexed pos gap [])
      (hmem : ∀ c ∈ gap, IsPlainText [c]) : ∀ c ∈ gap, isBlank c = true := fun c hc =>
    (isBlank_of_isGapChar (hgap.forall_isGapChar c hc)).resolve_right
      (hmem c hc c List.mem_cons_self).2.2.1
  refine ⟨gap, mid, back, rfl, hblank hgap fun c hc => ?_, hne, hblank hback fun c hc => ?_, hfirst,
    hlast⟩
  · exact List.forall_mem_singleton.2 (h.plain c (List.mem_append_left _ hc))
  · exact List.forall_mem_singleton.2
      (h.plain c (List.mem_append_right _ (List.mem_append_right _ hc)))

/-- A sign that does not occur in the end of a text stands in front of it. -/
theorem exists_front {s t r : List Char} (h : s ++ t = u ++ m :: r) (hm : m ∉ t) :
    ∃ front, s = u ++ m :: front ∧ r = front ++ t := by
  rcases List.append_eq_append_iff.1 h with ⟨z, -, rfl⟩ | ⟨z, rfl, hcons⟩
  · exact absurd (List.mem_append_right z List.mem_cons_self) hm
  · cases z with
    | nil =>
      rw [List.nil_append] at hcons
      exact absurd (hcons ▸ List.mem_cons_self) hm
    | cons d z =>
      obtain ⟨rfl, rfl⟩ := List.cons.inj hcons
      exact ⟨z, rfl, rfl⟩

/-- Blanks belong to the text in front of them if what follows that text does not start with one. -/
theorem exists_back {s t r : List Char} (h : w ++ v = s ++ (t ++ r))
    (hle : utf8Length s ≤ utf8Length w) (ht : ∀ c ∈ t, isBlank c = true)
    (hv : ∀ c ∈ v.head?, isBlank c = false) : ∃ back, w = s ++ (t ++ back) ∧ back ++ v = r := by
  obtain ⟨z, rfl, hz⟩ := exists_between_of_append_eq h.symm hle
  rcases List.append_eq_append_iff.1 hz with ⟨back, rfl, rfl⟩ | ⟨z', rfl, hr⟩
  · exact ⟨back, rfl, rfl⟩
  · cases z' with
    | nil => exact ⟨[], by simp, by simpa using hr⟩
    | cons c z' =>
      have hc := hv c (by rw [hr]; rfl)
      rw [ht c (by simp)] at hc
      cases hc

/-- A file up to a text, the text and what follows it, without comments. -/
theorem clean_around (p₁ text p₂ : List Char) : clean (p₁ ++ (text ++ p₂)) =
    clean p₁ ++ ((Scan.after {} p₁).clean text ++
      ((Scan.after {} p₁).after text).clean p₂) := by
  rw [← Scan.clean_append]
  exact Scan.clean_append {} p₁ _

/-- The tokens of an annotation stand at the same place in the file and in the line: behind the sign
before the annotation, with a margin between them, and in no comment. -/
theorem Spells.exists_margin (h : Spells text start e) {p₁ p₂ : List Char}
    (hfocus : Focus e ⟨n, clean (p₁ ++ (text ++ p₂))⟩ u m w v)
    (hstart : n + utf8Length p₁ = start) :
    (Scan.after {} p₁).mode ≠ .comment ∧ ∃ front gap mid back, clean p₁ = u ++ m :: front ∧
      IsMargin front ∧ text = gap ++ (mid ++ back) ∧ (∀ c ∈ back, isBlank c = true) ∧
      utf8Length (front ++ (gap ++ mid)) ≤ utf8Length w := by
  obtain ⟨x, gap, mid, y, hw, hx, hsharp, hgap, hy, hfirst, hlast⟩ :=
    Segment.exists_ends hfocus.expr h.single
  obtain ⟨gap', mid', back', htext, hgap', hne, hback', hfirst', hlast'⟩ := h.exists_tokens
  obtain rfl : w = x ++ (gap ++ (mid ++ y)) := hw
  have hline := (clean_around p₁ text p₂).symm.trans hfocus.text
  generalize Scan.after {} p₁ = scan at hline ⊢
  have hclean : scan.clean text = scan.clean gap' ++ ((scan.after gap').clean mid' ++
      ((scan.after gap').after mid').clean back') := by
    rw [htext, Scan.clean_append, Scan.clean_append]
  have hmid : utf8Length mid' = utf8Length mid := by omega
  have hsplit : clean p₁ ++ scan.clean gap' ++ ((scan.after gap').clean mid' ++
      (((scan.after gap').after mid').clean back' ++ (scan.after text).clean p₂)) =
        u ++ m :: (x ++ gap) ++ (mid ++ (y ++ v)) := by
    rw [hclean] at hline
    simpa using hline
  -- Cleaning keeps the bytes of every part, so two cuts of the line at the same offsets agree.
  obtain ⟨hbefore, hrest⟩ := append_inj_of_utf8Length hsplit (by
    simp only [utf8Length_append, utf8Length_cons, utf8Length_nil, Scan.utf8Length_clean,
      utf8Length_clean] at hfirst ⊢
    omega)
  obtain ⟨hmid', -⟩ := append_inj_of_utf8Length hrest (by rw [Scan.utf8Length_clean, hmid])
  refine ⟨?_, ?_⟩
  · rcases List.eq_nil_or_concat' mid with rfl | ⟨f, c, rfl⟩
    · exact absurd hmid (Nat.ne_of_gt (utf8Length_pos hne))
    · have hc := hsharp.of_last (gap ++ f) (List.append_assoc _ _ _).symm
      have hmem : c ∈ scan.clean text := by
        rw [hclean, hmid']
        simp
      exact Scan.mode_ne_comment hmem hc fun hbreak => (h.plain _ hbreak).2.2.2 rfl
  · have hfresh : m ∉ scan.clean gap' := by
      intro hmem
      have hblank : isBlank m = true := (Scan.mem_clean hmem).elim (fun h => h ▸ rfl) (hgap' m)
      rcases hfocus.mark with rfl | rfl <;> cases hblank
    obtain ⟨front, hfront, hxgap⟩ := exists_front hbefore hfresh
    refine ⟨front, gap', mid', back', hfront, fun c hc => ?_, htext, hback', ?_⟩
    · have hmem : c ∈ x ++ gap := hxgap ▸ List.mem_append_left _ hc
      rcases List.mem_append.1 hmem with hc | hc
      · exact .inl (hx c hc)
      · exact hgap.isMargin c hc
    · have hlength := congrArg utf8Length hxgap
      simp only [utf8Length_append, Scan.utf8Length_clean] at hlength ⊢
      omega

/-- **The text of an annotation** is met in code, and stands between the sign before the annotation
and what follows it. -/
theorem Spells.exists_focus (h : Spells text start e) {p₁ p₂ : List Char}
    (hfocus : Focus e ⟨n, clean (p₁ ++ (text ++ p₂))⟩ u m w v)
    (hstart : n + utf8Length p₁ = start) :
    (Scan.after {} p₁).mode = .code ∧ ∃ front back, clean p₁ = u ++ m :: front ∧
      w = front ++ (text ++ back) ∧ back ++ v = (Scan.after {} p₁).clean p₂ := by
  obtain ⟨hcomment, front, gap, mid, back', hfront, hmargin, htext, hback', hle⟩ :=
    h.exists_margin hfocus hstart
  have hcode : (Scan.after {} p₁).mode = .code := by
    have hm : Codes [m] := by rcases hfocus.mark with rfl | rfl <;> exact rfl
    have hcodes : Codes (u ++ m :: front) :=
      hfocus.codes.append (hm.append hmargin.sealed.codes)
    rw [← Scan.settled_of_ne hcomment, Scan.settled_after]
    exact (congrArg (fun text => (Scan.after {} text).mode) hfront).trans hcodes
  refine ⟨hcode, front, ?_⟩
  have hline : clean p₁ ++ (text ++ (Scan.after {} p₁).clean p₂) = u ++ m :: (w ++ v) :=
    (clean_of_code hcode (h.sealed.mono (List.nil_subset _))).symm.trans hfocus.text
  rw [hfront, List.append_assoc, List.cons_append] at hline
  have hwv : w ++ v = front ++ (gap ++ mid) ++ (back' ++ (Scan.after {} p₁).clean p₂) := by
    rw [← (List.cons.inj (List.append_cancel_left hline)).2, htext]
    simp
  obtain ⟨back, hback, hrest⟩ := exists_back hwv hle hback' hfocus.behind
  exact ⟨back, hfront, by rw [hback, htext]; simp, hrest⟩

section

variable {a p₁ p₂ b : List Char} {K : Quotation → Segment → Prop}

/-- The text stands in the piece of the file that its line comes from. -/
theorem Spells.exists_piece (h : Spells text (utf8Length before) e)
    (hsource : before ++ (text ++ after) = a ++ (p ++ b))
    (ha : a = [] ∨ a.getLast? = some '\n') (hb : Breaks p b)
    (hrewrites : Rewrites e ⟨utf8Length a, clean p⟩ K) :
    ∃ p₁ p₂, before = a ++ p₁ ∧ p = p₁ ++ (text ++ p₂) ∧ after = p₂ ++ b := by
  obtain ⟨u, m, w, v, hfocus, -⟩ := hrewrites
  obtain ⟨hstart, -, hstop⟩ :=
    Expr.laid_singleton.1 (Segment.laid_expr hfocus.expr (Nat.le_refl _) (Nat.le_refl _))
  have hbounds := h.bounds
  have hlength := congrArg utf8Length hfocus.text
  simp only [Segment.span, utf8Length_append, utf8Length_cons, utf8Length_nil,
    utf8Length_clean] at hstart hstop hlength
  have hbreak : b = [] ∨ b.head? = some '\n' := by
    refine hb.imp_right ?_
    rintro ⟨_, rfl, -⟩
    rfl
  refine exists_within_piece hsource.symm (fun hmem => (h.plain _ hmem).2.2.2 rfl) ha
    hbreak ?_ ?_
  · rw [utf8Length_append]
    omega
  · rw [utf8Length_append]
    omega

/-- **With the text in quotes** the segment becomes what it should. -/
theorem Spells.edits (h : Spells text (utf8Length (a ++ p₁)) e)
    (hrewrites : Rewrites e ⟨utf8Length a, clean (p₁ ++ (text ++ p₂))⟩ K) :
    (Scan.after {} p₁).mode = .code ∧
      K ⟨utf8Length (a ++ p₁), text⟩ ⟨utf8Length a, clean (p₁ ++ (literal text ++ p₂))⟩ := by
  obtain ⟨u, m, w, v, hfocus, hK⟩ := hrewrites
  obtain ⟨hcode, front, back, hfront, rfl, hback⟩ :=
    h.exists_focus hfocus (utf8Length_append a p₁).symm
  refine ⟨hcode, ?_⟩
  have hclean : clean (p₁ ++ (literal text ++ p₂)) =
      u ++ m :: (front ++ (literal text ++ back) ++ v) := by
    rw [clean_of_code hcode (sealed_literal h.plain []), hfront, ← hback]
    simp
  rw [hclean]
  refine hK _ _ ⟨h.plain, front, text, back, rfl, rfl, ?_, h, .inl rfl⟩
  have hpos := congrArg utf8Length hfront
  simp only [utf8Length_clean, utf8Length_append, utf8Length_cons, utf8Length_nil] at hpos ⊢
  omega

end

/-! ## The lines

Lines are read from segments one by one, and those before and behind the text do not touch it.  The
one that holds it is followed by `Line.Bears`, which says what a reader finds in it when the
annotation is a string. -/

theorem Line.ofSegment?_eq_some {seg : Segment} {line : Line} :
    ofSegment? seg = some line ↔
      seg.trim.isEmpty = false ∧ line = ⟨seg.trim.start - seg.start, seg.trim⟩ := by
  rw [ofSegment?]
  cases seg.trim.isEmpty with
  | true => simp
  | false => simp [eq_comm]

theorem Line.ofFile_of_splitLines {source : List Char} {segs later : List Segment} {seg : Segment}
    {line : Line} (h : splitLines 0 (cleanRegions source) = segs ++ seg :: later)
    (hof : ofSegment? seg = some line) :
    ofFile source = segs.filterMap ofSegment? ++ line :: later.filterMap ofSegment? := by
  rw [ofFile, h, List.filterMap_append, List.filterMap_cons_some hof]

namespace Quotation

variable {q : Quotation} {seg : Segment} {segs : List Segment}

/-- The line that a segment is where it then stands. -/
theorem Clear.ofSegment? (h : q.Clear seg) :
    Line.ofSegment? (q.segment seg) = (Line.ofSegment? seg).map q.line := by
  have hmoved : q.pos seg.trim.start = q.pos seg.start + utf8Length (seg.text.takeWhile isBlank) :=
    congrArg Segment.start h.segment_trim
  have hindent : q.pos seg.trim.start - q.pos seg.start = seg.trim.start - seg.start := by
    rw [hmoved, Nat.add_sub_cancel_left]
    exact (Nat.add_sub_cancel_left _ _).symm
  simp only [Line.ofSegment?, ← h.segment_trim]
  by_cases hempty : seg.trim.isEmpty = true
  · rw [if_pos hempty]
    exact if_pos hempty
  · rw [if_neg hempty]
    refine (if_neg hempty).trans ?_
    exact congrArg (fun indent => some (Line.mk indent (q.segment seg.trim))) hindent

theorem filterMap_ofSegment? (h : ∀ seg ∈ segs, q.Clear seg) :
    (segs.map q.segment).filterMap Line.ofSegment? =
      (segs.filterMap Line.ofSegment?).map q.line := by
  rw [List.filterMap_map, List.map_filterMap]
  exact List.filterMap_congr fun seg hseg => (h seg hseg).ofSegment?

theorem clear_of_mem_filterMap (h : ∀ seg ∈ segs, q.Clear seg) :
    ∀ line ∈ segs.filterMap Line.ofSegment?, q.Clear line.text := by
  intro line hline
  obtain ⟨seg, hseg, hof⟩ := List.mem_filterMap.1 hline
  rw [(Line.ofSegment?_eq_some.1 hof).2]
  exact (h seg hseg).trim

/-- Lines in front of the piece stay where they are. -/
theorem map_segment_of_le (h : ∀ seg ∈ segs, seg.span.stop ≤ q.start) :
    segs.map q.segment = segs := by
  refine (List.map_congr_left fun seg hseg => ?_).trans (List.map_id segs)
  exact segment_of_le (Nat.le_trans seg.start_le_stop (h seg hseg))

/-- Lines behind the piece move on by the quotes. -/
theorem laterLines_add_two {stop : Nat} (hlt : q.start ≤ stop) (hle : q.stop ≤ stop)
    (rest : List Char) : laterLines (stop + 2) rest = (laterLines stop rest).map q.segment := by
  rw [laterLines_add]
  refine List.map_congr_left fun seg hseg => ?_
  have hstop := le_of_mem_laterLines hseg
  rw [segment, pos, if_neg (by omega), Nat.max_eq_left (by omega)]

/-- A line that the piece stands in is not clear of it. -/
theorem Edits.not_clear {seg' : Segment} (h : q.Edits e seg seg') : ¬ q.Clear seg := by
  have hstart := h.start_le
  have hstop := h.lt_stop
  rintro (hle | ⟨hlt, -⟩)
  · exact Nat.not_lt.2 hle hstop
  · exact Nat.not_lt.2 hstart hlt

end Quotation

/-- **The lines of the file** with the text of an annotation in quotes. -/
theorem Line.Bears.lines {line : Line} {chained : Bool} (hline : line.Bears e chained)
    (hmem : line ∈ ofFile (before ++ (text ++ after))) (h : Spells text (utf8Length before) e) :
    let q : Quotation := ⟨utf8Length before, text⟩
    ∃ pre post line', ofFile (before ++ (text ++ after)) = pre ++ line :: post ∧
      ofFile (before ++ (literal text ++ after)) = pre.map q.line ++ line' :: post.map q.line ∧
      q.Follows chained line line' ∧ (∀ other ∈ pre ++ post, q.Clear other.text) ∧
      ¬ q.Clear line.text := by
  obtain ⟨seg, hseg, hof⟩ := List.mem_filterMap.1 hmem
  obtain ⟨a, p, b, segs, hsource, rfl, ha, hp, hb, hsegs, hall⟩ := exists_cut hseg
  simp only [Nat.zero_add] at hof hsegs hall
  obtain ⟨hne, rfl⟩ := ofSegment?_eq_some.1 hof
  have hrewrites := Rewrites.untrim hline
  obtain ⟨p₁, p₂, rfl, rfl, rfl⟩ := h.exists_piece hsource ha hb hrewrites
  obtain ⟨hcode, hedits, hfollows⟩ := h.edits hrewrites
  intro q
  have htext : Sealed [] text := h.sealed.mono (List.nil_subset _)
  have hunbroken := Unbroken.replace hcode htext (sealed_literal h.plain ['\n']) hp
  have hold := hall _ hp rfl
  have hnew := hall _ hunbroken (after_of_code hcode htext (sealed_literal h.plain []))
  have hlength : 0 < utf8Length text := by
    have hbounds := h.bounds
    omega
  -- What stands before the line stays where it is, and what follows it moves on by the quotes.
  have hbefore : ∀ seg ∈ segs, seg.span.stop ≤ q.start := fun seg hseg => by
    refine Nat.le_trans (hsegs seg hseg) ?_
    show _ ≤ utf8Length (a ++ p₁)
    rw [utf8Length_append]
    exact Nat.le_add_right _ _
  have hbehind : ∀ seg ∈ laterLines (utf8Length a + utf8Length (p₁ ++ (text ++ p₂))) b,
      q.start < seg.start ∧ q.stop ≤ seg.start := fun seg hseg => by
    have hlt := le_of_mem_laterLines hseg
    simp only [Quotation.stop, utf8Length_append, q] at hlt ⊢
    omega
  have hmove : laterLines (utf8Length a + utf8Length (p₁ ++ (literal text ++ p₂))) b =
      (laterLines (utf8Length a + utf8Length (p₁ ++ (text ++ p₂))) b).map q.segment := by
    have hlonger : utf8Length a + utf8Length (p₁ ++ (literal text ++ p₂)) =
        utf8Length a + utf8Length (p₁ ++ (text ++ p₂)) + 2 := by
      simp only [utf8Length_append, utf8Length_literal]
      omega
    rw [hlonger]
    refine Quotation.laterLines_add_two ?_ ?_ b
    · simp only [utf8Length_append, q]
      omega
    · simp only [Quotation.stop, utf8Length_append, q]
      omega
  have hclear : ∀ seg ∈ segs, q.Clear seg := fun seg hseg => .inl (hbefore seg hseg)
  have hclear' : ∀ seg ∈ laterLines (utf8Length a + utf8Length (p₁ ++ (text ++ p₂))) b,
      q.Clear seg := fun seg hseg => .inr (hbehind seg hseg)
  rw [hmove, ← Quotation.map_segment_of_le hbefore] at hnew
  have hindent := congrArg (fun start => Line.mk (start - utf8Length a)
    (Segment.trim ⟨utf8Length a, clean (p₁ ++ (literal text ++ p₂))⟩)) hedits.start_eq
  have hof' := ofSegment?_eq_some.2 ⟨List.isEmpty_eq_false_iff.2 hedits.ne_nil, hindent.symm⟩
  refine ⟨_, _, _, hsource ▸ ofFile_of_splitLines hold hof, ?_, hfollows,
    List.forall_mem_append.2 ⟨Quotation.clear_of_mem_filterMap hclear,
      Quotation.clear_of_mem_filterMap hclear'⟩, hedits.not_clear⟩
  have hsource' : a ++ p₁ ++ (literal text ++ (p₂ ++ b)) =
      a ++ (p₁ ++ (literal text ++ p₂) ++ b) := by simp
  rw [hsource', ofFile_of_splitLines hnew hof', Quotation.filterMap_ofSegment? hclear,
    Quotation.filterMap_ofSegment? hclear']

/-! ## The file

The outline of a file is made of the indentation of its lines alone, and no line changes its
indentation.  So the outline with one line exchanged is the outline of the lines with this line
exchanged, and the reader of blocks can be run on both. -/

namespace Quotation

variable {q : Quotation} {line line' other : Line} {pre post : List Line}

/-- What becomes of the lines of a file if `line` becomes `line'`. -/
def relined (q : Quotation) (line line' other : Line) : Line :=
  if other = line then line' else q.line other

theorem relined_self : q.relined line line' line = line' := if_pos rfl

theorem relined_of_ne (h : other ≠ line) : q.relined line line' other = q.line other := if_neg h

theorem indent_relined (h : line'.indent = line.indent) (other : Line) :
    (q.relined line line' other).indent = other.indent := by
  by_cases hother : other = line
  · rw [hother, relined_self, h]
  · rw [relined_of_ne hother]
    rfl

theorem map_relined (h : line ∉ pre ++ post) :
    (pre ++ line :: post).map (q.relined line line') =
      pre.map q.line ++ line' :: post.map q.line := by
  have hmap {ls : List Line} (hls : line ∉ ls) : ls.map (q.relined line line') = ls.map q.line :=
    List.map_congr_left fun l hl => relined_of_ne fun heq => hls (heq ▸ hl)
  rw [List.map_append, List.map_cons, relined_self,
    hmap fun hmem => h (List.mem_append_left _ hmem),
    hmap fun hmem => h (List.mem_append_right _ hmem)]

/-- **A file with the text of an annotation in quotes** is read as what becomes of the tree. -/
theorem read_node {file : Node} (hread : Node.read (before ++ (text ++ after)) = .ok file)
    (h : Spells text (utf8Length before) e) (ha : Node.Annotated e file) :
    Node.read (before ++ (literal text ++ after)) =
      .ok (Quotation.node ⟨utf8Length before, text⟩ file) := by
  obtain ⟨clauses, hclauses, rfl⟩ := Node.read_eq_ok.1 hread
  obtain ⟨clause, hclause, hac⟩ : ∃ clause ∈ clauses, clause.Annotated e := by
    cases ha with
    | here h => cases h
    | deeper hchild h =>
      obtain ⟨s, hs, rfl⟩ := List.mem_map.1 hchild
      exact Clause.exists_annotated hs h
  obtain ⟨front, line, back, chained, hlines, hline, hevery⟩ :=
    Outline.exists_of_at (Outline.at_of_clauses hclauses hclause hac)
  rw [Outline.toLines_ofLines] at hlines
  have hmem : line ∈ Line.ofFile (before ++ (text ++ after)) :=
    hlines ▸ List.mem_append_right _ List.mem_cons_self
  obtain ⟨pre, post, line', hold, hnew, hfollows, hclear, hnot⟩ := hline.lines hmem h
  have hspan : Quotation.span ⟨utf8Length before, text⟩
      ⟨0, utf8Length (before ++ (text ++ after))⟩ =
        ⟨0, utf8Length (before ++ (literal text ++ after))⟩ := by
    have hbounds := h.bounds
    simp only [Quotation.span, Quotation.pos, Quotation.stop, utf8Length_append, utf8Length_literal]
    rw [if_pos (Nat.zero_le _), if_neg (by omega), Nat.max_eq_left (by omega)]
    congr 1
    omega
  -- The edited line stands once among the lines, so the edit is a map over all of them.
  generalize hq : Quotation.mk (utf8Length before) text = q at *
  have hfresh : line ∉ pre ++ post := fun hmem => hnot (hclear line hmem)
  obtain ⟨rfl, -, rfl⟩ := (List.append_cons_inj_of_notMem
    (fun hmem => hfresh (List.mem_append_left _ hmem))
    (fun hmem => hfresh (List.mem_append_right _ hmem))).1 (hlines.symm.trans hold).symm
  have hsource : Line.ofFile (before ++ (literal text ++ after)) =
      (Line.ofFile (before ++ (text ++ after))).map (q.relined line line') := by
    rw [hnew, hold, map_relined hfresh]
  have hfollowed : (Outline.ofLines (Line.ofFile (before ++ (text ++ after)))).Every
      (fun chained line₀ _ _ => q.Follows chained line₀ (q.relined line line' line₀)) false := by
    refine hevery (fun chained line₀ => q.Follows chained line₀ (q.relined line line' line₀))
      (relined_self.symm ▸ hfollows) fun other hmem chained => ?_
    have hne : other ≠ line := fun heq => hfresh (heq ▸ hmem)
    rw [relined_of_ne hne]
    exact (hclear other hmem).follows
  have hread := carries_clauses hfollowed (List.forall_mem_nil _) clauses hclauses
  rw [Node.read_eq_ok, hsource, Outline.ofLines_map (indent_relined hfollows.indent)]
  refine ⟨_, hread, ?_⟩
  rw [Quotation.node, Quotation.stmts_statements, hspan]

end Quotation

end TypeReveal
