import TypeReveal.Proofs.Quoting.Params
import TypeReveal.Proofs.Statement.Extent

/-!
# Annotations in a header

A header whose annotation is put in quotes is read as what becomes of it, and so is a header with an
annotation in the statement behind its colon.

Headers are taken apart in another order than they are written: the colon is looked for first, since
what follows it may be a whole statement, and the group of parameters before that.  So there are two
places that an annotation can stand in, and two lemmas for each header, one for what stands before
the colon and one for what follows it.

For a function the first place is again one of two, since parameters stand inside the group and the
result stands behind it.  In the edited header the closing parenthesis is found behind the edited
parameters, and the arrow behind an unchanged group.
-/

set_option autoImplicit false
namespace TypeReveal

variable {a : Expr} {seg line rest head inline : Segment} {K : Quotation → Segment → Prop}
  {chained : Bool}

/-! ## The colon of a header

The colon is the first outside of brackets and strings.  An annotation before it stands in brackets
or behind an arrow, and hides no colon in either form. -/

/-- **A header and what follows its colon.** -/
theorem splitHeader_eq_ok_text {what : Construct} :
    splitHeader seg what = .ok (head, inline) ↔ ∃ s r, seg.text = s ++ ':' :: r ∧
      seg.index? Segment.colon = some s.length ∧ head = Segment.trim ⟨seg.start, s⟩ ∧
      inline = Segment.trim ⟨seg.start + utf8Length (s ++ [':']), r⟩ := by
  rw [splitHeader_eq_ok]
  constructor
  · rintro ⟨n, hcolon, rfl, rfl⟩
    obtain ⟨s, r, htext, rfl⟩ := exists_append_of_getElem? (Segment.getElem?_of_colon hcolon)
    rw [Segment.take_of_text htext, Segment.drop_of_text_cons htext]
    exact ⟨s, r, htext, hcolon, rfl, rfl⟩
  · rintro ⟨s, r, htext, hcolon, rfl, rfl⟩
    rw [← Segment.take_of_text htext, ← Segment.drop_of_text_cons htext]
    exact ⟨s.length, hcolon, rfl, rfl⟩

/-- What stands before the colon of a header. -/
theorem Rewrites.head_of_splitHeader {what : Construct}
    (hsplit : splitHeader seg what = .ok (head, inline)) (h : Rewrites a head K) :
    Rewrites a seg fun q seg' => ∃ head', K q head' ∧ q.Clear inline ∧
      splitHeader seg' what = .ok (head', q.segment inline) := by
  obtain ⟨s, r, htext, hcolon, rfl, rfl⟩ := splitHeader_eq_ok_text.1 hsplit
  refine (h.untrim.append htext (by decide)).imp ?_
  rintro q seg' - ⟨s', ⟨-, hK⟩, hedits, rfl, hclear, hmoved⟩
  refine ⟨_, hK, hclear.trim, splitHeader_eq_ok_text.2 ⟨s', r, rfl, ?_, rfl, ?_⟩⟩
  · exact Segment.index?_of_swap Segment.colon_exact hedits.swap (by decide) hcolon htext rfl
  · rw [hclear.segment_trim, hmoved]

/-- What stands behind the colon of a header. -/
theorem Rewrites.inline_of_splitHeader {what : Construct}
    (hsplit : splitHeader seg what = .ok (head, inline)) (h : Rewrites a inline K) :
    Rewrites a seg fun q seg' => ∃ inline', K q inline' ∧ q.Edits a inline inline' ∧
      splitHeader seg' what = .ok (head, inline') ∧ head.span.stop ≤ q.start := by
  obtain ⟨s, r, htext, hcolon, rfl, rfl⟩ := splitHeader_eq_ok_text.1 hsplit
  have hcodes : Codes (s ++ [':']) := by
    have hafter := Segment.after_take_of_index? Segment.colon_isMark (by decide) hcolon
    rw [htext, List.take_left] at hafter
    exact (show Codes s from congrArg Scan.mode hafter).append rfl
  refine (h.untrim.prepend (by simp [htext]) hcodes).imp ?_
  rintro q seg' - ⟨r', ⟨hedits, hK⟩, -, rfl, hle⟩
  have htext' : s ++ [':'] ++ r' = s ++ ':' :: r' := by simp
  rw [htext']
  refine ⟨_, hK, hedits, splitHeader_eq_ok_text.2 ⟨s, r', rfl, ?_, rfl, rfl⟩, ?_⟩
  · exact Segment.index?_of_behind Segment.colon_exact hcolon htext rfl
  · have hstop := (Segment.trim_within ⟨seg.start, s⟩).2
    simp only [Segment.span, utf8Length_append] at hstop hle ⊢
    omega

/-! ## Functions

`readFunction_eq_ok_text` says in terms of texts what has happened when the header of a function was
read.  The rest of this section edits one of the texts and puts the header together again. -/

/-- **The annotation of a result.** -/
theorem rewrites_readResultType (h : readResultType line head = .ok (some a)) :
    Rewrites a head fun q head' => ∀ line', readResultType line' head' = .ok (some q.string) := by
  rcases readResultType_cases h with ⟨⟨w, htext⟩, e, hread, heq⟩ | ⟨-, heq⟩
  · cases heq
    have hdrop (w : List Char) (start : Nat) : Segment.drop ⟨start, ['-', '>'] ++ w⟩ 2 =
        ⟨start + utf8Length (['-'] ++ ['>']), w⟩ := rfl
    have hself : head = ⟨head.start, ['-', '>'] ++ w⟩ := by rw [htext]
    rw [hself, hdrop] at hread
    refine ⟨['-'], '>', w, [], ⟨by simp [← htext], .inr rfl, rfl, by simp, hread⟩,
      fun q w' hfits line' => ?_⟩
    have harrow' : ['-', '>'].isPrefixOf (['-'] ++ '>' :: w') = true := rfl
    rw [List.append_nil, readResultType, if_pos harrow']
    show some <$> Segment.expr ⟨head.start + utf8Length (['-'] ++ ['>']), w'⟩ = _
    rw [hfits.expr_string hread]
    rfl
  · cases heq

/-- What stands in a group, and what stands behind it. -/
theorem Segment.pieces_of_group (start : Nat) (s p t : List Char) (c d : Char) :
    Segment.slice ⟨start + utf8Length s, c :: (p ++ d :: t)⟩ 1 (p.length + 1) =
        ⟨start + utf8Length (s ++ [c]), p⟩ ∧
      Segment.drop ⟨start + utf8Length s, c :: (p ++ d :: t)⟩ (p.length + 1 + 1) =
        ⟨start + utf8Length (s ++ c :: (p ++ [d])), t⟩ := by
  have hslice := @Segment.slice_of_text ⟨start + utf8Length s, c :: (p ++ d :: t)⟩ [] t p c d rfl
  have hdrop := @Segment.drop_of_text_slice ⟨start + utf8Length s, c :: (p ++ d :: t)⟩ [] t p c d
    rfl
  rw [List.length_nil, Nat.zero_add, Nat.add_comm 1] at hslice hdrop
  rw [hslice, hdrop]
  simp only [List.nil_append, utf8Length_append, Nat.add_assoc, and_self]

/-- The group that is closed at `close`. -/
theorem Segment.exists_group {start close : Nat} {r : List Char}
    (h : Segment.closing? ⟨start, '(' :: r⟩ = some close) :
    ∃ p d t, r = p ++ d :: t ∧ close = p.length + 1 := by
  cases close with
  | zero => exact absurd h (Segment.closing?_ne_zero (by decide) rfl)
  | succ k =>
    obtain ⟨hk, -⟩ := List.findIdx?_eq_some_iff_getElem.1 h
    rw [length_regions, List.length_cons, Nat.add_lt_add_iff_right] at hk
    obtain ⟨p, t, hsplit, hlength⟩ := exists_append_of_getElem? (List.getElem?_eq_getElem hk)
    exact ⟨p, _, t, hsplit, by rw [hlength]⟩

/-- **The header of a function**: a name, a group, and what stands between the group and the
colon. -/
theorem readFunction_eq_ok_text {header : Header} : readFunction line rest = .ok (header, inline) ↔
    ∃ s p d t, rest.text = s ++ '(' :: (p ++ d :: t) ∧ '(' ∉ s ∧ isName (trim s) = true ∧
      Segment.closing? ⟨rest.start + utf8Length s, '(' :: (p ++ d :: t)⟩ = some (p.length + 1) ∧
      ∃ head params result?,
        readParams ⟨rest.start + utf8Length (s ++ ['(']), p⟩ = .ok params ∧
        splitHeader (Segment.trim ⟨rest.start + utf8Length (s ++ '(' :: (p ++ [d])), t⟩)
          .functionDefinition = .ok (head, inline) ∧
        readResultType line head = .ok result? ∧
        header = .function (String.ofList (trim s)) params result? := by
  rw [readFunction_eq_ok]
  constructor
  · rintro ⟨n, close, hopen, hname, hclose, head, params, result?, hsplit, hresult, hparams, rfl⟩
    obtain ⟨s, r, htext, rfl⟩ := exists_append_of_getElem? (getElem?_of_findIdx? hopen)
    have hfresh : '(' ∉ s := by
      rw [htext] at hopen
      exact fun hmem => by simpa using forall_of_findIdx? hopen '(' hmem
    rw [Segment.drop_of_text htext] at hclose hsplit hparams
    rw [htext, List.take_left] at hname ⊢
    obtain ⟨p, d, t, rfl, rfl⟩ := Segment.exists_group hclose
    obtain ⟨hslice, hdrop⟩ := Segment.pieces_of_group rest.start s p t '(' d
    rw [hdrop] at hsplit
    rw [hslice] at hparams
    exact ⟨s, p, d, t, rfl, hfresh, hname, hclose, head, params, result?, hparams, hsplit,
      hresult, rfl⟩
  · rintro ⟨s, p, d, t, htext, hfresh, hname, hclose, head, params, result?, hparams, hsplit,
      hresult, rfl⟩
    obtain ⟨hslice, hdrop⟩ := Segment.pieces_of_group rest.start s p t '(' d
    refine ⟨s.length, p.length + 1, ?_, ?_, ?_, head, params, result?, ?_, hresult, ?_, ?_⟩
    · rw [htext, findIdx?_append_cons hfresh]
    · rwa [htext, List.take_left]
    · rwa [Segment.drop_of_text htext]
    · rwa [Segment.drop_of_text htext, hdrop]
    · rwa [Segment.drop_of_text htext, hslice]
    · rw [htext, List.take_left]

/-- The group ends before what stands behind it. -/
theorem group_stop_le {start n : Nat} {s p : List Char} {c d : Char}
    (h : start + utf8Length (s ++ c :: (p ++ [d])) ≤ n) :
    (Segment.mk (start + utf8Length (s ++ [c])) p).span.stop ≤ n := by
  simp only [Segment.span, utf8Length_append, utf8Length_cons, utf8Length_nil] at h ⊢
  omega

/-- Nothing in the name of a function hides anything. -/
theorem codes_of_isName_trim {s : List Char} (h : isName (trim s) = true) : Codes s := by
  obtain ⟨x, y, hsplit, hx, hy⟩ := exists_trim s
  rw [hsplit]
  refine (isMargin_of_isBlank hx).sealed.codes.append
    (.append ?_ (isMargin_of_isBlank hy).sealed.codes)
  exact codes_of_isPlain fun c hc =>
    isPlain_of_not_mem (not_mem_punctuation_of_isNamePart ((isNamePart_of_isName h).2 c hc))

section

variable {name : String} {params : List Param} {result? : Option Expr}

/-- **The annotation of a parameter or a result** in the header of a function. -/
theorem rewrites_readFunction
    (h : readFunction line rest = .ok (.function name params result?, inline))
    (ha : (∃ p ∈ params, p.annotation? = some a) ∨ result? = some a) :
    Rewrites a rest fun q rest' => q.Clear inline ∧ ∀ line', readFunction line' rest' =
      .ok (q.header (.function name params result?), q.segment inline) := by
  obtain ⟨s, p, d, t, htext, hfresh, hname, hclose, head, params', result?', hparams, hsplit,
    hresult, hheader⟩ := readFunction_eq_ok_text.1 h
  cases hheader
  have hs := codes_of_isName_trim hname
  have htail (p : List Char) : rest.start + utf8Length (s ++ ['(']) + utf8Length (p ++ [d]) =
      rest.start + utf8Length (s ++ '(' :: (p ++ [d])) := by
    simp only [utf8Length_append, utf8Length_cons, utf8Length_nil]
    omega
  obtain ⟨hclosing, hgroup⟩ := Segment.closing_of_closing? (s := '(' :: p) hclose rfl
  -- Quoted within the group, the edit moves what is behind it; quoted behind it, the group stays.
  rcases ha with ⟨param, hparam, ha⟩ | rfl
  · have hd : isBlank d = false := by
      simp only [isClosing, Bool.or_eq_true, beq_iff_eq] at hclosing
      rcases hclosing with (rfl | rfl) | rfl <;> decide
    have hinside : (Segment.mk (rest.start + utf8Length (s ++ ['('])) (p ++ d :: t)).text =
      p ++ d :: t := rfl
    refine (((rewrites_readParams hparams hparam ha).append hinside hd).prepend
      (by simp [htext]) (hs.append rfl)).imp ?_
    rintro q rest' - ⟨r', ⟨p', hparams', hedits, hr', hclear, hmoved⟩, -, rfl, -⟩
    cases hr'
    simp only [htail] at hclear hmoved
    obtain ⟨hhead, hinline⟩ := hclear.trim.of_splitHeader hsplit
    refine ⟨hinline, fun line' => readFunction_eq_ok_text.2 ⟨s, p', d, t, by simp, hfresh, hname,
      Segment.closing?_of_swap hedits.swap (by decide) hclose rfl rfl, q.segment head, _, _,
      hparams', ?_, hhead.readResultType line line' _ hresult, rfl⟩⟩
    rw [← hmoved, ← hclear.segment_trim]
    exact hclear.trim.splitHeader _ _ hsplit
  · refine (((rewrites_readResultType hresult).head_of_splitHeader hsplit).untrim.prepend
      (s := s ++ '(' :: (p ++ [d])) (by simp [htext]) (hs.append hgroup)).imp ?_
    rintro q rest' hedits ⟨t', ⟨-, head', hresult', hinline, hsplit'⟩, -, rfl, hle⟩
    have hparams' := Quotation.Clear.readParams (.inl (group_stop_le hle)) _ hparams
    rw [Quotation.segment_of_le (Nat.le_trans (Segment.start_le_stop _) (group_stop_le hle))]
      at hparams'
    refine ⟨hinline, fun line' => readFunction_eq_ok_text.2 ⟨s, p, d, t', by simp, hfresh, hname,
      Segment.closing?_of_behind (s := '(' :: p) hclose rfl rfl, head', _, _, hparams', hsplit',
      hresult' line', ?_⟩⟩
    rw [Quotation.header, Option.map_some, hedits.expr_eq]

/-- **What follows the colon** of a function. -/
theorem Rewrites.inline_of_readFunction {header : Header}
    (h : readFunction line rest = .ok (header, inline)) (hK : Rewrites a inline K) :
    Rewrites a rest fun q rest' => ∃ inline', K q inline' ∧ q.Edits a inline inline' ∧
      ∀ line', readFunction line' rest' = .ok (q.header header, inline') := by
  obtain ⟨s, p, d, t, htext, hfresh, hname, hclose, head, params, result?, hparams, hsplit,
    hresult, rfl⟩ := readFunction_eq_ok_text.1 h
  have hs := codes_of_isName_trim hname
  obtain ⟨-, hgroup⟩ := Segment.closing_of_closing? (s := '(' :: p) hclose rfl
  refine ((hK.inline_of_splitHeader hsplit).untrim.prepend
    (s := s ++ '(' :: (p ++ [d])) (by simp [htext]) (hs.append hgroup)).imp ?_
  rintro q rest' - ⟨t', ⟨-, inline', hK', hedits, hsplit', hhead⟩, -, rfl, hle⟩
  refine ⟨inline', hK', hedits, fun line' => ?_⟩
  have hparams' := Quotation.Clear.readParams (.inl (group_stop_le hle)) _ hparams
  have hresult' := Quotation.Clear.readResultType (.inl hhead) line line' _ hresult
  rw [Quotation.segment_of_le (Nat.le_trans (Segment.start_le_stop _) (group_stop_le hle))]
    at hparams'
  rw [Quotation.segment_of_le (Nat.le_trans (Segment.start_le_stop _) hhead)] at hresult'
  exact readFunction_eq_ok_text.2 ⟨s, p, d, t', by simp, hfresh, hname,
    Segment.closing?_of_behind (s := '(' :: p) hclose rfl rfl, head, _, _, hparams', hsplit',
    hresult', rfl⟩

end

/-! ## Other headers

Classes and conditions have no annotations before their colon, so only what follows it can
change. -/

/-- **What follows the colon** of a class. -/
theorem Rewrites.inline_of_readClass {header : Header}
    (h : readClass line rest = .ok (header, inline)) (hK : Rewrites a inline K) :
    Rewrites a rest fun q rest' => ∃ inline', K q inline' ∧ q.Edits a inline inline' ∧
      ∀ line', readClass line' rest' = .ok (q.header header, inline') := by
  obtain ⟨head, name, bases, hsplit, rfl, hname, hbases⟩ := readClass_eq_ok.1 h
  refine (hK.inline_of_splitHeader hsplit).imp ?_
  rintro q rest' - ⟨inline', hK', hedits, hsplit', hhead⟩
  refine ⟨inline', hK', hedits, fun line' => ?_⟩
  have hself : q.segment head = head :=
    Quotation.segment_of_le (Nat.le_trans (Segment.start_le_stop _) hhead)
  refine readClass_eq_ok.2 ⟨head, name, bases.map q.expr, hsplit', rfl, hname, ?_⟩
  refine hbases.imp (fun ⟨hnone, hhead, hbases⟩ => ⟨hnone, hhead, by rw [hbases]; rfl⟩) ?_
  rintro ⟨n, hopen, hname, hbases⟩
  have hbases' := Quotation.Clear.readBases (.inl hhead) line line' n bases hbases
  rw [hself] at hbases'
  exact ⟨n, hopen, hname, hbases'⟩

/-- **What follows the colon** of a condition. -/
theorem Rewrites.inline_of_readCondition {cond : Expr}
    (h : readCondition rest = .ok (cond, inline)) (hK : Rewrites a inline K) :
    Rewrites a rest fun q rest' => ∃ inline', K q inline' ∧ q.Edits a inline inline' ∧
      readCondition rest' = .ok (q.expr cond, inline') := by
  obtain ⟨head, hsplit, hcond⟩ := readCondition_eq_ok.1 h
  refine (hK.inline_of_splitHeader hsplit).imp ?_
  rintro q rest' - ⟨inline', hK', hedits, hsplit', hhead⟩
  have hcond' := Quotation.Clear.expr (.inl hhead) cond hcond
  rw [Quotation.segment_of_le (Nat.le_trans (Segment.start_le_stop _) hhead)] at hcond'
  exact ⟨inline', hK', hedits, readCondition_eq_ok.2 ⟨head, hsplit', hcond'⟩⟩

/-! ## Headers

Which of the readers is chosen depends on the first word of the line, and on whether an `elif` may
stand there.  Neither depends on the annotation. -/

/-- What is read behind `if`. -/
theorem readHeader?_if (h : line.afterKeyword? "if" = some rest) :
    readHeader? chained line = some (do
      let (cond, inline) ← readCondition rest
      return (.conditional cond, inline)) := by
  rw [readHeader?]
  simp only [h,
    Segment.afterKeyword?_eq_none_of_ne (by decide) (by decide : "def" ∈ keywords) h (by decide),
    Segment.afterKeyword?_eq_none_of_ne (by decide) (by decide : "class" ∈ keywords) h (by decide)]

/-- What is read behind `elif`. -/
theorem readHeader?_elif (h : line.afterKeyword? "elif" = some rest) :
    readHeader? true line = some (do
      let (cond, inline) ← readCondition rest
      return (.alternative cond, inline)) := by
  rw [readHeader?]
  simp only [h, if_true,
    Segment.afterKeyword?_eq_none_of_ne (by decide) (by decide : "def" ∈ keywords) h (by decide),
    Segment.afterKeyword?_eq_none_of_ne (by decide) (by decide : "class" ∈ keywords) h (by decide),
    Segment.afterKeyword?_eq_none_of_ne (by decide) (by decide : "if" ∈ keywords) h (by decide)]

/-- **What follows a keyword.** -/
theorem Rewrites.afterKeyword? {keyword : String} (hk : keyword ∈ keywords)
    (hrest : line.afterKeyword? keyword = some rest) (h : Rewrites a rest K) :
    Rewrites a line fun q line' => ∃ rest', line'.afterKeyword? keyword = some rest' ∧
      K q rest' := by
  have hparts := isNamePart_of_mem_keyword hk
  have hword := Segment.firstWord_of_afterKeyword? hk hrest
  have htext : line.text = keyword.toList ++ line.text.dropWhile isNamePart := by
    rw [← hword]
    exact List.takeWhile_append_dropWhile.symm
  have hdrop {seg : Segment} {r : List Char} (htext : seg.text = keyword.toList ++ r) :
      seg.drop keyword.length = ⟨seg.start + utf8Length keyword.toList, r⟩ := by
    rw [← String.length_toList]
    exact Segment.drop_of_text htext
  rw [Segment.afterKeyword?_eq _ hparts, if_pos hword, hdrop htext] at hrest
  cases hrest
  have hcodes : Codes keyword.toList := codes_of_isPlain fun c hc =>
    isPlain_of_not_mem (not_mem_punctuation_of_isNamePart (hparts c hc))
  refine (h.untrim.prepend htext hcodes).imp ?_
  rintro q line' hedits ⟨r', ⟨-, hK⟩, -, rfl, -⟩
  refine ⟨_, ?_, hK⟩
  rw [Segment.afterKeyword?_eq _ hparts, hedits.firstWord_eq, if_pos hword, hdrop rfl]

/-- **The annotation of a parameter or a result** in a header. -/
theorem rewrites_readHeader? {name : String} {params : List Param} {result? : Option Expr}
    (h : readHeader? chained line = some (.ok (.function name params result?, inline)))
    (ha : (∃ p ∈ params, p.annotation? = some a) ∨ result? = some a) :
    Rewrites a line fun q line' => q.Clear inline ∧ readHeader? chained line' =
      some (.ok (q.header (.function name params result?), q.segment inline)) := by
  obtain ⟨rest, hrest, hread⟩ := exists_readFunction_of_readHeader? h
  refine ((rewrites_readFunction hread ha).afterKeyword? (by decide) hrest).imp ?_
  rintro q line' - ⟨rest', hrest', hinline, hread'⟩
  exact ⟨hinline, by rw [readHeader?_def hrest', hread']⟩

/-- **What follows the colon** of a header. -/
theorem Rewrites.inline_of_readHeader? {header : Header}
    (h : readHeader? chained line = some (.ok (header, inline))) (hK : Rewrites a inline K) :
    Rewrites a line fun q line' => ∃ inline', K q inline' ∧ q.Edits a inline inline' ∧
      readHeader? chained line' = some (.ok (q.header header, inline')) := by
  rcases readHeader?_cases h with ⟨rest, hrest, hread⟩ | ⟨rest, hrest, hread⟩ |
    ⟨rest, cond, hrest, hread, rfl⟩ | ⟨rfl, rest, cond, hrest, hread, rfl⟩ |
    ⟨rfl, rest, head, hrest, hsplit, rfl⟩
  · refine ((hK.inline_of_readFunction hread).afterKeyword? (by decide) hrest).imp ?_
    rintro q line' - ⟨rest', hrest', inline', hK', hedits, hread'⟩
    exact ⟨inline', hK', hedits, by rw [readHeader?_def hrest', hread']⟩
  · refine ((hK.inline_of_readClass hread).afterKeyword? (by decide) hrest).imp ?_
    rintro q line' - ⟨rest', hrest', inline', hK', hedits, hread'⟩
    exact ⟨inline', hK', hedits, by rw [readHeader?_class hrest', hread']⟩
  · refine ((hK.inline_of_readCondition hread).afterKeyword? (by decide) hrest).imp ?_
    rintro q line' - ⟨rest', hrest', inline', hK', hedits, hread'⟩
    refine ⟨inline', hK', hedits, ?_⟩
    rw [readHeader?_if hrest', hread']
    rfl
  · refine ((hK.inline_of_readCondition hread).afterKeyword? (by decide) hrest).imp ?_
    rintro q line' - ⟨rest', hrest', inline', hK', hedits, hread'⟩
    refine ⟨inline', hK', hedits, ?_⟩
    rw [readHeader?_elif hrest', hread']
    rfl
  · refine ((hK.inline_of_splitHeader hsplit).afterKeyword? (by decide) hrest).imp ?_
    rintro q line' - ⟨rest', hrest', inline', hK', hedits, hsplit', -⟩
    refine ⟨inline', hK', hedits, ?_⟩
    rw [readHeader?_else hrest', hsplit']
    rfl

end TypeReveal
