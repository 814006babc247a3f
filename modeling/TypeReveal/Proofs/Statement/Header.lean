import TypeReveal.Proofs.Statement.Readers
import TypeReveal.Proofs.Statement.Simple

/-!
# Reading headers

The first line of a statement with a block is read as its header, with nothing after the colon:
`readHeader?_function`, `readHeader?_classDef`, `readHeader?_conditional`, `readHeader?_otherwise`.

The colon of a header is found after brackets that are sealed, and its parameters and base classes
are parts of a list: `text_parts_of_listed` gives their texts, and `mapM_of_map_text` carries what
is read of each over to all of them.
-/

set_option autoImplicit false
namespace TypeReveal

/-! ## Headers and colons

The text of a header up to its colon is sealed against colons, so that the first colon is the one at
the end. -/

/-- **The colon at the end of a header** is the first. -/
theorem splitHeader_of_text {seg : Segment} {u : List Char} (hsealed : Sealed [':'] u)
    (htext : seg.text = u ++ [':']) (what : Construct) :
    ∃ head inline, splitHeader seg what = .ok (head, inline) ∧ head.text = trim u ∧
      inline.isEmpty = true := by
  have hindex := Segment.index?_of_sealed Segment.colon_isMark (by decide) (by decide) hsealed
    htext rfl
  refine ⟨_, _, by rw [splitHeader, hindex], ?_, ?_⟩
  · rw [Segment.trim_text, Segment.text_take htext]
  · rw [Segment.isEmpty, Segment.trim_text, Segment.text_drop_succ htext]
    rfl

/-- A character that is found behind a text without it is found first there. -/
theorem findIdx?_append_cons {c : Char} {u : List Char} (h : c ∉ u) (v : List Char) :
    (u ++ c :: v).findIdx? (· == c) = some u.length := by
  have hnone : u.findIdx? (· == c) = none := by
    rw [List.findIdx?_eq_none_iff]
    intro d hd
    rw [beq_eq_false_iff_ne]
    rintro rfl
    exact h hd
  rw [List.findIdx?_append, hnone, List.findIdx?_cons, beq_self_eq_true]
  simp

/-- What is read of each of some segments is read of all of them. -/
theorem mapM_of_map_text {α β γ : Type} {f : Segment → Except ParseError β} {g : α → List Char}
    {p : β → γ} {q : α → γ} {as : List α} {segs : List Segment}
    (h : ∀ a ∈ as, ∀ seg : Segment, seg.text = g a → ∃ b, f seg = .ok b ∧ p b = q a)
    (hsegs : segs.map Segment.text = as.map g) :
    ∃ bs, segs.mapM f = .ok bs ∧ bs.map p = as.map q := by
  induction as generalizing segs with
  | nil =>
    rw [List.map_nil, List.map_eq_nil_iff] at hsegs
    exact ⟨[], by rw [hsegs]; rfl, rfl⟩
  | cons a as ih =>
    obtain ⟨seg, segs, rfl, hseg, hsegs⟩ := List.map_eq_cons_iff.1 hsegs
    obtain ⟨b, hb, hbq⟩ := h a List.mem_cons_self seg hseg
    obtain ⟨bs, hbs, hbsq⟩ := ih (fun a ha => h a (List.mem_cons_of_mem _ ha)) hsegs
    refine ⟨b :: bs, ?_, by rw [List.map_cons, List.map_cons, hbq, hbsq]⟩
    rw [List.mapM_cons, hb]
    simp only [bind, Except.bind, hbs]
    rfl

/-! ## Parameters

A written parameter is a name with a type and a default, and is sealed against commas. -/

variable {seps : List Char}

/-- A written parameter is read as the parameter. -/
theorem readParam?_written {p : Param} (h : p.fits = true) {seg : Segment}
    (htext : seg.text = p.written) :
    ∃ p', readParam? seg = .ok p' ∧ p'.map Param.bare = some p.bare := by
  rw [Param.fits, Bool.and_eq_true, Bool.and_eq_true] at h
  obtain ⟨⟨hname, ha⟩, hd⟩ := h
  obtain ⟨c, cs, hcs⟩ := List.exists_cons_of_ne_nil (isNamePart_of_isName hname).1
  have hstart : ∀ d ∈ ['*', '/'], c ≠ d := by
    intro d hd hcd
    have hpart := (isNamePart_of_isName hname).2 c (hcs ▸ List.mem_cons_self)
    rw [hcd, (by decide : ∀ d ∈ ['*', '/'], isNamePart d = false) d hd] at hpart
    cases hpart
  have hhead : ∃ rest, seg.text = c :: rest := by
    rw [htext, Param.written, declaration, hcs]
    exact ⟨_, rfl⟩
  obtain ⟨rest, hrest⟩ := hhead
  have hstars : seg.text.takeWhile (· == '*') = [] := by
    rw [hrest, List.takeWhile_cons_of_neg (by simpa using hstart '*' (by decide))]
  have htext' : (seg.drop 0).text = declaration p.name p.annotation? p.default? := htext
  have horder : ∀ c ∈ (seg.drop 0).index? Segment.colon,
      ∀ a ∈ (seg.drop 0).index? Segment.equals, c < a := by
    rw [index?_colon_declaration hname ha hd htext', index?_equals_declaration hname ha hd htext']
    intro c hc a ha
    obtain ⟨-, -, rfl⟩ := Option.map_eq_some_iff.1 hc
    obtain ⟨-, -, rfl⟩ := Option.map_eq_some_iff.1 ha
    simp [declared]
  obtain ⟨a', d', hread, ha', hd'⟩ := readBinding_declaration hname ha hd htext'
  have hparam : readNamedParam (seg.drop 0) =
      .ok ⟨(seg.drop 0).span, String.ofList p.name.toList, a', d'⟩ := by
    rw [readNamedParam_eq (trim_take_declaration hname ha hd htext') hname horder, hread]
    rfl
  have hstar : ¬ (seg.text = ['*'] || seg.text = ['/']) = true := by
    simp only [hrest, Bool.or_eq_true, decide_eq_true_eq, List.cons.injEq, not_or, not_and]
    exact ⟨fun h => absurd h (hstart '*' (by decide)), fun h => absurd h (hstart '/' (by decide))⟩
  refine ⟨some ⟨(seg.drop 0).span, String.ofList p.name.toList, a', d'⟩, ?_, ?_⟩
  · rw [readParam?, if_neg hstar, hstars, List.length_nil, hparam]
    rfl
  · simp [Param.bare, ha', hd']

/-- The commas of a parameter stand in its brackets and strings. -/
theorem sealed_param {p : Param} (h : p.fits = true) (hseps : seps ⊆ [',']) :
    Sealed seps p.written := by
  rw [Param.fits, Bool.and_eq_true, Bool.and_eq_true] at h
  refine sealed_declaration h.1.1 (List.Subset.trans hseps (by decide)) ?_ ?_ h.1.2 h.2
  · exact fun _ hmem => absurd (hseps hmem) (by decide)
  · exact fun _ hmem => absurd (hseps hmem) (by decide)

theorem sharp_param {p : Param} (h : p.fits = true) : Sharp p.written := by
  rw [Param.fits, Bool.and_eq_true, Bool.and_eq_true] at h
  exact sharp_declaration h.1.1 h.1.2 h.2

/-- **A written parameter list** is read as the parameters. -/
theorem readParams_listed {params : List Param} (h : ∀ p ∈ params, p.fits = true) {seg : Segment}
    (htext : seg.text = listed (params.map Param.written)) :
    ∃ params', readParams seg = .ok params' ∧ params'.map Param.bare = params.map Param.bare := by
  have hitems : ∀ text ∈ params.map Param.written, Sealed [','] text ∧ Sharp text := by
    intro text htext
    obtain ⟨p, hp, rfl⟩ := List.mem_map.1 htext
    exact ⟨sealed_param (h p hp) (List.Subset.refl _), sharp_param (h p hp)⟩
  have hparts := Segment.text_parts_of_listed [] (by simp) hitems htext
  obtain ⟨params', hread, hbare⟩ := mapM_of_map_text (f := readParam?)
    (p := Option.map Param.bare) (q := fun p => some p.bare)
    (fun p hp seg htext => readParam?_written (h p hp) htext) hparts
  refine ⟨params'.filterMap id, by rw [readParams, hread]; rfl, ?_⟩
  calc (params'.filterMap id).map Param.bare
    _ = (params'.map (Option.map Param.bare)).filterMap id := by
      rw [List.map_filterMap, List.filterMap_map]
      rfl
    _ = (params.map fun p => some p.bare).filterMap id := by rw [hbare]
    _ = params.map Param.bare := by
      rw [List.filterMap_map]
      exact congrFun (List.filterMap_eq_map (f := Param.bare)) params

/-! ## Functions

The name, the group, and the end of the line with the result.  The group is found by its
parenthesis, and the end by what follows it. -/

/-- The end of a function's first line, without blank characters before it. -/
theorem trim_resultMark {result? : Option Expr} (h : result?.all (Expr.fits .whole) = true) :
    ∃ u, trim (resultMark result?) = u ++ [':'] ∧ Sealed [':'] u ∧ trim u = u ∧
      ∀ line head : Segment, head.text = u → ∃ result', readResultType line head = .ok result' ∧
        result'.map Expr.bare = result?.map Expr.bare := by
  cases result? with
  | none =>
    refine ⟨[], by decide, .nil, rfl, fun line head htext => ⟨none, ?_, rfl⟩⟩
    rw [readResultType, htext, Segment.isEmpty, htext]
    rfl
  | some e =>
    have hsharp : Sharp (['-', '>'] ++ e.spaced) := by
      have := (Sharp.of_forall (s := ['-', '>']) (by decide) (by decide)).join [' ']
        (Expr.sharp_written h)
      rwa [e.spaced_eq]
    have hsealed : Sealed [':'] (['-', '>'] ++ e.spaced) :=
      (Sealed.of_forall (by decide)).append ((e.sealed_spaced h).mono (by decide))
    refine ⟨['-', '>'] ++ e.spaced, ?_, hsealed, trim_eq_self hsharp, fun line head htext => ?_⟩
    · have hcolon := hsharp.append (.singleton (c := ':') (by decide))
      simpa [resultMark, marked] using trim_space_cons hcolon
    · have hdrop : (head.drop 2).text = e.spaced := Segment.text_drop (u := ['-', '>']) htext
      obtain ⟨e', hread, hbare⟩ := Segment.expr_of_trim h
        (by rw [hdrop, trim_spaced h])
      have hprefix : ['-', '>'].isPrefixOf head.text = true := by
        rw [htext]
        rfl
      refine ⟨some e', ?_, by simp [hbare]⟩
      rw [readResultType, if_pos hprefix, hread]
      rfl

/-- **What is written after `def`** is read as the header of the function. -/
theorem readFunction_of_text {name : String} {params : List Param} {result? : Option Expr}
    (hname : isName name.toList = true) (hparams : ∀ p ∈ params, p.fits = true)
    (hresult : result?.all (Expr.fits .whole) = true) (line : Segment) {rest : Segment}
    (htext : rest.text =
      name.toList ++ (grouped (params.map Param.written) ++ resultMark result?)) :
    ∃ params' result' inline,
      readFunction line rest = .ok (.function name params' result', inline) ∧
      inline.isEmpty = true ∧ params'.map Param.bare = params.map Param.bare ∧
      result'.map Expr.bare = result?.map Expr.bare := by
  have hsealed : Sealed [] (listed (params.map Param.written)) := by
    refine sealed_listed (by simp) (by simp) fun text htext => ?_
    obtain ⟨p, hp, rfl⟩ := List.mem_map.1 htext
    exact sealed_param (hparams p hp) (by simp)
  have hopen : rest.text = name.toList ++
      '(' :: (listed (params.map Param.written) ++ ')' :: resultMark result?) := by
    rw [htext, grouped]
    simp
  have hindex : rest.text.findIdx? (· == '(') = some name.toList.length := by
    rw [hopen]
    exact findIdx?_append_cons (not_mem_of_isName hname (by decide)) _
  have hname' : trim (rest.text.take name.toList.length) = name.toList := by
    rw [hopen, List.take_left, trim_eq_self (.of_isName hname)]
  have hgroup := Segment.text_drop hopen
  -- The parameters are sealed, so the parenthesis that closes them is the one printed there.
  have hclosing := Segment.closing?_of_sealed rfl rfl hsealed hgroup
  have hinside : ((rest.drop name.toList.length).slice 1
      ((listed (params.map Param.written)).length + 1)).text =
        listed (params.map Param.written) := by
    simpa using Segment.text_slice (u := []) hgroup
  have hafter : ((rest.drop name.toList.length).drop
      ((listed (params.map Param.written)).length + 1 + 1)).text = resultMark result? :=
    Segment.text_drop_succ (u := '(' :: listed (params.map Param.written)) hgroup
  obtain ⟨u, htrim, hu, hself, hread⟩ := trim_resultMark hresult
  obtain ⟨head, inline, hsplit, hhead, hempty⟩ := splitHeader_of_text hu
    (by rw [Segment.trim_text, hafter, htrim]) .functionDefinition
  obtain ⟨result', hresult', hbare⟩ := hread line head (hhead.trans hself)
  obtain ⟨params', hparams', hbare'⟩ := readParams_listed hparams hinside
  refine ⟨params', result', inline, ?_, hempty, hbare', hbare⟩
  rw [readFunction, hindex]
  simp only [hname', hname, hclosing, hsplit, bind, Except.bind, hresult', hparams',
    String.ofList_toList]
  rfl

/-! ## Classes

A class without bases has no parentheses. -/

theorem lastIndexOf?_append_singleton (u : List Char) (c : Char) :
    lastIndexOf? c (u ++ [c]) = some u.length := by
  simp [lastIndexOf?, List.findIdx?_cons]

/-- **What is written after `class`** is read as the header of the class. -/
theorem readClass_of_text {name : String} {bases : List Expr} (hname : isName name.toList = true)
    (hbases : ∀ e ∈ bases, e.fits .bar = true) (line : Segment) {rest : Segment}
    (htext : rest.text = name.toList ++ (grouped (bases.map Expr.written) ++ [':'])) :
    ∃ bases' inline, readClass line rest = .ok (.classDef name bases', inline) ∧
      inline.isEmpty = true ∧ bases'.map Expr.bare = bases.map Expr.bare := by
  have hitems : ∀ text ∈ bases.map Expr.written, Sealed [','] text ∧ Sharp text := by
    intro text htext
    obtain ⟨e, he, rfl⟩ := List.mem_map.1 htext
    exact ⟨(Expr.sealed_written (hbases e he)).mono (by decide), Expr.sharp_written (hbases e he)⟩
  have hgrouped : Sealed [':'] (grouped (bases.map Expr.written)) :=
    sealed_grouped fun text htext => (hitems text htext).1.mono (by simp)
  have hsharp : Sharp (name.toList ++ grouped (bases.map Expr.written)) :=
    (Sharp.of_isName hname).join ('(' :: listed (bases.map Expr.written))
      (.singleton (c := ')') (by decide))
  obtain ⟨head, inline, hsplit, hhead, hempty⟩ := splitHeader_of_text
    ((sealed_name hname (by decide)).append hgrouped) (by rw [htext, List.append_assoc])
    .classDefinition
  rw [trim_eq_self hsharp] at hhead
  have hopen : head.text.findIdx? (· == '(') = some name.toList.length := by
    rw [hhead]
    exact findIdx?_append_cons (not_mem_of_isName hname (by decide)) _
  have hclose : lastIndexOf? ')' head.text =
      some (name.toList.length + ((listed (bases.map Expr.written)).length + 1)) := by
    -- Whatever the bases hold, the last closing parenthesis is the one that was printed last.
    have hlast : head.text =
        (name.toList ++ '(' :: listed (bases.map Expr.written)) ++ [')'] := by
      rw [hhead, grouped]
      simp
    rw [hlast, lastIndexOf?_append_singleton]
    simp
  have hinside := Segment.text_slice (u := name.toList) hhead
  have hparts := Segment.text_parts_of_listed [] (by simp) hitems hinside
  obtain ⟨bases', hread, hbare⟩ := mapM_of_map_text (f := Segment.expr) (p := Expr.bare)
    (q := Expr.bare) (fun e he seg htext => Segment.expr_of_trim
      (Expr.fits_whole_of_bar (hbases e he))
      (by rw [htext, trim_eq_self (Expr.sharp_written (hbases e he))])) hparts
  have hname' : trim (head.text.take name.toList.length) = name.toList := by
    rw [hhead, List.take_left, trim_eq_self (.of_isName hname)]
  have horder : ¬ name.toList.length + ((listed (bases.map Expr.written)).length + 1) <
      name.toList.length := by omega
  have hbases' : readBases line head name.toList.length = .ok bases' := by
    rw [readBases, hclose]
    simp only [if_neg horder, hread]
  refine ⟨bases', inline, ?_, hempty, hbare⟩
  simp only [readClass, hsplit, bind, Except.bind, hopen, Option.map_some, Option.getD_some,
    hbases', hname', hname, if_true, String.ofList_toList]
  rfl

/-! ## Conditionals -/

/-- **What is written after `if`** is read as the condition. -/
theorem readCondition_of_text {cond : Expr} (h : cond.fits .whole = true) {rest : Segment}
    (htext : rest.text = cond.written ++ [':']) :
    ∃ cond' inline, readCondition rest = .ok (cond', inline) ∧ inline.isEmpty = true ∧
      cond'.bare = cond.bare := by
  have hsharp := Expr.sharp_written h
  obtain ⟨head, inline, hsplit, hhead, hempty⟩ := splitHeader_of_text
    ((Expr.sealed_written h).mono (by decide)) htext .ifStatement
  obtain ⟨cond', hread, hbare⟩ := Segment.expr_of_trim h
    (by rw [hhead, trim_eq_self hsharp, trim_eq_self hsharp])
  refine ⟨cond', inline, ?_, hempty, hbare⟩
  simp only [readCondition, hsplit, bind, Except.bind, hread]
  rfl

/-! ## First lines

Each line starts with its keyword, and a space or the colon behind it. -/

variable {seg : Segment}

/-- The first line of a function is read as its header, with nothing behind the colon. -/
theorem readHeader?_function {span : Span} {name : String} {decorators : List Expr}
    {params : List Param} {result? : Option Expr} {body : List Stmt}
    (h : (Stmt.function span name decorators params result? body).fits = true)
    (htext : seg.text = (Stmt.function span name decorators params result? body).headLine)
    (chained : Bool) :
    ∃ params' result' inline,
      readHeader? chained seg = some (.ok (.function name params' result', inline)) ∧
      inline.isEmpty = true ∧ params'.map Param.bare = params.map Param.bare ∧
      result'.map Expr.bare = result?.map Expr.bare := by
  simp only [Stmt.fits, Bool.and_eq_true, List.all_eq_true] at h
  obtain ⟨⟨⟨⟨⟨hname, -⟩, hparams⟩, hresult⟩, -⟩, -⟩ := h
  obtain ⟨rest, hafter, hrest⟩ := Segment.afterKeyword?_of_append (by decide) htext rfl
  have hsharp : Sharp
      (name.toList ++ (grouped (params.map Param.written) ++ resultMark result?)) := by
    rw [resultMark, ← List.append_assoc (grouped _)]
    exact (Sharp.of_isName hname).join _ (.singleton (by decide))
  rw [trim_space_cons hsharp] at hrest
  obtain ⟨params', result', inline, hread, hbare⟩ :=
    readFunction_of_text hname hparams hresult seg hrest
  refine ⟨params', result', inline, ?_, hbare⟩
  rw [readHeader?, hafter]
  simp only [hread]

/-- The first line of a class is read as its header. -/
theorem readHeader?_classDef {span : Span} {name : String} {bases : List Expr} {body : List Stmt}
    (h : (Stmt.classDef span name bases body).fits = true)
    (htext : seg.text = (Stmt.classDef span name bases body).headLine) (chained : Bool) :
    ∃ bases' inline, readHeader? chained seg = some (.ok (.classDef name bases', inline)) ∧
      inline.isEmpty = true ∧ bases'.map Expr.bare = bases.map Expr.bare := by
  simp only [Stmt.fits, Bool.and_eq_true, List.all_eq_true] at h
  obtain ⟨⟨⟨hname, hbases⟩, -⟩, -⟩ := h
  obtain ⟨rest, hafter, hrest⟩ := Segment.afterKeyword?_of_append (by decide) htext rfl
  have hdef : seg.afterKeyword? "def" = none :=
    Segment.afterKeyword?_eq_none_of_append (by decide) (by decide) (by decide) htext rfl
  have hsharp : Sharp (name.toList ++ (grouped (bases.map Expr.written) ++ [':'])) :=
    (Sharp.of_isName hname).join _ (.singleton (by decide))
  rw [trim_space_cons hsharp] at hrest
  obtain ⟨bases', inline, hread, hbare⟩ := readClass_of_text hname hbases seg hrest
  refine ⟨bases', inline, ?_, hbare⟩
  rw [readHeader?, hdef, hafter]
  simp only [hread]

/-- The line of an `if` is read as its header, whatever stands before it. -/
theorem readHeader?_conditional {span : Span} {cond : Expr} {body orelse : List Stmt}
    (h : (Stmt.conditional span cond body orelse).fits = true)
    (htext : seg.text = (Stmt.conditional span cond body orelse).headLine) (chained : Bool) :
    ∃ cond' inline, readHeader? chained seg = some (.ok (.conditional cond', inline)) ∧
      inline.isEmpty = true ∧ cond'.bare = cond.bare := by
  simp only [Stmt.fits, Bool.and_eq_true] at h
  obtain ⟨⟨⟨hcond, -⟩, -⟩, -⟩ := h
  have hspace : (cond.spaced ++ [':']).head?.any isNamePart = false := by
    rw [cond.spaced_eq]
    rfl
  have hnone := fun k (hk : k ∈ keywords) hne =>
    Segment.afterKeyword?_eq_none_of_append (by decide) hk hne htext hspace
  obtain ⟨rest, hafter, hrest⟩ := Segment.afterKeyword?_of_append (by decide) htext hspace
  rw [cond.spaced_eq, List.cons_append, trim_space_cons
    ((Expr.sharp_written hcond).append (.singleton (by decide)))] at hrest
  obtain ⟨cond', inline, hread, hbare⟩ := readCondition_of_text hcond hrest
  refine ⟨cond', inline, ?_, hbare⟩
  rw [readHeader?, hnone "def" (by decide) (by decide), hnone "class" (by decide) (by decide),
    hafter]
  simp only [hread]
  rfl

/-- **The line before the other case** is a header only after an `if`. -/
theorem readHeader?_otherwise (htext : seg.text = "else:".toList) :
    ∃ inline, readHeader? true seg = some (.ok (.otherwise, inline)) ∧ inline.isEmpty = true := by
  have htext' : seg.text = "else".toList ++ [':'] := htext
  have hnone := fun k (hk : k ∈ keywords) hne =>
    Segment.afterKeyword?_eq_none_of_append (by decide) hk hne htext' rfl
  obtain ⟨rest, hafter, hrest⟩ := Segment.afterKeyword?_of_append (by decide) htext' rfl
  obtain ⟨head, inline, hsplit, -, hempty⟩ := splitHeader_of_text (u := []) .nil hrest
    .elseClause
  refine ⟨inline, ?_, hempty⟩
  rw [readHeader?, hnone "def" (by decide) (by decide), hnone "class" (by decide) (by decide),
    hnone "if" (by decide) (by decide)]
  simp only [if_true, hnone "elif" (by decide) (by decide), hafter, hsplit]
  rfl

end TypeReveal
