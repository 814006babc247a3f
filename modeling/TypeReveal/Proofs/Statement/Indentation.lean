import Mathlib.Data.List.Chain
import TypeReveal.Proofs.Statement.Starts
import TypeReveal.Proofs.Statement.Unread

/-!
# Nesting is indentation

The blocks of a file are its runs of deeper lines (`Node.nesting_of_read`).

* The statements of a file start on lines that are not indented.
* Below the header of a function, a class or a conditional stand all the lines after it that are
  indented deeper, up to the first that is not.  Its block stands in them, and all statements of the
  block start on lines of one indentation, which no line of the block falls short of
  (`Line.Governs`).  The rest of a conditional starts on the next line, which is indented as its
  own.
* Only a header with nothing after its colon has deeper lines below it (`Line.Opens`).

An outline is made of the indentation alone, so that what it says of the lines holds of any file
(`Outline.Deep`).  What the readers make of it is proved of the clauses of a block, with the lines
that each of them is read from (`Clause.NestAll`), and then of the statements that the clauses make
up.
-/

set_option autoImplicit false
namespace TypeReveal

/-! ## Outlines -/

namespace Outline

/-- An outline in which the lines below a line are deeper than it, and the line after those is
not. -/
def Deep : Outline → Prop
  | nil => True
  | cons line nested rest =>
    (∀ l ∈ nested.toLines, line.indent < l.indent) ∧ (∀ l ∈ rest.head?, l.indent ≤ line.indent) ∧
      nested.Deep ∧ rest.Deep

theorem head?_toLines (o : Outline) : o.toLines.head? = o.head? := by cases o <;> rfl

/-- The trees that are taken off are deeper as a whole. -/
theorem Deep.span {o : Outline} (h : o.Deep) (indent : Nat) :
    (o.span indent).1.Deep ∧ (o.span indent).2.Deep ∧
      (∀ l ∈ (o.span indent).1.toLines, indent < l.indent) ∧
      ∀ l ∈ (o.span indent).2.head?, l.indent ≤ indent := by
  induction o with
  | nil =>
    exact ⟨trivial, trivial, List.forall_mem_nil _, fun _ h => absurd h (Option.not_mem_none _)⟩
  | cons line nested rest _ ih =>
    obtain ⟨hnested, hrest, hdeepNested, hdeepRest⟩ := h
    by_cases hline : indent < line.indent
    · obtain ⟨htaken, hleft, hdeeper, hhead⟩ := ih hdeepRest
      rw [Outline.span, if_pos hline]
      refine ⟨⟨hnested, ?_, hdeepNested, htaken⟩, hleft, ?_, hhead⟩
      · -- what is taken off starts as the rest does, or is nothing
        cases rest with
        | nil => exact fun _ h => absurd h (Option.not_mem_none _)
        | cons next below after =>
          rw [Outline.span]
          split
          · exact hrest
          · exact fun _ h => absurd h (Option.not_mem_none _)
      · refine List.forall_mem_cons.2 ⟨hline, List.forall_mem_append.2 ⟨?_, hdeeper⟩⟩
        exact fun l hl => Nat.lt_trans hline (hnested l hl)
    · rw [Outline.span, if_neg hline]
      refine ⟨trivial, ⟨hnested, hrest, hdeepNested, hdeepRest⟩, List.forall_mem_nil _, ?_⟩
      rintro l ⟨⟩
      exact Nat.le_of_not_lt hline

/-- **The outline of a file** is deep. -/
theorem deep_ofLines (lines : List Line) : (ofLines lines).Deep := by
  induction lines with
  | nil => trivial
  | cons line lines ih =>
    obtain ⟨htaken, hleft, hdeeper, hhead⟩ := ih.span line.indent
    exact ⟨hdeeper, hhead, htaken, hleft⟩

end Outline

/-! ## What a statement is read from -/

/-- A position in the text of a line. -/
def Line.Holds (line : Line) (pos : Nat) : Prop := line.span.start ≤ pos ∧ pos < line.span.stop

/-- Statements that stand in some lines and start on those of indentation `indent`. -/
structure StandIn (indent : Nat) (lines : List Line) (body : List Stmt) : Prop where
  start : ∀ s ∈ body, ∃ line ∈ lines, line.indent = indent ∧ line.Holds s.span.start
  stop : ∀ s ∈ body, ∃ line ∈ lines, s.span.stop ≤ line.span.stop

/-- A header whose block is `body`: below it stand the deeper lines `block`, and then the lines
`after`.  The block is a statement on the line of the header, or it stands in the lines below. -/
structure Line.Governs (header : Line) (block after : List Line) (body : List Stmt) : Prop where
  deeper : ∀ line ∈ block, header.indent < line.indent
  next : ∀ line ∈ after.head?, line.indent ≤ header.indent
  body : (block = [] ∧ ∃ s, body = [s] ∧ header.span.start ≤ s.span.start ∧
      s.span.stop ≤ header.span.stop) ∨
    ∃ indent, header.indent < indent ∧ (∀ line ∈ block, indent ≤ line.indent) ∧
      StandIn indent block body

/-- Whether a line starts with a keyword. -/
def Line.StartsWith (line : Line) (keyword : String) : Prop :=
  (line.text.afterKeyword? keyword).isSome = true

/-- The rest of a conditional whose line is indented by `indent`, in the lines after its block: a
conditional on an `elif` line, or the block of an `else` line. -/
def Continues (indent : Nat) (after : List Line) (orelse : List Stmt) : Prop :=
  ∃ next block rest, after = next :: (block ++ rest) ∧ next.indent = indent ∧
    ((next.StartsWith "elif" ∧ ∃ span cond body more,
        orelse = [.conditional span cond body more] ∧ span.start = next.span.start) ∨
      (next.StartsWith "else" ∧ next.Governs block rest orelse))

namespace Stmt

/-- The keywords that the header of a statement may start with. -/
def headerKeywords : Stmt → List String
  | function .. => ["def"]
  | classDef .. => ["class"]
  | conditional .. => ["if", "elif"]
  | binding .. | result .. | imports .. | expr .. | pass _ => []

/-- The statements of the block of a header. -/
def body : Stmt → List Stmt
  | function _ _ _ _ _ body | classDef _ _ _ body | conditional _ _ body _ => body
  | binding .. | result .. | imports .. | expr .. | pass _ => []

/-- What follows the block of a conditional. -/
def orelse : Stmt → List Stmt
  | conditional _ _ _ orelse => orelse
  | _ => []

/-- A statement with the header `header`, behind the signs of its decorators. -/
structure HeadedBy (s : Stmt) (signs : List Line) (header : Line) : Prop where
  keyword : ∃ keyword ∈ s.headerKeywords, header.StartsWith keyword
  length : signs.length = s.decorators.length
  sign : ∀ line ∈ signs, line.indent = header.indent ∧ line.text.text.head? = some '@'
  start : ∀ line ∈ (signs ++ [header]).head?, line.Holds s.span.start

/-- A statement with a block has a header among the lines of its file, and its block stands in the
deeper lines below that. -/
def Nests (lines : List Line) (s : Stmt) : Prop :=
  s.isSimple = false → ∃ signs header block after,
    signs ++ header :: (block ++ after) <:+ lines ∧ s.HeadedBy signs header ∧
      header.Governs block after s.body ∧
      (s.orelse = [] ∨ Continues header.indent after s.orelse)

theorem Nests.of_isSimple {lines : List Line} {s : Stmt} (h : s.isSimple = true) :
    s.Nests lines := by
  intro hcompound
  rw [h] at hcompound
  cases hcompound

end Stmt

/-! ## Blocks

A block stands in some lines if each statement starts on a line of its indentation, the last one
ends in the lines, and no line falls short.  More lines do no harm to this. -/

variable {lines ls ms block after : List Line} {header line : Line} {indent : Nat}
  {body more : List Stmt} {s : Stmt} {source : List Char}

namespace StandIn

theorem nil (indent : Nat) (ls : List Line) : StandIn indent ls [] := ⟨nofun, nofun⟩

theorem mono (h : StandIn indent ls body) (hls : ls ⊆ ms) : StandIn indent ms body where
  start s hs := by
    obtain ⟨line, hline, hstart⟩ := h.start s hs
    exact ⟨line, hls hline, hstart⟩
  stop s hs := by
    obtain ⟨line, hline, hstop⟩ := h.stop s hs
    exact ⟨line, hls hline, hstop⟩

theorem cons (hstart : ∃ line ∈ ls, line.indent = indent ∧ line.Holds s.span.start)
    (hstop : ∃ line ∈ ls, s.span.stop ≤ line.span.stop) (h : StandIn indent ls body) :
    StandIn indent ls (s :: body) :=
  ⟨List.forall_mem_cons.2 ⟨hstart, h.start⟩, List.forall_mem_cons.2 ⟨hstop, h.stop⟩⟩

end StandIn

/-- Where a block ends that some lines reach to the end of. -/
theorem exists_lastStop_le {stop : Nat} (hstop : ∃ line ∈ ls, stop ≤ line.span.stop)
    (hbody : ∀ s ∈ body, ∃ line ∈ ls, s.span.stop ≤ line.span.stop) :
    ∃ line ∈ ls, lastStop stop body ≤ line.span.stop := by
  rw [lastStop]
  cases hlast : body.getLast? with
  | none => exact hstop
  | some s => exact hbody s (List.mem_of_getLast? hlast)

/-- A block ends in the lines that its header governs. -/
theorem Line.Governs.stop (h : header.Governs block after body) :
    ∀ s ∈ body, ∃ line ∈ header :: block, s.span.stop ≤ line.span.stop := by
  intro s hs
  rcases h.body with ⟨-, t, rfl, -, hstop⟩ | ⟨_, -, -, hstand⟩
  · obtain rfl := List.mem_singleton.1 hs
    exact ⟨header, List.mem_cons_self, hstop⟩
  · obtain ⟨line, hline, hstop⟩ := hstand.stop s hs
    exact ⟨line, List.mem_cons_of_mem _ hline, hstop⟩

/-! ## Clauses

What a header governs is said of clauses first, because a conditional and its branches are separate
clauses until they are joined. -/

namespace Clause

/-- A clause that is read from a header behind the signs of decorators. -/
def Nests (lines signs : List Line) (header : Line) (block after : List Line) : Clause → Prop
  | stmt s => s.Each (Stmt.Nests lines) ∧ (∃ line ∈ signs ++ [header], line.Holds s.span.start) ∧
    ∃ line ∈ header :: block, s.span.stop ≤ line.span.stop
  | conditional line _ body => line = header.span ∧ header.StartsWith "if" ∧
    header.Governs block after body ∧ ∀ s ∈ body, s.Each (Stmt.Nests lines)
  | alternative line _ body => signs = [] ∧ line = header.span ∧ header.StartsWith "elif" ∧
    header.Governs block after body ∧ ∀ s ∈ body, s.Each (Stmt.Nests lines)
  | otherwise body => signs = [] ∧ header.StartsWith "else" ∧
    header.Governs block after body ∧ ∀ s ∈ body, s.Each (Stmt.Nests lines)

/-- Clauses that are read one after another from the lines `ls`, all headers being indented by
`indent`; behind those lines stand the lines `tail`. -/
def NestAll (lines : List Line) (indent : Nat) (tail : List Line) : List Line → List Clause → Prop
  | _, [] => True
  | ls, clause :: clauses => ∃ signs header block rest,
    ls = signs ++ header :: (block ++ rest) ∧ (∀ line ∈ signs ++ [header], line.indent = indent) ∧
      clause.Nests lines signs header block (rest ++ tail) ∧ NestAll lines indent tail rest clauses

variable {signs tail : List Line} {orelse : List Stmt}

/-- What the clauses of some lines make up: statements, behind the rest of a conditional. -/
structure Made (lines : List Line) (indent : Nat) (ls tail : List Line)
    (made : List Stmt × List Stmt) : Prop where
  each : ∀ s ∈ made.1 ++ made.2, s.Each (Stmt.Nests lines)
  stand : StandIn indent ls made.2
  stop : ∀ s ∈ made.1, ∃ line ∈ ls, s.span.stop ≤ line.span.stop
  continues : made.1 = [] ∨ Continues indent (ls ++ tail) made.1

/-- A conditional and what continues it. -/
theorem each_nests_join (cond : Expr) (hsuffix : header :: (block ++ after) <:+ lines)
    (hkeyword : ∃ keyword ∈ ["if", "elif"], header.StartsWith keyword)
    (hgoverns : header.Governs block after body) (hbody : ∀ s ∈ body, s.Each (Stmt.Nests lines))
    (horelse : ∀ s ∈ orelse, s.Each (Stmt.Nests lines))
    (hcontinues : orelse = [] ∨ Continues header.indent after orelse)
    (hline : header.span.start < header.span.stop) :
    (join header.span cond body orelse).Each (Stmt.Nests lines) := by
  refine .intro (fun _ => ⟨[], header, block, after, hsuffix, ⟨hkeyword, rfl, nofun, ?_⟩, hgoverns,
    hcontinues⟩) (List.forall_mem_append.2 ⟨hbody, horelse⟩)
  rintro line ⟨⟩
  exact ⟨Nat.le_refl _, hline⟩

theorem stop_join (cond : Expr) (hgoverns : header.Governs block after body)
    (horelse : ∀ s ∈ orelse, ∃ line ∈ ls, s.span.stop ≤ line.span.stop) :
    ∃ line ∈ header :: (block ++ ls),
      (join header.span cond body orelse).span.stop ≤ line.span.stop := by
  refine exists_lastStop_le (exists_lastStop_le ⟨header, List.mem_cons_self, Nat.le_refl _⟩ ?_) ?_
  · intro s hs
    obtain ⟨line, hline, hstop⟩ := hgoverns.stop s hs
    exact ⟨line, List.mem_append_left ls hline, hstop⟩
  · intro s hs
    obtain ⟨line, hline, hstop⟩ := horelse s hs
    exact ⟨line, List.mem_append_right (header :: block) hline, hstop⟩

theorem start_lt_stop_of_mem (hlines : ∀ line ∈ lines, Sharp line.text.text)
    (hsuffix : header :: ls <:+ lines) : header.span.start < header.span.stop :=
  Segment.start_lt_stop (hlines header (hsuffix.subset List.mem_cons_self)).ne_nil

/-- **What clauses make up** stands in the lines that they are read from. -/
theorem NestAll.made {clauses : List Clause} (h : NestAll lines indent tail ls clauses)
    (hlines : ∀ line ∈ lines, Sharp line.text.text) (hsuffix : ls ++ tail <:+ lines) :
    Made lines indent ls tail (clauses.foldr attach ([], [])) := by
  -- From the last clause to the first, as the clauses are attached: what is pending of the later
  -- ones is the rest of a chain that an `if` or `elif` above takes in.
  induction clauses generalizing ls with
  | nil => exact ⟨nofun, .nil _ _, nofun, .inl rfl⟩
  | cons clause clauses ih =>
    obtain ⟨signs, header, block, rest, rfl, hindent, hclause, hrest⟩ := h
    obtain ⟨hsigns, hheader⟩ := List.forall_mem_append.1 hindent
    replace hheader := List.forall_mem_singleton.1 hheader
    have hself : header :: (block ++ (rest ++ tail)) <:+ lines :=
      .trans ⟨signs, by simp⟩ hsuffix
    obtain ⟨heach, hstand, hstop, hcontinues⟩ := ih hrest (.trans ⟨header :: block, by simp⟩ hself)
    obtain ⟨hpending, hafter⟩ := List.forall_mem_append.1 heach
    have hstart := start_lt_stop_of_mem hlines hself
    have hown : header :: (block ++ rest) ⊆ signs ++ header :: (block ++ rest) :=
      List.subset_append_right _ _
    have hlater := hstand.mono fun line hline =>
      hown (List.mem_cons_of_mem _ (List.mem_append_right block hline))
    rw [List.foldr_cons]
    cases clause with
    | stmt s =>
      obtain ⟨hs, ⟨line, hline, hholds⟩, last, hlast, hle⟩ := hclause
      refine ⟨List.forall_mem_cons.2 ⟨hs, hafter⟩, .cons ?_ ?_ hlater, nofun, .inl rfl⟩
      · refine ⟨line, ?_, hindent line hline, hholds⟩
        rw [List.append_cons]
        exact List.mem_append_left _ hline
      · exact ⟨last, hown (List.cons_subset_cons _ (List.subset_append_left _ _) hlast), hle⟩
    | conditional line cond body =>
      obtain ⟨rfl, hkeyword, hgoverns, hbody⟩ := hclause
      have hjoin := each_nests_join cond hself ⟨"if", by decide, hkeyword⟩ hgoverns hbody
        hpending (hheader.symm ▸ hcontinues) hstart
      refine ⟨List.forall_mem_cons.2 ⟨hjoin, hafter⟩, .cons ?_ ?_ hlater, nofun, .inl rfl⟩
      · exact ⟨header, hown List.mem_cons_self, hheader, Nat.le_refl _, hstart⟩
      · obtain ⟨last, hlast, hle⟩ := stop_join cond hgoverns hstop
        exact ⟨last, hown hlast, hle⟩
    | alternative line cond body =>
      obtain ⟨rfl, rfl, hkeyword, hgoverns, hbody⟩ := hclause
      have hjoin := each_nests_join cond hself ⟨"elif", by decide, hkeyword⟩ hgoverns hbody
        hpending (hheader.symm ▸ hcontinues) hstart
      refine ⟨List.forall_mem_cons.2 ⟨hjoin, hafter⟩, hlater,
        List.forall_mem_singleton.2 ?_, .inr ?_⟩
      · exact stop_join _ hgoverns hstop
      · exact ⟨header, block, rest ++ tail, by simp, hheader,
          .inl ⟨hkeyword, _, _, _, _, rfl, rfl⟩⟩
    | otherwise body =>
      obtain ⟨rfl, hkeyword, hgoverns, hbody⟩ := hclause
      refine ⟨List.forall_mem_append.2 ⟨hbody, hafter⟩, hlater, fun s hs => ?_, .inr ?_⟩
      · obtain ⟨last, hlast, hle⟩ := hgoverns.stop s hs
        exact ⟨last, List.cons_subset_cons _ (List.subset_append_left _ _) hlast, hle⟩
      · exact ⟨header, block, rest ++ tail, by simp, hheader, .inr ⟨hkeyword, hgoverns⟩⟩

end Clause

/-! ## Headers

A decorated function starts on the line of its first decorator, and its header comes behind the
lines of all of them. -/

/-- The sign and the decorator of a line. -/
structure IsSign (indent : Nat) (line : Line) (d : Expr) : Prop where
  indent : line.indent = indent
  at_ : line.text.text.head? = some '@'
  expr : (line.text.drop 1).expr = .ok d

theorem IsSign.holds {d : Expr} (h : IsSign indent line d) : line.Holds (d.span.start - 1) := by
  obtain ⟨hstart, hnested, hstop⟩ := Expr.laid_singleton.1 (Outline.laid_of_decorator h.at_ h.expr)
  have hle : d.span.start ≤ d.span.stop := hnested.le
  exact ⟨by omega, by omega⟩

theorem forall_mem_signs {signs : List Line} {decorators : List Expr}
    (h : List.Forall₂ (IsSign indent) signs decorators) :
    ∀ line ∈ signs, line.indent = indent ∧ line.text.text.head? = some '@' := by
  induction h with
  | nil => exact nofun
  | cons hsign _ ih => exact List.forall_mem_cons.2 ⟨⟨hsign.indent, hsign.at_⟩, ih⟩

/-- Signs stand at the start of a function, and its header does if there are none. -/
theorem holds_of_signs {signs : List Line} {decorators : List Expr}
    (hsigns : List.Forall₂ (IsSign indent) signs decorators)
    (hheader : header.span.start < header.span.stop) :
    ∀ line ∈ (signs ++ [header]).head?,
      line.Holds (decoratorsStart header.span.start decorators) := by
  cases hsigns with
  | nil =>
    rintro line ⟨⟩
    exact ⟨Nat.le_refl _, hheader⟩
  | cons hsign _ =>
    rintro line ⟨⟩
    exact hsign.holds

variable {chained : Bool} {inline : Segment} {h : Header} {decorators : List Expr}
  {signs : List Line}

/-- The clause of a header is read from its line and its block. -/
theorem Clause.nests_ofHeader
    (hread : readHeader? chained header.text = some (.ok (h, inline)))
    (hsigns : List.Forall₂ (IsSign header.indent) signs decorators)
    (hchained : chained = true → signs = [])
    (hsuffix : signs ++ header :: (block ++ after) <:+ lines)
    (hheader : header.span.start < header.span.stop)
    (hgoverns : header.Governs block after body) (hbody : ∀ s ∈ body, s.Each (Stmt.Nests lines)) :
    (ofHeader header.text.span decorators h body).Nests lines signs header block after := by
  have hself : header :: (block ++ after) <:+ lines := .trans ⟨signs, rfl⟩ hsuffix
  have hstop : ∃ line ∈ header :: block, lastStop header.span.stop body ≤ line.span.stop :=
    exists_lastStop_le ⟨header, List.mem_cons_self, Nat.le_refl _⟩ hgoverns.stop
  have hkeyword {keyword : String} {rest : Segment}
      (hrest : header.text.afterKeyword? keyword = some rest) : header.StartsWith keyword := by
    rw [Line.StartsWith, hrest]
    rfl
  rcases readHeader?_cases hread with ⟨rest, hrest, hfunction⟩ | ⟨rest, hrest, hclass⟩ |
    ⟨rest, cond, hrest, -, rfl⟩ | ⟨hopen, rest, cond, hrest, -, rfl⟩ |
    ⟨hopen, rest, _, hrest, -, rfl⟩
  -- A function stands on its decorators as well, and starts with the first of them.
  · obtain ⟨⟨name, params, result?, rfl⟩, -⟩ := isFunctionText_of_readFunction hfunction
    have hstart := holds_of_signs hsigns hheader
    refine ⟨.intro (fun _ => ⟨signs, header, block, after, hsuffix, ?_, hgoverns, .inl rfl⟩) hbody,
      ?_, hstop⟩
    · exact ⟨⟨"def", List.mem_cons_self, hkeyword hrest⟩, hsigns.length_eq,
        forall_mem_signs hsigns, hstart⟩
    · have hne : signs ++ [header] ≠ [] :=
        List.append_ne_nil_of_right_ne_nil signs (List.cons_ne_nil header [])
      obtain ⟨line, hline⟩ := Option.isSome_iff_exists.1 (List.isSome_head?.2 hne)
      exact ⟨line, List.mem_of_head? hline, hstart line hline⟩
  -- The decorators of a class are dropped, so its lines start with the header.
  · obtain ⟨name, bases, rfl, -⟩ := isClassText_of_readClass hclass
    refine ⟨.intro (fun _ => ⟨[], header, block, after, hself, ?_, hgoverns, .inl rfl⟩) hbody,
      ⟨header, by simp, Nat.le_refl _, hheader⟩, hstop⟩
    refine ⟨⟨"class", List.mem_cons_self, hkeyword hrest⟩, rfl, nofun, ?_⟩
    rintro line ⟨⟩
    exact ⟨Nat.le_refl _, hheader⟩
  · exact ⟨rfl, hkeyword hrest, hgoverns, hbody⟩
  · exact ⟨hchained hopen, rfl, hkeyword hrest, hgoverns, hbody⟩
  · exact ⟨hchained hopen, hkeyword hrest, hgoverns, hbody⟩

/-! ## Headers with nothing after their colon

A header is cut at the colon and what is behind is trimmed.  That it is empty is thus a statement
about the end of the line, which has to be carried through all the cuts. -/

theorem trim_append_of_isBlank (u : List Char) {v : List Char} (hv : ∀ c ∈ v, isBlank c = true) :
    trim (u ++ v) = trim u := by
  rcases blank_or_exists_sharp u with hall | ⟨front, mid, back, rfl, hfront, hmid, hback⟩
  · rw [trim_eq_nil hall, trim_eq_nil (List.forall_mem_append.2 ⟨hall, hv⟩)]
  · have hblank : ∀ c ∈ back ++ v, isBlank c = true := List.forall_mem_append.2 ⟨hback, hv⟩
    rw [List.append_assoc, List.append_assoc, trim_append hfront hmid hblank,
      trim_append hfront hmid hback]

theorem isBlank_of_trim_eq_nil {u : List Char} (h : trim u = []) : ∀ c ∈ u, isBlank c = true := by
  rcases blank_or_exists_sharp u with hall | ⟨front, mid, back, rfl, hfront, hmid, hback⟩
  · exact hall
  · rw [trim_append hfront hmid hback] at h
    exact absurd h hmid.ne_nil

/-- A segment with a colon, behind which stand what `inline` is and blanks. -/
def Segment.ColonBefore (seg inline : Segment) : Prop :=
  ∃ before after, seg.text = before ++ ':' :: after ∧ TypeReveal.trim after = inline.text

namespace Segment.ColonBefore

variable {seg rest head : Segment}

theorem of_drop {n : Nat} (h : (seg.drop n).ColonBefore inline) : seg.ColonBefore inline := by
  obtain ⟨before, after, htext, hafter⟩ := h
  refine ⟨seg.text.take n ++ before, after, ?_, hafter⟩
  have hdrop : seg.text.drop n = before ++ ':' :: after := htext
  rw [List.append_assoc, ← hdrop, List.take_append_drop]

theorem of_trim (h : seg.trim.ColonBefore inline) : seg.ColonBefore inline := by
  obtain ⟨before, after, htext, hafter⟩ := h
  obtain ⟨u, v, hseg, -, hv⟩ := exists_trim seg.text
  refine ⟨u ++ before, after ++ v, ?_, (trim_append_of_isBlank after hv).trans hafter⟩
  rw [hseg, show TypeReveal.trim seg.text = _ from htext]
  simp

theorem of_afterKeyword? {keyword : String} (h : rest.ColonBefore inline)
    (hrest : seg.afterKeyword? keyword = some rest) : seg.ColonBefore inline := by
  rw [afterKeyword?] at hrest
  split at hrest
  · split at hrest <;> cases hrest
    exact h.of_trim.of_drop
  · cases hrest

theorem of_splitHeader {what : Construct} (h : splitHeader seg what = .ok (head, inline)) :
    seg.ColonBefore inline := by
  obtain ⟨before, after, htext, -, hinline⟩ := text_of_splitHeader h
  exact ⟨before, after, htext, hinline.symm⟩

theorem of_readFunction {line : Segment} (hread : readFunction line rest = .ok (h, inline)) :
    rest.ColonBefore inline := by
  obtain ⟨_, _, -, -, -, _, _, _, hsplit, -, -, -⟩ := readFunction_eq_ok.1 hread
  exact (of_splitHeader hsplit).of_trim.of_drop.of_drop

theorem of_readClass {line : Segment} (hread : readClass line rest = .ok (h, inline)) :
    rest.ColonBefore inline := by
  obtain ⟨_, _, _, hsplit, -⟩ := readClass_eq_ok.1 hread
  exact of_splitHeader hsplit

theorem of_readCondition {cond : Expr} (hread : readCondition rest = .ok (cond, inline)) :
    rest.ColonBefore inline := by
  obtain ⟨_, hsplit, -⟩ := readCondition_eq_ok.1 hread
  exact of_splitHeader hsplit

end Segment.ColonBefore

/-- The keywords that open a block. -/
def blockKeywords : List String := ["def", "class", "if", "elif", "else"]

/-- A line that is a header with nothing after its colon. -/
structure Line.Opens (line : Line) : Prop where
  keyword : ∃ keyword ∈ blockKeywords, line.StartsWith keyword
  header : ∃ h inline, readHeader? true line.text = some (.ok (h, inline)) ∧ inline.isEmpty = true
  colon : ∃ text, line.text.text = text ++ [':']

/-- A header is read as well where an `if` stands before it. -/
theorem readHeader?_true (hread : readHeader? chained header.text = some (.ok (h, inline))) :
    readHeader? true header.text = some (.ok (h, inline)) := by
  cases chained with
  | true => exact hread
  | false =>
    rw [readHeader?] at hread ⊢
    simp only [Bool.false_eq_true, if_false, if_true] at hread ⊢
    split at hread <;> simp_all

/-- **A header with nothing after its colon** opens a block. -/
theorem Line.opens_of_readHeader?
    (hread : readHeader? chained header.text = some (.ok (h, inline)))
    (hinline : inline.isEmpty = true) (hsharp : Sharp header.text.text) : header.Opens := by
  have hkeyword {keyword : String} {rest : Segment} (hmem : keyword ∈ blockKeywords)
      (hrest : header.text.afterKeyword? keyword = some rest) (hcolon : rest.ColonBefore inline) :
      (∃ keyword ∈ blockKeywords, header.StartsWith keyword) ∧ header.text.ColonBefore inline := by
    refine ⟨⟨keyword, hmem, ?_⟩, hcolon.of_afterKeyword? hrest⟩
    rw [StartsWith, hrest]
    rfl
  have hboth : (∃ keyword ∈ blockKeywords, header.StartsWith keyword) ∧
      header.text.ColonBefore inline := by
    rcases readHeader?_cases hread with ⟨rest, hrest, hread⟩ | ⟨rest, hrest, hread⟩ |
      ⟨rest, cond, hrest, hread, -⟩ | ⟨-, rest, cond, hrest, hread, -⟩ |
      ⟨-, rest, head, hrest, hread, -⟩
    · exact hkeyword (by decide) hrest (.of_readFunction hread)
    · exact hkeyword (by decide) hrest (.of_readClass hread)
    · exact hkeyword (by decide) hrest (.of_readCondition hread)
    · exact hkeyword (by decide) hrest (.of_readCondition hread)
    · exact hkeyword (by decide) hrest (.of_splitHeader hread)
  refine ⟨hboth.1, ⟨h, inline, readHeader?_true hread, hinline⟩, ?_⟩
  obtain ⟨before, after, htext, hafter⟩ := hboth.2
  rw [List.isEmpty_iff.1 hinline] at hafter
  rcases List.eq_nil_or_concat' after with rfl | ⟨more, c, rfl⟩
  · exact ⟨before, htext⟩
  · -- the line would end in a blank
    obtain ⟨front, last, hlast, hblank⟩ := hsharp.last
    have hc := isBlank_of_trim_eq_nil hafter c (List.mem_append_right _ (List.mem_singleton_self c))
    rw [hlast, ← List.cons_append, ← List.append_assoc] at htext
    obtain ⟨-, rfl⟩ := List.append_inj' htext rfl |>.imp_right List.singleton_inj.1
    rw [hblank] at hc
    cases hc

/-! ## Outlines that are read

Two inductions on the outline: one for what stands below each header, and one for the order of
indentations from line to line. -/

namespace Outline

variable {nested rest : Outline} {clauses : List Clause} {tail : List Line}

/-- The lines of a block are indented at least as far as the block. -/
theorem le_indent_of_clauses {o : Outline} (h : o.clauses indent decorators chained = .ok clauses)
    (hdeep : o.Deep) : ∀ line ∈ o.toLines, indent ≤ line.indent := by
  induction o generalizing decorators chained clauses with
  | nil => exact nofun
  | cons line nested rest _ ihrest =>
    obtain ⟨hnested, -, -, hdeep⟩ := hdeep
    obtain ⟨rfl, hcases⟩ := clauses_cases h
    have hrest : ∃ decorators chained clauses,
        rest.clauses line.indent decorators chained = .ok clauses := by
      rcases hcases with ⟨-, d, -, -, hrest⟩ | ⟨-, clause, more, -, hrest, -⟩
      · exact ⟨_, _, _, hrest⟩
      · exact ⟨_, _, _, hrest⟩
    obtain ⟨_, _, _, hrest⟩ := hrest
    refine List.forall_mem_cons.2 ⟨Nat.le_refl _, List.forall_mem_append.2 ⟨?_, ihrest hrest hdeep⟩⟩
    exact fun l hl => Nat.le_of_lt (hnested l hl)

/-- A header governs the lines below it. -/
theorem governs_of_readsBlock (hread : readHeader? chained header.text = some (.ok (h, inline)))
    (hbody : ReadsBlock inline nested body)
    (hdeeper : ∀ line ∈ nested.toLines, header.indent < line.indent) (hdeep : nested.Deep)
    (hnext : ∀ line ∈ after.head?, line.indent ≤ header.indent)
    (hstand : ∀ first clauses, nested.head? = some first →
      nested.clauses first.indent [] false = .ok clauses →
      StandIn first.indent nested.toLines (Clause.statements clauses)) :
    header.Governs nested.toLines after body := by
  refine ⟨hdeeper, hnext, ?_⟩
  rcases hbody with ⟨-, rfl, s, hs, rfl⟩ | ⟨-, first, clauses, hfirst, hclauses, rfl⟩
  · have hspan := (Stmt.fills_of_readSimple hs).1
    have hleads := leads_of_readHeader? hread
    refine .inl ⟨rfl, s, rfl, ?_, ?_⟩
    · rw [hspan]
      exact hleads.1.le
    · rw [hspan]
      exact hleads.2
  · have hmem : first ∈ nested.toLines := List.mem_of_head? (nested.head?_toLines.trans hfirst)
    exact .inr ⟨first.indent, hdeeper first hmem, le_indent_of_clauses hclauses hdeep,
      hstand first clauses hfirst hclauses⟩

/-- **The clauses of a block** are read from its lines. -/
theorem nestAll_of_clauses {o : Outline} (h : o.clauses indent decorators chained = .ok clauses)
    (hlines : ∀ line ∈ lines, Sharp line.text.text) (hdeep : o.Deep)
    (hsigns : List.Forall₂ (IsSign indent) signs decorators)
    (hchained : chained = true → signs = [])
    (hsuffix : signs ++ (o.toLines ++ tail) <:+ lines)
    (htail : ∀ line ∈ tail.head?, line.indent ≤ indent) :
    Clause.NestAll lines indent tail (signs ++ o.toLines) clauses := by
  -- The decorators read so far travel with the induction: a line that only decorates is moved into
  -- `signs`, and a line that makes a clause starts again with none.
  induction o generalizing indent decorators chained clauses signs tail with
  | nil =>
    obtain ⟨-, rfl⟩ := clauses_nil_eq_ok.1 h
    trivial
  | cons line nested rest ihnested ihrest =>
    obtain ⟨hnested, hrest, hdeepNested, hdeepRest⟩ := hdeep
    obtain ⟨rfl, ⟨hat, d, hd, rfl, hclauses⟩ | ⟨-, clause, more, rfl, hmore, hcases⟩⟩ :=
      clauses_cases h
    · have hmoved : signs ++ (cons line nil rest).toLines = signs ++ [line] ++ rest.toLines := by
        simp [toLines]
      rw [hmoved]
      refine ihrest hclauses hdeepRest ?_ (fun h => absurd h Bool.false_ne_true)
        (by simpa [toLines] using hsuffix) htail
      exact List.rel_append hsigns (.cons ⟨rfl, hat, hd⟩ .nil)
    · have hnext : ∀ l ∈ (rest.toLines ++ tail).head?, l.indent ≤ line.indent := by
        cases rest with
        | nil => exact htail
        | cons => exact hrest
      have hsuffix' : signs ++ line :: (nested.toLines ++ (rest.toLines ++ tail)) <:+ lines := by
        simpa [toLines] using hsuffix
      have hself : line :: (nested.toLines ++ (rest.toLines ++ tail)) <:+ lines :=
        .trans ⟨signs, rfl⟩ hsuffix'
      have hbelow : nested.toLines ++ (rest.toLines ++ tail) <:+ lines :=
        .trans ⟨[line], rfl⟩ hself
      have hbehind : rest.toLines ++ tail <:+ lines := .trans ⟨nested.toLines, rfl⟩ hbelow
      have hstart := Clause.start_lt_stop_of_mem hlines hself
      have hindent : ∀ l ∈ signs ++ [line], l.indent = line.indent :=
        List.forall_mem_append.2
          ⟨fun l hl => (forall_mem_signs hsigns l hl).1, List.forall_mem_singleton.2 rfl⟩
      refine ⟨signs, line, nested.toLines, rest.toLines, rfl, hindent, ?_,
        ihrest hmore hdeepRest .nil (fun _ => rfl) hbehind htail⟩
      rcases hcases with ⟨s, rfl, -, -, hs, -⟩ | ⟨header, inline, body, rfl, hheader, hbody⟩
      · have hspan : s.span = line.span := (Stmt.fills_of_readSimple hs).1
        have hsimple := Stmt.isSimple_of_readSimple hs
        refine ⟨.of_isSimple hsimple (.of_isSimple hsimple), ⟨line, by simp, ?_⟩, line,
          List.mem_cons_self, ?_⟩
        · rw [hspan]
          exact ⟨Nat.le_refl _, hstart⟩
        · rw [hspan]
      -- The tail of the block is what stands behind it: no deeper than the line, so shallower than
      -- the block.
      · have hmade (first : Line) (block : List Clause) (hfirst : nested.head? = some first)
            (hblock : nested.clauses first.indent [] false = .ok block) :
            Clause.Made lines first.indent nested.toLines (rest.toLines ++ tail)
              (block.foldr Clause.attach ([], [])) := by
          have hmem : first ∈ nested.toLines :=
            List.mem_of_head? (nested.head?_toLines.trans hfirst)
          refine (ihnested hblock hdeepNested .nil (fun _ => rfl) hbelow fun l hl => ?_).made hlines
            hbelow
          exact Nat.le_of_lt (Nat.lt_of_le_of_lt (hnext l hl) (hnested first hmem))
        have hgoverns := governs_of_readsBlock hheader hbody hnested hdeepNested hnext
          fun first block hfirst hblock => (hmade first block hfirst hblock).stand
        refine Clause.nests_ofHeader hheader hsigns hchained hsuffix' hstart hgoverns ?_
        rcases hbody with ⟨-, -, s, hs, rfl⟩ | ⟨-, first, block, hfirst, hblock, rfl⟩
        · have hsimple := Stmt.isSimple_of_readSimple hs
          exact List.forall_mem_singleton.2 (.of_isSimple hsimple (.of_isSimple hsimple))
        · exact (List.forall_mem_append.1 (hmade first block hfirst hblock).each).2

/-- A line is deeper than the one before it only if that one opens a block. -/
def Ascends (line next : Line) : Prop := line.indent < next.indent → line.Opens

/-- **Only a header with nothing after its colon** has deeper lines below it. -/
theorem opens_of_clauses
    (h : (cons header nested rest).clauses indent decorators chained = .ok clauses)
    (hsharp : Sharp header.text.text) (hne : nested ≠ nil) : header.Opens := by
  obtain ⟨-, ⟨-, -, -, hnil, -⟩ | ⟨-, clause, more, -, -, hcases⟩⟩ := clauses_cases h
  · exact absurd hnil hne
  · rcases hcases with ⟨-, -, -, -, -, hnil⟩ | ⟨_, _, _, -, hheader, hbody⟩
    · exact absurd hnil hne
    · rcases hbody with ⟨-, hnil, -⟩ | ⟨hinline, -⟩
      · exact absurd hnil hne
      · exact Line.opens_of_readHeader? hheader hinline hsharp

/-- **The lines of a block** go deeper only behind a header that opens a block: behind the lines
below a line comes one that is indented as the line is. -/
theorem isChain_of_clauses {o : Outline} (h : o.clauses indent decorators chained = .ok clauses)
    (hlines : ∀ line ∈ o.toLines, Sharp line.text.text) (hdeep : o.Deep) :
    o.toLines.IsChain Ascends := by
  induction o generalizing indent decorators chained clauses with
  | nil => exact .nil
  | cons line nested rest ihnested ihrest =>
    obtain ⟨hnested, hrest, hdeepNested, hdeepRest⟩ := hdeep
    obtain ⟨hline, hothers⟩ := List.forall_mem_cons.1 hlines
    obtain ⟨hlinesNested, hlinesRest⟩ := List.forall_mem_append.1 hothers
    have hchainRest : rest.toLines.IsChain Ascends := by
      obtain ⟨-, ⟨-, d, -, -, hclauses⟩ | ⟨-, clause, more, -, hmore, -⟩⟩ := clauses_cases h
      · exact ihrest hclauses hlinesRest hdeepRest
      · exact ihrest hmore hlinesRest hdeepRest
    have hchainNested : nested.toLines.IsChain Ascends := by
      obtain ⟨-, ⟨-, d, -, rfl, -⟩ | ⟨-, clause, more, -, -, hcases⟩⟩ := clauses_cases h
      · exact .nil
      · rcases hcases with
          ⟨-, -, -, -, -, rfl⟩ | ⟨_, _, _, -, -, ⟨-, rfl, -⟩ | ⟨-, _, _, -, hblock, -⟩⟩
        · exact .nil
        · exact .nil
        · exact ihnested hblock hlinesNested hdeepNested
    rw [← head?_toLines] at hrest
    refine List.isChain_cons.2 ⟨fun next hnext hlt => ?_, List.isChain_append.2
      ⟨hchainNested, hchainRest, fun last hlast next hnext hlt => ?_⟩⟩
    · refine opens_of_clauses h hline ?_
      rintro rfl
      exact absurd hlt (Nat.not_lt_of_le (hrest next hnext))
    · have hdeeper := hnested last (List.mem_of_getLast? hlast)
      exact absurd (Nat.lt_trans hdeeper hlt) (Nat.not_lt_of_le (hrest next hnext))

end Outline

/-! ## Files -/

/-- **Nesting is indentation.**  In a file that is read the statements start on lines that are not
indented.  The block of each function, class and conditional stands on the line of its header, or
in the lines below that are deeper than it, which are no less indented than those that its
statements start on; behind them comes the rest of a conditional, on a line indented as its own.
And a line is deeper than the line before it only if that is a header with nothing after its
colon. -/
theorem Node.nesting_of_read {span : Span} (h : Node.read source = .ok (.file span body)) :
    StandIn 0 (Line.ofFile source) body ∧
      (∀ place ∈ (Place.root (.file span body)).preorder, ∀ s, place.node = .stmt s →
        s.Nests (Line.ofFile source)) ∧
      (Line.ofFile source).IsChain fun line next => line.indent < next.indent → line.Opens := by
  obtain ⟨clauses, hclauses, heq⟩ := Node.read_eq_ok.1 h
  cases heq
  have hlines : ∀ line ∈ Line.ofFile source, Sharp line.text.text := fun line hline =>
    (Line.isCore hline).1.sharp (Line.isCore hline).2
  have hdeep := Outline.deep_ofLines (Line.ofFile source)
  have hfile := Outline.toLines_ofLines (Line.ofFile source)
  have hsuffix : [] ++ ((Outline.ofLines (Line.ofFile source)).toLines ++ []) <:+
      Line.ofFile source := by
    rw [hfile]
    exact ⟨[], by simp⟩
  have hall := Outline.nestAll_of_clauses hclauses hlines hdeep .nil
    (fun h => absurd h Bool.false_ne_true) hsuffix (fun _ h => absurd h (Option.not_mem_none _))
  rw [hfile, List.nil_append] at hall
  obtain ⟨heach, hstand, -, -⟩ := hall.made hlines ⟨[], by simp⟩
  refine ⟨hstand, fun place hplace s hs => ?_, ?_⟩
  · exact Stmt.Each.of_mem_preorder (List.forall_mem_append.1 heach).2 hplace hs
  · have hchain := Outline.isChain_of_clauses hclauses (hfile.symm ▸ hlines) hdeep
    rwa [hfile] at hchain

/-- A decorated function below an `if` with an `else`. -/
theorem Node.nesting_of_read_chained :
    let first := Stmt.conditional ⟨0, 31⟩ (.name ⟨3, 4⟩ "a")
      [.function ⟨7, 21⟩ "f" [.name ⟨8, 9⟩ "d"] [] none [.expr ⟨20, 21⟩ (.name ⟨20, 21⟩ "b")]]
      [.expr ⟨30, 31⟩ (.name ⟨30, 31⟩ "c")]
    Node.read "if a:\n @d\n def f(): b\nelse:\n  c".toList = .ok (.file ⟨0, 31⟩ [first]) ∧
      StandIn 0 (Line.ofFile "if a:\n @d\n def f(): b\nelse:\n  c".toList) [first] ∧
      first.Nests (Line.ofFile "if a:\n @d\n def f(): b\nelse:\n  c".toList) := by
  intro first
  have hread : Node.read "if a:\n @d\n def f(): b\nelse:\n  c".toList =
      .ok (.file ⟨0, 31⟩ [first]) := by decide +kernel
  obtain ⟨hstand, hnests, -⟩ := nesting_of_read hread
  have hplace := Place.mem_preorder_of_mem_children
    (Place.self_mem_preorder (.root (.file ⟨0, 31⟩ [first]))) List.mem_cons_self
  exact ⟨hread, hstand, hnests _ hplace first rfl⟩

end TypeReveal
