import TypeReveal.Proofs.Statement.Header
import TypeReveal.Syntax.Block

/-!
# Statements and their texts

A file that is written statement by statement is read as the same statements, spans aside:
`Node.read_source`.

* `Stmt.of_mem_lines` — every line of a statement is sealed and sharp and stands at least as deep as
  the statement, so that the lines of the file are those that were written (`Line.shape_ofFile`).
* `BlockReads` — the outline of the lines of a block is read as its statements.  The lemmas for
  decorators, headers and simple lines (`clauses_decorator`, `clauses_header`, `clauses_simple`)
  read off one line and the lines below it each; `BlockReads.of_fits` puts them together by
  induction.
* `Yields` — what the clauses of a block are joined to.  An `else` belongs to the `if` before it, so
  that no clauses are left over at the start of a block.
-/

set_option autoImplicit false
namespace TypeReveal

/-! ## The first character of a line

Only a decorator starts with its sign.  No other line that is written does, so that it is not
mistaken for one. -/

theorem Expr.head?_written {e : Expr} {s : Stratum} (h : e.fits s = true) :
    e.written.head? ≠ some '@' := by
  obtain ⟨t, ts, htokens, hwritten⟩ := e.exists_written
  have ht : t.isProper = true := isProper_of_mem_tokens e h t (htokens ▸ List.mem_cons_self)
  obtain ⟨c, cs, htext, htoken⟩ := token?_spelled (.text t) ht Apart.nil
  rw [hwritten, htext, List.cons_append, List.head?_cons]
  intro hc
  rw [Option.some_inj.1 hc] at htoken
  cases htoken

theorem head?_append_of_isName {name rest : List Char} (h : isName name = true) :
    (name ++ rest).head? ≠ some '@' := by
  obtain ⟨c, cs, rfl⟩ := List.exists_cons_of_ne_nil (isNamePart_of_isName h).1
  rw [List.cons_append, List.head?_cons]
  intro hc
  exact not_mem_of_isName h (c := '@') (by decide) (Option.some_inj.1 hc ▸ List.mem_cons_self)

namespace Stmt

/-- No line of a statement starts as a decorator does. -/
theorem head?_headLine {s : Stmt} (h : s.fits = true) : s.headLine.head? ≠ some '@' := by
  have hkeyword : ∀ {k : String} {rest : List Char}, k ∈ keywords →
      (k.toList ++ rest).head? ≠ some '@' := by
    intro k rest hk
    refine head?_append_of_isName ?_
    exact (by decide : ∀ k ∈ keywords, isName k.toList = true) k hk
  cases s with
  | binding span name annotation? value? =>
    simp only [fits, Bool.and_eq_true] at h
    exact head?_append_of_isName h.1.1.1.1
  | expr span value =>
    simp only [fits, Bool.and_eq_true] at h
    exact Expr.head?_written h.1
  | imports span module? names =>
    cases module? with
    | none => exact hkeyword (by decide)
    | some module => exact hkeyword (by decide)
  | function => exact hkeyword (by decide)
  | classDef => exact hkeyword (by decide)
  | conditional => exact hkeyword (by decide)
  | result => exact hkeyword (by decide)
  | pass => exact hkeyword (k := "pass") (by decide)

/-! ## Lines are sealed and sharp

Going through the kinds of statements, the line of each is put together from keywords, names and
expressions, all of which are sealed. -/

/-- The first line of a statement is sealed against line breaks: what is written of names,
expressions and keywords breaks only in brackets and strings. -/
theorem sealed_headLine {s : Stmt} (h : s.fits = true) : Sealed ['\n'] s.headLine := by
  have hplain : ∀ {t : List Char}, (∀ c ∈ t, isPlain c = true ∧ c ∉ ['\n']) →
    Sealed ['\n'] t := Sealed.of_forall
  have hseps : ['\n'] ⊆ Stratum.whole.separators := by decide
  have hnames : ∀ {names : List String}, (names.all fun name => isName name.toList) = true →
      Sealed ['\n'] (listed (names.map String.toList)) := by
    intro names hnames
    refine sealed_listed (by decide) (by decide) fun text htext => ?_
    obtain ⟨name, hname, rfl⟩ := List.mem_map.1 htext
    exact sealed_name (List.all_eq_true.1 hnames name hname) (by decide)
  cases s with
  | function span name decorators params result? body =>
    simp only [fits, Bool.and_eq_true, List.all_eq_true] at h
    obtain ⟨⟨⟨⟨⟨hname, -⟩, hparams⟩, hresult⟩, -⟩, -⟩ := h
    have hgroup : Sealed ['\n'] (grouped (params.map Param.written)) := by
      refine sealed_grouped fun text htext => ?_
      obtain ⟨p, hp, rfl⟩ := List.mem_map.1 htext
      exact sealed_param (hparams p hp) (by simp)
    have hmark : Sealed ['\n'] (resultMark result?) :=
      (sealed_marked (hplain (by decide)) hseps hresult).append (hplain (by decide))
    exact (hplain (by decide) : Sealed ['\n'] "def ".toList).append
      ((sealed_name hname (by decide)).append (hgroup.append hmark))
  | classDef span name bases body =>
    simp only [fits, Bool.and_eq_true, List.all_eq_true] at h
    obtain ⟨⟨⟨hname, hbases⟩, -⟩, -⟩ := h
    have hgroup : Sealed ['\n'] (grouped (bases.map Expr.written)) := by
      refine sealed_grouped fun text htext => ?_
      obtain ⟨e, he, rfl⟩ := List.mem_map.1 htext
      exact (Expr.sealed_written (hbases e he)).mono (by simp)
    exact (hplain (by decide) : Sealed ['\n'] "class ".toList).append
      ((sealed_name hname (by decide)).append (hgroup.append (hplain (by decide))))
  | conditional span cond body orelse =>
    simp only [fits, Bool.and_eq_true] at h
    exact (hplain (by decide)).append
      (((cond.sealed_spaced h.1.1.1).mono hseps).append (hplain (by decide)))
  | binding span name annotation? value? =>
    simp only [fits, Bool.and_eq_true] at h
    exact sealed_declaration h.1.1.1.1 hseps (fun _ => by decide) (fun _ => by decide) h.1.2 h.2
  | result span value? =>
    exact (hplain (by decide)).append (sealed_marked .nil hseps h)
  | imports span module? names =>
    simp only [fits, Bool.and_eq_true] at h
    cases module? with
    | none => exact (hplain (by decide) : Sealed ['\n'] "import ".toList).append (hnames h.2)
    | some module =>
      have hmodule : Sealed ['\n'] module.toList := by
        refine hplain fun c hc => ?_
        rcases (mem_of_isDotted h.1.1).2 c hc with hpart | rfl
        · exact ⟨isPlain_of_not_mem (not_mem_punctuation_of_isNamePart hpart),
            not_mem_of_isNamePart hpart (by decide)⟩
        · decide
      exact (hplain (by decide) : Sealed ['\n'] "from ".toList).append
        (hmodule.append ((hplain (by decide)).append (hnames h.2)))
  | expr span value =>
    simp only [fits, Bool.and_eq_true] at h
    exact (Expr.sealed_written h.1).mono hseps
  | pass span => exact hplain (t := "pass".toList) (by decide)

/-- Neither end of the first line is blank. -/
theorem sharp_headLine {s : Stmt} (h : s.fits = true) : Sharp s.headLine := by
  have hword : ∀ {t : List Char}, t ≠ [] → (∀ c ∈ t, isBlank c = false) → Sharp t :=
    Sharp.of_forall
  have hcolon : Sharp [':'] := .singleton (by decide)
  have hnames : ∀ {names : List String}, names.isEmpty = false →
      (names.all fun name => isName name.toList) = true →
      Sharp (listed (names.map String.toList)) := by
    intro names hne hnames
    refine sharp_listed (by simpa using hne) fun text htext => ?_
    obtain ⟨name, hname, rfl⟩ := List.mem_map.1 htext
    exact .of_isName (List.all_eq_true.1 hnames name hname)
  cases s with
  | function span name decorators params result? body =>
    have hdef := (hword (t := "def".toList) (by decide) (by decide)).join (' ' :: (name.toList ++
      (grouped (params.map Param.written) ++ marked [' ', '-', '>'] result?))) hcolon
    rwa [List.cons_append, List.append_assoc, List.append_assoc] at hdef
  | classDef span name bases body =>
    have hclass := (hword (t := "class".toList) (by decide) (by decide)).join
      (' ' :: (name.toList ++ grouped (bases.map Expr.written))) hcolon
    rwa [List.cons_append, List.append_assoc] at hclass
  | conditional span cond body orelse =>
    exact (hword (by decide) (by decide)).join cond.spaced hcolon
  | binding span name annotation? value? =>
    simp only [fits, Bool.and_eq_true] at h
    exact sharp_declaration h.1.1.1.1 h.1.2 h.2
  | result span value? =>
    cases value? with
    | none => exact hword (t := "return".toList) (by decide) (by decide)
    | some e =>
      have hreturn := (hword (t := "return".toList) (by decide) (by decide)).join [' ']
        (Expr.sharp_written h)
      rwa [List.singleton_append, ← e.spaced_eq] at hreturn
  | imports span module? names =>
    simp only [fits, Bool.and_eq_true, Bool.not_eq_true'] at h
    cases module? with
    | none =>
      exact (hword (by decide) (by decide)).join [' '] (hnames h.1.2 h.2)
    | some module =>
      have hfrom := (hword (t := "from".toList) (by decide) (by decide)).join
        (' ' :: (module.toList ++ " import ".toList)) (hnames h.1.2 h.2)
      rwa [List.cons_append, List.append_assoc] at hfrom
  | expr span value =>
    simp only [fits, Bool.and_eq_true] at h
    exact Expr.sharp_written h.1
  | pass span => exact hword (t := "pass".toList) (by decide) (by decide)

/-! ## The lines of blocks

A block is indented by four spaces more than the statement that it belongs to, and an `else` stands
as deep as its `if`. -/

theorem lines_of_isSimple {s : Stmt} (h : s.isSimple = true) (indent : Nat) :
    s.lines indent = [(indent, s.headLine)] := by
  cases s with
  | function | classDef | conditional => cases h
  | _ => rw [lines] <;> simp

mutual

/-- **Every line of a statement** is sealed and sharp, and none stands less deep than it. -/
theorem of_mem_lines (s : Stmt) (h : s.fits = true) (indent : Nat) :
    ∀ line ∈ s.lines indent, (Sealed ['\n'] line.2 ∧ Sharp line.2) ∧ indent ≤ line.1 := by
  have hhead : (Sealed ['\n'] s.headLine ∧ Sharp s.headLine) ∧ indent ≤ indent :=
    ⟨⟨sealed_headLine h, sharp_headLine h⟩, Nat.le_refl _⟩
  intro line hline
  cases s with
  | function span name decorators params result? body =>
    simp only [fits, Bool.and_eq_true] at h
    rw [lines, List.mem_append, List.mem_cons, List.mem_map] at hline
    rcases hline with ⟨d, hd, rfl⟩ | rfl | hline
    · have hfits := List.all_eq_true.1 h.1.1.1.1.2 d hd
      exact ⟨⟨((Expr.sealed_written hfits).mono (by decide)).cons (by decide) (by decide),
        (Sharp.singleton (c := '@') (by decide)).append (Expr.sharp_written hfits)⟩, Nat.le_refl _⟩
    · exact hhead
    · obtain ⟨hok, hle⟩ := of_mem_linesAll body h.2 (indent + 4) line hline
      exact ⟨hok, by omega⟩
  | classDef span name bases body =>
    simp only [fits, Bool.and_eq_true] at h
    rw [lines, List.mem_cons] at hline
    rcases hline with rfl | hline
    · exact hhead
    · obtain ⟨hok, hle⟩ := of_mem_linesAll body h.2 (indent + 4) line hline
      exact ⟨hok, by omega⟩
  | conditional span cond body orelse =>
    -- The one line that is no head line of a statement.
    have helse : Sealed ['\n'] "else:".toList ∧ Sharp "else:".toList :=
      ⟨.of_forall (by decide), .of_forall (by decide) (by decide)⟩
    simp only [fits, Bool.and_eq_true] at h
    rw [lines, List.mem_cons, List.mem_append] at hline
    rcases hline with rfl | hline | hline
    · exact hhead
    · obtain ⟨hok, hle⟩ := of_mem_linesAll body h.1.2 (indent + 4) line hline
      exact ⟨hok, by omega⟩
    · split at hline
      · cases hline
      · rcases List.mem_cons.1 hline with rfl | hline
        · exact ⟨helse, Nat.le_refl _⟩
        · obtain ⟨hok, hle⟩ := of_mem_linesAll orelse h.2 (indent + 4) line hline
          exact ⟨hok, by omega⟩
  | binding | result | imports | expr | pass =>
    rw [lines_of_isSimple rfl] at hline
    exact List.mem_singleton.1 hline ▸ hhead

/-- The same of the lines of a block. -/
theorem of_mem_linesAll : ∀ (body : List Stmt), fitsAll body = true → ∀ (indent : Nat),
    ∀ line ∈ linesAll indent body, (Sealed ['\n'] line.2 ∧ Sharp line.2) ∧ indent ≤ line.1
  | [], _, _ => by simp [linesAll]
  | s :: rest, h, indent => by
    simp only [fitsAll, Bool.and_eq_true] at h
    intro line hline
    rw [linesAll, List.mem_append] at hline
    exact hline.elim (of_mem_lines s h.1 indent line) (of_mem_linesAll rest h.2 indent line)

end

/-- A statement has a first line, as deep as the statement. -/
theorem exists_lines_eq (s : Stmt) (indent : Nat) :
    ∃ text more, s.lines indent = (indent, text) :: more := by
  cases s with
  | function span name decorators =>
    rw [lines]
    cases decorators with
    | nil => exact ⟨_, _, rfl⟩
    | cons d ds => exact ⟨_, _, rfl⟩
  | classDef | conditional => exact ⟨_, _, by rw [lines]⟩
  | binding | result | imports | expr | pass => exact ⟨_, [], lines_of_isSimple rfl indent⟩

/-- A block starts with a line of its own indentation. -/
theorem head?_linesAll (indent : Nat) (body : List Stmt) :
    ∀ line ∈ (linesAll indent body).head?, line.1 = indent := by
  cases body with
  | nil => simp [linesAll]
  | cons s rest =>
    obtain ⟨text, more, hlines⟩ := s.exists_lines_eq indent
    rw [linesAll, hlines]
    rintro _ ⟨⟩
    rfl

end Stmt

/-! ## One line and the lines below it

What the reader of blocks does in the three cases that occur in a written file. -/

namespace Outline

variable {indent : Nat} {decorators : List Expr} {chained : Bool} {line : Line}
  {nested rest : Outline}

/-- The line of a decorator is passed over, and the decorator is kept for the lines after it. -/
theorem clauses_decorator {e : Expr} (hindent : line.indent = indent)
    (hat : line.text.text.head? = some '@') (hexpr : (line.text.drop 1).expr = .ok e) :
    (cons line nil rest).clauses indent decorators chained =
      rest.clauses indent (decorators ++ [e]) false := by
  rw [clauses, if_neg (fun h => h hindent), if_pos hat, hexpr]
  rfl

/-- The line of a statement without a block is read as a clause of its own. -/
theorem clauses_simple {s : Stmt} {more : List Clause} (hindent : line.indent = indent)
    (hat : line.text.text.head? ≠ some '@') (hheader : readHeader? chained line.text = none)
    (hread : Stmt.readSimple line.text = .ok s) (hrest : rest.clauses indent [] false = .ok more) :
    (cons line nil rest).clauses indent [] chained = .ok (.stmt s :: more) := by
  rw [clauses, if_neg (fun h => h hindent), if_neg hat, hheader]
  simp only [readUndecorated, List.isEmpty_nil, if_true, hread]
  simp only [expectNone, bind, Except.bind, pure, Except.pure, Clause.isOpen, hrest]

/-- The line of a header takes the lines below it for its block. -/
theorem clauses_header {header : Header} {inline : Segment} {top : Line}
    {below more : List Clause}
    (hindent : line.indent = indent) (hat : line.text.text.head? ≠ some '@')
    (hheader : readHeader? chained line.text = some (.ok (header, inline)))
    (hinline : inline.isEmpty = true) (htop : nested.head? = some top)
    (hnested : nested.clauses top.indent [] false = .ok below)
    (hrest : rest.clauses indent [] (Clause.ofHeader line.text.span decorators header
      (Clause.statements below)).isOpen = .ok more) :
    (cons line nested rest).clauses indent decorators chained =
      .ok (Clause.ofHeader line.text.span decorators header (Clause.statements below) :: more) := by
  cases nested with
  | nil => cases htop
  | cons first deeper after =>
    cases htop
    rw [clauses, if_neg (fun h => h hindent), if_neg hat, hheader]
    simp only [bind, Except.bind, hinline, Bool.not_true, Bool.false_eq_true, if_false, hnested,
      pure, Except.pure, hrest]

end Outline

/-! ## Joining clauses

The clauses are joined from the right.  At each step there are the statements made so far, and the
rest of a conditional, which has to be empty when a statement comes that is none. -/

/-- Clauses that are joined to some statements, with nothing left over. -/
def Yields (clauses : List Clause) (body : List Stmt) : Prop :=
  ∃ ss, clauses.foldr Clause.attach ([], []) = ([], ss) ∧ Stmt.bareAll ss = Stmt.bareAll body

namespace Yields

variable {clauses : List Clause} {rest : List Stmt} {s s' : Stmt} {line span : Span}
  {cond cond' : Expr} {body body' orelse orelse' : List Stmt}

theorem nil : Yields [] [] := ⟨[], rfl, rfl⟩

/-- A statement that is no conditional stands for itself. -/
theorem stmt (hbare : s'.bare = s.bare) (h : Yields clauses rest) :
    Yields (.stmt s' :: clauses) (s :: rest) := by
  obtain ⟨ss, hjoin, hss⟩ := h
  refine ⟨s' :: ss, ?_, by rw [Stmt.bareAll, Stmt.bareAll, hbare, hss]⟩
  rw [List.foldr_cons, hjoin]
  rfl

/-- An `if` without an `else` is joined with nothing. -/
theorem conditional (hcond : cond'.bare = cond.bare)
    (hbody : Stmt.bareAll body' = Stmt.bareAll body) (h : Yields clauses rest) :
    Yields (.conditional line cond' body' :: clauses) (.conditional span cond body [] :: rest) := by
  obtain ⟨ss, hjoin, hss⟩ := h
  refine ⟨Clause.join line cond' body' [] :: ss, ?_, ?_⟩
  · rw [List.foldr_cons, hjoin]
    rfl
  · rw [Stmt.bareAll, Stmt.bareAll, hss, Clause.join, Stmt.bare, Stmt.bare, hcond, hbody]

/-- **An `else` belongs to the `if` before it.** -/
theorem otherwise (hcond : cond'.bare = cond.bare)
    (hbody : Stmt.bareAll body' = Stmt.bareAll body)
    (horelse : Stmt.bareAll orelse' = Stmt.bareAll orelse) (h : Yields clauses rest) :
    Yields (.conditional line cond' body' :: .otherwise orelse' :: clauses)
      (.conditional span cond body orelse :: rest) := by
  obtain ⟨ss, hjoin, hss⟩ := h
  refine ⟨Clause.join line cond' body' orelse' :: ss, ?_, ?_⟩
  · rw [List.foldr_cons, List.foldr_cons, hjoin]
    rfl
  · rw [Stmt.bareAll, Stmt.bareAll, hss, Clause.join, Stmt.bare, Stmt.bare, hcond, hbody, horelse]

/-- What is joined, spans aside, are the statements. -/
theorem bareAll_statements (h : Yields clauses body) :
    Stmt.bareAll (Clause.statements clauses) = Stmt.bareAll body := by
  obtain ⟨ss, hjoin, hss⟩ := h
  rw [Clause.statements, hjoin, hss]

end Yields

/-! ## Blocks

By recursion on the list of statements and on the blocks of each.  The lines of the list are those
of the first statement and those of the others, and the outline is cut between them by indentation.
-/

/-- The outline of the lines of a block is read as its statements. -/
def BlockReads (body : List Stmt) : Prop :=
  ∀ (indent : Nat) (chained : Bool) (ls : List Line),
    ls.map Line.shape = Stmt.linesAll indent body →
      ∃ clauses, (Outline.ofLines ls).clauses indent [] chained = .ok clauses ∧ Yields clauses body

section blocks

variable {indent : Nat} {chained : Bool} {l : Line} {nested after : List Line}
  {body rest : List Stmt}

/-- The lines after a block start with one that is not deeper than the block. -/
theorem indent_le_of_shape (h : after.map Line.shape = Stmt.linesAll indent rest) :
    ∀ m ∈ after.head?, m.indent ≤ indent := by
  intro m hm
  have hshape : m.shape ∈ (Stmt.linesAll indent rest).head? := by
    rw [← h, List.head?_map, hm]
    rfl
  exact Nat.le_of_eq (Stmt.head?_linesAll indent rest m.shape hshape)

/-- The lines below a header are deeper than it. -/
theorem lt_indent_of_shape (hfits : Stmt.fitsAll body = true)
    (h : nested.map Line.shape = Stmt.linesAll (indent + 4) body) :
    ∀ m ∈ nested, indent < m.indent := by
  intro m hm
  have hshape : m.shape ∈ Stmt.linesAll (indent + 4) body := h ▸ List.mem_map_of_mem hm
  have hle : indent + 4 ≤ m.indent := (Stmt.of_mem_linesAll body hfits _ m.shape hshape).2
  omega

/-- **A header and the lines of its block** are read as the clause with the statements of the
block. -/
theorem exists_clauses_header {decorators : List Expr} {header : Header} {inline : Segment}
    (hbody : BlockReads body) (hne : body ≠ []) (hfits : Stmt.fitsAll body = true)
    (hnested : nested.map Line.shape = Stmt.linesAll (indent + 4) body)
    (hafter : ∀ m ∈ after.head?, m.indent ≤ indent) (hindent : l.indent = indent)
    (hat : l.text.text.head? ≠ some '@')
    (hheader : readHeader? chained l.text = some (.ok (header, inline)))
    (hinline : inline.isEmpty = true) :
    ∃ body', Stmt.bareAll body' = Stmt.bareAll body ∧ ∀ more,
      (Outline.ofLines after).clauses indent []
        (Clause.ofHeader l.text.span decorators header body').isOpen = .ok more →
      (Outline.ofLines (l :: (nested ++ after))).clauses indent decorators chained =
        .ok (Clause.ofHeader l.text.span decorators header body' :: more) := by
  obtain ⟨s, more, rfl⟩ := List.exists_cons_of_ne_nil hne
  obtain ⟨text, lines, hlines⟩ := s.exists_lines_eq (indent + 4)
  obtain ⟨top, deeper, rfl, htop, -⟩ := List.map_eq_cons_iff.1
    (hnested.trans (by rw [Stmt.linesAll, hlines, List.cons_append]))
  have htop' : top.indent = indent + 4 := congrArg Prod.fst htop
  obtain ⟨below, hbelow, hyields⟩ := hbody (indent + 4) false _ hnested
  refine ⟨Clause.statements below, hyields.bareAll_statements, fun more hmore => ?_⟩
  rw [Outline.ofLines_cons (hindent ▸ lt_indent_of_shape hfits hnested) (hindent ▸ hafter)]
  exact Outline.clauses_header hindent hat hheader hinline (Outline.head?_ofLines _)
    (htop' ▸ hbelow) hmore

/-- Decorators are kept for the definition after them. -/
theorem exists_clauses_decorators {decorators : List Expr} {ls : List Line}
    (hfits : ∀ d ∈ decorators, d.fits .whole = true)
    (hls : ls.map Line.shape = decorators.map fun d => (indent, '@' :: d.written))
    (hafter : ∀ m ∈ after.head?, m.indent ≤ indent) (before : List Expr) (chained : Bool) :
    ∃ decorators' chained', decorators'.map Expr.bare = decorators.map Expr.bare ∧
      (Outline.ofLines (ls ++ after)).clauses indent before chained =
        (Outline.ofLines after).clauses indent (before ++ decorators') chained' := by
  induction decorators generalizing ls before chained with
  | nil =>
    rw [List.map_nil, List.map_eq_nil_iff] at hls
    exact ⟨[], chained, rfl, by rw [hls, List.append_nil, List.nil_append]⟩
  | cons d ds ih =>
    obtain ⟨l, ls, rfl, hl, hls⟩ := List.map_eq_cons_iff.1 hls
    have hd := hfits d List.mem_cons_self
    have hindent : l.indent = indent := congrArg Prod.fst hl
    have htext : l.text.text = '@' :: d.written := congrArg Prod.snd hl
    -- Nothing is nested below a decorator: the next line is another one, or what is after them.
    have hnext : ∀ m ∈ (ls ++ after).head?, m.indent ≤ l.indent := by
      intro m hm
      cases ls with
      | nil => exact hindent ▸ hafter m hm
      | cons first more =>
        have hmem : m.shape ∈ ds.map fun d => (indent, '@' :: d.written) := by
          cases hm
          exact hls ▸ List.mem_cons_self
        obtain ⟨e, -, he⟩ := List.mem_map.1 hmem
        exact hindent ▸ Nat.le_of_eq (congrArg Prod.fst he).symm
    have hdrop : (l.text.drop 1).text = d.written := Segment.text_drop_succ (u := []) htext
    obtain ⟨d', hread, hbare⟩ := Segment.expr_of_trim hd
      (by rw [hdrop, trim_eq_self (Expr.sharp_written hd)])
    obtain ⟨ds', chained', hds, hclauses⟩ := ih (fun d hd => hfits d (List.mem_cons_of_mem _ hd))
      hls (before ++ [d']) false
    refine ⟨d' :: ds', chained', by rw [List.map_cons, List.map_cons, hbare, hds], ?_⟩
    have houtline : Outline.ofLines (l :: (ls ++ after)) =
        .cons l .nil (Outline.ofLines (ls ++ after)) :=
      Outline.ofLines_cons_nil hnext
    rw [List.cons_append, houtline]
    calc (Outline.cons l .nil (Outline.ofLines (ls ++ after))).clauses indent before chained
      _ = (Outline.ofLines (ls ++ after)).clauses indent (before ++ [d']) false :=
        Outline.clauses_decorator hindent (by rw [htext]; rfl) hread
      _ = (Outline.ofLines after).clauses indent (before ++ [d'] ++ ds') chained' := hclauses
      _ = _ := by rw [List.append_assoc, List.singleton_append]

end blocks

namespace BlockReads

variable {s : Stmt} {span : Span} {body orelse rest : List Stmt}

theorem nil : BlockReads [] := by
  intro indent chained ls hls
  rw [Stmt.linesAll, List.map_eq_nil_iff] at hls
  exact ⟨[], by rw [hls]; rfl, .nil⟩

/-- A statement without a block, and then the others. -/
theorem simple (hsimple : s.isSimple = true) (h : s.fits = true) (hrest : BlockReads rest) :
    BlockReads (s :: rest) := by
  intro indent chained ls hls
  rw [Stmt.linesAll, Stmt.lines_of_isSimple hsimple, List.singleton_append] at hls
  obtain ⟨l, after, rfl, hl, hafter⟩ := List.map_eq_cons_iff.1 hls
  have hindent : l.indent = indent := congrArg Prod.fst hl
  have htext : l.text.text = s.headLine := congrArg Prod.snd hl
  obtain ⟨s', hread, hbare⟩ := Stmt.readSimple_headLine hsimple h htext
  obtain ⟨clauses, hclauses, hyields⟩ := hrest indent false after hafter
  refine ⟨.stmt s' :: clauses, ?_, hyields.stmt hbare⟩
  have houtline : Outline.ofLines (l :: after) = .cons l .nil (Outline.ofLines after) :=
    Outline.ofLines_cons_nil (hindent ▸ indent_le_of_shape hafter)
  rw [houtline]
  exact Outline.clauses_simple hindent (htext ▸ Stmt.head?_headLine h)
    (Stmt.readHeader?_headLine hsimple h htext chained) hread hclauses

/-- A function: the lines of its decorators, its header, and the lines of its block. -/
theorem function {name : String} {decorators : List Expr} {params : List Param}
    {result? : Option Expr}
    (h : (Stmt.function span name decorators params result? body).fits = true)
    (hbody : BlockReads body) (hrest : BlockReads rest) :
    BlockReads (.function span name decorators params result? body :: rest) := by
  intro indent chained ls hls
  have hhead := Stmt.head?_headLine h
  have hfits := h
  simp only [Stmt.fits, Bool.and_eq_true, Bool.not_eq_true', List.all_eq_true,
    List.isEmpty_eq_false_iff] at hfits
  obtain ⟨⟨⟨⟨⟨-, hds⟩, -⟩, -⟩, hne⟩, hbodyfits⟩ := hfits
  rw [Stmt.linesAll, Stmt.lines, List.append_assoc, List.cons_append] at hls
  obtain ⟨before, lines, rfl, hbefore, hlines⟩ := List.map_eq_append_iff.1 hls
  obtain ⟨l, lines, rfl, hl, hlines⟩ := List.map_eq_cons_iff.1 hlines
  obtain ⟨nested, after, rfl, hnested, hafter⟩ := List.map_eq_append_iff.1 hlines
  have hindent : l.indent = indent := congrArg Prod.fst hl
  have htext : l.text.text = _ := congrArg Prod.snd hl
  have hnext : ∀ m ∈ (l :: (nested ++ after)).head?, m.indent ≤ indent := by
    rintro _ ⟨⟩
    exact Nat.le_of_eq hindent
  obtain ⟨ds', chained', hds', hdecorators⟩ :=
    exists_clauses_decorators hds hbefore hnext [] chained
  obtain ⟨params', result', inline, hheader, hinline, hparams, hresult⟩ :=
    readHeader?_function h htext chained'
  obtain ⟨body', hbare, hclause⟩ := exists_clauses_header hbody hne hbodyfits
    hnested (indent_le_of_shape hafter) hindent (htext ▸ hhead) hheader hinline
  obtain ⟨clauses, hclauses, hyields⟩ := hrest indent false after hafter
  refine ⟨_, hdecorators.trans (hclause clauses hclauses), hyields.stmt ?_⟩
  simp [Stmt.bare, hds', hparams, hresult, hbare]

/-- A class: its header and the lines of its block. -/
theorem classDef {name : String} {bases : List Expr}
    (h : (Stmt.classDef span name bases body).fits = true) (hbody : BlockReads body)
    (hrest : BlockReads rest) : BlockReads (.classDef span name bases body :: rest) := by
  intro indent chained ls hls
  have hhead := Stmt.head?_headLine h
  have hfits := h
  simp only [Stmt.fits, Bool.and_eq_true, Bool.not_eq_true', List.isEmpty_eq_false_iff] at hfits
  obtain ⟨⟨-, hne⟩, hbodyfits⟩ := hfits
  rw [Stmt.linesAll, Stmt.lines, List.cons_append] at hls
  obtain ⟨l, lines, rfl, hl, hlines⟩ := List.map_eq_cons_iff.1 hls
  obtain ⟨nested, after, rfl, hnested, hafter⟩ := List.map_eq_append_iff.1 hlines
  have hindent : l.indent = indent := congrArg Prod.fst hl
  have htext : l.text.text = _ := congrArg Prod.snd hl
  obtain ⟨bases', inline, hheader, hinline, hbases⟩ := readHeader?_classDef h htext chained
  obtain ⟨body', hbare, hclause⟩ := exists_clauses_header hbody hne hbodyfits
    hnested (indent_le_of_shape hafter) hindent (htext ▸ hhead) hheader hinline
  obtain ⟨clauses, hclauses, hyields⟩ := hrest indent false after hafter
  refine ⟨_, hclause clauses hclauses, hyields.stmt ?_⟩
  simp [Stmt.bare, hbases, hbare]

/-- A conditional: its header and the lines of its block, and then an `else` with the lines of the
other block, if there are any. -/
theorem conditional {cond : Expr} (h : (Stmt.conditional span cond body orelse).fits = true)
    (hbody : BlockReads body) (horelse : BlockReads orelse) (hrest : BlockReads rest) :
    BlockReads (.conditional span cond body orelse :: rest) := by
  intro indent chained ls hls
  have hhead := Stmt.head?_headLine h
  have hfits := h
  simp only [Stmt.fits, Bool.and_eq_true, Bool.not_eq_true', List.isEmpty_eq_false_iff] at hfits
  obtain ⟨⟨⟨-, hne⟩, hbodyfits⟩, horelsefits⟩ := hfits
  rw [Stmt.linesAll, Stmt.lines, List.cons_append, List.append_assoc] at hls
  obtain ⟨l, lines, rfl, hl, hlines⟩ := List.map_eq_cons_iff.1 hls
  obtain ⟨nested, lines, rfl, hnested, hlines⟩ := List.map_eq_append_iff.1 hlines
  have hindent : l.indent = indent := congrArg Prod.fst hl
  have htext : l.text.text = _ := congrArg Prod.snd hl
  obtain ⟨cond', inline, hheader, hinline, hcond⟩ := readHeader?_conditional h htext chained
  cases orelse with
  | nil =>
    rw [List.isEmpty_nil, if_pos rfl, List.nil_append] at hlines
    obtain ⟨body', hbare, hclause⟩ := exists_clauses_header hbody hne hbodyfits
      hnested (indent_le_of_shape hlines) hindent (htext ▸ hhead) hheader hinline
    obtain ⟨clauses, hclauses, hyields⟩ := hrest indent true lines hlines
    exact ⟨_, hclause clauses hclauses, hyields.conditional hcond hbare⟩
  | cons first more =>
    rw [List.isEmpty_cons, if_neg Bool.false_ne_true, List.cons_append] at hlines
    obtain ⟨m, lines, rfl, hm, hlines⟩ := List.map_eq_cons_iff.1 hlines
    obtain ⟨nested', after, rfl, hnested', hafter⟩ := List.map_eq_append_iff.1 hlines
    have hindent' : m.indent = indent := congrArg Prod.fst hm
    have htext' : m.text.text = "else:".toList := congrArg Prod.snd hm
    have hnext : ∀ l ∈ (m :: (nested' ++ after)).head?, l.indent ≤ indent := by
      rintro _ ⟨⟩
      exact Nat.le_of_eq hindent'
    obtain ⟨body', hbare, hclause⟩ := exists_clauses_header hbody hne hbodyfits
      hnested hnext hindent (htext ▸ hhead) hheader hinline
    obtain ⟨inline', hheader', hinline'⟩ := readHeader?_otherwise htext'
    obtain ⟨orelse', hbare', hclause'⟩ := exists_clauses_header horelse
      (List.cons_ne_nil first more) horelsefits hnested' (indent_le_of_shape hafter) hindent'
      (by rw [htext']; decide) hheader' hinline'
    obtain ⟨clauses, hclauses, hyields⟩ := hrest indent false after hafter
    exact ⟨_, hclause _ (hclause' clauses hclauses), hyields.otherwise hcond hbare hbare'⟩

/-- **Every block is read as its statements.** -/
theorem of_fits (body : List Stmt) (h : Stmt.fitsAll body = true) : BlockReads body := by
  cases body with
  | nil => exact nil
  | cons s rest =>
    rw [Stmt.fitsAll, Bool.and_eq_true] at h
    have hrest := of_fits rest h.2
    have hs := h.1
    cases s with
    | function span name decorators params result? body =>
      simp only [Stmt.fits, Bool.and_eq_true] at hs
      exact function h.1 (of_fits body hs.2) hrest
    | classDef span name bases body =>
      simp only [Stmt.fits, Bool.and_eq_true] at hs
      exact classDef h.1 (of_fits body hs.2) hrest
    | conditional span cond body orelse =>
      simp only [Stmt.fits, Bool.and_eq_true] at hs
      exact conditional h.1 (of_fits body hs.1.2) (of_fits orelse hs.2) hrest
    | binding | result | imports | expr | pass => exact simple rfl h.1 hrest
termination_by sizeOf body

end BlockReads

/-! ## Files -/

/-- **Writing and reading a file.** A file that is written statement by statement is read as those
statements, spans aside: the same names, expressions, decorators and blocks, nested in the same way.
`Stmt.fitsAll` asks no more than that each statement can be told by its first word and that its
parts can be told from the separators around them. -/
theorem Node.read_source (span : Span) (body : List Stmt) (h : Stmt.fitsAll body = true) :
    ∃ file, Node.read (source body) = .ok file ∧ file.bare = (Node.file span body).bare := by
  have hlines := Line.shape_ofFile
    fun line hline => (Stmt.of_mem_linesAll body h 0 line hline).1
  obtain ⟨clauses, hclauses, hyields⟩ := BlockReads.of_fits body h 0 false _ hlines
  refine ⟨.file ⟨0, utf8Length (source body)⟩ (Clause.statements clauses), ?_, ?_⟩
  · rw [Node.read, source, hclauses]
    rfl
  · rw [Node.bare, Node.bare, hyields.bareAll_statements]


/-- A function with a decorator, whose parameter has a default that looks like the end of the
list. -/
theorem Node.read_source_function :
    let body : List Stmt :=
      [.function default "f" [.name default "d"]
        [⟨default, "x", some (.dangling default .bar (.name default "int")),
          some (.str default "):\n")⟩] none
        [.conditional default (.name default "x") [.pass default]
          [.binding default "y" none (some (.tuple default []))]]]
    let text :=
      "@d\ndef f(x: int | = \"):\\n\"):\n    if x:\n        pass\n    else:\n        y = ( )\n"
    ∃ file, Node.read text.toList = .ok file ∧ file.bare = (Node.file default body).bare := by
  intro body text
  have htext : source body = text.toList := by decide
  rw [← htext]
  exact Node.read_source default body (by decide)

end TypeReveal
