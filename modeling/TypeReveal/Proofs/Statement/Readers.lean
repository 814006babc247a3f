import TypeReveal.Proofs.Layout.Separator
import TypeReveal.Proofs.Outcome
import TypeReveal.Syntax.Block

/-!
# What the readers of statements do

What has happened when a part of a statement has been read: where its text was cut, and what was
read from the pieces.  There is one lemma for each reader, so that no other proof about all that is
read has to open one.

* `Segment.Binds` — an annotation and a value (`readBinding_eq_ok`).
* `Stmt.IsSimpleIn` — a statement without a block (`Stmt.isSimpleIn_of_readSimple`).
* `readHeader?_cases` — the header of a statement with one, with a lemma for each kind of header.
* `Outline.clauses_cases` — a line of a block, with the lines below it.
* `Node.read_eq_ok` — a file.

Readers are programs in the monad of errors, with searches, conditions and calls of other readers.
Each lemma says what is true when such a program has come to its end, in terms of cuts of the
segment and readings of the pieces, and leaves out which errors were possible on the way.
-/

set_option autoImplicit false
namespace TypeReveal

variable {seg rest head inline line : Segment} {e : Expr}

/-! ## Statements without a block

The kinds of statements, with the pieces of the segment that their expressions are read from.  A
binding and an expression are told apart by whether there is a colon or an equals sign outside of
everything. -/

/-- The expression in a segment is read from the segment without the blanks around it. -/
theorem Segment.expr_eq_ok :
    seg.expr = .ok e ↔ Expr.read seg.trim.text seg.trim.start = .ok e := by
  rw [expr]
  cases Expr.read seg.trim.text seg.trim.start with
  | error => exact ⟨nofun, nofun⟩
  | ok f => rw [Except.mapError, Except.ok.injEq, Except.ok.injEq]

/-- What an annotation and a value are read from: the value stands behind the equals sign, and the
annotation between a colon and that, or behind the colon if there is no equals sign. -/
inductive Segment.Binds (seg : Segment) :
    Option Nat → Option Nat → Option Expr → Option Expr → Prop
  | both {c a : Nat} {hint value : Expr} (hlt : c < a)
    (hhint : (seg.slice (c + 1) a).expr = .ok hint) (hvalue : (seg.drop (a + 1)).expr = .ok value) :
    Binds seg (some c) (some a) (some hint) (some value)
  | value {colon? : Option Nat} {a : Nat} {value : Expr} (hcolon : ∀ c ∈ colon?, a ≤ c)
    (hvalue : (seg.drop (a + 1)).expr = .ok value) : Binds seg colon? (some a) none (some value)
  | hint {c : Nat} {hint : Expr} (hhint : (seg.drop (c + 1)).expr = .ok hint) :
    Binds seg (some c) none (some hint) none
  | nothing : Binds seg none none none none

/-- **An annotation and a value**, read at the places of a colon and an equals sign. -/
theorem readBinding_eq_ok {colon? equals? : Option Nat} {annotation? value? : Option Expr} :
    readBinding seg colon? equals? = .ok (annotation?, value?) ↔
      seg.Binds colon? equals? annotation? value? := by
  constructor
  · intro h
    rw [readBinding.eq_def] at h
    split at h
    · split at h
      · next hlt =>
        obtain ⟨hint, hhint, h⟩ := bind_eq_ok.1 h
        obtain ⟨value, hvalue, h⟩ := bind_eq_ok.1 h
        cases h
        exact .both hlt hhint hvalue
      · next hlt =>
        obtain ⟨value, hvalue, h⟩ := bind_eq_ok.1 h
        cases h
        refine .value ?_ hvalue
        rintro c ⟨⟩
        exact Nat.le_of_not_lt hlt
    · obtain ⟨value, hvalue, h⟩ := bind_eq_ok.1 h
      cases h
      exact .value nofun hvalue
    · obtain ⟨hint, hhint, h⟩ := bind_eq_ok.1 h
      cases h
      exact .hint hhint
    · cases h
      exact .nothing
  · intro h
    cases h with
    | both hlt hhint hvalue => rw [readBinding, if_pos hlt, hhint, hvalue]; rfl
    | @value colon? a value hcolon hvalue =>
      cases colon? with
      | none => rw [readBinding, hvalue]; rfl
      | some c => rw [readBinding, if_neg (Nat.not_lt.2 (hcolon c rfl)), hvalue]; rfl
    | hint hhint => rw [readBinding, hhint]; rfl
    | nothing => rfl

/-- What a statement without a block can be, and where its expressions are read. -/
inductive Stmt.IsSimpleIn (seg : Segment) : Stmt → Prop
  | pass : IsSimpleIn seg (.pass seg.span)
  | imports (module? : Option String) (names : List String) :
    IsSimpleIn seg (.imports seg.span module? names)
  | nothing : IsSimpleIn seg (.result seg.span none)
  | result {rest : Segment} {value : Expr} (hrest : seg.afterKeyword? "return" = some rest)
    (hvalue : rest.expr = .ok value) : IsSimpleIn seg (.result seg.span (some value))
  | binding {name : List Char} {annotation? value? : Option Expr}
    (hbinding : readBinding seg (seg.index? Segment.colon) (seg.index? Segment.equals) =
      .ok (annotation?, value?)) :
    IsSimpleIn seg (.binding seg.span (String.ofList name) annotation? value?)
  | expr {value : Expr} (hvalue : seg.expr = .ok value) : IsSimpleIn seg (.expr seg.span value)

/-- **A statement without a block** is one of these. -/
theorem Stmt.isSimpleIn_of_readSimple {s : Stmt} (h : Stmt.readSimple seg = .ok s) :
    s.IsSimpleIn seg := by
  rw [Stmt.readSimple] at h
  split at h
  · cases h
    exact .pass
  · split at h
    · next hrest =>
      rw [readResult] at h
      split at h
      · cases h
        exact .nothing
      · obtain ⟨value, hvalue, h⟩ := bind_eq_ok.1 h
        cases h
        exact .result hrest hvalue
    · cases h
      exact .imports _ _
    · rw [readFrom] at h
      split at h <;> cases h
      exact .imports _ _
    · rw [readPlain] at h
      split at h
      · obtain ⟨⟨annotation?, value?⟩, hbinding, h⟩ := bind_eq_ok.1 h
        cases h
        exact .binding hbinding
      · obtain ⟨value, hvalue, h⟩ := bind_eq_ok.1 h
        cases h
        exact .expr hvalue

/-! ## Parameters

Stars in front belong to no parameter.  A part that is a single star or slash declares none. -/

/-- A parameter is read like a binding if its colon stands before its equals sign. -/
theorem readNamedParam_eq {seg : Segment} {name : List Char}
    (htrim : trim (seg.text.take ((first? (seg.index? Segment.colon)
      (seg.index? Segment.equals)).getD seg.text.length)) = name) (hname : isName name = true)
    (horder : ∀ c ∈ seg.index? Segment.colon, ∀ a ∈ seg.index? Segment.equals, c < a) :
    readNamedParam seg = do
      let (annotation?, default?) ←
        readBinding seg (seg.index? Segment.colon) (seg.index? Segment.equals)
      return ⟨seg.span, String.ofList name, annotation?, default?⟩ := by
  rw [readNamedParam]
  simp only [htrim, hname]
  cases hc : seg.index? Segment.colon with
  | none =>
    cases seg.index? Segment.equals with
    | none => rfl
    | some a =>
      simp only [readBinding]
      cases (seg.drop (a + 1)).expr <;> rfl
  | some c =>
    cases ha : seg.index? Segment.equals with
    | none =>
      simp only [readBinding]
      cases (seg.drop (c + 1)).expr <;> rfl
    | some a =>
      have hlt := horder c hc a ha
      simp only [readBinding, if_pos hlt, if_neg (Nat.not_lt.2 (Nat.le_of_lt hlt))]
      cases (seg.slice (c + 1) a).expr with
      | error => rfl
      | ok => cases (seg.drop (a + 1)).expr <;> rfl

/-- **A parameter**: its name stands before a colon and an equals sign, in this order if there are
both, and the rest is read like a binding. -/
theorem exists_of_readNamedParam {p : Param} (h : readNamedParam seg = .ok p) :
    ∃ name, trim (seg.text.take ((first? (seg.index? Segment.colon)
        (seg.index? Segment.equals)).getD seg.text.length)) = name ∧ isName name = true ∧
      (∀ c ∈ seg.index? Segment.colon, ∀ n ∈ seg.index? Segment.equals, c < n) ∧
      ∃ annotation? default?, readBinding seg (seg.index? Segment.colon)
          (seg.index? Segment.equals) = .ok (annotation?, default?) ∧
        p = ⟨seg.span, String.ofList name, annotation?, default?⟩ := by
  have hname : isName (trim (seg.text.take ((first? (seg.index? Segment.colon)
      (seg.index? Segment.equals)).getD seg.text.length))) = true := by
    rw [readNamedParam] at h
    split at h
    · cases h
    · next hname => simpa using hname
  have horder : ∀ c ∈ seg.index? Segment.colon, ∀ n ∈ seg.index? Segment.equals, c < n := by
    intro c hc n hn
    rw [Option.mem_def] at hc hn
    rw [hc, hn] at hname
    rw [readNamedParam] at h
    simp only [hc, hn, hname, Bool.not_true, Bool.false_eq_true, if_false] at h
    split at h
    · cases h
    · next hle =>
      refine Nat.lt_of_le_of_ne (Nat.le_of_not_lt hle) ?_
      rintro rfl
      have hcolon := Segment.getElem?_of_colon hc
      rw [Segment.getElem?_of_equals hn] at hcolon
      cases hcolon
  rw [readNamedParam_eq rfl hname horder] at h
  obtain ⟨⟨annotation?, default?⟩, hread, h⟩ := bind_eq_ok.1 h
  exact ⟨_, rfl, hname, horder, annotation?, default?, hread, (Except.ok.inj h).symm⟩

/-- A part of a list of parameters declares nothing, or is a parameter behind its stars. -/
theorem readParam?_cases {p? : Option Param} (h : readParam? seg = .ok p?) :
    p? = none ∨ ∃ p, readNamedParam (seg.drop (seg.text.takeWhile (· == '*')).length) = .ok p ∧
      p? = some p := by
  rw [readParam?] at h
  split at h
  · exact .inl (Except.ok.inj h).symm
  · obtain ⟨p, hp, rfl⟩ := map_eq_ok.1 h
    exact .inr ⟨p, hp, rfl⟩

/-- **The parameters of a list** are those that its parts declare. -/
theorem readParams_eq_ok {params : List Param} :
    readParams seg = .ok params ↔
      ∃ ps, seg.parts.mapM readParam? = .ok ps ∧ params = ps.filterMap id := by
  rw [readParams, bind_eq_ok]
  refine exists_congr fun ps => and_congr_right fun _ => ?_
  exact ⟨fun h => (Except.ok.inj h).symm, fun h => congrArg Except.ok h.symm⟩

/-- A parameter of a list is read from a part of it. -/
theorem exists_readNamedParam_of_mem {params : List Param} (h : readParams seg = .ok params)
    {p : Param} (hp : p ∈ params) : ∃ part, readNamedParam part = .ok p := by
  obtain ⟨ps, hps, rfl⟩ := readParams_eq_ok.1 h
  obtain ⟨p?, hmem, rfl⟩ := List.mem_filterMap.1 hp
  obtain ⟨part, -, hpart⟩ := exists_of_mem_mapM hps hmem
  rcases readParam?_cases hpart with hnone | ⟨q, hq, hsome⟩
  · cases hnone
  · cases hsome
    exact ⟨_, hq⟩

/-! ## Headers

Each kind of header is read behind its keyword and yields the text behind its colon. -/

variable {header : Header}

/-- A header is cut at its first colon, and both sides are trimmed. -/
theorem splitHeader_eq_ok {what : Construct} :
    splitHeader seg what = .ok (head, inline) ↔ ∃ n, seg.index? Segment.colon = some n ∧
      head = (seg.take n).trim ∧ inline = (seg.drop (n + 1)).trim := by
  rw [splitHeader]
  cases seg.index? Segment.colon with
  | none => exact ⟨nofun, nofun⟩
  | some n =>
    constructor
    · intro h
      cases h
      exact ⟨n, rfl, rfl, rfl⟩
    · rintro ⟨n, ⟨⟩, rfl, rfl⟩
      rfl

/-- Behind the parameters stands an arrow with a result, or nothing. -/
theorem readResultType_cases {result? : Option Expr} (h : readResultType line head = .ok result?) :
    (['-', '>'] <+: head.text ∧ ∃ e, (head.drop 2).expr = .ok e ∧ result? = some e) ∨
      (head.text = [] ∧ result? = none) := by
  rw [readResultType] at h
  split at h
  · next harrow =>
    obtain ⟨e, he, rfl⟩ := map_eq_ok.1 h
    exact .inl ⟨List.isPrefixOf_iff_prefix.1 harrow, e, he, rfl⟩
  · split at h
    · next hempty =>
      cases h
      exact .inr ⟨List.isEmpty_iff.1 hempty, rfl⟩
    · cases h

/-- **The header of a function**: a name, a group, and up to the colon the result. -/
theorem readFunction_eq_ok : readFunction line rest = .ok (header, inline) ↔
    ∃ n close, rest.text.findIdx? (· == '(') = some n ∧
      isName (trim (rest.text.take n)) = true ∧ (rest.drop n).closing? = some close ∧
      ∃ head params result?,
        splitHeader ((rest.drop n).drop (close + 1)).trim .functionDefinition =
          .ok (head, inline) ∧
        readResultType line head = .ok result? ∧
        readParams ((rest.drop n).slice 1 close) = .ok params ∧
        header = .function (String.ofList (trim (rest.text.take n))) params result? := by
  rw [readFunction]
  simp only
  constructor
  · intro h
    split at h
    · cases h
    · next n hopen =>
      split at h
      · next close hname hclose =>
        obtain ⟨⟨head, inline'⟩, hsplit, h⟩ := bind_eq_ok.1 h
        obtain ⟨result?, hresult, h⟩ := bind_eq_ok.1 h
        obtain ⟨params, hparams, h⟩ := bind_eq_ok.1 h
        cases h
        exact ⟨n, close, hopen, hname, hclose, head, params, result?, hsplit, hresult, hparams, rfl⟩
      · cases h
  · rintro ⟨n, close, hopen, hname, hclose, head, params, result?, hsplit, hresult, hparams, rfl⟩
    simp only [hopen, hname, hclose]
    exact bind_eq_ok.2 ⟨_, hsplit, bind_eq_ok.2 ⟨_, hresult, bind_eq_ok.2 ⟨_, hparams, rfl⟩⟩⟩

/-- The bases are read from between the first opening parenthesis and the last closing one. -/
theorem exists_of_readBases {n : Nat} {bases : List Expr} (h : readBases line head n = .ok bases) :
    ∃ m, lastIndexOf? ')' head.text = some m ∧ n ≤ m ∧
      (head.slice (n + 1) m).parts.mapM Segment.expr = .ok bases := by
  rw [readBases] at h
  split at h
  · cases h
  · next m hclose =>
    split at h
    · cases h
    · next hle => exact ⟨m, hclose, Nat.le_of_not_lt hle, h⟩

/-- **The header of a class**: a name, and up to the colon perhaps base classes. -/
theorem readClass_eq_ok : readClass line rest = .ok (header, inline) ↔
    ∃ head name bases, splitHeader rest .classDefinition = .ok (head, inline) ∧
      header = .classDef (String.ofList (trim name)) bases ∧ isName (trim name) = true ∧
      ((head.text.findIdx? (· == '(') = none ∧ name = head.text ∧ bases = []) ∨
        ∃ n, head.text.findIdx? (· == '(') = some n ∧ name = head.text.take n ∧
          readBases line head n = .ok bases) := by
  rw [readClass, bind_eq_ok]
  constructor
  · rintro ⟨⟨head, inline'⟩, hsplit, h⟩
    obtain ⟨bases, hbases, h⟩ := bind_eq_ok.1 h
    simp only at h
    split at h
    · next hname =>
      cases h
      refine ⟨head, _, bases, hsplit, rfl, hname, ?_⟩
      cases hopen : head.text.findIdx? (· == '(') with
      | none =>
        rw [hopen] at hbases
        cases hbases
        exact .inl ⟨rfl, List.take_length, rfl⟩
      | some n =>
        rw [hopen] at hbases
        exact .inr ⟨n, rfl, rfl, hbases⟩
    · cases h
  · rintro ⟨head, name, bases, hsplit, rfl, hname, hbases⟩
    refine ⟨(head, inline), hsplit, bind_eq_ok.2 ⟨bases, ?_, ?_⟩⟩
    · rcases hbases with ⟨hnone, -, rfl⟩ | ⟨n, hopen, -, hbases⟩
      · simp only [hnone, Option.map_none, Option.getD_none]
      · simpa only [hopen, Option.map_some, Option.getD_some] using hbases
    · have hfound : head.text.take ((head.text.findIdx? (· == '(')).getD head.text.length) =
          name := by
        rcases hbases with ⟨hnone, rfl, -⟩ | ⟨n, hopen, rfl, -⟩
        · rw [hnone, Option.getD_none, List.take_length]
        · rw [hopen, Option.getD_some]
      simp only [hfound, hname, if_true]
      rfl

/-- A condition is all that stands before the colon. -/
theorem readCondition_eq_ok {cond : Expr} : readCondition rest = .ok (cond, inline) ↔
    ∃ head, splitHeader rest .ifStatement = .ok (head, inline) ∧ head.expr = .ok cond := by
  rw [readCondition, bind_eq_ok]
  constructor
  · rintro ⟨⟨head, inline'⟩, hsplit, h⟩
    obtain ⟨cond', hcond, h⟩ := bind_eq_ok.1 h
    cases h
    exact ⟨head, hsplit, hcond⟩
  · rintro ⟨head, hsplit, hcond⟩
    exact ⟨(head, inline), hsplit, bind_eq_ok.2 ⟨cond, hcond, rfl⟩⟩

/-- What a header is read from, and how. -/
theorem readHeader?_cases {chained : Bool}
    (h : readHeader? chained line = some (.ok (header, inline))) :
    (∃ rest, line.afterKeyword? "def" = some rest ∧
        readFunction line rest = .ok (header, inline)) ∨
      (∃ rest, line.afterKeyword? "class" = some rest ∧
        readClass line rest = .ok (header, inline)) ∨
      (∃ rest cond, line.afterKeyword? "if" = some rest ∧
        readCondition rest = .ok (cond, inline) ∧ header = .conditional cond) ∨
      (chained = true ∧ ∃ rest cond, line.afterKeyword? "elif" = some rest ∧
        readCondition rest = .ok (cond, inline) ∧ header = .alternative cond) ∨
      (chained = true ∧ ∃ rest head, line.afterKeyword? "else" = some rest ∧
        splitHeader rest .elseClause = .ok (head, inline) ∧ header = .otherwise) := by
  have hchain {keyword : String} {rest : Segment}
      (hrest : (if chained then line.afterKeyword? keyword else none) = some rest) :
      chained = true ∧ line.afterKeyword? keyword = some rest := by
    split at hrest
    · next hchained => exact ⟨hchained, hrest⟩
    · cases hrest
  rw [readHeader?] at h
  simp only at h
  split at h
  · next hrest => exact .inl ⟨_, hrest, Option.some_inj.1 h⟩
  · next hrest _ => exact .inr (.inl ⟨_, hrest, Option.some_inj.1 h⟩)
  · next hrest _ _ =>
    obtain ⟨⟨cond, inline'⟩, hcond, h⟩ := bind_eq_ok.1 (Option.some_inj.1 h)
    cases h
    exact .inr (.inr (.inl ⟨_, cond, hrest, hcond, rfl⟩))
  · next hrest _ _ _ =>
    obtain ⟨⟨cond, inline'⟩, hcond, h⟩ := bind_eq_ok.1 (Option.some_inj.1 h)
    cases h
    obtain ⟨hchained, hrest⟩ := hchain hrest
    exact .inr (.inr (.inr (.inl ⟨hchained, _, cond, hrest, hcond, rfl⟩)))
  · next hrest _ _ _ _ =>
    obtain ⟨⟨head, inline'⟩, hsplit, h⟩ := bind_eq_ok.1 (Option.some_inj.1 h)
    cases h
    obtain ⟨hchained, hrest⟩ := hchain hrest
    exact .inr (.inr (.inr (.inr ⟨hchained, _, head, hrest, hsplit, rfl⟩)))
  · cases h

/-! ## Statements from clauses

An invariant of clauses becomes one of statements if joining preserves it.  Joining is done in one
place, so the induction is done once. -/

/-- **What passes from clauses to statements** holds of all statements that the clauses make up, if
it passes from the rest of a conditional to the conditional. -/
theorem Clause.forall_statements {P : Stmt → Prop} {Q : Clause → Prop}
    (hstmt : ∀ {s : Stmt}, Q (.stmt s) → P s)
    (hjoin : ∀ {line : Span} {cond : Expr} {body orelse : List Stmt},
      Q (.conditional line cond body) → (∀ s ∈ orelse, P s) → P (join line cond body orelse))
    (halternative : ∀ {line : Span} {cond : Expr} {body : List Stmt},
      Q (.alternative line cond body) → Q (.conditional line cond body))
    (hotherwise : ∀ {body : List Stmt}, Q (.otherwise body) → ∀ s ∈ body, P s)
    {clauses : List Clause} (h : ∀ clause ∈ clauses, Q clause) :
    ∀ s ∈ statements clauses, P s := by
  have hboth : (∀ s ∈ (clauses.foldr attach ([], [])).1, P s) ∧
      ∀ s ∈ (clauses.foldr attach ([], [])).2, P s := by
    induction clauses with
    | nil => exact ⟨List.forall_mem_nil _, List.forall_mem_nil _⟩
    | cons clause clauses ih =>
      obtain ⟨hclause, hclauses⟩ := List.forall_mem_cons.1 h
      obtain ⟨hrest, hafter⟩ := ih hclauses
      rw [List.foldr_cons]
      cases clause with
      | stmt s =>
        exact ⟨List.forall_mem_nil _, List.forall_mem_cons.2 ⟨hstmt hclause, hafter⟩⟩
      | conditional line cond body =>
        exact ⟨List.forall_mem_nil _, List.forall_mem_cons.2 ⟨hjoin hclause hrest, hafter⟩⟩
      | alternative line cond body =>
        exact ⟨List.forall_mem_singleton.2 (hjoin (halternative hclause) hrest), hafter⟩
      | otherwise body => exact ⟨hotherwise hclause, hafter⟩
  exact hboth.2

/-! ## Blocks

A line is a decorator, a simple statement, or a header with its block on the line or below. -/

namespace Outline

variable {top : Line} {nested after : Outline} {indent : Nat} {decorators : List Expr}
  {chained : Bool} {clauses : List Clause}

/-- No decorators are left at the end of a block. -/
theorem clauses_nil_eq_ok :
    nil.clauses indent decorators chained = .ok clauses ↔ decorators = [] ∧ clauses = [] := by
  rw [Outline.clauses.eq_def]
  cases decorators using List.reverseRecOn with
  | nil => exact ⟨fun h => ⟨rfl, (Except.ok.inj h).symm⟩, fun h => congrArg Except.ok h.2.symm⟩
  | append_singleton ds d => simp [expectNoDecorators, bind, Except.bind]

theorem eq_nil_of_expectNone {o : Outline} (h : o.expectNone = .ok ()) : o = nil := by
  cases o with
  | nil => rfl
  | cons => cases h

/-- The block of a header: what follows the colon, or, if that is nothing, the lines below. -/
def ReadsBlock (inline : Segment) (nested : Outline) (body : List Stmt) : Prop :=
  (inline.isEmpty = false ∧ nested = nil ∧ ∃ s, Stmt.readSimple inline = .ok s ∧ body = [s]) ∨
    (inline.isEmpty = true ∧ ∃ first clauses, nested.head? = some first ∧
      nested.clauses first.indent [] false = .ok clauses ∧ body = Clause.statements clauses)

/-- A clause that is read is followed by those of the lines after it. -/
theorem eq_cons_of_clauses {clause : Clause} (h : (do
    let clause ← (pure clause : Except ParseError Clause)
    let more ← after.clauses indent [] clause.isOpen
    pure (clause :: more)) = .ok clauses) :
    ∃ more, clauses = clause :: more ∧ after.clauses indent [] clause.isOpen = .ok more := by
  obtain ⟨_, hclause, h⟩ := bind_eq_ok.1 h
  cases hclause
  obtain ⟨more, hmore, h⟩ := bind_eq_ok.1 h
  cases h
  exact ⟨more, rfl, hmore⟩

/-- What a line of a block can be: a decorator, a statement without a block, or the header of a
block, which stands after its colon or below it. -/
theorem clauses_cases
    (h : (cons top nested after).clauses indent decorators chained = .ok clauses) :
    top.indent = indent ∧
      ((top.text.text.head? = some '@' ∧ ∃ d, (top.text.drop 1).expr = .ok d ∧ nested = nil ∧
          after.clauses indent (decorators ++ [d]) false = .ok clauses) ∨
        top.text.text.head? ≠ some '@' ∧ ∃ clause more, clauses = clause :: more ∧
          after.clauses indent [] clause.isOpen = .ok more ∧
          ((∃ s, clause = .stmt s ∧ decorators = [] ∧ readHeader? chained top.text = none ∧
              Stmt.readSimple top.text = .ok s ∧ nested = nil) ∨
            ∃ header inline body, clause = .ofHeader top.text.span decorators header body ∧
              readHeader? chained top.text = some (.ok (header, inline)) ∧
              ReadsBlock inline nested body)) := by
  -- The cases are taken in the order of the reader: a wrong indent, a decorator, a plain statement,
  -- a header with its statement on the line, a header with a block.
  rw [Outline.clauses.eq_def] at h
  simp only at h
  split at h
  · obtain ⟨_, _, h⟩ := bind_eq_ok.1 h
    cases h
  · next hindent =>
    refine ⟨not_not.1 hindent, ?_⟩
    split at h
    · next hat =>
      obtain ⟨d, hd, h⟩ := bind_eq_ok.1 h
      obtain ⟨⟨⟩, hnested, h⟩ := bind_eq_ok.1 h
      exact .inl ⟨hat, d, hd, eq_nil_of_expectNone hnested, h⟩
    · next hat =>
      refine .inr ⟨hat, ?_⟩
      split at h
      · next hnone =>
        obtain ⟨s, hs, h⟩ := bind_eq_ok.1 h
        obtain ⟨⟨⟩, hnested, h⟩ := bind_eq_ok.1 h
        obtain ⟨more, rfl, hmore⟩ := eq_cons_of_clauses h
        rw [readUndecorated] at hs
        split at hs
        · next hempty =>
          exact ⟨_, more, rfl, hmore, .inl
            ⟨s, rfl, List.isEmpty_iff.1 hempty, hnone, hs, eq_nil_of_expectNone hnested⟩⟩
        · cases hs
      · next read hread =>
        obtain ⟨⟨header, inline⟩, rfl, hheader⟩ := bind_eq_ok.1 h
        by_cases hinline : (!inline.isEmpty) = true
        · rw [if_pos hinline] at hheader
          obtain ⟨s, hs, hheader⟩ := bind_eq_ok.1 hheader
          obtain ⟨⟨⟩, hnested, hheader⟩ := bind_eq_ok.1 hheader
          obtain ⟨more, rfl, hmore⟩ := eq_cons_of_clauses hheader
          exact ⟨_, more, rfl, hmore, .inr ⟨header, inline, [s], rfl, hread,
            .inl ⟨by simpa using hinline, eq_nil_of_expectNone hnested, s, hs, rfl⟩⟩⟩
        · rw [if_neg hinline] at hheader
          cases nested with
          | nil =>
            obtain ⟨_, hnone, _⟩ := bind_eq_ok.1 hheader
            cases hnone
          | cons line below rest =>
            obtain ⟨block, hblock, hheader⟩ := bind_eq_ok.1 hheader
            obtain ⟨more, rfl, hmore⟩ := eq_cons_of_clauses hheader
            exact ⟨_, more, rfl, hmore, .inr ⟨header, inline, Clause.statements block, rfl, hread,
              .inr ⟨by simpa using hinline, line, block, rfl, hblock, rfl⟩⟩⟩

end Outline

/-! ## Files -/

/-- **A file** is read if its outline is, and its tree holds the statements that the clauses make
up. -/
theorem Node.read_eq_ok {source : List Char} {node : Node} :
    Node.read source = .ok node ↔ ∃ clauses,
      (Outline.ofLines (Line.ofFile source)).clauses 0 [] false = .ok clauses ∧
        node = .file ⟨0, utf8Length source⟩ (Clause.statements clauses) := by
  rw [Node.read, bind_eq_ok]
  refine exists_congr fun clauses => and_congr_right fun _ => ?_
  exact ⟨fun h => (Except.ok.inj h).symm, fun h => congrArg Except.ok h.symm⟩

end TypeReveal
