import TypeReveal.Proofs.Quoting.Headers
import TypeReveal.Proofs.Quoting.Lines

/-!
# The line of an annotation

An annotation of a file stands on one of its lines (`Outline.At`): in a statement without a block,
in the header of a function, or behind the colon of a header.  When it is put in quotes the line
becomes one that follows it, and then all lines of the file are followed (`Outline.exists_of_at`).

There is one annotation and the tree has many places.  It is followed down through the clauses that
were read: a clause that holds it has it in its header, in the statement behind its colon, or in the
clauses of its block, and the last is the same question again, one level deeper.  At the end stands
a line.

All other lines are as they were, whatever they are read as.  `Outline.exists_of_at` turns the one
line into a cut of the list of lines, and so the statement about an outline into one about a file.
-/

set_option autoImplicit false
namespace TypeReveal

variable {a : Expr} {chained : Bool}

/-! ## Clauses

Statements are made of clauses by joining the parts of conditionals, and an annotation below the
joined statement stands below one of the parts. -/

namespace Clause

/-- `a` is an annotation in a clause. -/
def Annotated (a : Expr) : Clause → Prop
  | stmt s => Node.Annotated a (.stmt s)
  | conditional _ _ body | alternative _ _ body | otherwise body =>
    ∃ s ∈ body, Node.Annotated a (.stmt s)

variable {line : Span} {cond : Expr} {body orelse : List Stmt}

/-- An annotation in a conditional stands in one of its blocks. -/
theorem annotated_of_join (h : Node.Annotated a (.stmt (join line cond body orelse))) :
    ∃ s ∈ body ++ orelse, Node.Annotated a (.stmt s) := by
  cases h with
  | here h => cases h
  | deeper hchild h =>
    rcases List.mem_cons.1 hchild with rfl | hchild
    · exact absurd h Node.Annotated.not_expr
    · rw [← List.map_append] at hchild
      obtain ⟨s, hs, rfl⟩ := List.mem_map.1 hchild
      exact ⟨s, hs, h⟩

/-- **An annotation in statements** is one in the clauses that make them up. -/
theorem exists_annotated {clauses : List Clause} {s : Stmt} (hs : s ∈ statements clauses)
    (ha : Node.Annotated a (.stmt s)) : ∃ clause ∈ clauses, clause.Annotated a := by
  -- The branch still open is needed for the induction: an `elif` moves it into its statement.
  have hboth : ∀ s ∈ (clauses.foldr attach ([], [])).1 ++ (clauses.foldr attach ([], [])).2,
      Node.Annotated a (.stmt s) → ∃ clause ∈ clauses, clause.Annotated a := by
    clear hs ha
    induction clauses with
    | nil => exact fun s hs => absurd hs List.not_mem_nil
    | cons clause clauses ih =>
      intro s hs ha
      have hlater {s : Stmt} (hs : s ∈ (clauses.foldr attach ([], [])).1 ++
          (clauses.foldr attach ([], [])).2) (ha : Node.Annotated a (.stmt s)) :
          ∃ c ∈ clause :: clauses, c.Annotated a := by
        obtain ⟨c, hc, hac⟩ := ih s hs ha
        exact ⟨c, List.mem_cons_of_mem _ hc, hac⟩
      have hjoin {line : Span} {cond : Expr} {body : List Stmt}
          (hclause : (∃ s ∈ body, Node.Annotated a (.stmt s)) → clause.Annotated a)
          (ha : Node.Annotated a (.stmt (join line cond body (clauses.foldr attach ([], [])).1))) :
          ∃ c ∈ clause :: clauses, c.Annotated a := by
        obtain ⟨s, hs, ha⟩ := annotated_of_join ha
        rcases List.mem_append.1 hs with hs | hs
        · exact ⟨clause, List.mem_cons_self, hclause ⟨s, hs, ha⟩⟩
        · exact hlater (List.mem_append_left _ hs) ha
      rw [List.foldr_cons] at hs
      cases clause with
      | stmt first =>
        rcases List.mem_cons.1 hs with rfl | hs
        · exact ⟨_, List.mem_cons_self, ha⟩
        · exact hlater (List.mem_append_right _ hs) ha
      | conditional line cond body =>
        rcases List.mem_cons.1 hs with rfl | hs
        · exact hjoin id ha
        · exact hlater (List.mem_append_right _ hs) ha
      | alternative line cond body =>
        rcases List.mem_cons.1 hs with rfl | hs
        · exact hjoin id ha
        · exact hlater (List.mem_append_right _ hs) ha
      | otherwise body =>
        rcases List.mem_append.1 hs with hs | hs
        · exact ⟨_, List.mem_cons_self, s, hs, ha⟩
        · exact hlater (List.mem_append_right _ hs) ha
  exact hboth s (List.mem_append_right _ hs) ha

/-- An annotation in a clause with a header stands in the header or in the block. -/
theorem annotated_of_ofHeader {decorators : List Expr} {header : Header}
    (h : (ofHeader line decorators header body).Annotated a) :
    (∃ name params result?, header = .function name params result? ∧
      ((∃ p ∈ params, p.annotation? = some a) ∨ result? = some a)) ∨
    ∃ s ∈ body, Node.Annotated a (.stmt s) := by
  cases header with
  | function name params result? =>
    cases h with
    | here h => exact .inl ⟨name, params, result?, rfl, .inr h⟩
    | deeper hchild h =>
      simp only [Node.children, Stmt.children, List.mem_append] at hchild
      rcases hchild with ((hchild | hchild) | hchild) | hchild
      · exact absurd hchild h.not_mem_map_expr
      · obtain ⟨p, hp, rfl⟩ := List.mem_map.1 hchild
        exact .inl ⟨name, params, result?, rfl, .inl ⟨p, hp, h.param⟩⟩
      · exact absurd hchild h.not_mem_map_expr
      · obtain ⟨s, hs, rfl⟩ := List.mem_map.1 hchild
        exact .inr ⟨s, hs, h⟩
  | classDef name bases =>
    cases h with
    | here h => cases h
    | deeper hchild h =>
      rcases List.mem_append.1 hchild with hchild | hchild
      · exact absurd hchild h.not_mem_map_expr
      · obtain ⟨s, hs, rfl⟩ := List.mem_map.1 hchild
        exact .inr ⟨s, hs, h⟩
  | conditional | alternative | otherwise => exact .inr h

end Clause

/-! ## One line of an outline

`At` goes down the outline in the way in which the reader does, with the flag that the reader has at
each line. -/

namespace Outline

/-- `P` holds of one of the lines of a forest, before the first of which an `if` or `elif` stands if
it is `chained`. -/
def At (P : Bool → Line → Prop) (chained : Bool) : Outline → Prop
  | nil => False
  | cons line nested rest =>
    P chained line ∨ nested.At P false ∨ rest.At P (line.isOpen chained)

/-- What holds of all lines holds all over an outline. -/
theorem every_of_forall {P : Bool → Line → Prop} {o : Outline}
    (h : ∀ line ∈ o.toLines, ∀ chained, P chained line) (chained : Bool) :
    o.Every (fun chained line _ _ => P chained line) chained := by
  induction o generalizing chained with
  | nil => trivial
  | cons line nested rest ihnested ihrest =>
    obtain ⟨hline, hlines⟩ := List.forall_mem_cons.1 h
    obtain ⟨hnested, hrest⟩ := List.forall_mem_append.1 hlines
    exact ⟨hline chained, ihnested hnested false, ihrest hrest _⟩

/-- **What holds of all lines**: one line that is as it may be, and all others whatever stands
before them. -/
theorem exists_of_at {P : Bool → Line → Prop} {o : Outline} (h : o.At P chained) :
    ∃ before line after chained', o.toLines = before ++ line :: after ∧ P chained' line ∧
      ∀ Q : Bool → Line → Prop, Q chained' line →
        (∀ other ∈ before ++ after, ∀ chained, Q chained other) →
          o.Every (fun chained line _ _ => Q chained line) chained := by
  -- The line is the first one, below it or after it; the others are on both sides of it in the
  -- list.
  induction o generalizing chained with
  | nil => cases h
  | cons line nested rest ihnested ihrest =>
    rcases h with h | h | h
    · refine ⟨[], line, nested.toLines ++ rest.toLines, chained, rfl, h, fun Q hline hothers => ?_⟩
      rw [List.nil_append] at hothers
      obtain ⟨hnested, hrest⟩ := List.forall_mem_append.1 hothers
      exact ⟨hline, every_of_forall hnested _, every_of_forall hrest _⟩
    · obtain ⟨before, inner, after, chained', hlines, hinner, hall⟩ := ihnested h
      refine ⟨line :: before, inner, after ++ rest.toLines, chained', ?_, hinner,
        fun Q hline hothers => ?_⟩
      · rw [toLines, hlines, List.append_assoc]
        rfl
      · rw [← List.append_assoc] at hothers
        obtain ⟨hfirst, hrest⟩ := List.forall_mem_append.1 hothers
        obtain ⟨htop, hnested⟩ := List.forall_mem_cons.1 hfirst
        exact ⟨htop _, hall Q hline hnested, every_of_forall hrest _⟩
    · obtain ⟨before, inner, after, chained', hlines, hinner, hall⟩ := ihrest h
      refine ⟨line :: (nested.toLines ++ before), inner, after, chained', ?_, hinner,
        fun Q hline hothers => ?_⟩
      · rw [toLines, hlines, List.cons_append, List.append_assoc]
      · rw [List.cons_append, List.append_assoc] at hothers
        obtain ⟨htop, hothers⟩ := List.forall_mem_cons.1 hothers
        obtain ⟨hnested, hrest⟩ := List.forall_mem_append.1 hothers
        exact ⟨htop _, every_of_forall hnested _, hall Q hline hrest⟩

end Outline

/-! ## The line of an annotation

Three lemmas, one for each place that the annotation can stand in on its line.  A decorator has no
annotation, so that such a line does not start with its sign. -/

namespace Quotation

variable {q : Quotation} {seg seg' inline inline' : Segment} {line : Line}

/-- No header comes up in a line whose annotation is put in quotes. -/
theorem Edits.readHeader?_eq_none (h : q.Edits a seg seg')
    (hnone : readHeader? chained seg = none) : readHeader? chained seg' = none := by
  have hword {keyword : String} (hk : keyword ∈ keywords)
      (hseg : seg.afterKeyword? keyword = none) :
      seg'.afterKeyword? keyword = none := h.afterKeyword?_eq_none hk hseg
  rw [readHeader?] at hnone
  simp only at hnone
  split at hnone
  case h_6 hdef hclass hif helif helse =>
    rw [readHeader?, hword (by decide) hdef, hword (by decide) hclass, hword (by decide) hif]
    cases chained with
    | false => rfl
    | true =>
      simp only [if_true] at helif helse ⊢
      rw [hword (by decide) helif, hword (by decide) helse]
  all_goals cases hnone

/-- A line is followed if its text is edited and its statement or its header becomes what it
should. -/
theorem Edits.follows (h : q.Edits a line.text seg') (hat : line.text.text.head? ≠ some '@')
    (hplain : readHeader? chained line.text = none → ∀ s, Stmt.readSimple line.text = .ok s →
      Stmt.readSimple seg' = .ok (q.stmt s))
    (hheader : ∀ header inline, readHeader? chained line.text = some (.ok (header, inline)) →
      ∃ inline', readHeader? chained seg' = some (.ok (q.header header, inline')) ∧
        inline'.isEmpty = inline.isEmpty ∧
        Carries q.stmt (Stmt.readSimple inline) (Stmt.readSimple inline')) :
    q.Follows chained line ⟨line.indent, seg'⟩ where
  indent := rfl
  span := h.span_eq
  head := h.head?_eq
  decorator hdecorator := absurd hdecorator hat
  plain hnone s hs := ⟨h.readHeader?_eq_none hnone, hplain hnone s hs⟩
  header := hheader

end Quotation

section

variable {line : Line} {header : Header} {inline : Segment} {s : Stmt}

/-- The line `line` becomes one that follows it when the annotation `a` is put in quotes. -/
def Line.Bears (a : Expr) (chained : Bool) (line : Line) : Prop :=
  Rewrites a line.text fun q seg' => q.Follows chained line ⟨line.indent, seg'⟩

/-- In a statement without a block. -/
theorem Line.bears_of_readSimple (hat : line.text.text.head? ≠ some '@')
    (hnone : readHeader? chained line.text = none) (hread : Stmt.readSimple line.text = .ok s)
    (ha : Node.Annotated a (.stmt s)) : line.Bears a chained := by
  refine (rewrites_readSimple hread ha).imp fun q seg' hedits hread' => hedits.follows hat ?_ ?_
  · intro _ s' hs'
    cases hread.symm.trans hs'
    exact hread'
  · intro header inline hheader
    cases hnone.symm.trans hheader

/-- In the header of a function. -/
theorem Line.bears_of_readHeader? {name : String} {params : List Param} {result? : Option Expr}
    (hat : line.text.text.head? ≠ some '@')
    (hread : readHeader? chained line.text = some (.ok (.function name params result?, inline)))
    (ha : (∃ p ∈ params, p.annotation? = some a) ∨ result? = some a) : line.Bears a chained := by
  refine (rewrites_readHeader? hread ha).imp fun q seg' hedits ⟨hclear, hread'⟩ =>
    hedits.follows hat ?_ ?_
  · intro hnone
    cases hread.symm.trans hnone
  · intro header inline hheader
    cases hread.symm.trans hheader
    exact ⟨_, hread', rfl, hclear.readSimple⟩

/-- In the statement behind the colon of a header. -/
theorem Line.bears_of_inline (hat : line.text.text.head? ≠ some '@')
    (hread : readHeader? chained line.text = some (.ok (header, inline)))
    (hs : Stmt.readSimple inline = .ok s) (hempty : inline.isEmpty = false)
    (ha : Node.Annotated a (.stmt s)) : line.Bears a chained := by
  refine ((rewrites_readSimple hs ha).inline_of_readHeader? hread).imp ?_
  rintro q seg' hedits ⟨inline', hs', hinline, hread'⟩
  refine hedits.follows hat ?_ ?_
  · intro hnone
    cases hread.symm.trans hnone
  · intro header inline hheader
    cases hread.symm.trans hheader
    have hempty' : inline'.isEmpty = false := List.isEmpty_eq_false_iff.2 hinline.ne_nil
    refine ⟨inline', hread', hempty'.trans hempty.symm, fun s' hs'' => ?_⟩
    cases hs.symm.trans hs''
    exact hs'

end

/-- **The line of an annotation** of a block. -/
theorem Outline.at_of_clauses {o : Outline} {indent : Nat} {decorators : List Expr}
    {clauses : List Clause} {clause : Clause}
    (h : o.clauses indent decorators chained = .ok clauses)
    (hclause : clause ∈ clauses) (ha : clause.Annotated a) : o.At (Line.Bears a) chained := by
  induction o generalizing indent decorators chained clauses clause with
  | nil =>
    obtain ⟨-, rfl⟩ := clauses_nil_eq_ok.1 h
    cases hclause
  | cons top nested after ihnested ihafter =>
    obtain ⟨hindent, ⟨hat, d, hd, rfl, hclauses⟩ | ⟨hat, first, more, rfl, hmore, hcases⟩⟩ :=
      clauses_cases h
    · exact .inr (.inr (Line.isOpen_of_head?_at hat ▸ ihafter hclauses hclause ha))
    · rcases hcases with ⟨s, rfl, rfl, hnone, hs, rfl⟩ | ⟨header, inline, body, rfl, hheader, hbody⟩
      · rcases List.mem_cons.1 hclause with rfl | hclause
        · exact .inl (Line.bears_of_readSimple hat hnone hs ha)
        · exact .inr (.inr (Line.isOpen_of_readHeader?_eq_none hnone ▸ ihafter hmore hclause ha))
      · rcases List.mem_cons.1 hclause with rfl | hclause
        · rcases Clause.annotated_of_ofHeader ha with ⟨name, params, result?, rfl, hheld⟩ |
            ⟨s, hs, hheld⟩
          · exact .inl (Line.bears_of_readHeader? hat hheader hheld)
          · rcases hbody with ⟨hempty, rfl, s', hs', rfl⟩ |
              ⟨hempty, next, block, hnext, hblock, rfl⟩
            · rw [List.mem_singleton.1 hs] at hheld
              exact .inl (Line.bears_of_inline hat hheader hs' hempty hheld)
            · obtain ⟨inner, hinner, hheld⟩ := Clause.exists_annotated hs hheld
              exact .inr (.inl (ihnested hblock hinner hheld))
        · exact .inr (.inr (Line.isOpen_ofHeader hheader _ _ _ ▸ ihafter hmore hclause ha))

end TypeReveal
