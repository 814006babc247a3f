import TypeReveal.Proofs.Expr.Faithful
import TypeReveal.Proofs.Statement.Extent
import TypeReveal.Proofs.Statement.Pieces
import TypeReveal.Reveal

/-!
# Where statements start

The text of a statement has no blanks at its ends, but for functions with decorators
(`Node.starts_of_read`).  Such a function starts one byte before its first decorator.  If nothing
stands between the sign and the decorator, then that is the sign, and the function has its line and
its column; if blanks do, then it is the last byte of them (`Node.read_decorator_apart`), which need
not even be a character.

The property is local to a statement, so it is proved of each statement that the readers yield and
passed up through the blocks: `Stmt.Each`.
-/

set_option autoImplicit false
namespace TypeReveal

/-! ## Statements below statements

Statements nest in blocks, and other nodes hold none, so a predicate of statements that holds
throughout the blocks of a file holds at all places of its tree. -/

namespace Stmt

/-- The statements directly below a statement. -/
def inner : Stmt → List Stmt
  | function _ _ _ _ _ body | classDef _ _ _ body => body
  | conditional _ _ body orelse => body ++ orelse
  | binding .. | result .. | imports .. | expr .. | pass _ => []

/-- `P` holds of a statement and of all statements below it. -/
inductive Each (P : Stmt → Prop) : Stmt → Prop
  | intro {s : Stmt} (here : P s) (inner : ∀ t ∈ s.inner, Each P t) : Each P s

variable {P : Stmt → Prop} {s : Stmt}

theorem inner_of_isSimple (h : s.isSimple = true) : s.inner = [] := by
  cases s with
  | function | classDef | conditional => cases h
  | _ => rfl

theorem Each.of_isSimple (hs : s.isSimple = true) (h : P s) : Each P s := by
  refine .intro h ?_
  rw [inner_of_isSimple hs]
  exact nofun

/-- The other nodes directly below a statement hold no statements. -/
theorem mem_inner_or (s : Stmt) {child : Node} (h : child ∈ s.children) :
    (∃ t ∈ s.inner, child = .stmt t) ∨ (∃ e, child = .expr e) ∨ ∃ p, child = .param p := by
  -- The children of every form are made of such lists.
  have hexpr {es : List Expr} (h : child ∈ es.map Node.expr) :
      (∃ t ∈ s.inner, child = .stmt t) ∨ (∃ e, child = .expr e) ∨ ∃ p, child = .param p := by
    obtain ⟨e, -, rfl⟩ := List.mem_map.1 h
    exact .inr (.inl ⟨e, rfl⟩)
  have hbody {body : List Stmt} (h : child ∈ body.map Node.stmt) (hbody : body ⊆ s.inner) :
      (∃ t ∈ s.inner, child = .stmt t) ∨ (∃ e, child = .expr e) ∨ ∃ p, child = .param p := by
    obtain ⟨t, ht, rfl⟩ := List.mem_map.1 h
    exact .inl ⟨t, hbody ht, rfl⟩
  cases s with
  | function span name decorators params result? body =>
    rcases List.mem_append.1 h with h | h
    · rcases List.mem_append.1 h with h | h
      · rcases List.mem_append.1 h with h | h
        · exact hexpr h
        · obtain ⟨p, -, rfl⟩ := List.mem_map.1 h
          exact .inr (.inr ⟨p, rfl⟩)
      · exact hexpr h
    · exact hbody h (List.Subset.refl body)
  | classDef span name bases body =>
    exact (List.mem_append.1 h).elim hexpr fun h => hbody h (List.Subset.refl body)
  | conditional span cond body orelse =>
    rcases List.mem_cons.1 h with rfl | h
    · exact .inr (.inl ⟨cond, rfl⟩)
    · rw [← List.map_append] at h
      exact hbody h (List.Subset.refl _)
  | binding | result => exact hexpr h
  | expr span value => exact .inr (.inl ⟨value, List.mem_singleton.1 h⟩)
  | imports | pass => cases h

/-- What holds of statements and has nothing to say of other nodes. -/
def On (P : Stmt → Prop) : Node → Prop
  | .stmt s => P s
  | .file .. | .expr _ | .param _ => True

theorem everywhere_expr (e : Expr) : Node.Everywhere (On P) (.expr e) := by
  refine .intro trivial fun child hchild => ?_
  obtain ⟨c, hc, rfl⟩ := List.mem_map.1 hchild
  have hlt := Expr.size_lt_of_mem_children hc
  exact everywhere_expr c
termination_by e.size

theorem Each.everywhere (h : Each P s) : Node.Everywhere (On P) (.stmt s) := by
  induction h with
  | @intro s here _ ih =>
    refine .intro here fun child hchild => ?_
    rcases s.mem_inner_or hchild with ⟨t, ht, rfl⟩ | ⟨e, rfl⟩ | ⟨p, rfl⟩
    · exact ih t ht
    · exact everywhere_expr e
    · refine .intro trivial fun child hchild => ?_
      obtain ⟨e, -, rfl⟩ := List.mem_map.1 hchild
      exact everywhere_expr e

/-- **What holds of each statement** holds of the statements of a file at all places. -/
theorem Each.of_mem_preorder {span : Span} {body : List Stmt} (h : ∀ s ∈ body, Each P s)
    {place : Place} (hplace : place ∈ (Place.root (.file span body)).preorder)
    (hs : place.node = .stmt s) : P s := by
  have hall : Node.Everywhere (On P) (Place.root (.file span body)).node := by
    refine .intro trivial fun child hchild => ?_
    obtain ⟨s, hs, rfl⟩ := List.mem_map.1 hchild
    exact (h s hs).everywhere
  have hplace := hall.of_mem_preorder hplace
  rwa [hs] at hplace

end Stmt

/-! ## The ends of pieces

A piece is known up to the comments, which are blanks in the text that is read.  Its ends are no
blanks, so they are no comments either and stand in the file. -/

variable {source : List Char} {seg line inline : Segment} {d e : Expr} {s : Stmt}

theorem Segment.IsPiece.standsAt {u v : List Char} {c : Char} (h : seg.IsPiece ⟨0, clean source⟩)
    (htext : seg.text = u ++ c :: v) (hc : isBlank c = false) :
    StandsAt source (seg.start + utf8Length u) c := by
  obtain ⟨before, after, hclean, hstart⟩ := h
  refine StandsAt.of_clean ⟨before ++ u, v ++ after, ?_, ?_⟩ hc
  · rw [show clean source = _ from hclean, htext]
    simp
  · rw [hstart, utf8Length_append]
    simp

/-- A span that starts and stops with characters of the file that are not blank. -/
structure Span.Sharp (source : List Char) (span : Span) : Prop where
  start : StartsSharp source span.start
  stop : StopsSharp source span.stop

/-- **A piece of the file** with no blanks at its ends starts and stops with its own characters. -/
theorem Segment.IsCore.sharp_span (h : seg.IsCore ⟨0, clean source⟩) (hne : seg.text ≠ []) :
    seg.span.Sharp source := by
  obtain ⟨⟨c, rest, hhead, hc⟩, front, d, hlast, hd⟩ := h.sharp hne
  refine ⟨⟨c, ?_, hc⟩, d, _, h.piece.standsAt hlast hd, hd, ?_⟩
  · exact h.piece.standsAt (u := []) hhead hc
  · rw [Segment.span, hlast, utf8Length_append, Nat.add_assoc]
    rfl

/-! ## Decorators

What is read behind the sign starts at the first token, and the blanks in front of it are of no
account to the reader of expressions.  The program does not look for the sign again when it computes
where a function starts; it takes the byte before the expression. -/

/-- A decorator that is read behind its sign. -/
def IsDecoratorIn (source : List Char) (d : Expr) : Prop :=
  ∃ line ∈ Line.ofFile source, line.text.text.head? = some '@' ∧ (line.text.drop 1).expr = .ok d

/-- Tokens start with a text that starts with none of the gaps between them. -/
theorem Lexed.startsAt_of_sharp {pos start : Nat} {text : List Char} {ls : List Lexeme}
    (h : Lexed pos text ls) (hls : StartsAt ls start) (hsharp : Sharp text)
    (hbreak : ∀ rest, text ≠ '\\' :: '\n' :: rest) : start = pos := by
  obtain ⟨c, rest, htext, hc⟩ := hsharp.head
  cases h with
  | nil => cases hls
  | token => exact (Option.some.inj hls).symm
  | @gap _ u text' _ hu _ =>
    have hgap : ∀ u ∈ gapUnits, u = ['\\', '\n'] ∨ ∃ b, u = [b] ∧ isBlank b = true := by
      simp [gapUnits, isBlank]
    rcases hgap u hu with rfl | ⟨b, rfl, hb⟩
    · exact absurd rfl (hbreak text')
    · obtain ⟨rfl, -⟩ := List.cons.inj htext
      rw [hc] at hb
      cases hb

/-- **An expression in a segment** starts at the first character that is not blank, unless that is a
backslash before a line break. -/
theorem Segment.start_of_expr (h : seg.expr = .ok e)
    (hbreak : ∀ rest, seg.trim.text ≠ '\\' :: '\n' :: rest) : e.span.start = seg.trim.start := by
  have hread := Segment.expr_eq_ok.1 h
  have hstarts := (Expr.derives_of_read hread).ends.1
  have hlexed := lexed_of_lexemes _ _ (Expr.not_junk_of_read hread)
  have hne : seg.trim.text ≠ [] := by
    intro hnil
    rw [hnil, lexemes] at hstarts
    cases hstarts
  exact hlexed.startsAt_of_sharp hstarts (sharp_trim hne) hbreak

/-- A decorator starts behind its sign and the blanks after that. -/
theorem IsDecoratorIn.start (h : IsDecoratorIn source d) : ∃ line ∈ Line.ofFile source, ∃ tail,
    line.text.text = '@' :: tail ∧ (line.text.drop 1).expr = .ok d ∧
      d.span.start = line.text.start + 1 + utf8Length (tail.takeWhile isBlank) := by
  obtain ⟨line, hline, hat, hd⟩ := h
  obtain ⟨tail, htext⟩ := List.head?_eq_some_iff.1 hat
  have hdrop : line.text.drop 1 = ⟨line.text.start + 1, tail⟩ := by
    rw [Segment.drop, htext]
    rfl
  refine ⟨line, hline, tail, htext, hd, ?_⟩
  rw [Segment.start_of_expr hd ?_, hdrop]
  · rfl
  · -- a line would break at the backslash
    intro rest hrest
    rw [hdrop] at hrest
    obtain ⟨u, v, htail, hu, -⟩ := exists_trim tail
    rw [show trim tail = '\\' :: '\n' :: rest from hrest] at htail
    have hplain : ∀ c ∈ '@' :: (u ++ ['\\']), isPlain c = true :=
      List.forall_mem_cons.2 ⟨rfl, List.forall_mem_append.2
        ⟨fun c hc => isPlain_of_isBlank (hu c hc), List.forall_mem_singleton.2 rfl⟩⟩
    have hbroken : line.text.text = '@' :: (u ++ ['\\']) ++ '\n' :: (rest ++ v) := by
      rw [htext, htail]
      simp
    exact Line.not_break hline hbroken hplain

/-! ## Statements

For a statement on one line the ends are those of its piece.  One with a block ends where the last
of its statements does. -/

namespace Stmt

/-- The decorators before a statement. -/
def decorators : Stmt → List Expr
  | function _ _ decorators .. => decorators
  | _ => []

/-- How a statement starts and stops in a file. -/
structure Starts (source : List Char) (s : Stmt) : Prop where
  plain : s.decorators = [] → StartsSharp source s.span.start
  decorated : ∀ d ∈ s.decorators.head?, IsDecoratorIn source d ∧ s.span.start = d.span.start - 1
  stop : StopsSharp source s.span.stop

theorem each_starts_of_readSimple (h : Stmt.readSimple seg = .ok s)
    (hseg : seg.IsCore ⟨0, clean source⟩) : Each (Starts source) s := by
  have hsimple := isSimple_of_readSimple h
  have hspan := hseg.sharp_span (ne_nil_of_readSimple h)
  rw [← (fills_of_readSimple h).1] at hspan
  have hnone : s.decorators = [] := by
    cases s with
    | function => cases hsimple
    | _ => rfl
  refine .of_isSimple hsimple ⟨fun _ => hspan.start, ?_, hspan.stop⟩
  rw [hnone]
  exact fun _ h => absurd h (Option.not_mem_none _)

theorem stopsSharp_lastStop {body : List Stmt} {stop : Nat} (hstop : StopsSharp source stop)
    (hbody : ∀ s ∈ body, Each (Starts source) s) : StopsSharp source (lastStop stop body) := by
  rw [lastStop]
  cases hlast : body.getLast? with
  | none => exact hstop
  | some s =>
    cases hbody s (List.mem_of_getLast? hlast) with
    | intro here _ => exact here.stop

end Stmt

/-! ## Clauses

Where a conditional starts is known from its line, and it ends with the last clause that it is
joined with. -/

namespace Clause

/-- A clause whose statements start and stop as they should, its line being the first of a
conditional. -/
def Starts (source : List Char) : Clause → Prop
  | stmt s => s.Each (Stmt.Starts source)
  | conditional line _ body | alternative line _ body =>
    line.Sharp source ∧ ∀ s ∈ body, s.Each (Stmt.Starts source)
  | otherwise body => ∀ s ∈ body, s.Each (Stmt.Starts source)

theorem each_starts_join {line : Span} {cond : Expr} {body orelse : List Stmt}
    (hline : line.Sharp source) (hbody : ∀ s ∈ body, s.Each (Stmt.Starts source))
    (horelse : ∀ s ∈ orelse, s.Each (Stmt.Starts source)) :
    (join line cond body orelse).Each (Stmt.Starts source) := by
  refine .intro ⟨fun _ => hline.start, nofun, ?_⟩ (List.forall_mem_append.2 ⟨hbody, horelse⟩)
  exact Stmt.stopsSharp_lastStop (Stmt.stopsSharp_lastStop hline.stop hbody) horelse

theorem each_starts_statements {clauses : List Clause}
    (h : ∀ clause ∈ clauses, clause.Starts source) :
    ∀ s ∈ statements clauses, s.Each (Stmt.Starts source) :=
  forall_statements id (fun hclause horelse => each_starts_join hclause.1 hclause.2 horelse) id id h

theorem starts_ofHeader {line : Span} {decorators : List Expr} {header : Header}
    {body : List Stmt} (hline : line.Sharp source)
    (hdecorators : ∀ d ∈ decorators, IsDecoratorIn source d)
    (hbody : ∀ s ∈ body, s.Each (Stmt.Starts source)) :
    (ofHeader line decorators header body).Starts source := by
  have hstop := Stmt.stopsSharp_lastStop hline.stop hbody
  cases header with
  | function name params result? =>
    refine .intro ⟨?_, ?_, hstop⟩ hbody
    · intro hnone
      obtain rfl : decorators = [] := hnone
      exact hline.start
    · intro d hd
      have hhead : decorators.head? = some d := hd
      refine ⟨hdecorators d (List.mem_of_head? hhead), ?_⟩
      show (decorators.head?.map fun d => d.span.start - 1).getD line.start = _
      rw [hhead]
      rfl
  | classDef name bases => exact .intro ⟨fun _ => hline.start, nofun, hstop⟩ hbody
  | conditional cond => exact ⟨hline, hbody⟩
  | alternative cond => exact ⟨hline, hbody⟩
  | otherwise => exact hbody

end Clause

/-- **The clauses of a block** start and stop as they should. -/
theorem Outline.starts_of_clauses {o : Outline} {indent : Nat} {decorators : List Expr}
    {chained : Bool} {clauses : List Clause}
    (h : o.clauses indent decorators chained = .ok clauses)
    (ho : ∀ line ∈ o.toLines, line ∈ Line.ofFile source)
    (hdecorators : ∀ d ∈ decorators, IsDecoratorIn source d) :
    ∀ clause ∈ clauses, clause.Starts source := by
  induction o generalizing indent decorators chained clauses with
  | nil =>
    obtain ⟨-, rfl⟩ := clauses_nil_eq_ok.1 h
    exact List.forall_mem_nil _
  | cons line nested rest ihnested ihrest =>
    obtain ⟨hline, hlines⟩ := List.forall_mem_cons.1 ho
    obtain ⟨hnested, hrest⟩ := List.forall_mem_append.1 hlines
    obtain ⟨hcore, hne⟩ := Line.isCore hline
    obtain ⟨-, ⟨hat, d, hd, rfl, hclauses⟩ | ⟨-, clause, more, rfl, hmore, hcases⟩⟩ :=
      clauses_cases h
    · exact ihrest hclauses hrest (List.forall_mem_append.2
        ⟨hdecorators, List.forall_mem_singleton.2 ⟨line, hline, hat, hd⟩⟩)
    · refine List.forall_mem_cons.2 ⟨?_, ihrest hmore hrest (List.forall_mem_nil _)⟩
      rcases hcases with ⟨s, rfl, -, -, hs, rfl⟩ | ⟨header, inline, body, rfl, hheader, hblock⟩
      · exact Stmt.each_starts_of_readSimple hs hcore
      · refine Clause.starts_ofHeader (hcore.sharp_span hne) hdecorators ?_
        rcases hblock with ⟨-, -, s, hs, rfl⟩ | ⟨-, first, block, -, hblock, rfl⟩
        · have hinline := Segment.core_of_readHeader? hheader
          exact List.forall_mem_singleton.2 (Stmt.each_starts_of_readSimple hs
            ⟨hinline.piece.trans hcore.piece, hinline.sharp⟩)
        · exact Clause.each_starts_statements
            (ihnested hblock hnested (List.forall_mem_nil _))

/-! ## Files

A start that is a boundary between characters has a line and a column. -/

/-- The line that is shown for a place that starts at a boundary of the file. -/
theorem revealLine_of_isBoundary {place : Place} (h : IsBoundary source place.span.start) :
    ∃ line column, lineColumn? source place.span.start = some (line, column) ∧
      ∀ ctx : Context, revealLine ctx source place =
        .ok (toString line ++ ":" ++ toString column ++ " " ++ place.declared?.getD "" ++ ": " ++
          (ctx.typeAt place).display) := by
  obtain ⟨⟨line, column⟩, hpair⟩ := h.exists_lineColumn?
  refine ⟨line, column, hpair, fun ctx => ?_⟩
  rw [revealLine, hpair]

/-- **Where statements start.**  The text of a statement without decorators has no blanks at its
ends.  A function with decorators starts one byte before the first of them, which stands behind its
sign and the blanks after that.  If there are no such blanks, then the function starts at the sign,
its text has no blanks at its ends, and it is shown at the line and the column of the sign. -/
theorem Node.starts_of_read {source : List Char} {node : Node} (h : Node.read source = .ok node)
    {place : Place} (hplace : place ∈ (Place.root node).preorder) (hs : place.node = .stmt s) :
    (s.decorators = [] →
      ∃ part, byteSlice? source s.span.start s.span.stop = some part ∧ Sharp part) ∧
    ∀ d ∈ s.decorators.head?, ∃ line ∈ Line.ofFile source, ∃ tail,
      line.text.text = '@' :: tail ∧ (line.text.drop 1).expr = .ok d ∧
      StandsAt source line.text.start '@' ∧
      s.span.start = line.text.start + utf8Length (tail.takeWhile isBlank) ∧
      (tail.head?.any isBlank = false →
        (∃ part, byteSlice? source s.span.start s.span.stop = some ('@' :: part) ∧
          Sharp ('@' :: part)) ∧
        ∃ row column, lineColumn? source line.text.start = some (row, column) ∧
          ∀ ctx : Context, revealLine ctx source place =
            .ok (toString row ++ ":" ++ toString column ++ " " ++ place.declared?.getD "" ++ ": " ++
              (ctx.typeAt place).display)) := by
  have hspan : place.span = s.span := by
    rw [Place.span, hs]
    rfl
  have hextended := (Node.isExtended_of_read h).stmt place hplace (by rw [hs]; rfl)
  rw [hspan] at hextended
  obtain ⟨clauses, hclauses, rfl⟩ := Node.read_eq_ok.1 h
  have hstarts : s.Starts source := by
    refine Stmt.Each.of_mem_preorder (Clause.each_starts_statements ?_) hplace hs
    refine Outline.starts_of_clauses hclauses ?_ (List.forall_mem_nil _)
    rw [Outline.toLines_ofLines]
    exact fun line hline => hline
  refine ⟨fun hnone => ?_, fun d hd => ?_⟩
  · obtain ⟨c, hat, hc⟩ := hstarts.plain hnone
    obtain ⟨part, hslice, -, hsharp⟩ := exists_byteSlice? hat hc hstarts.stop hextended
    exact ⟨part, hslice, hsharp⟩
  · obtain ⟨hdecorator, hstart⟩ := hstarts.decorated d hd
    obtain ⟨line, hline, tail, htext, hexpr, hdstart⟩ := hdecorator.start
    have hat : StandsAt source line.text.start '@' :=
      (Line.isCore hline).1.piece.standsAt (u := []) htext rfl
    have hblanks : s.span.start = line.text.start + utf8Length (tail.takeWhile isBlank) := by
      omega
    refine ⟨line, hline, tail, htext, hexpr, hat, hblanks, fun hhead => ?_⟩
    have hnone : tail.takeWhile isBlank = [] := by
      cases tail with
      | nil => rfl
      | cons c tail => exact List.takeWhile_cons_of_neg (by simpa using hhead)
    rw [hnone] at hblanks
    have heq : s.span.start = line.text.start := hblanks
    rw [← heq] at hat ⊢
    obtain ⟨part, hslice, hpart, hsharp⟩ := exists_byteSlice? hat rfl hstarts.stop hextended
    obtain ⟨part, rfl⟩ := List.head?_eq_some_iff.1 hpart
    have hreveal := revealLine_of_isBoundary (hspan.symm ▸ hat.isBoundary)
    rw [hspan] at hreveal
    exact ⟨⟨part, hslice, hsharp⟩, hreveal⟩

/-- A function after a comment, with a decorator right behind its sign. -/
theorem Node.starts_of_read_decorated :
    let file := Node.file ⟨0, 18⟩
      [.function ⟨2, 18⟩ "g" [.name ⟨3, 4⟩ "f"] [] none [.pass ⟨14, 18⟩]]
    Node.read "#\n@f\ndef g(): pass".toList = .ok file ∧
      Line.ofFile "#\n@f\ndef g(): pass".toList =
        [⟨0, ⟨2, "@f".toList⟩⟩, ⟨0, ⟨5, "def g(): pass".toList⟩⟩] ∧
      (∃ part, byteSlice? "#\n@f\ndef g(): pass".toList 2 18 = some ('@' :: part) ∧
        Sharp ('@' :: part)) ∧
      lineColumn? "#\n@f\ndef g(): pass".toList 2 = some (2, 1) := by
  intro file
  have hread : Node.read "#\n@f\ndef g(): pass".toList = .ok file := by decide +kernel
  have hlines : Line.ofFile "#\n@f\ndef g(): pass".toList =
      [⟨0, ⟨2, "@f".toList⟩⟩, ⟨0, ⟨5, "def g(): pass".toList⟩⟩] := by decide +kernel
  have hplace := Place.mem_preorder_of_mem_children (Place.self_mem_preorder (.root file))
    List.mem_cons_self
  obtain ⟨-, hdecorated⟩ := starts_of_read hread hplace rfl
  obtain ⟨line, hline, tail, htext, -, -, -, hsharp⟩ := hdecorated _ rfl
  rw [hlines, List.mem_cons, List.mem_singleton] at hline
  rcases hline with rfl | rfl
  · obtain rfl : ['f'] = tail := (List.cons.inj htext).2
    exact ⟨hread, hlines, (hsharp rfl).1, by decide⟩
  · cases htext

/-- With a blank between the sign and the decorator the text of the function starts with the blank,
in the column behind the sign, and with a blank of two bytes it does not even start with a
character. -/
theorem Node.read_decorator_apart :
    Node.read "@ f\ndef g(): pass".toList = .ok (.file ⟨0, 17⟩
        [.function ⟨1, 17⟩ "g" [.name ⟨2, 3⟩ "f"] [] none [.pass ⟨13, 17⟩]]) ∧
      byteSlice? "@ f\ndef g(): pass".toList 1 17 = some " f\ndef g(): pass".toList ∧
      isBlank ' ' = true ∧
      lineColumn? "@ f\ndef g(): pass".toList 0 = some (1, 1) ∧
      lineColumn? "@ f\ndef g(): pass".toList 1 = some (1, 2) ∧
      Node.read "@\u00a0f\ndef g(): pass".toList = .ok (.file ⟨0, 18⟩
        [.function ⟨2, 18⟩ "g" [.name ⟨3, 4⟩ "f"] [] none [.pass ⟨14, 18⟩]]) ∧
      byteSlice? "@\u00a0f\ndef g(): pass".toList 2 18 = none ∧
      lineColumn? "@\u00a0f\ndef g(): pass".toList 2 = none := by
  refine ⟨by decide +kernel, ?_, ?_, ?_, ?_, by decide +kernel, ?_, ?_⟩ <;> decide

end TypeReveal
