import TypeReveal.Proofs.Quoting.Content
import TypeReveal.Proofs.Statement.RoundTrip
import TypeReveal.Proofs.Statement.Unread

/-!
# Putting a piece of a file in quotes

When a piece of a file is put in quotes, what stands before it stays where it is, what stands behind
it moves on by the two quotes, and the piece itself becomes a string.  A `Quotation` is such a
piece, and `Quotation.node` is what becomes of the tree of the file.

A segment that does not touch the piece is taken apart where it then stands as it was before
(`Quotation.Clear`).

Positions are moved by `Quotation.pos`, spans and everything that has a span by it.  The piece
counts as part of what ends at its end, so a position inside it is sent to its new end.  That
matters for one thing only: a statement whose last token is in the piece ends behind the closing
quote.

Two facts about the edit are used everywhere else.  Cutting a segment and moving it can be done in
either order as long as the segment does not touch the piece, and what a conditional or a function
is made of is moved part by part (`stmts_statements`), since the end of a statement is that of the
last one in its block.
-/

set_option autoImplicit false
namespace TypeReveal

/-- A piece of a file that is put in quotes. -/
structure Quotation where
  /-- Where the piece starts. -/
  start : Nat
  text : List Char

namespace Quotation

variable (q : Quotation)

/-! ## What becomes of a tree

Expressions are compared with the piece as a whole: they stand before it, behind it, or they are the
piece.  An expression around the piece does not occur, since the piece is an annotation and
annotations are parts of statements; the definition sends it to the string, and no lemma looks at
that case. -/

/-- Where the piece ends. -/
def stop : Nat := q.start + utf8Length q.text

/-- Where a position is found afterwards; positions in the piece are moved to its end. -/
def pos (p : Nat) : Nat := if p ≤ q.start then p else max p q.stop + 2

/-- Where a span is found afterwards. -/
def span (span : Span) : Span := ⟨q.pos span.start, q.pos span.stop⟩

/-- The string that the piece becomes. -/
def string : Expr := .str ⟨q.start, q.stop + 2⟩ (String.ofList q.text)

/-- What becomes of an expression that stands before the piece, behind it, or is the piece. -/
def expr (e : Expr) : Expr :=
  if e.span.stop ≤ q.start then e else if q.stop ≤ e.span.start then e.shift 2 else q.string

/-- What becomes of a parameter. -/
def param (p : Param) : Param :=
  ⟨q.span p.span, p.name, p.annotation?.map q.expr, p.default?.map q.expr⟩

mutual

def stmt : Stmt → Stmt
  | .function span name decorators params result? body =>
    .function (q.span span) name (decorators.map q.expr) (params.map q.param)
      (result?.map q.expr) (stmts body)
  | .classDef span name bases body => .classDef (q.span span) name (bases.map q.expr) (stmts body)
  | .conditional span cond body orelse =>
    .conditional (q.span span) (q.expr cond) (stmts body) (stmts orelse)
  | .binding span name annotation? value? =>
    .binding (q.span span) name (annotation?.map q.expr) (value?.map q.expr)
  | .result span value? => .result (q.span span) (value?.map q.expr)
  | .imports span module? names => .imports (q.span span) module? names
  | .expr span value => .expr (q.span span) (q.expr value)
  | .pass span => .pass (q.span span)

def stmts : List Stmt → List Stmt
  | [] => []
  | s :: rest => stmt s :: stmts rest

end

/-- **What becomes of a tree** when the piece is put in quotes. -/
def node : Node → Node
  | .file span body => .file (q.span span) (q.stmts body)
  | .stmt s => .stmt (q.stmt s)
  | .param p => .param (q.param p)
  | .expr e => .expr (q.expr e)

/-- What becomes of a header. -/
def header : Header → Header
  | .function name params result? => .function name (params.map q.param) (result?.map q.expr)
  | .classDef name bases => .classDef name (bases.map q.expr)
  | .conditional cond => .conditional (q.expr cond)
  | .alternative cond => .alternative (q.expr cond)
  | .otherwise => .otherwise

/-- What becomes of a clause. -/
def clause : Clause → Clause
  | .stmt s => .stmt (q.stmt s)
  | .conditional line cond body => .conditional (q.span line) (q.expr cond) (q.stmts body)
  | .alternative line cond body => .alternative (q.span line) (q.expr cond) (q.stmts body)
  | .otherwise body => .otherwise (q.stmts body)

/-- A block is moved statement by statement. -/
theorem stmts_eq_map (body : List Stmt) : q.stmts body = body.map q.stmt := by
  induction body with
  | nil => rw [stmts, List.map_nil]
  | cons s body ih => rw [stmts, ih, List.map_cons]

@[simp] theorem span_stmt (s : Stmt) : (q.stmt s).span = q.span s.span := by
  cases s <;> rw [stmt] <;> rfl

@[simp] theorem node_span (n : Node) (hn : ∀ e, n ≠ .expr e) : (q.node n).span = q.span n.span := by
  cases n with
  | expr e => exact absurd rfl (hn e)
  | stmt s => exact q.span_stmt s
  | _ => rfl

/-! ## Statements from clauses

A block is read clause by clause, and an `if` with its `elif` and `else` is put together from the
end.  Its span is that of its first line up to the last statement in it, so moving the clauses and
joining them afterwards gives the same spans as joining them first. -/

@[simp] theorem pos_lastStop (stop : Nat) (body : List Stmt) :
    q.pos (lastStop stop body) = lastStop (q.pos stop) (q.stmts body) := by
  rw [lastStop, lastStop, stmts_eq_map, List.getLast?_map]
  cases body.getLast? <;> simp [span]

/-- A conditional is moved part by part. -/
theorem stmt_join (line : Span) (cond : Expr) (body orelse : List Stmt) :
    q.stmt (Clause.join line cond body orelse) =
      Clause.join (q.span line) (q.expr cond) (q.stmts body) (q.stmts orelse) := by
  simp [Clause.join, stmt, span]

/-- **The statements that clauses make up.** -/
theorem stmts_statements (clauses : List Clause) :
    q.stmts (Clause.statements clauses) = Clause.statements (clauses.map q.clause) := by
  have hboth : (q.stmts (clauses.foldr Clause.attach ([], [])).1,
      q.stmts (clauses.foldr Clause.attach ([], [])).2) =
        (clauses.map q.clause).foldr Clause.attach ([], []) := by
    induction clauses with
    | nil => simp [stmts]
    | cons clause clauses ih =>
      rw [List.map_cons, List.foldr_cons, List.foldr_cons, ← ih]
      cases clause <;> simp [Clause.attach, clause, stmts, stmt_join]
  exact congrArg Prod.snd hboth

/-! ## Segments that do not touch the piece

A segment behind the piece starts at least one byte after the piece does, which rules out the empty
segment at the start of the piece: such a segment counts as standing before it and stays. -/

/-- A segment of the file, where it stands afterwards. -/
def segment (seg : Segment) : Segment := ⟨q.pos seg.start, seg.text⟩

/-- A segment that ends before the piece or starts behind it. -/
def Clear (seg : Segment) : Prop :=
  seg.span.stop ≤ q.start ∨ q.start < seg.start ∧ q.stop ≤ seg.start

variable {q} {seg rest line head : Segment} {e : Expr}

namespace Clear

/-- A part of a segment is as clear of the piece as the segment. -/
theorem within (h : q.Clear seg) (hrest : rest.Within seg) : q.Clear rest :=
  h.imp (Nat.le_trans hrest.2) fun h =>
    ⟨Nat.lt_of_lt_of_le h.1 hrest.1, Nat.le_trans h.2 hrest.1⟩

/-- Positions in a segment keep their distance from its start. -/
theorem pos_add (h : q.Clear seg) {k : Nat} (hk : seg.start + k ≤ seg.span.stop) :
    q.pos (seg.start + k) = q.pos seg.start + k := by
  rw [pos, pos]
  rcases h with h | ⟨h, h'⟩
  · rw [if_pos (by omega), if_pos (by omega)]
  · rw [if_neg (by omega), if_neg (by omega)]
    omega

theorem segment_drop (h : q.Clear seg) (n : Nat) :
    q.segment (seg.drop n) = (q.segment seg).drop n :=
  congrArg (Segment.mk · _) (h.pos_add (seg.pos_le_stop n))

theorem segment_trim (h : q.Clear seg) : q.segment seg.trim = (q.segment seg).trim := by
  have hstop : seg.start + utf8Length (seg.text.takeWhile isBlank) ≤ seg.span.stop :=
    Nat.add_le_add_left (utf8Length_le (List.takeWhile_prefix _)) _
  exact congrArg (Segment.mk · _) (h.pos_add hstop)

theorem take (h : q.Clear seg) (n : Nat) : q.Clear (seg.take n) :=
  h.within ⟨Nat.le_refl _, seg.pos_le_stop n⟩

theorem drop (h : q.Clear seg) (n : Nat) : q.Clear (seg.drop n) := h.within (seg.drop_within n)

theorem trim (h : q.Clear seg) : q.Clear seg.trim := h.within seg.trim_within

theorem slice (h : q.Clear seg) (m n : Nat) : q.Clear (seg.slice m n) := (h.take n).drop m

/-- What is cut out of a segment stands where the same cut finds it afterwards. -/
theorem segment_slice (h : q.Clear seg) (m n : Nat) :
    q.segment (seg.slice m n) = (q.segment seg).slice m n :=
  (h.take n).segment_drop m

/-- The span of a segment is moved with it. -/
theorem span_segment (h : q.Clear seg) : (q.segment seg).span = q.span seg.span :=
  congrArg (Span.mk _) (h.pos_add (Nat.le_refl _)).symm

/-- A keyword at the start of a segment is found there afterwards. -/
theorem afterKeyword? (h : q.Clear seg) (keyword : String) :
    (q.segment seg).afterKeyword? keyword = (seg.afterKeyword? keyword).map q.segment := by
  have htrim : q.segment (seg.drop keyword.length).trim =
      ((q.segment seg).drop keyword.length).trim := by
    rw [(h.drop _).segment_trim, h.segment_drop]
  simp only [Segment.afterKeyword?, show (q.segment seg).text = seg.text from rfl, ← htrim]
  split
  · split <;> rfl
  · rfl

theorem of_afterKeyword? {keyword : String} (h : q.Clear seg)
    (hrest : seg.afterKeyword? keyword = some rest) : q.Clear rest :=
  h.within (Segment.within_of_afterKeyword? hrest)

/-- The parts between commas are moved one by one. -/
theorem segment_parts (h : q.Clear seg) : (q.segment seg).parts = seg.parts.map q.segment := by
  induction seg using Segment.parts.induct with
  | case1 seg hcomma htrim =>
    have htrim' : (q.segment seg.trim).isEmpty = true := htrim
    rw [Segment.parts_of_index?_eq_none hcomma, if_pos htrim,
      @Segment.parts_of_index?_eq_none (q.segment seg) hcomma, ← h.segment_trim, if_pos htrim',
      List.map_nil]
  | case2 seg hcomma htrim =>
    have htrim' : ¬ (q.segment seg.trim).isEmpty = true := htrim
    rw [Segment.parts_of_index?_eq_none hcomma, if_neg htrim,
      @Segment.parts_of_index?_eq_none (q.segment seg) hcomma, ← h.segment_trim, if_neg htrim',
      List.map_singleton]
  | case3 seg n hcomma ih =>
    rw [Segment.parts_of_index?_eq_some hcomma, List.map_cons, ← ih (h.drop _),
      @Segment.parts_of_index?_eq_some (q.segment seg) n hcomma, (h.take n).segment_trim,
      h.segment_drop]
    rfl

theorem of_mem_parts (h : q.Clear seg) {part : Segment} (hpart : part ∈ seg.parts) :
    q.Clear part :=
  h.within (seg.laid_parts.mem (List.mem_map_of_mem hpart))

end Clear

/-! ## Readers

Readers either end well or with an error, and an error has a position that may have moved.
`Carries` leaves errors out.  It is closed under the operations that readers are put together
with. -/

/-- Where the one reading ends with something, the other ends with what becomes of it. -/
def Carries {α β : Type} (f : α → β) (x : Except ParseError α) (y : Except ParseError β) : Prop :=
  ∀ a, x = .ok a → y = .ok (f a)

namespace Carries

variable {α β γ δ : Type} {f : α → β} {g : γ → δ} {x : Except ParseError α}
  {y : Except ParseError β}

theorem ok (f : α → β) (a : α) : Carries f (.ok a) (.ok (f a)) := fun _ h => by
  cases h
  rfl

theorem error (err : ParseError) : Carries f (.error err) y := fun _ h => by
  cases h

/-- One reader after another. -/
theorem bind (h : Carries f x y) {k : α → Except ParseError γ} {k' : β → Except ParseError δ}
    (hk : ∀ a, x = .ok a → Carries g (k a) (k' (f a))) : Carries g (x >>= k) (y >>= k') := by
  intro c hc
  obtain ⟨a, ha, hc⟩ := bind_eq_ok.1 hc
  exact bind_eq_ok.2 ⟨f a, h a ha, hk a ha c hc⟩

theorem map (h : Carries f x y) {k : α → γ} {k' : β → δ}
    (hk : ∀ a, x = .ok a → k' (f a) = g (k a)) :
    Carries g (k <$> x) (k' <$> y) := by
  intro c hc
  obtain ⟨a, ha, rfl⟩ := map_eq_ok.1 hc
  exact map_eq_ok.2 ⟨f a, h a ha, hk a ha⟩

/-- A reader for each of several segments. -/
theorem mapM {k : α → Except ParseError γ} {k' : β → Except ParseError δ} {as : List α}
    (h : ∀ a ∈ as, Carries g (k a) (k' (f a))) :
    Carries (List.map g) (as.mapM k) ((as.map f).mapM k') := by
  induction as with
  | nil => exact ok _ []
  | cons a as ih =>
    obtain ⟨ha, has⟩ := List.forall_mem_cons.1 h
    rw [List.map_cons, List.mapM_cons, List.mapM_cons]
    exact ha.bind fun c _ => (ih has).bind fun cs _ => ok _ (c :: cs)

end Carries

end Quotation
end TypeReveal
