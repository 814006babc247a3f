import TypeReveal.Proofs.Careful.Agreement
import TypeReveal.Proofs.Careful.Readers
import TypeReveal.Proofs.Careful.Segment
import TypeReveal.Proofs.Careful.Tokens
import TypeReveal.Proofs.Expr.Faithful
import TypeReveal.Proofs.Outcome
import TypeReveal.Syntax.Simple

/-!
# Parse trees are lowered

Every text that is read has a parse tree, and the tree is lowered to the very expression that was
read (`expr_agrees`): no part that lowering relies on is missing.  By induction on the
derivation of the expression, its tokens are read by the reader of its stratum and the pair that is
left behind is lowered to it (`Derives.readAs`).  What is read of a chain of operations, of an atom
and its trailers, and of a row of elements is stated so that one more operation, trailer or element
can come at the end, as derivations go on at the end while readers of repetitions go on in front.

Two grammars are compared.  The derivations of expressions are left-recursive: an expression with
operators is one with fewer operators and an operand behind it.  The readers of the parse tree take
an operand and then as many operations as there are, and lowering folds the row of pairs from the
left.  So the invariant of the induction has two forms, what has been read so far with more to come
(`ReadsChained`, `ReadsTrailed`), and an expression that is complete because the next token cannot
go on with it (`ReadsWhole`).

Readers go down into brackets with a bound on their depth.  The number of tokens is enough of a
bound, as each level takes up its bracket, and every statement has the hypothesis that the tokens
are no more than the depth allows.

Lowering takes for granted that an operator is followed by an operand or by nothing, that a list has
expressions and commas in it and nothing else, and that each rule has the pairs in it that it was
written for.  None of this is checked by a type; that it holds of each tree which the readers leave
behind is what the lemmas with `lower` in their conclusion say.
-/

set_option autoImplicit false
namespace TypeReveal

open Careful

/-! ## Rows of pairs

A row of pairs is lowered in two ways.  In parentheses and subscripts the commas are pairs as well
and decide whether there is a tuple; in lists and calls they leave no pair.  The flag `loud` says
which it is. -/

/-- Elements with their commas, one row after another; there is a comma in the whole if there is one
in either. -/
theorem lowerElements_append {ps qs : List Pair} {es fs : List Expr} {b c : Bool}
    (hps : lowerElements ps = .ok (es, b)) (hqs : lowerElements qs = .ok (fs, c)) :
    lowerElements (ps ++ qs) = .ok (es ++ fs, b || c) := by
  induction ps generalizing es b with
  | nil =>
    rw [lowerElements] at hps
    cases hps
    rw [List.nil_append, hqs]
    rfl
  | cons p ps ih =>
    rw [lowerElements] at hps
    rw [List.cons_append, lowerElements]
    split at hps
    · next hcomma =>
      obtain ⟨⟨es', b'⟩, hrest, h⟩ := bind_eq_ok.1 hps
      cases h
      rw [if_pos hcomma, ih hrest]
      rfl
    · next hcomma =>
      obtain ⟨e, he, h⟩ := bind_eq_ok.1 hps
      obtain ⟨⟨es', b'⟩, hrest, h⟩ := bind_eq_ok.1 h
      cases h
      rw [if_neg hcomma, he, ih hrest]
      rfl

/-- Expressions, one row after another. -/
theorem lowerAll_append {ps qs : List Pair} {es fs : List Expr}
    (hps : lowerAll ps = .ok es) (hqs : lowerAll qs = .ok fs) :
    lowerAll (ps ++ qs) = .ok (es ++ fs) := by
  induction ps generalizing es with
  | nil =>
    rw [lowerAll] at hps
    cases hps
    exact hqs
  | cons p ps ih =>
    rw [lowerAll] at hps
    obtain ⟨e, he, h⟩ := bind_eq_ok.1 hps
    obtain ⟨es', hrest, h⟩ := bind_eq_ok.1 h
    cases h
    rw [List.cons_append, lowerAll, he, ok_bind, ih hrest]
    rfl

/-- Pairs become expressions, with or without commas among them. -/
def Lowers (loud : Bool) (ps : List Pair) (es : List Expr) (commas : Bool) : Prop :=
  if loud then lowerElements ps = .ok (es, commas) else lowerAll ps = .ok es

theorem Lowers.append {loud : Bool} {ps qs : List Pair} {es fs : List Expr} {b c : Bool}
    (hps : Lowers loud ps es b) (hqs : Lowers loud qs fs c) :
    Lowers loud (ps ++ qs) (es ++ fs) (b || c) := by
  cases loud with
  | true => exact lowerElements_append hps hqs
  | false => exact lowerAll_append hps hqs

namespace Reader

section

variable (seg : Segment) (stop : Nat)

/-! ## Strata

Each stratum has a reader, and the reader of a stratum is the chain of the one above it.  Tokens
that end an expression of one stratum may go on with one of another, so `Follows` has the stratum as
an argument. -/

/-- The reader of a stratum. -/
def ofStratum (union : Reader) : Stratum → Reader
  | .primary => primary seg union
  | .amp => chain .amp (primary seg union)
  | .bar | .whole => chain .bar (chain .amp (primary seg union))

/-- An operator and its right operand, which may be missing. -/
def operation (op : Operator) (operand : Reader) : Reader :=
  seq (rule (signRule op) (mark (.operator op))) (opt operand)

/-- The reader of a stratum is a chain of operands, which are read by the reader of the stratum
above. -/
theorem ofStratum_before (union : Reader) (op : Operator) :
    ofStratum seg union op.before = rule (chainRule op) (seq (ofStratum seg union op.after)
      (many (operation op (ofStratum seg union op.after)))) := by
  cases op <;> rfl

/-- Whether a token goes on with no expression of a stratum. -/
def isEnd (s : Stratum) : Token → Bool
  | .comma | .closing _ => true
  | .operator op => !s.admits op
  | _ => false

/-- Tokens that go on with no expression of a stratum. -/
def Follows (s : Stratum) (rest : List Lexeme) : Prop := ∀ l ∈ rest.head?, isEnd s l.token = true

/-- A pair that is no comma and no sign of an operator. -/
def IsOperand (p : Pair) : Prop := p.rule ≠ .comma ∧ isSign p = false

/-! ## What is read of an expression

All statements are about the readers on a list of tokens with more tokens behind it, of which only
the first matters.  The pairs that are left are lowered, and the span of a pair is not described,
since lowering computes spans from the expressions. -/

/-- **An expression of a stratum** is read by the reader of the stratum, and lowered. -/
def ReadsWhole (s : Stratum) (ls : List Lexeme) (e : Expr) : Prop :=
  ∀ depth, ls.length ≤ depth + 1 → ∀ rest, Follows s rest →
    ∃ p pos, (ofStratum seg (union seg depth) s).Reads stop ls rest [p] pos ∧ lower p = .ok e ∧
      IsOperand p

/-- An atom is read, then what follows it, and more of that may come. -/
def ReadsTrailed (ls : List Lexeme) (e : Expr) : Prop :=
  ∀ depth, ls.length ≤ depth + 1 → ∀ rest, ∃ p front tail ps pos, ls = front ++ tail ∧
    (atom seg (union seg depth)).Reads stop front (tail ++ rest) [p] pos ∧
    Repeats stop (trailer seg (union seg depth)) rest tail ps ∧
    ∀ qs, lowerPrimary (p :: (ps ++ qs)) = lowerTrailers e qs

/-- An operand is read, then operations, and more of them may come. -/
def ReadsChained (op : Operator) (ls : List Lexeme) (e : Expr) : Prop :=
  ∀ depth, ls.length ≤ depth + 1 → ∀ rest, Follows op.after rest → ∃ p front tail ps pos,
    ls = front ++ tail ∧
    (ofStratum seg (union seg depth) op.after).Reads stop front (tail ++ rest) [p] pos ∧
    Repeats stop (operation op (ofStratum seg (union seg depth) op.after)) rest tail ps ∧
    ∀ qs, (∀ q ∈ qs.head?, isSign q = true) →
      lowerChain (p :: (ps ++ qs)) = lowerOperations e qs

/-- What is read of an expression of a stratum while more of it may come. -/
def ReadAs : Stratum → List Lexeme → Expr → Prop
  | .primary => ReadsTrailed seg stop
  | .amp => ReadsChained seg stop .amp
  | .bar => ReadsChained seg stop .bar
  | .whole => fun _ _ => False

theorem readAs_before (op : Operator) :
    ReadAs seg stop op.before = ReadsChained seg stop op := by
  cases op <;> rfl

/-- The reader of commas in expressions, or the one in lists and calls. -/
def commaOf (loud : Bool) : Reader :=
  if loud then rule .comma (mark .comma) else mark .comma

/-- Elements are read, and lowered; the last of them has no comma after it. -/
def ReadsRow (ls : List Lexeme) (es : List Expr) (commas : Bool) : Prop :=
  ∀ loud depth, ls.length ≤ depth → ∀ rest, Follows .bar rest → ∃ p front tail ps pos,
    ls = front ++ tail ∧ (union seg depth).Reads stop front (tail ++ rest) [p] pos ∧
    Repeats stop (seq (commaOf loud) (union seg depth)) rest tail ps ∧
    Lowers loud (p :: ps) es commas

end

variable {seg : Segment} {stop depth : Nat} {s : Stratum} {l r : Lexeme}
  {ls ms rest : List Lexeme} {e lhs rhs : Expr} {es : List Expr} {op : Operator}

/-! ## Where readers stop

A repetition ends where its reader fails, so for each reader it has to be known which tokens it
fails on. -/

theorem Follows.fails_mark (h : Follows s rest) {t : Token} (ht : isEnd s t = false) :
    (mark t).Fails stop rest :=
  Reader.fails_mark fun l hl heq => by
    have hend := h l hl
    rw [heq, ht] at hend
    cases hend

theorem Follows.fails_round (h : Follows s rest) (p : Reader) : (round p).Fails stop rest :=
  .seq (h.fails_mark rfl) _

theorem Follows.fails_square (h : Follows s rest) (p : Reader) : (square p).Fails stop rest :=
  .seq (h.fails_mark rfl) _

theorem Follows.fails_token (h : Follows s rest) : (token seg).Fails stop rest := by
  cases rest with
  | nil => rfl
  | cons l rest =>
    have hend := h l rfl
    have hnone : tokenPair? seg l = none := by
      cases hl : l.token with
      | comma | closing | operator => simp [tokenPair?, hl]
      | _ => rw [hl] at hend; cases hend
    simp [Fails, token, Cursor.ahead, hnone]

theorem Follows.fails_atom (h : Follows s rest) (union : Reader) :
    (atom seg union).Fails stop rest :=
  .alt ((h.fails_round _).rule _) (.alt ((h.fails_square _).rule _) h.fails_token)

theorem Follows.fails_trailer (h : Follows s rest) (union : Reader) :
    (trailer seg union).Fails stop rest :=
  .alt ((h.fails_round _).rule _) <|
    .alt ((h.fails_square _).rule _) (.rule (.seq (h.fails_mark rfl) _) _)

/-- A token that ends an expression of a stratum starts no expression at all. -/
theorem Follows.fails_ofStratum (h : Follows s rest) (union : Reader) (t : Stratum) :
    (ofStratum seg union t).Fails stop rest := by
  have hprimary : (primary seg union).Fails stop rest := ((h.fails_atom union).seq _).rule _
  have hamp : (chain .amp (primary seg union)).Fails stop rest := (hprimary.seq _).rule _
  cases t with
  | primary => exact hprimary
  | amp => exact hamp
  | bar | whole => exact (hamp.seq _).rule _

theorem Follows.fails_union (h : Follows s rest) (depth : Nat) :
    (union seg depth).Fails stop rest := by
  cases depth with
  | zero => rfl
  | succ depth => exact h.fails_ofStratum _ .bar

/-- A token that ends a chain is no operator of the chain. -/
theorem Follows.fails_operation (h : Follows op.before rest) (operand : Reader) :
    (operation op operand).Fails stop rest :=
  .seq (.rule (h.fails_mark (by cases op <;> rfl)) _) _

theorem Follows.after_of_before (h : Follows op.before rest) : Follows op.after rest := by
  intro l hl
  have hend := h l hl
  generalize l.token = t at hend ⊢
  cases t with
  | operator op' => cases op <;> cases op' <;> first | rfl | cases hend
  | comma | closing => rfl
  | _ => cases hend

theorem follows_cons (h : isEnd s l.token = true) (rest : List Lexeme) : Follows s (l :: rest) := by
  intro m hm
  cases hm
  exact h

theorem follows_operator (h : l.token = .operator op) (rest : List Lexeme) :
    Follows op.after (l :: rest) :=
  follows_cons (by rw [h]; cases op <;> rfl) rest

/-! ## Expressions as a whole

A chain with a single operand is lowered to the operand, and one with operations to the fold of
them.  Both end up as the same kind of pair. -/

/-- An atom with what follows it is complete when no trailer follows. -/
theorem ReadsTrailed.whole (h : ReadsTrailed seg stop ls e) :
    ReadsWhole seg stop .primary ls e := by
  intro depth hdepth rest hrest
  obtain ⟨p, front, tail, ps, pos, rfl, hatom, htail, hlower⟩ := h depth hdepth rest
  obtain ⟨pos', hmany⟩ := htail.reads_many (hrest.fails_trailer _)
  refine ⟨_, pos', (hatom.seq hmany).rule .primary, ?_, by simp [IsOperand, isSign, Pair.rule]⟩
  have hall := hlower []
  rw [List.append_nil] at hall
  rw [lower, List.singleton_append, hall, lowerTrailers]
  rfl

/-- A chain is complete when none of its operators follows. -/
theorem ReadsChained.whole (h : ReadsChained seg stop op ls e) :
    ReadsWhole seg stop op.before ls e := by
  intro depth hdepth rest hrest
  obtain ⟨p, front, tail, ps, pos, rfl, hfirst, htail, hlower⟩ :=
    h depth hdepth rest hrest.after_of_before
  obtain ⟨pos', hmany⟩ := htail.reads_many (hrest.fails_operation _)
  rw [ofStratum_before]
  refine ⟨_, pos', (hfirst.seq hmany).rule (chainRule op), ?_, ?_⟩
  · have hall := hlower [] (by simp)
    rw [List.append_nil] at hall
    cases op <;> rw [chainRule, lower, List.singleton_append, hall, lowerOperations] <;> rfl
  · cases op <;> simp [IsOperand, isSign, Pair.rule, chainRule]

/-- In every stratum, what is read so far is complete when the next token ends it. -/
theorem ReadAs.whole (h : ReadAs seg stop s ls e) : ReadsWhole seg stop s ls e := by
  cases s with
  | primary => exact ReadsTrailed.whole h
  | amp => exact @ReadsChained.whole seg stop ls e .amp h
  | bar => exact @ReadsChained.whole seg stop ls e .bar h
  | whole => exact h.elim

/-! ## Operations

One more operation comes at the end of a chain, with its operand or without.  In the second case the
chain dangles, and lowering has to see from the pairs that no operand is there. -/

/-- A complete operand starts a chain of operations. -/
theorem ReadsWhole.chained (h : ReadsWhole seg stop op.after ls e) :
    ReadsChained seg stop op ls e := by
  intro depth hdepth rest hrest
  obtain ⟨p, pos, hread, hlower, -⟩ := h depth hdepth rest hrest
  refine ⟨p, ls, [], [], pos, (List.append_nil ls).symm, hread, .nil, fun qs _ => ?_⟩
  rw [List.nil_append, lowerChain, hlower]
  rfl

theorem operator_signRule (op : Operator) : operator (signRule op) = .ok op := by
  cases op <;> rfl

theorem isSign_signRule (op : Operator) (span : Span) (text : List Char) (inner : List Pair) :
    isSign ⟨signRule op, span, text, inner⟩ = true := by
  cases op <;> rfl

/-- A sign without an operand behind it leaves the operation without its right side. -/
theorem lowerOperations_sign {qs : List Pair} (h : ∀ q ∈ qs.head?, isSign q = true) (lhs : Expr)
    (op : Operator) (span : Span) (text : List Char) (inner : List Pair) :
    lowerOperations lhs (⟨signRule op, span, text, inner⟩ :: qs) =
      lowerOperations (.dangling ⟨lhs.span.start, span.stop⟩ op lhs) qs := by
  cases qs with
  | nil =>
    rw [lowerOperations.eq_2, operator_signRule, lowerOperations.eq_1]
    rfl
  | cons q qs =>
    rw [lowerOperations, operator_signRule, ok_bind, if_pos (h q rfl)]

/-- A sign and its operand make one operation more, whose left side is all that came before. -/
theorem lowerOperations_operand {p : Pair} (hp : isSign p = false) (hrhs : lower p = .ok rhs)
    (lhs : Expr) (op : Operator) (span : Span) (text : List Char) (inner qs : List Pair) :
    lowerOperations lhs (⟨signRule op, span, text, inner⟩ :: p :: qs) =
      lowerOperations (.binary (lhs.span.through rhs.span) op lhs rhs) qs := by
  rw [lowerOperations, operator_signRule, ok_bind, hp, hrhs]
  rfl

/-- **One more operator**, with no operand behind it. -/
theorem ReadsChained.dangling (h : ReadsChained seg stop op ls lhs) (hl : l.token = .operator op) :
    ReadsChained seg stop op (ls ++ [l]) (.dangling ⟨lhs.span.start, l.span.stop⟩ op lhs) := by
  intro depth hdepth rest hrest
  rw [List.length_append] at hdepth
  obtain ⟨p, front, tail, ps, pos, rfl, hfirst, htail, hlower⟩ :=
    h depth (by omega) ([l] ++ rest) (follows_operator hl rest)
  have hmissing : (opt (ofStratum seg (union seg depth) op.after)).Reads stop [] rest [] _ :=
    (hrest.fails_ofStratum _ _).opt
  have hlast := ((reads_mark hl).rule (signRule op)).seq hmissing
  refine ⟨p, front, _, _, pos, by simp, ?_, htail.snoc (by simp) hlast, fun qs hqs => ?_⟩
  · simpa using hfirst
  · rw [List.append_assoc, hlower _ (by simp [isSign_signRule])]
    exact lowerOperations_sign hqs _ _ _ _ _

/-- **One more operation**, with its operand. -/
theorem ReadsChained.binary (h : ReadsChained seg stop op ls lhs) (hl : l.token = .operator op)
    (hrhs : ReadsWhole seg stop op.after ms rhs) :
    ReadsChained seg stop op (ls ++ l :: ms) (.binary (lhs.span.through rhs.span) op lhs rhs) := by
  intro depth hdepth rest hrest
  rw [List.length_append, List.length_cons] at hdepth
  obtain ⟨p, front, tail, ps, pos, rfl, hfirst, htail, hlower⟩ :=
    h depth (by omega) (([l] ++ ms) ++ rest) (follows_operator hl _)
  obtain ⟨q, pos', hoperand, hq, -, hsign⟩ := hrhs depth (by omega) rest hrest
  have hlast := ((reads_mark hl).rule (signRule op)).seq hoperand.opt
  refine ⟨p, front, _, _, pos, by simp, ?_, htail.snoc (by simp) hlast, fun qs hqs => ?_⟩
  · simpa using hfirst
  · rw [List.append_assoc, hlower _ (by simp [isSign_signRule])]
    exact lowerOperations_operand hsign hq _ _ _ _ _ _

/-! ## Elements

Commas stand between elements, and one may stand behind the last.  What stands in brackets is a row
of elements, and the bracket or the end of the text is what ends it. -/

/-- A comma is read; it leaves no expression behind. -/
theorem reads_comma (loud : Bool) (hl : l.token = .comma) (rest : List Lexeme) :
    ∃ ps, (commaOf loud).Reads stop [l] rest ps l.span.stop ∧ Lowers loud ps [] true := by
  cases loud with
  | true => exact ⟨_, (reads_mark hl).rule .comma, rfl⟩
  | false => exact ⟨_, reads_mark hl, rfl⟩

theorem fails_comma (loud : Bool) (h : ∀ l ∈ rest.head?, l.token ≠ .comma) :
    (commaOf loud).Fails stop rest := by
  cases loud with
  | true => exact (fails_mark h).rule _
  | false => exact fails_mark h

theorem lowers_singleton (loud : Bool) {p : Pair} (hp : IsOperand p) (h : lower p = .ok e) :
    Lowers loud [p] [e] false := by
  cases loud with
  | true =>
    show lowerElements [p] = _
    rw [lowerElements, if_neg hp.1, h]
    rfl
  | false =>
    show lowerAll [p] = _
    rw [lowerAll, h]
    rfl

theorem ReadsWhole.reads_union (h : ReadsWhole seg stop .bar ls e) (hne : ls ≠ [])
    (hdepth : ls.length ≤ depth) (hrest : Follows .bar rest) :
    ∃ p pos, (union seg depth).Reads stop ls rest [p] pos ∧ lower p = .ok e ∧
      IsOperand p := by
  have hpos := List.length_pos_iff.2 hne
  obtain ⟨depth, rfl⟩ : ∃ n, depth = n + 1 := ⟨depth - 1, by omega⟩
  exact h depth hdepth rest hrest

/-- A single element is a row. -/
theorem ReadsWhole.row (h : ReadsWhole seg stop .bar ls e) (hne : ls ≠ []) :
    ReadsRow seg stop ls [e] false := by
  intro loud depth hdepth rest hrest
  obtain ⟨p, pos, hread, hlower, hp⟩ := h.reads_union hne hdepth hrest
  exact ⟨p, ls, [], [], pos, by simp, hread, .nil, lowers_singleton loud hp hlower⟩

/-- **One more element** behind a comma. -/
theorem ReadsRow.next {commas : Bool} (h : ReadsRow seg stop ls es commas) (hl : l.token = .comma)
    (he : ReadsWhole seg stop .bar ms e) (hne : ms ≠ []) :
    ReadsRow seg stop (ls ++ [l] ++ ms) (es ++ [e]) true := by
  intro loud depth hdepth rest hrest
  rw [List.length_append, List.length_append] at hdepth
  obtain ⟨p, front, tail, ps, pos, rfl, hfirst, htail, hlower⟩ :=
    h loud depth (by omega) (([l] ++ ms) ++ rest) (follows_cons (by rw [hl]; rfl) _)
  obtain ⟨cs, hcomma, hcs⟩ := @reads_comma stop l loud hl (ms ++ rest)
  have hms : ms.length ≤ depth := by omega
  obtain ⟨q, pos', hread, hq, hoperand⟩ := he.reads_union hne hms hrest
  have hlast := htail.snoc (by simp) (hcomma.seq hread)
  refine ⟨p, front, _, _, pos, by simp, ?_, hlast, ?_⟩
  · simpa using hfirst
  · have hall := hlower.append (hcs.append (lowers_singleton loud hoperand hq))
    rwa [Bool.or_false, Bool.or_true] at hall

/-- Elements are read, and lowered; after the last of them there may be a comma. -/
def ReadsElements (seg : Segment) (stop : Nat) (ls : List Lexeme) (es : List Expr)
    (comma? : Option Nat) (ended : Bool) : Prop :=
  if ended then ReadsRow seg stop ls es comma?.isSome
  else (ls = [] ∧ es = [] ∧ comma? = none) ∨ ∃ front l commas, ls = front ++ [l] ∧
    l.token = .comma ∧ comma? = some l.span.stop ∧ ReadsRow seg stop front es commas

/-- The end of a level: a bracket that closes it, or the end of the text. -/
def Closes (rest : List Lexeme) : Prop := ∀ l ∈ rest.head?, ∃ b, l.token = .closing b

theorem Closes.follows (h : Closes rest) (s : Stratum) : Follows s rest := by
  intro l hl
  obtain ⟨b, hb⟩ := h l hl
  rw [hb]
  rfl

theorem Closes.fails_comma (h : Closes rest) (loud : Bool) : (commaOf loud).Fails stop rest := by
  refine Reader.fails_comma loud fun l hl hcomma => ?_
  obtain ⟨b, hb⟩ := h l hl
  rw [hb] at hcomma
  cases hcomma

/-- **The elements of a level** are read up to its end, and lowered. -/
theorem ReadsElements.reads_row {comma? : Option Nat} {ended : Bool}
    (h : ReadsElements seg stop ls es comma? ended) (hes : es ≠ []) (loud : Bool)
    (hdepth : ls.length ≤ depth) (hrest : Closes rest) :
    ∃ ps pos, (row (union seg depth) (commaOf loud)).Reads stop ls rest ps pos ∧
      Lowers loud ps es comma?.isSome ∧
      ∀ comma ∈ comma?, pos = if ended then startOf rest stop else comma := by
  cases ended with
  | true =>
    obtain ⟨p, front, tail, ps, pos, rfl, hfirst, htail, hlower⟩ :=
      h loud depth hdepth rest (hrest.follows _)
    obtain ⟨pos', hmany⟩ := htail.reads_many ((hrest.fails_comma loud).seq _)
    have htail := hmany.seq (hrest.fails_comma loud).opt
    rw [List.append_nil, List.append_nil] at htail
    exact ⟨_, _, hfirst.seq htail, hlower, fun _ _ => rfl⟩
  | false =>
    obtain ⟨-, rfl, -⟩ | ⟨front, l, commas, rfl, hl, rfl, hrow⟩ := h
    · exact absurd rfl hes
    · rw [List.length_append] at hdepth
      obtain ⟨p, front, tail, ps, pos, rfl, hfirst, htail, hlower⟩ :=
        hrow loud depth (by omega) ([l] ++ rest) (follows_cons (by rw [hl]; rfl) _)
      obtain ⟨cs, hcomma, hcs⟩ := @reads_comma stop l loud hl rest
      obtain ⟨pos', hmany⟩ :=
        htail.reads_many (hcomma.seq_fails ((hrest.follows .bar).fails_union depth))
      rw [← List.append_assoc] at hfirst
      refine ⟨_, _, by simpa [row] using hfirst.seq (hmany.seq hcomma.opt), ?_, ?_⟩
      · have hall := hlower.append hcs
        rw [Bool.or_true, List.append_nil] at hall
        exact hall
      · rintro comma ⟨⟩
        rfl

/-- **What stands in a list or a call** is read, and lowered. -/
theorem ReadsElements.reads_items {comma? : Option Nat} {ended : Bool}
    (h : ReadsElements seg stop ls es comma? ended) (hnil : es = [] → ls = [])
    (hdepth : ls.length ≤ depth) (hrest : Closes rest) :
    ∃ ps pos, (items (union seg depth)).Reads stop ls rest ps pos ∧ lowerAll ps = .ok es := by
  by_cases hes : es = []
  · obtain rfl := hnil hes
    subst hes
    exact ⟨[], _, (((hrest.follows .bar).fails_union depth).seq _).opt, rfl⟩
  · obtain ⟨ps, pos, hread, hlower, -⟩ := h.reads_row hes false hdepth hrest
    exact ⟨ps, pos, hread.opt, hlower⟩

/-- **What stands in parentheses or in a subscript** is read, and lowered. -/
theorem ReadsElements.reads_expression {comma? : Option Nat} {ended : Bool} {inner : Expr}
    (h : ReadsElements seg stop ls es comma? ended) (hfills : Fills ls es comma? ended)
    (hinner : wholeOf? es comma? ended (startOf rest stop) = some inner)
    (hdepth : ls.length ≤ depth) (hrest : Closes rest) :
    ∃ span ps pos, (expression (union seg depth)).Reads stop ls rest
      [⟨.expression, span, [], ps⟩] pos ∧
      lowerExpression ⟨.expression, span, [], ps⟩ = .ok inner := by
  have hes : es ≠ [] := by
    rintro rfl
    cases hinner
  obtain ⟨ps, pos, hread, hlower, hpos⟩ := h.reads_row hes true hdepth hrest
  refine ⟨_, ps, pos, hread.rule .expression, ?_⟩
  rw [lowerExpression, show lowerElements ps = _ from hlower, ok_bind]
  rw [wholeOf?.eq_def] at hinner
  split at hinner
  · cases hinner
  · next first more =>
    cases hinner
    rw [hfills.alone.1]
    rfl
  · next first more comma =>
    cases hinner
    rw [hpos comma rfl, ((hfills.startsAt first rfl).append rest).startOf_eq]
    rfl

/-! ## Atoms and what follows them

Names, literals and brackets, and then calls, subscripts and attributes.  There is a lemma for each
constructor of derivations. -/

/-- A group in round brackets is read if what stands in it is. -/
theorem reads_round {p : Reader} {ps : List Pair} {pos : Nat} (hl : l.token = .opening .round)
    (h : p.Reads stop ls (r :: rest) ps pos) (hr : r.token = .closing .round) :
    (round p).Reads stop (l :: (ls ++ [r])) rest ps r.span.stop := by
  have hclosed := h.seq (reads_mark hr)
  have hopened := (reads_mark hl).seq hclosed
  rwa [List.append_nil] at hopened

/-- A group in square brackets is read if what stands in it is. -/
theorem reads_square {p : Reader} {ps : List Pair} {pos : Nat} (hl : l.token = .opening .square)
    (h : p.Reads stop ls (r :: rest) ps pos) (hr : r.token = .closing .square) :
    (square p).Reads stop (l :: (ls ++ [r])) rest ps r.span.stop := by
  have hclosed := h.seq (reads_mark hr)
  have hopened := (reads_mark hl).seq hclosed
  rwa [List.append_nil] at hopened

theorem fails_round (h : l.token ≠ .opening .round) (p : Reader) (ls : List Lexeme) :
    (round p).Fails stop (l :: ls) :=
  .seq (fails_mark (by simpa using h)) _

theorem fails_square (h : l.token ≠ .opening .square) (p : Reader) (ls : List Lexeme) :
    (square p).Fails stop (l :: ls) :=
  .seq (fails_mark (by simpa using h)) _

theorem closes_cons {b : Bracket} (h : r.token = .closing b) (rest : List Lexeme) :
    Closes (r :: rest) := by
  intro m hm
  cases hm
  exact ⟨b, h⟩

/-- There are less tokens between brackets than with them. -/
theorem length_inside_append (h : (ls ++ l :: (ms ++ [r])).length ≤ depth + 1) :
    ms.length ≤ depth := by
  simp only [List.length_append, List.length_cons, List.length_nil] at h
  omega

theorem length_inside (h : (l :: (ls ++ [r])).length ≤ depth + 1) : ls.length ≤ depth :=
  @length_inside_append depth l r [] ls h

/-- An atom with nothing after it. -/
theorem readsTrailed_of_atom (h : ∀ depth, ls.length ≤ depth + 1 → ∀ rest,
      ∃ p pos, (atom seg (union seg depth)).Reads stop ls rest [p] pos ∧ lower p = .ok e) :
    ReadsTrailed seg stop ls e := by
  intro depth hdepth rest
  obtain ⟨p, pos, hread, hlower⟩ := h depth hdepth rest
  refine ⟨p, ls, [], [], pos, (List.append_nil ls).symm, hread, .nil, fun qs => ?_⟩
  rw [List.nil_append, lowerPrimary, hlower]
  rfl

/-- **A token that is an operand** is an atom. -/
theorem readsTrailed_operand (hl : l.IsOf seg) (h : l.token.operand? l.span = some e) :
    ReadsTrailed seg stop [l] e := by
  refine readsTrailed_of_atom fun depth _ rest => ?_
  obtain ⟨p, hp, hlower⟩ := hl.operand e h
  have hround : l.token ≠ .opening .round := fun hl => by
    rw [hl] at h
    cases h
  have hsquare : l.token ≠ .opening .square := fun hl => by
    rw [hl] at h
    cases h
  have hread : (token seg).Reads stop [l] rest [p] l.span.stop := by
    simp [Reads, token, Cursor.ahead, Cursor.behind, hp]
  exact ⟨p, _, (hread.right ((fails_square hsquare _ _).rule _)).right
    ((fails_round hround _ _).rule _), hlower⟩

/-- A pair of brackets with nothing in it is the empty tuple. -/
theorem readsTrailed_unit (hl : l.token = .opening .round) (hr : r.token = .closing .round) :
    ReadsTrailed seg stop [l, r] (.tuple ⟨l.span.start, r.span.stop⟩ []) := by
  refine readsTrailed_of_atom fun depth _ rest => ?_
  have hnone : (opt (expression (union seg depth))).Reads stop [] (r :: rest) [] _ :=
    (((((closes_cons hr rest).follows .bar).fails_union depth).seq _).rule _).opt
  refine ⟨_, _, ((reads_round hl hnone hr).rule .paren).left _, ?_⟩
  rw [lower]
  rfl

/-- **An expression in parentheses** is an atom. -/
theorem readsTrailed_paren {comma? : Option Nat} {ended : Bool} {inner : Expr}
    (hl : l.token = .opening .round) (h : ReadsElements seg stop ls es comma? ended)
    (hfills : Fills ls es comma? ended)
    (hinner : wholeOf? es comma? ended r.span.start = some inner) (hr : r.token = .closing .round) :
    ReadsTrailed seg stop (l :: (ls ++ [r])) (.paren ⟨l.span.start, r.span.stop⟩ inner) := by
  refine readsTrailed_of_atom fun depth hdepth rest => ?_
  obtain ⟨span, ps, pos, hread, hlower⟩ := h.reads_expression hfills
    (show wholeOf? es comma? ended (startOf (r :: rest) stop) = some inner from hinner)
    (length_inside hdepth) (closes_cons hr rest)
  refine ⟨_, _, ((reads_round hl hread.opt hr).rule .paren).left _, ?_⟩
  rw [lower, hlower]
  rfl

/-- **A list** is an atom. -/
theorem readsTrailed_list {comma? : Option Nat} {ended : Bool}
    (hl : l.token = .opening .square) (h : ReadsElements seg stop ls es comma? ended)
    (hfills : Fills ls es comma? ended) (hr : r.token = .closing .square) :
    ReadsTrailed seg stop (l :: (ls ++ [r])) (.list ⟨l.span.start, r.span.stop⟩ es) := by
  refine readsTrailed_of_atom fun depth hdepth rest => ?_
  obtain ⟨ps, pos, hread, hlower⟩ := h.reads_items hfills.eq_nil
    (length_inside hdepth) (closes_cons hr rest)
  have hround : l.token ≠ .opening .round := by simp [hl]
  refine ⟨_, _, (((reads_square hl hread hr).rule .list).left _).right
    ((fails_round hround _ _).rule _), ?_⟩
  rw [lower, hlower]
  rfl

/-- One more call, subscript or attribute. -/
theorem ReadsTrailed.snoc {value : Expr} (h : ReadsTrailed seg stop ls value)
    (hne : ms ≠ []) (hms : ∀ depth, (ls ++ ms).length ≤ depth + 1 → ∀ rest,
      ∃ p pos, (trailer seg (union seg depth)).Reads stop ms rest [p] pos ∧
        ∀ qs, lowerTrailers value (p :: qs) = lowerTrailers e qs) :
    ReadsTrailed seg stop (ls ++ ms) e := by
  intro depth hdepth rest
  have hls : ls.length ≤ depth + 1 := by
    rw [List.length_append] at hdepth
    omega
  obtain ⟨p, front, tail, ps, pos, rfl, hatom, htail, hlower⟩ := h depth hls (ms ++ rest)
  obtain ⟨q, pos', hread, hq⟩ := hms depth hdepth rest
  refine ⟨p, front, _, _, pos, by simp, ?_, htail.snoc hne hread, fun qs => ?_⟩
  · simpa using hatom
  · rw [List.append_assoc, hlower]
    exact hq qs

/-- **A call** of what has been read so far. -/
theorem ReadsTrailed.call {callee : Expr} {comma? : Option Nat} {ended : Bool}
    (hcallee : ReadsTrailed seg stop ls callee) (hl : l.token = .opening .round)
    (h : ReadsElements seg stop ms es comma? ended) (hfills : Fills ms es comma? ended)
    (hr : r.token = .closing .round) :
    ReadsTrailed seg stop (ls ++ l :: (ms ++ [r]))
      (.call (callee.span.through r.span) callee es) := by
  refine hcallee.snoc (by simp) fun depth hdepth rest => ?_
  obtain ⟨ps, pos, hread, hlower⟩ := h.reads_items hfills.eq_nil
    (length_inside_append hdepth) (closes_cons hr rest)
  refine ⟨_, _, ((reads_round hl hread hr).rule .call).left _, fun qs => ?_⟩
  rw [lowerTrailers, hlower]
  rfl

/-- **A subscript** of what has been read so far. -/
theorem ReadsTrailed.subscript {value index : Expr} {comma? : Option Nat} {ended : Bool}
    (hvalue : ReadsTrailed seg stop ls value) (hl : l.token = .opening .square)
    (h : ReadsElements seg stop ms es comma? ended) (hfills : Fills ms es comma? ended)
    (hindex : wholeOf? es comma? ended r.span.start = some index)
    (hr : r.token = .closing .square) :
    ReadsTrailed seg stop (ls ++ l :: (ms ++ [r]))
      (.subscript (value.span.through r.span) value index) := by
  refine hvalue.snoc (by simp) fun depth hdepth rest => ?_
  obtain ⟨span, ps, pos, hread, hlower⟩ := h.reads_expression hfills
    (show wholeOf? es comma? ended (startOf (r :: rest) stop) = some index from hindex)
    (length_inside_append hdepth) (closes_cons hr rest)
  have hround : l.token ≠ .opening .round := by simp [hl]
  refine ⟨_, _, (((reads_square hl hread hr).rule .subscript).left _).right
    ((fails_round hround _ _).rule _), fun qs => ?_⟩
  rw [lowerTrailers, hlower]
  rfl

/-- **A member** of what has been read so far. -/
theorem ReadsTrailed.member {value : Expr} {attr : String}
    (hvalue : ReadsTrailed seg stop ls value) (hl : l.token = .dot) (hr : r.token = .word attr)
    (hword : r.IsOf seg) :
    ReadsTrailed seg stop (ls ++ [l, r]) (.member (value.span.through r.span) value attr) := by
  refine hvalue.snoc (by simp) fun depth hdepth rest => ?_
  have hname : (word seg).Reads stop [r] rest
      [⟨.word, r.span, textAt seg r.span, []⟩] r.span.stop := by
    obtain ⟨t, span⟩ := r
    obtain rfl : t = .word attr := hr
    rfl
  have hround : l.token ≠ .opening .round := by simp [hl]
  have hsquare : l.token ≠ .opening .square := by simp [hl]
  have hread := ((reads_mark hl).seq hname).rule .attribute
  refine ⟨_, _, (hread.right ((fails_square hsquare _ _).rule _)).right
    ((fails_round hround _ _).rule _), fun qs => ?_⟩
  simp only [List.nil_append]
  rw [lowerTrailers]
  simp only [List.head?_cons, expect, ok_bind, Pair.text, hword.word attr hr]
  rfl

end Reader

/-! ## All expressions

The two statements are proved together, by recursion on the derivation of the expression and of the
elements in brackets.  Every case is a lemma above. -/

/-- An expression has tokens. -/
theorem Derives.ne_nil {s : Stratum} {ls : List Lexeme} {e : Expr} (h : Derives s ls e) :
    ls ≠ [] := by
  rintro rfl
  cases h.ends.1

open Reader in
mutual

/-- **The tokens of an expression** are read by the reader of its stratum, and lowered. -/
theorem Derives.readAs {seg : Segment} {stop : Nat} : ∀ {s : Stratum} {ls : List Lexeme} {e : Expr},
    Derives s ls e → (∀ l ∈ ls, l.IsOf seg) → ReadAs seg stop s ls e
  | _, _, _, .operand h, hls => readsTrailed_operand (hls _ List.mem_cons_self) h
  | _, _, _, .unit hl hr, _ => readsTrailed_unit hl hr
  | _, _, _, .paren hl h hinner hr, hls =>
    readsTrailed_paren hl (h.readsElements fun m hm => hls m (by simp [hm])) h hinner hr
  | _, _, _, .list hl h hr, hls =>
    readsTrailed_list hl (h.readsElements fun m hm => hls m (by simp [hm])) h hr
  | _, _, _, .call hcallee hl h hr, hls =>
    .call (hcallee.readAs fun m hm => hls m (by simp [hm])) hl
      (h.readsElements fun m hm => hls m (by simp [hm])) h hr
  | _, _, _, .subscript hvalue hl h hindex hr, hls =>
    .subscript (hvalue.readAs fun m hm => hls m (by simp [hm])) hl
      (h.readsElements fun m hm => hls m (by simp [hm])) h hindex hr
  | _, _, _, .member hvalue hl hr, hls =>
    .member (hvalue.readAs fun m hm => hls m (by simp [hm])) hl hr (hls _ (by simp))
  | _, _, _, .amp h, hls => (h.readAs hls).whole.chained
  | _, _, _, .bar h, hls => (h.readAs hls).whole.chained
  | _, _, _, @Derives.binary op _ _ _ _ _ hlhs hl hrhs, hls => by
    have hleft : ReadAs seg stop op.before _ _ := hlhs.readAs fun m hm => hls m (by simp [hm])
    have hright : ReadAs seg stop op.after _ _ := hrhs.readAs fun m hm => hls m (by simp [hm])
    rw [readAs_before] at hleft ⊢
    exact hleft.binary hl hright.whole
  | _, _, _, @Derives.dangling op _ _ _ hlhs hl, hls => by
    have hleft : ReadAs seg stop op.before _ _ := hlhs.readAs fun m hm => hls m (by simp [hm])
    rw [readAs_before] at hleft ⊢
    exact hleft.dangling hl

/-- **The tokens of elements** are read as elements, and lowered. -/
theorem Fills.readsElements {seg : Segment} {stop : Nat} : ∀ {ls : List Lexeme} {es : List Expr}
    {comma? : Option Nat} {ended : Bool}, Fills ls es comma? ended → (∀ l ∈ ls, l.IsOf seg) →
      ReadsElements seg stop ls es comma? ended
  | _, _, _, _, .empty, _ => .inl ⟨rfl, rfl, rfl⟩
  | _, _, _, _, .next h he, hls => by
    have hlast : ReadAs seg stop .bar _ _ := he.readAs fun m hm => hls m (by simp [hm])
    have hfront : ReadsElements seg stop _ _ _ false :=
      h.readsElements fun m hm => hls m (by simp [hm])
    obtain ⟨rfl, rfl, rfl⟩ | ⟨front, l, commas, rfl, hl, rfl, hrow⟩ := hfront
    · exact hlast.whole.row he.ne_nil
    · exact hrow.next hl hlast.whole he.ne_nil
  | _, _, _, _, .comma h hl, hls =>
    .inr ⟨_, _, _, rfl, hl, rfl, h.readsElements fun m hm => hls m (by simp [hm])⟩

end

/-! ## Whole texts

The tree of a whole text has a pair for the text and one for its end around the expression. -/

/-- **A text that is read has a parse tree**, which is lowered to what is read. -/
theorem exists_fragment {seg : Segment} {e : Expr} (h : Expr.read seg.text seg.start = .ok e) :
    ∃ whole span text inner close, parse seg = .ok [⟨.fragment, whole, [],
        [⟨.expression, span, text, inner⟩, ⟨.endOfText, close, [], []⟩]⟩] ∧
      lowerExpression ⟨.expression, span, text, inner⟩ = .ok e := by
  obtain ⟨es, comma?, ended, hfills, hwhole⟩ := Expr.derives_of_read h
  have hinner : wholeOf? es comma? ended (startOf [] seg.span.stop) = some e := hwhole
  have hclosed : Reader.Closes [] := by simp [Reader.Closes]
  have helements := @Fills.readsElements seg seg.span.stop _ _ _ _ hfills fun l hl =>
    Lexeme.isOf_of_mem (Expr.not_junk_of_read h) hl
  obtain ⟨span, ps, pos, hread, hlower⟩ :=
    helements.reads_expression hfills hinner (Nat.le_succ _) hclosed
  rw [Reader.Reads, List.append_nil] at hread
  refine ⟨⟨seg.start, seg.span.stop⟩, span, [], ps, ⟨seg.span.stop, seg.span.stop⟩, ?_, hlower⟩
  rw [parse, h]
  simp [Reader.fragment, Reader.rule, Reader.seq, Reader.startOfText, hread]
  rfl

/-- **The expression in a segment** is read from its parse tree as it is read without one.  If the
text is not read there is no tree either, and both report the same error at the same place. -/
theorem expr_agrees {known : Fault → Prop} (seg : Segment) :
    Agrees known (Careful.expr seg) seg.expr := by
  rw [Careful.expr, trim_eq, ok_bind, Segment.expr]
  cases h : Expr.read seg.trim.text seg.trim.start with
  | error u =>
    rw [parse, h]
    exact report_agrees (Nat.le_refl _) rfl
  | ok e =>
    obtain ⟨whole, span, text, inner, close, hparse, hlower⟩ := exists_fragment h
    rw [hparse]
    show Agrees known (lowerExpression ⟨.expression, span, text, inner⟩) (.ok e)
    rw [hlower]
    exact .ok e

end TypeReveal
