import Mathlib.Data.Option.Basic
import TypeReveal.Proofs.Expr.Stratum
import TypeReveal.Proofs.Outcome

/-!
# Derivations

The grammar of expressions over the tokens of a text, with the spans that an expression gets.

* `Derives s ls e` — the tokens `ls` are the expression `e` of the stratum `s`.
* `Fills ls es comma? ended` — the tokens `ls` are what stands in brackets: the elements `es`, the
  last comma ends at `comma?`, and the last element is `ended` by no comma.

Reading follows the grammar: `Draft.Derived` says which tokens each part of a draft was read from,
every step keeps it (`Draft.Derived.step`), and so an expression that is read is derived from the
tokens of its text (`Expr.derives_of_read`).

A draft is the state of a reader that goes from left to right: the levels of the brackets that are
open, and on each level the elements that are finished, the operands that wait for a right side, and
the operand that was read last.  Derivations are the grammar that a reader of this kind accepts.
They are left-recursive, as the reader extends what it has on its left, and they carry spans,
because the span of an expression is put together from those of its parts.

The invariant says of each of these parts which tokens it was read from, in order, so that together
they are the tokens that have been read.  There is a single difficulty.  A point is read before it
is known what follows it, and so a draft may have read a point which belongs to no part yet
(`Draft.Derived`).
-/

set_option autoImplicit false
namespace TypeReveal

/-! ## The grammar

One rule for each way in which an operand is begun or extended, one for each operator, with its
right side and without, and a rule for going to a stratum where more is admitted. -/

/-- The expression that elements are when `next` is where the last of them can end at most: the only
one, or a tuple if there is a comma. -/
def wholeOf? (es : List Expr) (comma? : Option Nat) (ended : Bool) (next : Nat) : Option Expr :=
  match es, comma? with
  | [], _ => none
  | first :: _, none => some first
  | first :: rest, some comma =>
    some (.tuple ⟨first.span.start, if ended then next else comma⟩ (first :: rest))

mutual

/-- **The tokens of an expression** of a stratum. -/
inductive Derives : Stratum → List Lexeme → Expr → Prop
  | operand {l : Lexeme} {e : Expr} (h : l.token.operand? l.span = some e) :
    Derives .primary [l] e
  | unit {l r : Lexeme} (hl : l.token = .opening .round) (hr : r.token = .closing .round) :
    Derives .primary [l, r] (.tuple ⟨l.span.start, r.span.stop⟩ [])
  | paren {l r : Lexeme} {ls : List Lexeme} {es : List Expr} {comma? : Option Nat} {ended : Bool}
    {inner : Expr} (hl : l.token = .opening .round) (h : Fills ls es comma? ended)
    (hinner : wholeOf? es comma? ended r.span.start = some inner)
    (hr : r.token = .closing .round) :
    Derives .primary (l :: (ls ++ [r])) (.paren ⟨l.span.start, r.span.stop⟩ inner)
  | list {l r : Lexeme} {ls : List Lexeme} {es : List Expr} {comma? : Option Nat} {ended : Bool}
    (hl : l.token = .opening .square) (h : Fills ls es comma? ended)
    (hr : r.token = .closing .square) :
    Derives .primary (l :: (ls ++ [r])) (.list ⟨l.span.start, r.span.stop⟩ es)
  | call {l r : Lexeme} {ls ms : List Lexeme} {callee : Expr} {es : List Expr}
    {comma? : Option Nat} {ended : Bool} (hcallee : Derives .primary ls callee)
    (hl : l.token = .opening .round) (h : Fills ms es comma? ended)
    (hr : r.token = .closing .round) :
    Derives .primary (ls ++ l :: (ms ++ [r])) (.call (callee.span.through r.span) callee es)
  | subscript {l r : Lexeme} {ls ms : List Lexeme} {value index : Expr} {es : List Expr}
    {comma? : Option Nat} {ended : Bool} (hvalue : Derives .primary ls value)
    (hl : l.token = .opening .square) (h : Fills ms es comma? ended)
    (hindex : wholeOf? es comma? ended r.span.start = some index)
    (hr : r.token = .closing .square) :
    Derives .primary (ls ++ l :: (ms ++ [r]))
      (.subscript (value.span.through r.span) value index)
  | member {l r : Lexeme} {ls : List Lexeme} {value : Expr} {attr : String}
    (hvalue : Derives .primary ls value) (hl : l.token = .dot) (hr : r.token = .word attr) :
    Derives .primary (ls ++ [l, r]) (.member (value.span.through r.span) value attr)
  | amp {ls : List Lexeme} {e : Expr} (h : Derives .primary ls e) : Derives .amp ls e
  | bar {ls : List Lexeme} {e : Expr} (h : Derives .amp ls e) : Derives .bar ls e
  | binary {op : Operator} {l : Lexeme} {ls ms : List Lexeme} {lhs rhs : Expr}
    (hlhs : Derives op.before ls lhs) (hl : l.token = .operator op)
    (hrhs : Derives op.after ms rhs) :
    Derives op.before (ls ++ l :: ms) (.binary (lhs.span.through rhs.span) op lhs rhs)
  | dangling {op : Operator} {l : Lexeme} {ls : List Lexeme} {lhs : Expr}
    (hlhs : Derives op.before ls lhs) (hl : l.token = .operator op) :
    Derives op.before (ls ++ [l]) (.dangling ⟨lhs.span.start, l.span.stop⟩ op lhs)

/-- **The tokens of elements** with commas between them, and maybe after the last. -/
inductive Fills : List Lexeme → List Expr → Option Nat → Bool → Prop
  | empty : Fills [] [] none false
  | next {ls ms : List Lexeme} {es : List Expr} {comma? : Option Nat} {e : Expr}
    (h : Fills ls es comma? false) (he : Derives .bar ms e) :
    Fills (ls ++ ms) (es ++ [e]) comma? true
  | comma {l : Lexeme} {ls : List Lexeme} {es : List Expr} {comma? : Option Nat}
    (h : Fills ls es comma? true) (hl : l.token = .comma) :
    Fills (ls ++ [l]) es (some l.span.stop) false

end

/-- The tokens of an expression, or none. -/
inductive DerivesOpt (s : Stratum) : List Lexeme → Option Expr → Prop
  | none : DerivesOpt s [] none
  | some {ls : List Lexeme} {e : Expr} (h : Derives s ls e) : DerivesOpt s ls (some e)

/-- The tokens of an operand with the operator after it, or none. -/
inductive Waits (op : Operator) : List Lexeme → Option Pending → Prop
  | none : Waits op [] none
  | some {l : Lexeme} {ls : List Lexeme} {lhs : Expr} (h : Derives op.before ls lhs)
    (hl : l.token = .operator op) : Waits op (ls ++ [l]) (some ⟨lhs, l.span.stop⟩)

/-- Before a comma stands an element. -/
theorem Fills.ne_nil {ls : List Lexeme} {es : List Expr} {comma? : Option Nat}
    (h : Fills ls es comma? true) : es ≠ [] := by
  cases h with
  | next => simp

/-- No elements have no tokens. -/
theorem Fills.eq_nil {ls : List Lexeme} {es : List Expr} {comma? : Option Nat} {ended : Bool}
    (h : Fills ls es comma? ended) (hes : es = []) : ls = [] := by
  cases h with
  | empty => rfl
  | next h he => simp at hes
  | comma h => exact absurd hes h.ne_nil

/-- The tokens of an expression that ends at `next` at most: all that stands in parentheses, in a
subscript or in a text. -/
def DerivesWhole (ls : List Lexeme) (next : Nat) (e : Expr) : Prop :=
  ∃ es comma? ended, Fills ls es comma? ended ∧ wholeOf? es comma? ended next = some e

/-- Without a comma there is at most one element. -/
theorem Fills.alone {ls : List Lexeme} {first : Expr} {rest : List Expr} {ended : Bool}
    (h : Fills ls (first :: rest) none ended) : rest = [] ∧ Derives .bar ls first := by
  generalize hes : first :: rest = es at h
  cases h with
  | empty => cases hes
  | next h he =>
    cases h with
    | empty =>
      cases hes
      exact ⟨rfl, he⟩

/-- A whole expression is one element, or a tuple with a comma. -/
theorem derivesWhole_iff {ls : List Lexeme} {next : Nat} {e : Expr} :
    DerivesWhole ls next e ↔ Derives .bar ls e ∨
      ∃ first rest comma ended, Fills ls (first :: rest) (some comma) ended ∧
        e = .tuple ⟨first.span.start, if ended then next else comma⟩ (first :: rest) := by
  constructor
  · rintro ⟨es, comma?, ended, hfills, hwhole⟩
    rw [wholeOf?.eq_def] at hwhole
    split at hwhole
    · cases hwhole
    · cases hwhole
      exact .inl hfills.alone.2
    · next first rest comma =>
      cases hwhole
      exact .inr ⟨first, rest, comma, ended, hfills, rfl⟩
  · rintro (h | ⟨first, rest, comma, ended, hfills, rfl⟩)
    · exact ⟨[e], none, true, .next .empty h, rfl⟩
    · exact ⟨first :: rest, some comma, ended, hfills, rfl⟩

/-! ## Levels

On one level nothing happens but that operands are joined.  A level has at most two operands that
wait, one before a bar and one before an ampersand, in this order. -/

/-- What stands after an operator is an operand before it too. -/
theorem Derives.before_of_after {op : Operator} {ls : List Lexeme} {e : Expr}
    (h : Derives op.after ls e) : Derives op.before ls e := by
  cases op with
  | bar => exact .bar h
  | amp => exact .amp h

/-- What waits for an operand, together with it. -/
def joined? (op : Operator) (pending? : Option Pending) (rhs? : Option Expr) : Option Expr :=
  match pending? with
  | none => rhs?
  | some pending => some (pending.close op rhs?)

/-- An operand that waits is joined with the one after it. -/
theorem Waits.close {op : Operator} {ls ms : List Lexeme} {pending? : Option Pending}
    {rhs? : Option Expr} (h : Waits op ls pending?) (hrhs : DerivesOpt op.after ms rhs?) :
    DerivesOpt op.before (ls ++ ms) (joined? op pending? rhs?) := by
  cases h with
  | none =>
    cases hrhs with
    | none => exact .none
    | some hrhs => exact .some hrhs.before_of_after
  | some hlhs hl =>
    cases hrhs with
    | none =>
      rw [List.append_nil]
      exact .some (.dangling hlhs hl)
    | some hrhs =>
      rw [List.append_assoc]
      exact .some (.binary hlhs hl hrhs)

namespace Level

variable {L L' : Level} {ls ms ts : List Lexeme} {l : Lexeme} {e : Expr}

/-- The tokens that a level has read before its last operand. -/
def Ready (L : Level) (ts : List Lexeme) : Prop :=
  ∃ front bars amps, Fills front L.elems.reverse L.comma? false ∧ Waits .bar bars L.bar? ∧
    Waits .amp amps L.amp? ∧ ts = front ++ (bars ++ amps)

/-- The tokens that a level has read. -/
def Derived (L : Level) (ts : List Lexeme) : Prop :=
  ∃ ready last, L.Ready ready ∧ DerivesOpt .primary last L.operand? ∧ ts = ready ++ last

theorem derived_empty (opening : Opening) : Level.Derived { opening } [] :=
  ⟨[], [], ⟨[], [], [], .empty, .none, .none, rfl⟩, .none, rfl⟩

theorem Ready.withOperand (h : L.Ready ls) (he : Derives .primary ms e) :
    (L.withOperand e).Derived (ls ++ ms) :=
  ⟨ls, ms, h, .some he, rfl⟩

/-- The tokens of the parts of a level, one after the other. -/
theorem Derived.exists_parts (h : L.Derived ts) :
    ∃ front bars rest, Fills front L.elems.reverse L.comma? false ∧ Waits .bar bars L.bar? ∧
      DerivesOpt .amp rest L.intersection? ∧ ts = front ++ (bars ++ rest) := by
  obtain ⟨_, last, ⟨front, bars, amps, hfront, hbar, hamp, rfl⟩, hlast, rfl⟩ := h
  exact ⟨front, bars, amps ++ last, hfront, hbar, hamp.close hlast, by simp⟩

theorem Derived.exists_element (h : L.Derived ts) :
    ∃ front rest, Fills front L.elems.reverse L.comma? false ∧
      DerivesOpt .bar rest L.element? ∧ ts = front ++ rest := by
  obtain ⟨front, bars, rest, hfront, hbar, hrest, rfl⟩ := h.exists_parts
  exact ⟨front, bars ++ rest, hfront, hbar.close hrest, rfl⟩

/-- **The tokens of a level are its elements.** -/
theorem Derived.fills (h : L.Derived ts) :
    Fills ts L.elements L.comma? L.element?.isSome := by
  obtain ⟨front, rest, hfront, hrest, rfl⟩ := h.exists_element
  rw [elements, List.reverse_append]
  generalize L.element? = element? at hrest
  cases hrest with
  | none => simpa using hfront
  | some he => simpa using hfront.next he

theorem expression?_eq (L : Level) (next : Nat) :
    L.expression? next = wholeOf? L.elements L.comma? L.element?.isSome next := by
  unfold expression? wholeOf?
  cases L.elements <;> cases L.comma? <;> rfl

theorem Derived.operator? (h : L.Derived ts) {op : Operator} (hl : l.token = .operator op)
    (hop : L.operator? op l.span.stop = some L') : L'.Derived (ts ++ [l]) := by
  cases op with
  | bar =>
    obtain ⟨front, rest, hfront, hrest, rfl⟩ := h.exists_element
    obtain ⟨lhs, hlhs, rfl⟩ := Option.map_eq_some_iff.1 hop
    rw [hlhs] at hrest
    cases hrest with
    | some hrest =>
      exact ⟨_, [], ⟨front, rest ++ [l], [], hfront, .some hrest hl, .none, rfl⟩, .none, by simp⟩
  | amp =>
    obtain ⟨front, bars, rest, hfront, hbar, hrest, rfl⟩ := h.exists_parts
    obtain ⟨lhs, hlhs, rfl⟩ := Option.map_eq_some_iff.1 hop
    rw [hlhs] at hrest
    cases hrest with
    | some hrest =>
      exact ⟨_, [], ⟨front, bars, rest ++ [l], hfront, hbar, .some hrest hl, rfl⟩, .none, by simp⟩

theorem opening_operator? {op : Operator} {stop : Nat} (h : L.operator? op stop = some L') :
    L'.opening = L.opening := by
  cases op with
  | bar =>
    obtain ⟨lhs, -, rfl⟩ := Option.map_eq_some_iff.1 h
    rfl
  | amp =>
    obtain ⟨lhs, -, rfl⟩ := Option.map_eq_some_iff.1 h
    rfl

theorem opening_separate? {stop : Nat} (h : L.separate? stop = some L') :
    L'.opening = L.opening := by
  obtain ⟨e, -, rfl⟩ := Option.map_eq_some_iff.1 h
  rfl

theorem Derived.separate? (h : L.Derived ts) (hl : l.token = .comma)
    (hsep : L.separate? l.span.stop = some L') : L'.Derived (ts ++ [l]) := by
  have hfills := h.fills
  obtain ⟨e, he, rfl⟩ := Option.map_eq_some_iff.1 hsep
  rw [elements, he] at hfills
  exact ⟨_, [], ⟨ts ++ [l], [], [], hfills.comma hl, .none, .none, rfl⟩, .none, by simp⟩

end Level

/-! ## Brackets

A bracket that closes ends a level, and what the level holds becomes an operand of the level around
it.  What kind of operand depends on what the bracket was opened for. -/

/-- The tokens that open a level. -/
inductive Opened : Opening → List Lexeme → Prop
  | paren {l : Lexeme} (hl : l.token = .opening .round) : Opened (.paren l.span.start) [l]
  | list {l : Lexeme} (hl : l.token = .opening .square) : Opened (.list l.span.start) [l]
  | call {l : Lexeme} {ls : List Lexeme} {e : Expr} (h : Derives .primary ls e)
    (hl : l.token = .opening .round) : Opened (.call e) (ls ++ [l])
  | subscript {l : Lexeme} {ls : List Lexeme} {e : Expr} (h : Derives .primary ls e)
    (hl : l.token = .opening .square) : Opened (.subscript e) (ls ++ [l])

/-- **A bracket that closes** makes an operand of the tokens of its level and those that opened
it. -/
theorem Level.Derived.close? {L : Level} {os ms : List Lexeme} {r : Lexeme} {bracket : Bracket}
    {e : Expr} (h : L.Derived ms) (hopened : Opened L.opening os)
    (hr : r.token = .closing bracket) (hclose : L.close? bracket r.span = some e) :
    Derives .primary (os ++ (ms ++ [r])) e := by
  have hfills := h.fills
  rw [Level.close?.eq_def] at hclose
  split at hclose
  · next start hparen =>
    rw [hparen] at hopened
    cases hopened with
    | paren hl =>
      split at hclose
      · next hnone =>
        cases hclose
        -- Nothing between the brackets: the level has no elements, hence no lexemes either.
        have hes : L.elements = [] := by
          rw [Level.expression?] at hnone
          split at hnone
          · assumption
          · cases hnone
          · cases hnone
        rw [hfills.eq_nil hes]
        exact .unit hl hr
      · next inner hinner =>
        cases hclose
        exact .paren hl hfills (Level.expression?_eq L _ ▸ hinner) hr
  · next start hlist =>
    cases hclose
    rw [hlist] at hopened
    cases hopened with
    | list hl => exact .list hl hfills hr
  · next callee hcall =>
    cases hclose
    rw [hcall] at hopened
    cases hopened with
    | call hcallee hl =>
      rw [List.append_assoc]
      exact .call hcallee hl hfills hr
  · next value hsubscript =>
    obtain ⟨index, hindex, rfl⟩ := Option.map_eq_some_iff.1 hclose
    rw [hsubscript] at hopened
    cases hopened with
    | subscript hvalue hl =>
      rw [List.append_assoc]
      exact .subscript hvalue hl hfills (Level.expression?_eq L _ ▸ hindex) hr
  · cases hclose

/-- The tokens from the start of a text to the level of a bracket, those that open it among them. -/
inductive Around : Opening → List Level → List Lexeme → Prop
  | text : Around .text [] []
  | inner {opening : Opening} {L : Level} {outer : List Level} {us ready os : List Lexeme}
    (h : Around L.opening outer us) (hready : L.Ready ready) (hopened : Opened opening os) :
    Around opening (L :: outer) (us ++ (ready ++ os))

theorem Around.exists_inner {opening : Opening} {L : Level} {outer : List Level}
    {ts : List Lexeme} (h : Around opening (L :: outer) ts) :
    ∃ us ready os, Around L.opening outer us ∧ L.Ready ready ∧ Opened opening os ∧
      ts = us ++ (ready ++ os) := by
  cases h with
  | inner h hready hopened => exact ⟨_, _, _, h, hready, hopened, rfl⟩

/-! ## Drafts

A step either extends the last operand, begins one, or advances the level by an operator, a comma or
a closing bracket.  The lemmas are one for each, and `step_cases` puts a step into one of the kinds.
-/

namespace Draft

variable {d d' : Draft} {ts : List Lexeme} {l : Lexeme}

/-- What a token can do: it names a member after a point, or extends, begins or ends an operand. -/
theorem step_cases (h : d.step l = .ok d') :
    (∃ e attr, d.level.operand? = some e ∧ d.dotted = true ∧ l.token = .word attr ∧ d' = { d with
        level := d.level.withOperand (.member (e.span.through l.span) e attr), dotted := false }) ∨
    (∃ e, d.level.operand? = some e ∧ d.dotted = false ∧ d.extend? e l = some d') ∨
    (d.level.operand? = none ∧ d.begin? l = some d') ∨
    ((d.level.operand? = none ∨ d.dotted = false) ∧ d.advance? l = some d') := by
  rw [step.eq_def] at h
  simp only at h
  split at h
  · next e he =>
    split at h
    · next hdotted =>
      split at h
      · next attr hattr =>
        cases h
        exact .inl ⟨e, attr, he, hdotted, hattr, rfl⟩
      · cases h
    · next hdotted =>
      rw [Bool.not_eq_true] at hdotted
      split at h
      · cases h
      · rcases (Option.orElse_eq_some _ _ _).1 (getD_map_ok.1 h) with hextend | ⟨-, hadvance⟩
        · exact .inr (.inl ⟨e, he, hdotted, hextend⟩)
        · exact .inr (.inr (.inr ⟨.inr hdotted, hadvance⟩))
  · next hnone =>
    rcases (Option.orElse_eq_some _ _ _).1 (getD_map_ok.1 h) with hbegin | ⟨-, hadvance⟩
    · exact .inr (.inr (.inl ⟨hnone, hbegin⟩))
    · exact .inr (.inr (.inr ⟨.inl hnone, hadvance⟩))

/-- A draft is an expression at the end when no bracket is open and no name is missing. -/
theorem finish_eq_ok {stop : Nat} {e : Expr} :
    d.finish stop = .ok e ↔
      d.dotted = false ∧ d.outer = [] ∧ d.level.expression? stop = some e := by
  rw [finish]
  split
  · next hopen =>
    refine ⟨nofun, fun ⟨hdotted, houter, _⟩ => ?_⟩
    simp [hdotted, houter] at hopen
  · next hclosed =>
    obtain ⟨hdotted, houter⟩ : d.dotted = false ∧ d.outer = [] := by simpa using hclosed
    rw [getD_map_ok, and_iff_right hdotted, and_iff_right houter]

/-- Junk is never read. -/
theorem step_junk (hl : l.token = .junk) : d.step l ≠ .ok d' := by
  intro h
  rcases step_cases h with ⟨e, attr, -, -, hattr, -⟩ | ⟨e, -, -, hextend⟩ |
    ⟨-, hbegin⟩ | ⟨-, hadvance⟩
  · rw [hl] at hattr
    cases hattr
  · simp [Draft.extend?, hl] at hextend
  · simp [Draft.begin?, hl, Token.operand?] at hbegin
  · simp [Draft.advance?, hl] at hadvance

/-- A text that is read has no junk. -/
theorem not_junk_of_run {d d' : Draft} {ls : List Lexeme}
    (h : ls.foldlM Draft.step d = .ok d') : ∀ l ∈ ls, l.token ≠ .junk := by
  induction ls generalizing d with
  | nil => exact nofun
  | cons l ls ih =>
    obtain ⟨d₁, hstep, h⟩ := foldlM_cons_eq_ok.1 h
    exact List.forall_mem_cons.2 ⟨fun hl => step_junk hl hstep, ih h⟩

/-- The tokens that a draft has read, but for a point at the end. -/
def Covers (d : Draft) (ts : List Lexeme) : Prop :=
  ∃ us ms, Around d.level.opening d.outer us ∧ d.level.Derived ms ∧ ts = us ++ ms

/-- **The tokens that a draft has read.** -/
inductive Derived (d : Draft) : List Lexeme → Prop
  | undotted {ts : List Lexeme} (hdotted : d.dotted = false) (h : d.Covers ts) : Derived d ts
  | dotted {ts : List Lexeme} {l : Lexeme} (hdotted : d.dotted = true)
    (hoperand : d.level.operand? ≠ none) (h : d.Covers ts) (hl : l.token = .dot) :
    Derived d (ts ++ [l])

theorem derived_empty : empty.Derived [] :=
  .undotted rfl ⟨[], [], .text, Level.derived_empty .text, rfl⟩

/-- Without an operand there is no point at the end. -/
theorem Derived.covers_of_none (h : d.Derived ts)
    (hd : d.level.operand? = none ∨ d.dotted = false) : d.dotted = false ∧ d.Covers ts := by
  cases h with
  | undotted hdotted h => exact ⟨hdotted, h⟩
  | dotted hdotted hoperand =>
    rcases hd with hd | hd
    · exact absurd hd hoperand
    · rw [hdotted] at hd
      cases hd

/-- The tokens of a draft up to its last operand, and those of the operand. -/
theorem Covers.exists_operand (h : d.Covers ts) {e : Expr} (he : d.level.operand? = some e) :
    ∃ us ready last, Around d.level.opening d.outer us ∧ d.level.Ready ready ∧
      Derives .primary last e ∧ ts = us ++ (ready ++ last) := by
  obtain ⟨us, _, haround, ⟨ready, last, hready, hlast, rfl⟩, rfl⟩ := h
  rw [he] at hlast
  cases hlast with
  | some hlast => exact ⟨us, ready, last, haround, hready, hlast, rfl⟩

theorem Covers.begin? (h : d.Covers ts) (hoperand : d.level.operand? = none)
    (hdotted : d.dotted = false) (hbegin : d.begin? l = some d') : d'.Derived (ts ++ [l]) := by
  obtain ⟨us, _, haround, ⟨ready, last, hready, hlast, rfl⟩, rfl⟩ := h
  rw [hoperand] at hlast
  cases hlast with
  | none =>
    have hopen : ∀ {opening : Opening}, Opened opening [l] →
        (d.open_ opening).Derived (us ++ (ready ++ []) ++ [l]) := fun hopened =>
      .undotted rfl ⟨_, [], .inner haround hready hopened, Level.derived_empty _, by simp⟩
    rw [Draft.begin?.eq_def] at hbegin
    split at hbegin
    · next hround =>
      cases hbegin
      exact hopen (.paren hround)
    · next hsquare =>
      cases hbegin
      exact hopen (.list hsquare)
    · obtain ⟨e, he, rfl⟩ := Option.map_eq_some_iff.1 hbegin
      exact .undotted hdotted ⟨us, _, haround, hready.withOperand (.operand he), by simp⟩

theorem Covers.extend? (h : d.Covers ts) {e : Expr} (he : d.level.operand? = some e)
    (hextend : d.extend? e l = some d') : d'.Derived (ts ++ [l]) := by
  have hcovers := h
  obtain ⟨us, ready, last, haround, hready, hlast, rfl⟩ := h.exists_operand he
  have hopen : ∀ {opening : Opening}, Opened opening (last ++ [l]) →
      (d.open_ opening).Derived (us ++ (ready ++ last) ++ [l]) := fun hopened =>
    .undotted rfl ⟨_, [], .inner haround hready hopened, Level.derived_empty _, by simp⟩
  rw [Draft.extend?.eq_def] at hextend
  split at hextend
  · next hround =>
    cases hextend
    exact hopen (.call hlast hround)
  · next hsquare =>
    cases hextend
    exact hopen (.subscript hlast hsquare)
  · next hdot =>
    cases hextend
    exact .dotted rfl (by rw [he]; simp) hcovers hdot
  · cases hextend

theorem Covers.close? (h : d.Covers ts) {bracket : Bracket} (hl : l.token = .closing bracket)
    (hclose : d.close? bracket l.span = some d') : d'.Derived (ts ++ [l]) := by
  obtain ⟨us, ms, haround, hlevel, rfl⟩ := h
  rw [Draft.close?.eq_def] at hclose
  split at hclose
  · cases hclose
  · next L outer houter =>
    obtain ⟨e, he, rfl⟩ := Option.map_eq_some_iff.1 hclose
    rw [houter] at haround
    obtain ⟨vs, ready, os, hwithin, hready, hopened, rfl⟩ := haround.exists_inner
    have hoperand := hready.withOperand (hlevel.close? hopened hl he)
    exact .undotted rfl ⟨vs, _, hwithin, hoperand, by simp⟩

theorem Covers.advance? (h : d.Covers ts) (hdotted : d.dotted = false)
    (hadvance : d.advance? l = some d') : d'.Derived (ts ++ [l]) := by
  rw [Draft.advance?.eq_def] at hadvance
  split at hadvance
  · next op hop =>
    obtain ⟨L, hL, rfl⟩ := Option.map_eq_some_iff.1 hadvance
    obtain ⟨us, ms, haround, hlevel, rfl⟩ := h
    exact .undotted hdotted ⟨us, _, Level.opening_operator? hL ▸ haround,
      hlevel.operator? hop hL, by simp⟩
  · next hcomma =>
    obtain ⟨L, hL, rfl⟩ := Option.map_eq_some_iff.1 hadvance
    obtain ⟨us, ms, haround, hlevel, rfl⟩ := h
    exact .undotted hdotted ⟨us, _, Level.opening_separate? hL ▸ haround,
      hlevel.separate? hcomma hL, by simp⟩
  · next bracket hclosing => exact h.close? hclosing hadvance
  · cases hadvance

/-- **Every token is taken up in a derivation.** By cases on what a step can do.  In each of them
the token is put at the end of the tokens of the part that the step has changed, and the other parts
keep theirs. -/
theorem Derived.step (h : d.Derived ts) (hstep : d.step l = .ok d') : d'.Derived (ts ++ [l]) := by
  rcases step_cases hstep with ⟨e, attr, he, hdotted, hattr, rfl⟩ | ⟨e, he, hdotted, hextend⟩ |
    ⟨hnone, hbegin⟩ | ⟨hdotted, hadvance⟩
  · cases h with
    | undotted hfalse =>
      rw [hdotted] at hfalse
      cases hfalse
    | dotted _ _ h hl =>
      obtain ⟨us, ready, last, haround, hready, hlast, rfl⟩ := h.exists_operand he
      have hmember := hready.withOperand (hlast.member hl hattr)
      exact .undotted rfl ⟨us, _, haround, hmember, by simp⟩
  · exact (h.covers_of_none (.inr hdotted)).2.extend? he hextend
  · obtain ⟨hdotted, hcovers⟩ := h.covers_of_none (.inl hnone)
    exact hcovers.begin? hnone hdotted hbegin
  · obtain ⟨hdotted, hcovers⟩ := h.covers_of_none hdotted
    exact hcovers.advance? hdotted hadvance

theorem Derived.foldlM {ls : List Lexeme} (h : d.Derived ts)
    (hrun : ls.foldlM Draft.step d = .ok d') : d'.Derived (ts ++ ls) := by
  induction ls generalizing d ts with
  | nil =>
    cases hrun
    rwa [List.append_nil]
  | cons l ls ih =>
    obtain ⟨d₁, hstep, hrun⟩ := foldlM_cons_eq_ok.1 hrun
    rw [List.append_cons]
    exact ih (h.step hstep) hrun

theorem Derived.finish (h : d.Derived ts) {stop : Nat} {e : Expr}
    (hfinish : d.finish stop = .ok e) : DerivesWhole ts stop e := by
  obtain ⟨hdotted, houter, hexpr⟩ := Draft.finish_eq_ok.1 hfinish
  obtain ⟨-, us, ms, haround, hlevel, rfl⟩ := h.covers_of_none (.inr hdotted)
  rw [houter] at haround
  generalize d.level.opening = opening at haround
  cases haround with
  | text => exact ⟨_, _, _, hlevel.fills, Level.expression?_eq d.level stop ▸ hexpr⟩

end Draft

/-- A text is read as the expression that the draft of its tokens is at the end. -/
theorem Expr.read_eq_ok {text : List Char} {start : Nat} {e : Expr} :
    Expr.read text start = .ok e ↔
      ∃ d, (lexemes start text).foldlM Draft.step Draft.empty = .ok d ∧
        d.finish (start + utf8Length text) = .ok e := by
  rw [Expr.read, bind_eq_ok]

theorem Expr.not_junk_of_read {text : List Char} {start : Nat} {e : Expr}
    (h : Expr.read text start = .ok e) : ∀ l ∈ lexemes start text, l.token ≠ .junk := by
  obtain ⟨d, hrun, -⟩ := Expr.read_eq_ok.1 h
  exact Draft.not_junk_of_run hrun

/-- **An expression that is read is derived** from the tokens of its text. -/
theorem Expr.derives_of_read {text : List Char} {start : Nat} {e : Expr}
    (h : Expr.read text start = .ok e) :
    DerivesWhole (lexemes start text) (start + utf8Length text) e := by
  obtain ⟨d, hrun, hfinish⟩ := Expr.read_eq_ok.1 h
  exact (Draft.derived_empty.foldlM hrun).finish hfinish

end TypeReveal
