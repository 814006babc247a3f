import TypeReveal.Proofs.Expr.Derivation
import TypeReveal.Proofs.Expr.Reading

/-!
# Derivations are read

The tokens of a derivation, read anywhere, yield just the expression that is derived, with the same
spans: `Derives.runs` for an expression where a level has room for it, `Fills.runs` for what stands
in brackets on a new level, and `DerivesWhole.finish` for a text.

With `Expr.derives_of_read` this makes reading and deriving the same.  It is the direction in which
expressions are found: to show that a text is read as an expression it is enough to derive it,
without following the reader.

A level that has room for an expression is described as in the reading of printed tokens
(`Level.HasRoom`, `Level.last?`).  What is new are spans, which are those of the derivation and not
just any.
-/

set_option autoImplicit false
namespace TypeReveal

/-! ## Runs

A run is a fold of steps that does not fail.  Runs are put together one after the other. -/

/-- Reading the tokens `ls` takes one draft to another. -/
def Draft.Runs (d : Draft) (ls : List Lexeme) (d' : Draft) : Prop :=
  ls.foldlM Draft.step d = .ok d'

namespace Draft.Runs

variable {d d₁ d₂ : Draft} {l : Lexeme} {ls ms : List Lexeme}

theorem nil (d : Draft) : d.Runs [] d := rfl

theorem cons (h : d.step l = .ok d₁) (hrun : d₁.Runs ls d₂) : d.Runs (l :: ls) d₂ := by
  rw [Runs, List.foldlM_cons, h]
  exact hrun

theorem append (h : d.Runs ls d₁) (h' : d₁.Runs ms d₂) : d.Runs (ls ++ ms) d₂ := by
  rw [Runs, List.foldlM_append, h]
  exact h'

theorem single (h : d.step l = .ok d₁) : d.Runs [l] d₁ := cons h (nil d₁)

end Draft.Runs

/-- Read where a level has room for it, `ls` become the expression `e`, which the level has then
read last in the stratum; all else stays. -/
def RunsAs (s : Stratum) (ls : List Lexeme) (e : Expr) : Prop :=
  ∀ (L : Level) (o : List Level), L.HasRoom s →
    ∃ L', Draft.Runs ⟨L, o, false⟩ ls ⟨L', o, false⟩ ∧ L.Agrees L' s ∧ L'.last? s = some e

/-- Read on a new level, `ls` become elements with a comma that ends at `comma?`. -/
def RunsToElements (ls : List Lexeme) (es : List Expr) (comma? : Option Nat) (ended : Bool) :
    Prop :=
  ∀ (opening : Opening) (o : List Level),
    ∃ L, Draft.Runs ⟨{ opening }, o, false⟩ ls ⟨L, o, false⟩ ∧ L.opening = opening ∧
      L.elements = es ∧ L.comma? = comma? ∧ L.element?.isSome = ended ∧
      (ended = false → L.HasRoom .bar)

section Runs

variable {l r : Lexeme} {ls ms : List Lexeme} {e lhs rhs : Expr} {es : List Expr}
  {comma? : Option Nat} {ended : Bool} {op : Operator}

/-! ## Operations

An operation is read on a level where its left side has been read last. -/

theorem RunsAs.amp (h : RunsAs .primary ls e) : RunsAs .amp ls e := by
  intro L o hL
  obtain ⟨L', hrun, hagrees, hlast⟩ := h L o hL.1
  refine ⟨L', hrun, hagrees.amp_of_primary, ?_⟩
  obtain ⟨x, rfl⟩ := hagrees
  simpa [Level.last?, Level.intersection?, hL.2] using hlast

theorem RunsAs.bar (h : RunsAs .amp ls e) : RunsAs .bar ls e := by
  intro L o hL
  obtain ⟨L', hrun, hagrees, hlast⟩ := h L o ⟨hL.1, hL.2.1⟩
  refine ⟨L', hrun, hagrees.bar_of_amp, ?_⟩
  obtain ⟨a, x, rfl⟩ := hagrees
  simpa [Level.last?, Level.element?, hL.2.2] using hlast

/-- **An operation**, with the span of both of its sides. -/
theorem runsAs_binary (hl : RunsAs op.before ls lhs) (hop : l.token = .operator op)
    (hr : RunsAs op.after ms rhs) :
    RunsAs op.before (ls ++ l :: ms) (.binary (lhs.span.through rhs.span) op lhs rhs) := by
  intro L o hL
  obtain ⟨t, span⟩ := l
  obtain rfl : t = .operator op := hop
  obtain ⟨L₁, hrun₁, hagrees₁, hlast₁⟩ := hl L o hL
  obtain ⟨L₂, hoperator, hagrees₂, hroom, hclose⟩ := Level.operator?_of_last? hlast₁ span.stop
  obtain ⟨L₃, hrun₃, hagrees₃, hlast₃⟩ := hr L₂ o hroom
  refine ⟨L₃, hrun₁.append (.cons (Draft.step_operator hoperator) hrun₃),
    (hagrees₁.trans hagrees₂).trans hagrees₃.before_of_after, ?_⟩
  rw [hclose L₃ hagrees₃, hlast₃]
  rfl

/-- An operation without a right side ends with its operator. -/
theorem runsAs_dangling (hl : RunsAs op.before ls lhs) (hop : l.token = .operator op) :
    RunsAs op.before (ls ++ [l]) (.dangling ⟨lhs.span.start, l.span.stop⟩ op lhs) := by
  intro L o hL
  obtain ⟨t, span⟩ := l
  obtain rfl : t = .operator op := hop
  obtain ⟨L₁, hrun₁, hagrees₁, hlast₁⟩ := hl L o hL
  obtain ⟨L₂, hoperator, hagrees₂, hroom, hclose⟩ := Level.operator?_of_last? hlast₁ span.stop
  have hagrees : L₂.Agrees L₂ op.after := by
    cases op with
    | bar => exact ⟨_, _, rfl⟩
    | amp => exact ⟨_, rfl⟩
  refine ⟨L₂, hrun₁.append (.single (Draft.step_operator hoperator)), hagrees₁.trans hagrees₂, ?_⟩
  rw [hclose L₂ hagrees, Level.last?_of_hasRoom hroom]
  rfl

/-! ## Brackets -/

theorem runsAs_operand (h : l.token.operand? l.span = some e) : RunsAs .primary [l] e :=
  fun L _ hL => ⟨L.withOperand e, .single (Draft.step_operand hL h), ⟨_, rfl⟩, rfl⟩

/-- A bracket that opens a level, what stands in it, and the bracket that closes it. -/
theorem runs_bracket {L : Level} {o : List Level} {opening : Opening} {bracket : Bracket}
    (hopen : Draft.step ⟨L, o, false⟩ l = .ok ⟨{ opening }, L :: o, false⟩)
    (h : RunsToElements ls es comma? ended) (hr : r.token = .closing bracket)
    (hclose : ∀ M : Level, M.opening = opening → M.elements = es →
      (∀ next, M.expression? next = wholeOf? es comma? ended next) →
      M.close? bracket r.span = some e) :
    Draft.Runs ⟨L, o, false⟩ (l :: (ls ++ [r])) ⟨L.withOperand e, o, false⟩ := by
  obtain ⟨M, hrun, hopening, helements, hcomma, hended, -⟩ := h opening (L :: o)
  obtain ⟨t, span⟩ := r
  obtain rfl : t = .closing bracket := hr
  refine .cons hopen (hrun.append (.single (Draft.step_closing (hclose M hopening helements ?_))))
  intro next
  rw [Level.expression?_eq, helements, hcomma, hended]

/-- Nothing is read as no elements. -/
theorem runsToElements_nil : RunsToElements [] [] none false :=
  fun opening _ => ⟨{ opening }, .nil _, rfl, rfl, rfl, rfl, fun _ => ⟨rfl, rfl, rfl⟩⟩

theorem runsAs_unit (hl : l.token = .opening .round) (hr : r.token = .closing .round) :
    RunsAs .primary [l, r] (.tuple ⟨l.span.start, r.span.stop⟩ []) := by
  intro L o hL
  obtain ⟨t, span⟩ := l
  obtain rfl : t = .opening .round := hl
  refine ⟨_, runs_bracket (Draft.step_paren hL) runsToElements_nil hr
    fun M hopening _ hwhole => ?_, ⟨_, rfl⟩, rfl⟩
  simp [Level.close?, hopening, hwhole, wholeOf?]

/-- **Parentheses** around elements that are a whole expression. -/
theorem runsAs_paren (hl : l.token = .opening .round) (h : RunsToElements ls es comma? ended)
    (hinner : wholeOf? es comma? ended r.span.start = some e) (hr : r.token = .closing .round) :
    RunsAs .primary (l :: (ls ++ [r])) (.paren ⟨l.span.start, r.span.stop⟩ e) := by
  intro L o hL
  obtain ⟨t, span⟩ := l
  obtain rfl : t = .opening .round := hl
  refine ⟨_, runs_bracket (Draft.step_paren hL) h hr fun M hopening _ hwhole => ?_, ⟨_, rfl⟩, rfl⟩
  simp [Level.close?, hopening, hwhole, hinner]

theorem runsAs_list (hl : l.token = .opening .square) (h : RunsToElements ls es comma? ended)
    (hr : r.token = .closing .square) :
    RunsAs .primary (l :: (ls ++ [r])) (.list ⟨l.span.start, r.span.stop⟩ es) := by
  intro L o hL
  obtain ⟨t, span⟩ := l
  obtain rfl : t = .opening .square := hl
  refine ⟨_, runs_bracket (Draft.step_list hL) h hr fun M hopening helements _ => ?_,
    ⟨_, rfl⟩, rfl⟩
  simp [Level.close?, hopening, helements]

/-- **A call**, whose arguments are the elements of the level. -/
theorem runsAs_call {callee : Expr} (hcallee : RunsAs .primary ls callee)
    (hl : l.token = .opening .round) (h : RunsToElements ms es comma? ended)
    (hr : r.token = .closing .round) :
    RunsAs .primary (ls ++ l :: (ms ++ [r])) (.call (callee.span.through r.span) callee es) := by
  intro L o hL
  obtain ⟨t, span⟩ := l
  obtain rfl : t = .opening .round := hl
  obtain ⟨L₁, hrun, ⟨x, rfl⟩, hlast⟩ := hcallee L o hL
  refine ⟨_, hrun.append (runs_bracket (Draft.step_call hlast) h hr
    fun M hopening helements _ => ?_), ⟨_, rfl⟩, rfl⟩
  simp [Level.close?, hopening, helements]

/-- **A subscript**, whose index is what the elements are as a whole. -/
theorem runsAs_subscript {value : Expr} (hvalue : RunsAs .primary ls value)
    (hl : l.token = .opening .square) (h : RunsToElements ms es comma? ended)
    (hindex : wholeOf? es comma? ended r.span.start = some e) (hr : r.token = .closing .square) :
    RunsAs .primary (ls ++ l :: (ms ++ [r])) (.subscript (value.span.through r.span) value e) := by
  intro L o hL
  obtain ⟨t, span⟩ := l
  obtain rfl : t = .opening .square := hl
  obtain ⟨L₁, hrun, ⟨x, rfl⟩, hlast⟩ := hvalue L o hL
  refine ⟨_, hrun.append (runs_bracket (Draft.step_subscript hlast) h hr
    fun M hopening _ hwhole => ?_), ⟨_, rfl⟩, rfl⟩
  simp [Level.close?, hopening, hwhole, hindex]

theorem runsAs_member {value : Expr} {attr : String} (hvalue : RunsAs .primary ls value)
    (hl : l.token = .dot) (hr : r.token = .word attr) :
    RunsAs .primary (ls ++ [l, r]) (.member (value.span.through r.span) value attr) := by
  intro L o hL
  obtain ⟨t, span⟩ := l
  obtain rfl : t = .dot := hl
  obtain ⟨t, span'⟩ := r
  obtain rfl : t = .word attr := hr
  obtain ⟨L₁, hrun, ⟨x, rfl⟩, hlast⟩ := hvalue L o hL
  exact ⟨_, hrun.append (.cons (Draft.step_dot hlast) (.single (Draft.step_member hlast))),
    ⟨_, rfl⟩, rfl⟩

/-! ## Elements

Elements are put on a level in the order in which they come, the last one first in the list. -/

/-- One more element behind a comma. -/
theorem RunsToElements.next (h : RunsToElements ls es comma? false) (he : RunsAs .bar ms e) :
    RunsToElements (ls ++ ms) (es ++ [e]) comma? true := by
  intro opening o
  obtain ⟨L, hrun, hopening, helements, hcomma, -, hroom⟩ := h opening o
  obtain ⟨L', hrun', ⟨b, a, x, rfl⟩, hlast⟩ := he L o (hroom rfl)
  replace hlast : Level.element? _ = some e := hlast
  refine ⟨_, hrun.append hrun', hopening, ?_, hcomma, by rw [hlast]; rfl, nofun⟩
  rw [← helements, Level.elements, Level.elements, hlast, Level.element?_of_hasRoom (hroom rfl)]
  simp

/-- A comma behind the last element. -/
theorem RunsToElements.comma (h : RunsToElements ls es comma? true) (hl : l.token = .comma) :
    RunsToElements (ls ++ [l]) es (some l.span.stop) false := by
  intro opening o
  obtain ⟨t, span⟩ := l
  obtain rfl : t = .comma := hl
  obtain ⟨L, hrun, hopening, helements, -, hended, -⟩ := h opening o
  obtain ⟨e, he⟩ := Option.isSome_iff_exists.1 hended
  have hsep : L.separate? span.stop = some
      { opening := L.opening, elems := e :: L.elems, comma? := some span.stop } := by
    rw [Level.separate?, he, Option.map_some]
  refine ⟨_, hrun.append (.single (Draft.step_comma hsep)), hopening, ?_, rfl, rfl,
    fun _ => ⟨rfl, rfl, rfl⟩⟩
  rw [← helements, Level.elements, Level.elements, he]
  rfl

end Runs

/-! ## All derivations

Two recursions, on derivations of expressions and on those of elements, which call each other at
brackets. -/

mutual

/-- **The tokens of an expression are read as the expression.** -/
theorem Derives.runsAs : ∀ {s : Stratum} {ls : List Lexeme} {e : Expr},
    Derives s ls e → RunsAs s ls e
  | _, _, _, .operand h => runsAs_operand h
  | _, _, _, .unit hl hr => runsAs_unit hl hr
  | _, _, _, .paren hl h hinner hr => runsAs_paren hl h.runs hinner hr
  | _, _, _, .list hl h hr => runsAs_list hl h.runs hr
  | _, _, _, .call hcallee hl h hr => runsAs_call hcallee.runsAs hl h.runs hr
  | _, _, _, .subscript hvalue hl h hindex hr =>
    runsAs_subscript hvalue.runsAs hl h.runs hindex hr
  | _, _, _, .member hvalue hl hr => runsAs_member hvalue.runsAs hl hr
  | _, _, _, .amp h => h.runsAs.amp
  | _, _, _, .bar h => h.runsAs.bar
  | _, _, _, .binary hlhs hl hrhs => runsAs_binary hlhs.runsAs hl hrhs.runsAs
  | _, _, _, .dangling hlhs hl => runsAs_dangling hlhs.runsAs hl

/-- **The tokens of elements are read as the elements.** -/
theorem Fills.runs : ∀ {ls : List Lexeme} {es : List Expr} {comma? : Option Nat} {ended : Bool},
    Fills ls es comma? ended → RunsToElements ls es comma? ended
  | _, _, _, _, .empty => runsToElements_nil
  | _, _, _, _, .next h he => h.runs.next he.runsAs
  | _, _, _, _, .comma h hl => h.runs.comma hl

end

/-- **The tokens of a text that are derived** are read as the expression. -/
theorem Expr.read_of_derives {text : List Char} {start : Nat} {e : Expr}
    (h : DerivesWhole (lexemes start text) (start + utf8Length text) e) :
    Expr.read text start = .ok e := by
  obtain ⟨es, comma?, ended, hfills, hwhole⟩ := h
  obtain ⟨L, hrun, -, helements, hcomma, hended, -⟩ := hfills.runs .text []
  have hexpr : L.expression? (start + utf8Length text) = some e := by
    rw [Level.expression?_eq, helements, hcomma, hended, hwhole]
  exact Expr.read_eq_ok.2 ⟨_, hrun, Draft.finish_eq_ok.2 ⟨rfl, rfl, hexpr⟩⟩

end TypeReveal
