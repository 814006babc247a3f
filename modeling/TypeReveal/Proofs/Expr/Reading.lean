import TypeReveal.Proofs.Expr.Print

/-!
# Reading the tokens of an expression

What a draft becomes when it reads the tokens of an expression that fits.  `Reads ts d post` is the
triple "after the tokens `ts`, wherever they stand, the draft `d` is one with the property `post`";
triples are joined by `Reads.append`.

* `Expr.ReadsAs s` — read where a level has room for it, an expression of the stratum `s` becomes
  what the level reads last in that stratum (`Level.last?`), and all else stays.
* `Expr.ReadsWhole` — read on a new level, an expression becomes the expression that the level
  holds, whatever the bracket is for.

There is one lemma for each form of expression, from its parts to the whole; `Expr.readsAs_of_fits`
puts them together by induction.

The statements are about tokens without spans, wherever these stand, since the printer chooses them
and the reader must not depend on them.  What comes out is compared by `Expr.bare`, that is without
spans.

The strata are what makes the induction go through.  A level has room for an expression of a stratum
if everything that would take it up is empty: for an operand the place of the operand, for an
intersection also the place before an ampersand, for a union all three.  An expression that fits a
stratum fills the places of this stratum and no others (`Level.Agrees`).
-/

set_option autoImplicit false
namespace TypeReveal

/-! ## Triples

The rule of consequence, the rule for sequences and the one for a single step. -/

/-- After the tokens `ts` the draft `d` is one with the property `post`. -/
def Reads (ts : List Token) (d : Draft) (post : Draft → Prop) : Prop :=
  ∀ ls : List Lexeme, ls.map Lexeme.token = ts → ∃ d', ls.foldlM Draft.step d = .ok d' ∧ post d'

namespace Reads

variable {ts us : List Token} {d : Draft} {mid post : Draft → Prop}

theorem nil (h : post d) : Reads [] d post := by
  intro ls hls
  rw [List.map_eq_nil_iff.1 hls]
  exact ⟨d, rfl, h⟩

theorem single {t : Token} (h : ∀ span, ∃ d', d.step ⟨t, span⟩ = .ok d' ∧ post d') :
    Reads [t] d post := by
  intro ls hls
  obtain ⟨⟨t, span⟩, rfl, rfl⟩ := List.map_eq_singleton_iff.1 hls
  obtain ⟨d', hstep, hpost⟩ := h span
  exact ⟨d', by rw [List.foldlM_cons, hstep]; rfl, hpost⟩

/-- Triples are put one after the other. -/
theorem append (h : Reads ts d mid) (h' : ∀ d', mid d' → Reads us d' post) :
    Reads (ts ++ us) d post := by
  intro ls hls
  obtain ⟨ls₁, ls₂, rfl, h₁, h₂⟩ := List.map_eq_append_iff.1 hls
  obtain ⟨d₁, hrun₁, hmid⟩ := h ls₁ h₁
  obtain ⟨d₂, hrun₂, hpost⟩ := h' d₁ hmid ls₂ h₂
  refine ⟨d₂, ?_, hpost⟩
  rw [List.foldlM_append, hrun₁]
  exact hrun₂

theorem cons {t : Token} (h : ∀ span, ∃ d', d.step ⟨t, span⟩ = .ok d' ∧ Reads ts d' post) :
    Reads (t :: ts) d post :=
  append (single h) fun _ h => h

/-- What holds afterwards may be weakened. -/
theorem imp (h : Reads ts d mid) (h' : ∀ d', mid d' → post d') : Reads ts d post := by
  intro ls hls
  obtain ⟨d', hrun, hmid⟩ := h ls hls
  exact ⟨d', hrun, h' d' hmid⟩

end Reads

/-! ## Steps

What a step does with each kind of token, on a level that has an operand or has none.  They are the
only facts about `Draft.step` that the rest uses. -/

namespace Draft

variable {L : Level} {o : List Level}

/-- A token that is an operand is put where there is none. -/
theorem step_operand {t : Token} {span : Span} {e : Expr} (hL : L.operand? = none)
    (ht : t.operand? span = some e) :
    step ⟨L, o, false⟩ ⟨t, span⟩ = .ok ⟨L.withOperand e, o, false⟩ := by
  have hbegin : begin? ⟨L, o, false⟩ ⟨t, span⟩ = some ⟨L.withOperand e, o, false⟩ := by
    rw [begin?.eq_def]
    split
    · next h => cases h; cases ht
    · next h => cases h; cases ht
    · next h => simp only at h; simp [ht]
  simp [step, hL, hbegin]

/-- Where there is no operand, a round bracket opens a level. -/
theorem step_paren {span : Span} (hL : L.operand? = none) :
    step ⟨L, o, false⟩ ⟨.opening .round, span⟩ =
      .ok ⟨{ opening := .paren span.start }, L :: o, false⟩ := by
  simp [step, hL, begin?, open_]

/-- Where there is no operand, a square bracket opens a list. -/
theorem step_list {span : Span} (hL : L.operand? = none) :
    step ⟨L, o, false⟩ ⟨.opening .square, span⟩ =
      .ok ⟨{ opening := .list span.start }, L :: o, false⟩ := by
  simp [step, hL, begin?, open_]

/-- Behind an operand a round bracket opens the arguments of a call. -/
theorem step_call {span : Span} {e : Expr} (hL : L.operand? = some e) :
    step ⟨L, o, false⟩ ⟨.opening .round, span⟩ =
      .ok ⟨{ opening := .call e }, L :: o, false⟩ := by
  simp [step, hL, extend?, open_]

/-- Behind an operand a square bracket opens a subscript. -/
theorem step_subscript {span : Span} {e : Expr} (hL : L.operand? = some e) :
    step ⟨L, o, false⟩ ⟨.opening .square, span⟩ =
      .ok ⟨{ opening := .subscript e }, L :: o, false⟩ := by
  simp [step, hL, extend?, open_]

/-- Behind a point the name of a member is expected. -/
theorem step_dot {span : Span} {e : Expr} (hL : L.operand? = some e) :
    step ⟨L, o, false⟩ ⟨.dot, span⟩ = .ok ⟨L, o, true⟩ := by
  simp [step, hL, extend?]

/-- The name of a member extends the operand. -/
theorem step_member {span : Span} {e : Expr} {attr : String} (hL : L.operand? = some e) :
    step ⟨L, o, true⟩ ⟨.word attr, span⟩ =
      .ok ⟨L.withOperand (.member (e.span.through span) e attr), o, false⟩ := by
  simp [step, hL]

/-- A token that neither begins nor extends an operand advances the draft. -/
theorem step_advance {t : Token} {span : Span} {d : Draft}
    (hbegin : begin? ⟨L, o, false⟩ ⟨t, span⟩ = none)
    (hextend : ∀ e, extend? ⟨L, o, false⟩ e ⟨t, span⟩ = none) (ht : t ≠ .ellipsis)
    (hadvance : advance? ⟨L, o, false⟩ ⟨t, span⟩ = some d) :
    step ⟨L, o, false⟩ ⟨t, span⟩ = .ok d := by
  cases h : L.operand? <;> simp [step, h, hbegin, hextend, ht, hadvance]

/-- An operator moves the operand to where it waits. -/
theorem step_operator {op : Operator} {span : Span} {L' : Level}
    (h : L.operator? op span.stop = some L') :
    step ⟨L, o, false⟩ ⟨.operator op, span⟩ = .ok ⟨L', o, false⟩ :=
  step_advance rfl (fun _ => rfl) (by simp) (by simp [advance?, h])

/-- A comma ends an element. -/
theorem step_comma {span : Span} {L' : Level} (h : L.separate? span.stop = some L') :
    step ⟨L, o, false⟩ ⟨.comma, span⟩ = .ok ⟨L', o, false⟩ :=
  step_advance rfl (fun _ => rfl) (by simp) (by simp [advance?, h])

/-- A closing bracket makes an operand of its level, for the level around it. -/
theorem step_closing {bracket : Bracket} {span : Span} {L₀ : Level} {e : Expr}
    (h : L.close? bracket span = some e) :
    step ⟨L, L₀ :: o, false⟩ ⟨.closing bracket, span⟩ = .ok ⟨L₀.withOperand e, o, false⟩ :=
  step_advance rfl (fun _ => rfl) (by simp) (by simp [advance?, close?, h])

end Draft

/-! ## Levels and strata

An operator moves what was read last to the place where it waits for its right side.  What is read
there leaves the waiting operand in its place and is taken together with it. -/

namespace Level

/-- What a level has read last in a stratum. -/
def last? (L : Level) : Stratum → Option Expr
  | .primary => L.operand?
  | .amp => L.intersection?
  | .bar | .whole => L.element?

/-- A level that waits for an expression of a stratum. -/
def HasRoom (L : Level) : Stratum → Prop
  | .primary => L.operand? = none
  | .amp => L.operand? = none ∧ L.amp? = none
  | .bar | .whole => L.operand? = none ∧ L.amp? = none ∧ L.bar? = none

/-- A level that differs at most in what has been read in a stratum. -/
def Agrees (L L' : Level) : Stratum → Prop
  | .primary => ∃ operand?, L' = { L with operand? }
  | .amp => ∃ amp? operand?, L' = { L with amp?, operand? }
  | .bar | .whole => ∃ bar? amp? operand?, L' = { L with bar?, amp?, operand? }

variable {L L₁ L₂ : Level} {s : Stratum}

/-- What changes in one stratum and then again changes there on the whole. -/
theorem Agrees.trans (h₁ : L.Agrees L₁ s) (h₂ : L₁.Agrees L₂ s) : L.Agrees L₂ s := by
  cases s with
  | primary =>
    obtain ⟨_, rfl⟩ := h₁
    obtain ⟨x, rfl⟩ := h₂
    exact ⟨x, rfl⟩
  | amp =>
    obtain ⟨_, _, rfl⟩ := h₁
    obtain ⟨a, x, rfl⟩ := h₂
    exact ⟨a, x, rfl⟩
  | bar | whole =>
    obtain ⟨_, _, _, rfl⟩ := h₁
    obtain ⟨b, a, x, rfl⟩ := h₂
    exact ⟨b, a, x, rfl⟩

theorem Agrees.amp_of_primary (h : L.Agrees L₁ .primary) : L.Agrees L₁ .amp := by
  obtain ⟨x, rfl⟩ := h
  exact ⟨L.amp?, x, rfl⟩

theorem Agrees.bar_of_amp (h : L.Agrees L₁ .amp) : L.Agrees L₁ .bar := by
  obtain ⟨a, x, rfl⟩ := h
  exact ⟨L.bar?, a, x, rfl⟩

/-- What is read after an operator is part of what was read before it. -/
theorem Agrees.before_of_after {op : Operator} (h : L.Agrees L₁ op.after) :
    L.Agrees L₁ op.before := by
  cases op with
  | bar => exact h.bar_of_amp
  | amp => exact h.amp_of_primary

/-- After an operator the level waits for the right operand, and what is read there is taken
together with the left one. -/
theorem operator?_of_last? {op : Operator} {lhs : Expr} (h : L.last? op.before = some lhs)
    (stop : Nat) :
    ∃ L₁, L.operator? op stop = some L₁ ∧ L.Agrees L₁ op.before ∧ L₁.HasRoom op.after ∧
      ∀ L₂, L₁.Agrees L₂ op.after →
        L₂.last? op.before = some (Pending.close op ⟨lhs, stop⟩ (L₂.last? op.after)) := by
  cases op with
  | bar =>
    replace h : L.element? = some lhs := h
    refine ⟨{ L with bar? := some ⟨lhs, stop⟩, amp? := none, operand? := none }, by
      simp [operator?, h], ⟨_, _, _, rfl⟩, ⟨rfl, rfl⟩, ?_⟩
    rintro _ ⟨a, x, rfl⟩
    rfl
  | amp =>
    replace h : L.intersection? = some lhs := h
    refine ⟨{ L with amp? := some ⟨lhs, stop⟩, operand? := none }, by
      simp [operator?, h], ⟨_, _, rfl⟩, rfl, ?_⟩
    rintro _ ⟨x, rfl⟩
    rfl

theorem last?_of_hasRoom (h : L.HasRoom s) : L.last? s = none := by
  cases s with
  | primary => exact h
  | amp => simp [last?, intersection?, h.1, h.2]
  | bar | whole => simp [last?, element?, intersection?, h.1, h.2.1, h.2.2]

end Level

/-! ## Expressions in their strata

An operand is read in every stratum.  An operation with an ampersand is also one of the stratum of
bars, and not the other way round. -/

namespace Expr

/-- Read where a level has room for it, `e` becomes what the level has read last in the stratum. -/
def ReadsAs (s : Stratum) (e : Expr) : Prop :=
  ∀ (L : Level) (o : List Level), L.HasRoom s →
    Reads e.tokens ⟨L, o, false⟩ fun d =>
      ∃ L' e', d = ⟨L', o, false⟩ ∧ L.Agrees L' s ∧ L'.last? s = some e' ∧ e'.bare = e.bare

variable {e lhs rhs : Expr} {span : Span} {op : Operator}

theorem ReadsAs.amp (h : e.ReadsAs .primary) : e.ReadsAs .amp := by
  intro L o hL
  refine (h L o hL.1).imp ?_
  rintro _ ⟨L', e', rfl, hagrees, hlast, hbare⟩
  refine ⟨L', e', rfl, hagrees.amp_of_primary, ?_, hbare⟩
  obtain ⟨x, rfl⟩ := hagrees
  simpa [Level.last?, Level.intersection?, hL.2] using hlast

theorem ReadsAs.bar (h : e.ReadsAs .amp) : e.ReadsAs .bar := by
  intro L o hL
  refine (h L o ⟨hL.1, hL.2.1⟩).imp ?_
  rintro _ ⟨L', e', rfl, hagrees, hlast, hbare⟩
  refine ⟨L', e', rfl, hagrees.bar_of_amp, ?_, hbare⟩
  obtain ⟨a, x, rfl⟩ := hagrees
  simpa [Level.last?, Level.element?, hL.2.2] using hlast

/-- An expression of the tightest stratum is read in every stratum. -/
theorem ReadsAs.of_primary (h : e.ReadsAs .primary) (s : Stratum) : e.ReadsAs s := by
  cases s with
  | primary => exact h
  | amp => exact h.amp
  | bar | whole => exact h.amp.bar

/-- An operation is read in every stratum that admits its operator. -/
theorem ReadsAs.of_before {s : Stratum} (h : e.ReadsAs op.before) (hs : s.admits op = true) :
    e.ReadsAs s := by
  cases op <;> cases s <;> first
    | exact h
    | exact h.bar
    | cases hs

theorem readsAs_operand {t : Token} (htokens : e.tokens = [t])
    (ht : ∀ span, ∃ e', t.operand? span = some e' ∧ e'.bare = e.bare) : e.ReadsAs .primary := by
  intro L o hL
  rw [htokens]
  refine .single fun span => ?_
  obtain ⟨e', he', hbare⟩ := ht span
  exact ⟨_, Draft.step_operand hL he', _, e', rfl, ⟨_, rfl⟩, rfl, hbare⟩

/-- **An operation**: its left side is read, the operator moves it, and its right side is read
behind it. -/
theorem readsAs_binary (hl : lhs.ReadsAs op.before) (hr : rhs.ReadsAs op.after) :
    (binary span op lhs rhs).ReadsAs op.before := by
  intro L o hL
  rw [tokens]
  refine (hl L o hL).append ?_
  rintro _ ⟨L₁, lhs', rfl, hagrees₁, hlast₁, hlhs⟩
  refine .cons fun span => ?_
  obtain ⟨L₂, hop, hagrees₂, hroom, hclose⟩ := Level.operator?_of_last? hlast₁ span.stop
  refine ⟨_, Draft.step_operator hop, (hr L₂ o hroom).imp ?_⟩
  rintro _ ⟨L₃, rhs', rfl, hagrees₃, hlast₃, hrhs⟩
  refine ⟨L₃, _, rfl, (hagrees₁.trans hagrees₂).trans hagrees₃.before_of_after,
    hclose L₃ hagrees₃, ?_⟩
  simp [hlast₃, Pending.close, bare, hlhs, hrhs]

/-- An operation without a right side waits for one to the end. -/
theorem readsAs_dangling (hl : lhs.ReadsAs op.before) :
    (dangling span op lhs).ReadsAs op.before := by
  intro L o hL
  rw [tokens]
  refine (hl L o hL).append ?_
  rintro _ ⟨L₁, lhs', rfl, hagrees₁, hlast₁, hlhs⟩
  refine .single fun span => ?_
  obtain ⟨L₂, hop, hagrees₂, hroom, hclose⟩ := Level.operator?_of_last? hlast₁ span.stop
  have hagrees : L₂.Agrees L₂ op.after := by
    cases op with
    | bar => exact ⟨_, _, rfl⟩
    | amp => exact ⟨_, rfl⟩
  refine ⟨_, Draft.step_operator hop, L₂, _, rfl, hagrees₁.trans hagrees₂, hclose L₂ hagrees, ?_⟩
  simp [Level.last?_of_hasRoom hroom, Pending.close, bare, hlhs]

end Expr

/-! ## Lists of elements

Elements are read one after another, each on a level that holds the elements before it, and with
commas between them. -/

namespace Level

/-- A level that holds some elements, with or without a comma among or after them. -/
structure Holds (L : Level) (opening : Opening) (es : List Expr) (comma : Bool) : Prop where
  opening : L.opening = opening
  elements : Expr.bareAll L.elements = Expr.bareAll es
  comma : L.comma?.isSome = comma

variable {L L' : Level} {opening : Opening} {es : List Expr} {e : Expr} {comma : Bool}

theorem Holds.nil (opening : Opening) : Holds { opening } opening [] false := ⟨rfl, rfl, rfl⟩

theorem element?_of_hasRoom (h : L.HasRoom .bar) : L.element? = none := last?_of_hasRoom h

/-- A comma ends the element read last and changes nothing else about the elements. -/
theorem Holds.separate (h : L.Holds opening es comma) (hL : L.element?.isSome = true)
    (stop : Nat) :
    ∃ L', L.separate? stop = some L' ∧ L'.Holds opening es true ∧ L'.HasRoom .bar := by
  obtain ⟨e, he⟩ := Option.isSome_iff_exists.1 hL
  refine ⟨{ opening := L.opening, elems := e :: L.elems, comma? := some stop }, by
    rw [separate?, he, Option.map_some], ⟨h.opening, ?_, rfl⟩, ⟨rfl, rfl, rfl⟩⟩
  rw [← h.elements, Level.elements, Level.elements, he]
  rfl

/-- An element that is read is put after the others. -/
theorem Holds.read (h : L.Holds opening es comma) (hL : L.HasRoom .bar)
    (hagrees : L.Agrees L' .bar) {e' : Expr} (hlast : L'.last? .bar = some e')
    (hbare : e'.bare = e.bare) : L'.Holds opening (es ++ [e]) comma := by
  have helement : L'.element? = some e' := hlast
  have helems : Expr.bareAll L.elems.reverse = Expr.bareAll es := by
    rw [← h.elements, Level.elements, element?_of_hasRoom hL, Option.toList_none, List.nil_append]
  obtain ⟨hopening, hcomma, helems'⟩ :
      L'.opening = L.opening ∧ L'.comma? = L.comma? ∧ L'.elems = L.elems := by
    obtain ⟨_, _, _, rfl⟩ := hagrees
    exact ⟨rfl, rfl, rfl⟩
  refine ⟨hopening.trans h.opening, ?_, hcomma ▸ h.comma⟩
  rw [Level.elements, helement, helems', Option.toList_some, List.singleton_append,
    List.reverse_cons, Expr.bareAll_append, helems, Expr.bareAll_append]
  simp [Expr.bareAll, hbare]

end Level

namespace Expr

variable {es : List Expr} {opening : Opening} {o : List Level}

/-- Elements with a comma in front of each are put after those that the level holds. -/
theorem reads_continued {L : Level} {fs : List Expr} {comma : Bool}
    (hes : ∀ e ∈ es, e.ReadsAs .bar) (hL : L.Holds opening fs comma)
    (hlast : L.element?.isSome = true) :
    Reads (continued es) ⟨L, o, false⟩ fun d =>
      ∃ L', d = ⟨L', o, false⟩ ∧ L'.Holds opening (fs ++ es) (comma || !es.isEmpty) ∧
        L'.element?.isSome = true := by
  induction es generalizing L fs comma with
  | nil => exact .nil ⟨L, rfl, by simpa using hL, hlast⟩
  | cons e es ih =>
    refine .cons fun span => ?_
    obtain ⟨L₁, hsep, hholds₁, hroom⟩ := hL.separate hlast span.stop
    refine ⟨_, Draft.step_comma hsep, ?_⟩
    refine (hes e List.mem_cons_self L₁ o hroom).append ?_
    rintro _ ⟨L₂, e', rfl, hagrees, hlast₂, hbare⟩
    have hholds₂ := hholds₁.read hroom hagrees hlast₂ hbare
    have hsome : L₂.element?.isSome = true := Option.isSome_iff_exists.2 ⟨e', hlast₂⟩
    refine (ih (fun f hf => hes f (List.mem_cons_of_mem _ hf)) hholds₂ hsome).imp ?_
    rintro _ ⟨L₃, rfl, hholds₃, hlast₃⟩
    refine ⟨L₃, rfl, ?_, hlast₃⟩
    simpa using hholds₃

/-- **Elements with commas between them** are read on a new level as its elements, the last of which
has no comma behind it. -/
theorem reads_separated (hes : ∀ e ∈ es, e.ReadsAs .bar) :
    Reads (separated es) ⟨{ opening }, o, false⟩ fun d =>
      ∃ L', d = ⟨L', o, false⟩ ∧ L'.Holds opening es (1 < es.length) ∧
        (es ≠ [] → L'.element?.isSome = true) := by
  cases es with
  | nil => exact .nil ⟨_, rfl, by simpa using Level.Holds.nil opening, fun h => absurd rfl h⟩
  | cons e es =>
    have hroom : Level.HasRoom { opening } .bar := ⟨rfl, rfl, rfl⟩
    refine (hes e List.mem_cons_self _ o hroom).append ?_
    rintro _ ⟨L₁, e', rfl, hagrees, hlast, hbare⟩
    have hholds := (Level.Holds.nil opening).read hroom hagrees hlast hbare
    have hsome : L₁.element?.isSome = true := Option.isSome_iff_exists.2 ⟨e', hlast⟩
    refine (reads_continued (fun f hf => hes f (List.mem_cons_of_mem _ hf)) hholds hsome).imp ?_
    rintro _ ⟨L₂, rfl, hholds₂, hlast₂⟩
    refine ⟨L₂, rfl, ?_, fun _ => hlast₂⟩
    cases es <;> simpa using hholds₂

/-! ## Whole expressions

On a new level an expression is read up to the bracket that closes it.  Without a comma it is the
only element; with one the elements are a tuple. -/

/-- Read on a new level, `e` becomes the expression that the level holds. -/
def ReadsWhole (e : Expr) : Prop :=
  ∀ (opening : Opening) (o : List Level), Reads e.tokens ⟨{ opening }, o, false⟩ fun d =>
    ∃ L, d = ⟨L, o, false⟩ ∧ L.opening = opening ∧
      ∀ next, ∃ e', L.expression? next = some e' ∧ e'.bare = e.bare

variable {e : Expr} {span : Span}

/-- A single element is a whole expression. -/
theorem ReadsAs.whole (h : e.ReadsAs .bar) : e.ReadsWhole := by
  intro opening o
  refine (h { opening } o ⟨rfl, rfl, rfl⟩).imp ?_
  rintro _ ⟨L, e', rfl, ⟨b, a, x, rfl⟩, hlast, hbare⟩
  refine ⟨_, rfl, rfl, fun next => ⟨e', ?_, hbare⟩⟩
  have helement : Level.element? _ = some e' := hlast
  simp [Level.expression?, Level.elements, helement]

/-- Elements with a comma among or after them are a tuple. -/
theorem expression?_of_holds {L : Level} (h : L.Holds opening es true) (hes : es ≠ [])
    (next : Nat) : ∃ e', L.expression? next = some e' ∧ e'.bare = (tuple span es).bare := by
  obtain ⟨stop, hcomma⟩ := Option.isSome_iff_exists.1 h.comma
  cases helements : L.elements with
  | nil =>
    have hbare := h.elements
    rw [helements, bareAll_eq_map, bareAll_eq_map] at hbare
    exact absurd (List.map_eq_nil_iff.1 hbare.symm) hes
  | cons first rest =>
    refine ⟨_, by simp [Level.expression?, helements, hcomma]; rfl, ?_⟩
    rw [bare, bare, ← helements, h.elements]

/-- A tuple without parentheses is read as its elements with commas. -/
theorem readsWhole_tuple (hes : ∀ e ∈ es, e.ReadsAs .bar) (hne : es ≠ []) :
    (tuple span es).ReadsWhole := by
  intro opening o
  rw [tokens, if_neg (by simpa using hne)]
  refine (reads_separated hes).append ?_
  rintro _ ⟨L, rfl, hholds, hlast⟩
  by_cases hone : es.length = 1
  · rw [if_pos hone]
    refine .single fun span => ?_
    obtain ⟨L', hsep, hholds', -⟩ := hholds.separate (hlast hne) span.stop
    exact ⟨_, Draft.step_comma hsep, L', rfl, hholds'.opening, expression?_of_holds hholds' hne⟩
  · rw [if_neg hone]
    have hmany : decide (1 < es.length) = true := by
      have := List.length_pos_iff.2 hne
      simp only [decide_eq_true_eq]
      omega
    rw [hmany] at hholds
    exact .nil ⟨L, rfl, hholds.opening, expression?_of_holds hholds hne⟩

/-! ## Brackets

The tokens of a bracket are those of what stands in it with two more around them.  The bracket opens
a level, and the closing one puts the result in the place where the level around it has room. -/

/-- **Parentheses**: what stands in them is read on a level of its own. -/
theorem readsAs_paren (h : e.ReadsWhole) : (paren span e).ReadsAs .primary := by
  intro L o hL
  rw [tokens]
  refine .cons fun open_ => ⟨_, Draft.step_paren hL, ?_⟩
  refine (h (.paren open_.start) (L :: o)).append ?_
  rintro _ ⟨L₁, rfl, hopening, hexpr⟩
  refine .single fun close => ?_
  obtain ⟨e', he', hbare⟩ := hexpr close.start
  have hclose : L₁.close? .round close = some (.paren ⟨open_.start, close.stop⟩ e') := by
    simp [Level.close?, hopening, he']
  exact ⟨_, Draft.step_closing hclose, _, _, rfl, ⟨_, rfl⟩, rfl, by rw [bare, bare, hbare]⟩

/-- A pair of brackets with nothing in it is the empty tuple. -/
theorem readsAs_tuple_nil : (tuple span []).ReadsAs .primary := by
  intro L o hL
  rw [tokens, if_pos List.isEmpty_nil]
  refine .cons fun open_ => ⟨_, Draft.step_paren hL, ?_⟩
  refine .single fun close => ?_
  have hclose : Level.close? { opening := .paren open_.start } .round close =
      some (.tuple ⟨open_.start, close.stop⟩ []) := rfl
  exact ⟨_, Draft.step_closing hclose, _, _, rfl, ⟨_, rfl⟩, rfl, rfl⟩

/-- A list in brackets. -/
theorem readsAs_list (hes : ∀ e ∈ es, e.ReadsAs .bar) : (list span es).ReadsAs .primary := by
  intro L o hL
  rw [tokens]
  refine .cons fun open_ => ⟨_, Draft.step_list hL, ?_⟩
  refine (reads_separated hes).append ?_
  rintro _ ⟨L₁, rfl, hholds, -⟩
  refine .single fun close => ?_
  have hclose : L₁.close? .square close = some (.list ⟨open_.start, close.stop⟩ L₁.elements) := by
    simp [Level.close?, hholds.opening]
  exact ⟨_, Draft.step_closing hclose, _, _, rfl, ⟨_, rfl⟩, rfl,
    by rw [bare, bare, hholds.elements]⟩

/-- A call: first what is called, and then the arguments on a level of their own. -/
theorem readsAs_call {callee : Expr} (h : callee.ReadsAs .primary)
    (hes : ∀ e ∈ es, e.ReadsAs .bar) : (call span callee es).ReadsAs .primary := by
  intro L o hL
  rw [tokens]
  refine (h L o hL).append ?_
  rintro _ ⟨_, callee', rfl, ⟨x, rfl⟩, hlast, hbare⟩
  refine .cons fun open_ => ⟨_, Draft.step_call hlast, ?_⟩
  refine (reads_separated hes).append ?_
  rintro _ ⟨L₁, rfl, hholds, -⟩
  refine .single fun close => ?_
  have hclose : L₁.close? .round close =
      some (.call (callee'.span.through close) callee' L₁.elements) := by
    simp [Level.close?, hholds.opening]
  exact ⟨_, Draft.step_closing hclose, _, _, rfl, ⟨_, rfl⟩, rfl,
    by rw [bare, bare, hholds.elements, hbare]⟩

/-- A subscript: first what is subscripted, and then the index on a level of its own. -/
theorem readsAs_subscript {value : Expr} (h : value.ReadsAs .primary) (he : e.ReadsWhole) :
    (subscript span value e).ReadsAs .primary := by
  intro L o hL
  rw [tokens]
  refine (h L o hL).append ?_
  rintro _ ⟨_, value', rfl, ⟨x, rfl⟩, hlast, hvalue⟩
  refine .cons fun open_ => ⟨_, Draft.step_subscript hlast, ?_⟩
  refine (he (.subscript value') _).append ?_
  rintro _ ⟨L₁, rfl, hopening, hexpr⟩
  refine .single fun close => ?_
  obtain ⟨e', he', hbare⟩ := hexpr close.start
  have hclose : L₁.close? .square close =
      some (.subscript (value'.span.through close) value' e') := by
    simp [Level.close?, hopening, he']
  exact ⟨_, Draft.step_closing hclose, _, _, rfl, ⟨_, rfl⟩, rfl, by rw [bare, bare, hbare, hvalue]⟩

/-- A member: the operand, a point and the name. -/
theorem readsAs_member {value : Expr} {attr : String} (h : value.ReadsAs .primary) :
    (member span value attr).ReadsAs .primary := by
  intro L o hL
  rw [tokens]
  refine (h L o hL).append ?_
  rintro _ ⟨_, value', rfl, ⟨x, rfl⟩, hlast, hvalue⟩
  refine .cons fun _ => ⟨_, Draft.step_dot hlast, ?_⟩
  refine .single fun _ => ⟨_, Draft.step_member hlast, _, _, rfl, ⟨_, rfl⟩, rfl, ?_⟩
  rw [bare, bare, hvalue]

/-! ## All expressions

By recursion on the expression and on lists of expressions.  Each case is one of the lemmas above.
-/

/-- A word that is not a value is a name. -/
theorem operand?_word {text : String} (h : valueWords.contains text = false) (span : Span) :
    (Token.word text).operand? span = some (.name span text) := by
  simp only [valueWords, List.contains_eq_mem, List.mem_cons, List.not_mem_nil, or_false,
    decide_eq_false_iff_not, not_or] at h
  rw [Token.operand?.eq_def]
  split <;> simp_all

mutual

/-- **Every expression that fits a stratum is read in it.** -/
theorem readsAs_of_fits (e : Expr) {s : Stratum} (hs : s ≠ .whole) (h : e.fits s = true) :
    e.ReadsAs s := by
  cases e with
  | int span value =>
    exact (readsAs_operand rfl fun span => ⟨.int span value, rfl, rfl⟩).of_primary s
  | float span text =>
    exact (readsAs_operand rfl fun span => ⟨.float span text, rfl, rfl⟩).of_primary s
  | bool span value =>
    refine (readsAs_operand rfl fun span => ⟨.bool span value, ?_, rfl⟩).of_primary s
    cases value <;> rfl
  | none span => exact (readsAs_operand rfl fun span => ⟨.none span, rfl, rfl⟩).of_primary s
  | ellipsis span => exact (readsAs_operand rfl fun span => ⟨.ellipsis span, rfl, rfl⟩).of_primary s
  | str span text => exact (readsAs_operand rfl fun span => ⟨.str span text, rfl, rfl⟩).of_primary s
  | name span text =>
    simp only [fits, Bool.and_eq_true, Bool.not_eq_true'] at h
    exact (readsAs_operand rfl fun span => ⟨_, operand?_word h.2 span, rfl⟩).of_primary s
  | binary span op lhs rhs =>
    simp only [fits, Bool.and_eq_true] at h
    have hl := readsAs_of_fits lhs (by cases op <;> simp [Operator.before]) h.1.2
    have hr := readsAs_of_fits rhs (by cases op <;> simp [Operator.after]) h.2
    exact (readsAs_binary hl hr).of_before h.1.1
  | dangling span op lhs =>
    simp only [fits, Bool.and_eq_true] at h
    have hl := readsAs_of_fits lhs (by cases op <;> simp [Operator.before]) h.2
    exact (readsAs_dangling hl).of_before h.1
  | paren span inner =>
    rw [fits] at h
    exact (readsAs_paren (readsWhole_of_fits inner h)).of_primary s
  | tuple span elems =>
    cases elems with
    | nil => exact readsAs_tuple_nil.of_primary s
    -- A tuple without brackets fits as a whole text only.
    | cons e es => simp [fits, hs] at h
  | list span elems =>
    rw [fits] at h
    exact (readsAs_list (readsAll_of_fitAll elems h)).of_primary s
  | subscript span value index =>
    simp only [fits, Bool.and_eq_true] at h
    have hvalue := readsAs_of_fits value (by decide) h.1
    exact (readsAs_subscript hvalue (readsWhole_of_fits index h.2)).of_primary s
  | member span value attr =>
    simp only [fits, Bool.and_eq_true] at h
    exact (readsAs_member (readsAs_of_fits value (by decide) h.1)).of_primary s
  | call span callee args =>
    simp only [fits, Bool.and_eq_true] at h
    have hcallee := readsAs_of_fits callee (by decide) h.1
    exact (readsAs_call hcallee (readsAll_of_fitAll args h.2)).of_primary s
termination_by (sizeOf e, 0)

/-- An expression that fits a whole is a tuple without parentheses, or an element. -/
theorem readsWhole_of_fits (e : Expr) (h : e.fits .whole = true) : e.ReadsWhole := by
  by_cases hbar : e.fits .bar = true
  · exact (readsAs_of_fits e (by decide) hbar).whole
  · cases e with
    | tuple span elems =>
      simp only [fits, Bool.or_eq_true, not_or] at h hbar
      have hfit : fitAll elems = true := by simpa [hbar.1] using h
      exact readsWhole_tuple (readsAll_of_fitAll elems hfit) (by simpa using hbar.1)
    | _ => exact absurd h hbar
termination_by (sizeOf e, 1)

theorem readsAll_of_fitAll : ∀ es : List Expr, fitAll es = true → ∀ e ∈ es, e.ReadsAs .bar
  | [], _ => by simp
  | e :: es, h => by
    simp only [fitAll, Bool.and_eq_true] at h
    intro f hf
    rcases List.mem_cons.1 hf with hfe | hf
    · exact hfe ▸ readsAs_of_fits e (by decide) h.1
    · exact readsAll_of_fitAll es h.2 f hf
termination_by es => (sizeOf es, 0)

end

end Expr

end TypeReveal
