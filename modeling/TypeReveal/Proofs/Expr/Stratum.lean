import TypeReveal.Syntax.Draft

/-!
# Strata of expressions

An expression tree need not be the tree of a text: a union below a member access, say, would need
parentheses, and parentheses are nodes of their own.  The **strata** say which trees are.

* `Stratum.whole` — what a text, a pair of parentheses or a subscript holds: any element, or a tuple
  of elements that is not empty.
* `Stratum.bar` — an element: a union, which joins to the left.
* `Stratum.amp` — an operand of a union: an intersection, which joins to the left.
* `Stratum.primary` — an operand of an intersection: an atom with calls, subscripts and members.

`Expr.fits` decides whether a tree belongs to a stratum, spans aside, and `Expr.bare` forgets the
spans.  The one thing the strata are for is `Expr.read_roundtrip`: the trees that reading yields are
exactly those that fit.
-/

set_option autoImplicit false
namespace TypeReveal

/-! ## Words and decimals -/

/-- A word: an ASCII letter or underscore, and then letters, digits and underscores. -/
def isWord : List Char → Bool
  | [] => false
  | c :: rest => isWordStart c && rest.all isWordPart

theorem isWordPart_of_isWord {word : List Char} (h : isWord word = true) :
    word ≠ [] ∧ ∀ c ∈ word, isWordPart c = true := by
  cases word with
  | nil => cases h
  | cons c rest =>
    rw [isWord, Bool.and_eq_true, List.all_eq_true] at h
    refine ⟨List.cons_ne_nil c rest, List.forall_mem_cons.2 ⟨?_, h.2⟩⟩
    have hstart := h.1
    rw [isWordStart, Bool.or_eq_true] at hstart
    rw [isWordPart, Char.isAlphanum, Bool.or_eq_true, Bool.or_eq_true]
    exact hstart.imp_left .inl

/-- The words that are values and not names. -/
def valueWords : List String := ["True", "False", "None"]

/-- Digits, a point and maybe further digits. -/
def isUnsignedDecimal (text : List Char) : Bool :=
  !(text.takeWhile Char.isDigit).isEmpty &&
    match text.dropWhile Char.isDigit with
    | '.' :: fraction => fraction.all Char.isDigit
    | _ => false

/-- The text of a number with a point, with or without a minus. -/
def isDecimal : List Char → Bool
  | '-' :: text => isUnsignedDecimal text
  | text => isUnsignedDecimal text

/-! ## Strata -/

/-- The parts of the grammar that an expression can stand for. -/
inductive Stratum where
  | whole
  | bar
  | amp
  | primary
deriving DecidableEq, Repr

/-- Whether an operation can stand in a stratum without parentheses. -/
def Stratum.admits : Stratum → Operator → Bool
  | whole, _ | bar, _ | amp, .amp => true
  | _, _ => false

/-- The stratum of what stands before an operator. -/
def Operator.before : Operator → Stratum
  | bar => .bar
  | amp => .amp

/-- The stratum of what stands after an operator. -/
def Operator.after : Operator → Stratum
  | bar => .amp
  | amp => .primary

namespace Expr

mutual

/-- Whether an expression belongs to a stratum. -/
def fits (stratum : Stratum) : Expr → Bool
  | int .. | bool .. | none _ | ellipsis _ | str .. => true
  | float _ text => isDecimal text.toList
  | name _ text => isWord text.toList && !valueWords.contains text
  | binary _ op lhs rhs => stratum.admits op && lhs.fits op.before && rhs.fits op.after
  | dangling _ op lhs => stratum.admits op && lhs.fits op.before
  | paren _ inner => inner.fits .whole
  | tuple _ elems => elems.isEmpty || (stratum == .whole && fitAll elems)
  | list _ elems => fitAll elems
  | subscript _ value index => value.fits .primary && index.fits .whole
  | member _ value attr => value.fits .primary && isWord attr.toList
  | call _ callee args => callee.fits .primary && fitAll args

/-- Whether all expressions of a list are elements. -/
def fitAll : List Expr → Bool
  | [] => true
  | e :: es => e.fits .bar && fitAll es

end

mutual

/-- An expression without its spans. -/
def bare : Expr → Expr
  | int _ value => int default value
  | float _ text => float default text
  | bool _ value => bool default value
  | none _ => none default
  | ellipsis _ => ellipsis default
  | str _ text => str default text
  | name _ text => name default text
  | binary _ op lhs rhs => binary default op lhs.bare rhs.bare
  | dangling _ op lhs => dangling default op lhs.bare
  | paren _ inner => paren default inner.bare
  | tuple _ elems => tuple default (bareAll elems)
  | list _ elems => list default (bareAll elems)
  | subscript _ value index => subscript default value.bare index.bare
  | member _ value attr => member default value.bare attr
  | call _ callee args => call default callee.bare (bareAll args)

/-- Expressions without their spans. -/
def bareAll : List Expr → List Expr
  | [] => []
  | e :: es => e.bare :: bareAll es

end

/-! ## Lists of expressions -/

theorem fitAll_iff {es : List Expr} : fitAll es = true ↔ ∀ e ∈ es, e.fits .bar = true := by
  induction es with
  | nil => simp [fitAll]
  | cons e es ih => simp [fitAll, ih]

theorem bareAll_eq_map (es : List Expr) : bareAll es = es.map bare := by
  induction es with
  | nil => rfl
  | cons e es ih => simp [bareAll, ih]

@[simp] theorem bareAll_append (es fs : List Expr) :
    bareAll (es ++ fs) = bareAll es ++ bareAll fs := by
  simp [bareAll_eq_map]

/-! ## The order of the strata -/

/-- An expression belongs to every stratum that admits at least as much. -/
theorem fits_mono {s t : Stratum} (hop : ∀ op, s.admits op = true → t.admits op = true)
    (hwhole : s = .whole → t = .whole) {e : Expr} (h : e.fits s = true) : e.fits t = true := by
  cases e with
  | binary _ op =>
    simp only [fits, Bool.and_eq_true] at h ⊢
    exact ⟨⟨hop op h.1.1, h.1.2⟩, h.2⟩
  | dangling _ op =>
    simp only [fits, Bool.and_eq_true] at h ⊢
    exact ⟨hop op h.1, h.2⟩
  | tuple _ elems =>
    simp only [fits, Bool.or_eq_true, Bool.and_eq_true, beq_iff_eq] at h ⊢
    exact h.imp_right fun h => ⟨hwhole h.1, h.2⟩
  | _ => exact h

/-- An operand of an intersection is an intersection. -/
theorem fits_amp_of_primary {e : Expr} (h : e.fits .primary = true) : e.fits .amp = true :=
  fits_mono (fun op hop => by cases op <;> simp [Stratum.admits] at hop) (by decide) h

/-- An operand of a union is a union. -/
theorem fits_bar_of_amp {e : Expr} (h : e.fits .amp = true) : e.fits .bar = true :=
  fits_mono (fun _ _ => rfl) (by decide) h

/-- An element is a whole expression. -/
theorem fits_whole_of_bar {e : Expr} (h : e.fits .bar = true) : e.fits .whole = true :=
  fits_mono (fun _ _ => rfl) (by decide) h

end Expr
end TypeReveal
