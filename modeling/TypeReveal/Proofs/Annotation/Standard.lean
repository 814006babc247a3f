import TypeReveal.Annotation.Overload

/-!
# Annotations without extended forms

An annotation **is standard** if none of the forms that the extension adds is met on the way down
through operators and parentheses.  What lies in subscripts is not looked at: the extension leaves
it to the standard meaning.

* `extended_of_isStandard` — the extended meaning of such an annotation is its standard meaning.
* `standard_of_strict` — the strict reading of it may have no answer, but never another one.

The induction is on the annotation and its cases are few: a name, a subscript or a constant falls
back on the standard meaning directly, and parentheses, bars and strings that are no signatures have
the standard meaning of their parts.
-/

set_option autoImplicit false
namespace TypeReveal

/-- Whether an annotation has no extended form outside of subscripts. -/
def Expr.isStandard : Expr → Bool
  | .int .. | .bool .. | .tuple .. | .binary _ .amp .. | .dangling _ .amp _ => false
  | .str _ text => !isSignature text.toList
  | .binary _ .bar lhs rhs => lhs.isStandard && rhs.isStandard
  | .dangling _ .bar lhs => lhs.isStandard
  | .paren _ inner => inner.isStandard
  | .float .. | .none _ | .ellipsis _ | .name .. | .list .. | .subscript .. | .member ..
  | .call .. => true

variable {deeper : Site → Expr → Option Ty} {site : Site} {strict : Bool} {e : Expr}

theorem signatureWith_str {span : Span} {text : String} (h : isSignature text.toList = false) :
    signatureWith deeper site (.str span text) = none := by
  rw [signatureWith, readSignature?, h]
  rfl

theorem standard_binary (span : Span) (lhs rhs : Expr) :
    standard site (.binary span .bar lhs rhs) =
      Ty.union? (standard site lhs) (standard site rhs) := by
  simp [standard, readWithin, readWith]

theorem standard_paren (span : Span) (inner : Expr) :
    standard site (.paren span inner) = standard site inner := by
  simp [standard, readWithin, readWith]

/-- What has no form of its own and is no signature has the standard meaning, or none. -/
theorem fallbackWith_eq (h : signatureWith deeper site e = none) :
    fallbackWith deeper site strict e = if strict then none else standard site e := by
  rw [fallbackWith, h]
  rfl

/-- The extended meaning is the standard one, and the strict reading has no other answer. -/
def ReadsStandard (deeper : Site → Expr → Option Ty) (site : Site) (e : Expr) : Prop :=
  extendWith deeper site false e = standard site e ∧
    ∀ t, extendWith deeper site true e = some t → standard site e = some t

theorem readsStandard_of_fallback (hsignature : signatureWith deeper site e = none)
    (h : ∀ strict, extendWith deeper site strict e = fallbackWith deeper site strict e) :
    ReadsStandard deeper site e := by
  rw [ReadsStandard, h, h, fallbackWith_eq hsignature, fallbackWith_eq hsignature]
  exact ⟨rfl, fun t ht => by cases ht⟩

theorem readsStandard_of_orElse (hsignature : signatureWith deeper site e = none)
    (h : ∀ strict, extendWith deeper site strict e =
      (standard site e <|> fallbackWith deeper site strict e)) :
    ReadsStandard deeper site e := by
  rw [ReadsStandard, h, h, fallbackWith_eq hsignature, fallbackWith_eq hsignature]
  cases standard site e with
  | none => exact ⟨rfl, fun t ht => by cases ht⟩
  | some ty => exact ⟨rfl, fun t ht => ht⟩

/-- **A standard annotation has its standard meaning**, as far as it is read. -/
theorem readsStandard_of_isStandard (h : e.isStandard = true) : ReadsStandard deeper site e := by
  induction e using Expr.isStandard.induct with
  | case1 | case2 | case3 | case4 | case5 => simp [Expr.isStandard] at h
  | case6 span text =>
    rw [Expr.isStandard, Bool.not_eq_true'] at h
    exact readsStandard_of_fallback (signatureWith_str h) fun _ => rfl
  | case7 span lhs rhs ihl ihr =>
    rw [Expr.isStandard, Bool.and_eq_true] at h
    refine readsStandard_of_orElse rfl fun strict => ?_
    rw [extendWith, (ihl h.1).1, (ihr h.2).1, standard_binary]
  | case9 span inner ih =>
    rw [Expr.isStandard] at h
    refine readsStandard_of_orElse rfl fun strict => ?_
    rw [extendWith, (ih h).1, standard_paren]
  | _ => exact readsStandard_of_fallback rfl fun _ => rfl

/-- **The extended meaning of a standard annotation** is its standard meaning. -/
theorem extended_of_isStandard (h : e.isStandard = true) :
    extended site e false = standard site e :=
  (readsStandard_of_isStandard h).1

/-- The strict reading of a standard annotation may have no answer, but no other one. -/
theorem standard_of_strict (h : e.isStandard = true) {t : Ty} (ht : extended site e true = some t) :
    standard site e = some t :=
  (readsStandard_of_isStandard h).2 t ht

end TypeReveal
