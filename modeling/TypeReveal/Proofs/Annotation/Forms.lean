import TypeReveal.Proofs.Annotation.Budget
import TypeReveal.Proofs.Annotation.Standard
import TypeReveal.Proofs.Annotation.WellFormed
import TypeReveal.Proofs.Ty.Members

/-!
# The forms of annotations, one by one

The extended meaning of an annotation in terms of that of its parts, one equation for each form that
has parts.

Each form falls back on the standard meaning when its parts denote nothing.  That never helps: what
denotes nothing in its extended meaning denotes nothing in the standard one
(`standard_eq_none`), so parentheses mean what stands in them, `&` what stands on its left, and a
bar the union of both sides.
-/

set_option autoImplicit false
namespace TypeReveal

variable {site : Site} {e : Expr}

/-- **The extended meaning is a solution of its own equation**: what it leaves to `deeper` is the
extended meaning again. -/
theorem extended_eq (site : Site) (e : Expr) (strict : Bool) :
    extended site e strict = extendWith (fun site e => extended site e) site strict e := by
  rw [extended_eq_extendWith (fun _ _ => none) (Nat.le_refl _)]
  refine extendWith_congr (fun site f hf => ?_) strict e (Nat.le_refl _)
  obtain ⟨budget, hbudget⟩ := Nat.exists_eq_add_one_of_ne_zero (Nat.ne_zero_of_lt hf)
  rw [hbudget] at hf ⊢
  exact (extended_eq_extendWith _ (Nat.le_of_lt_succ hf) site false).symm

/-- The callable that a string quotes, its parts in their extended meaning. -/
def signature? (site : Site) (e : Expr) : Option Ty :=
  signatureWith (fun site e => extended site e) site e

/-! ## Falling back

The fallback is there in the code for every form.  It counts for a string that quotes no signature,
and for names and subscripts. -/

section Fallback

variable {part? : Option Ty}

/-- What an annotation means when its parts mean `part?`. -/
def orFallback (part? : Option Ty) (site : Site) (e : Expr) : Option Ty :=
  part? <|> fallbackWith (fun site e => extended site e) site false e

theorem standard_eq_none_of_orFallback (h : orFallback part? site e = none) :
    standard site e = none := by
  cases part? with
  | some => cases h
  | none =>
    change (signature? site e <|> standard site e) = none at h
    cases hsignature : signature? site e with
    | some =>
      rw [hsignature] at h
      cases h
    | none =>
      rw [hsignature] at h
      exact h

/-- **What denotes nothing** in its extended meaning denotes nothing in the standard one. -/
theorem standard_eq_none (h : extended site e = none) : standard site e = none := by
  rw [extended_eq, extendWith.eq_def] at h
  split at h
  case h_1 | h_2 | h_6 => cases h
  case h_8 => exact @standard_eq_none_of_orFallback _ _ none h
  all_goals exact standard_eq_none_of_orFallback h

/-- Falling back does not help where the parts mean nothing. -/
theorem orFallback_eq (hsignature : signature? site e = none)
    (hstandard : part? = none → standard site e = none) : orFallback part? site e = part? := by
  cases part? with
  | some => rfl
  | none =>
    change (signature? site e <|> standard site e) = none
    rw [hsignature, hstandard rfl]
    rfl

end Fallback

/-! ## Forms -/

section Forms

variable (site) (span : Span) (lhs rhs inner : Expr) (elems : List Expr) (text : String)

theorem extendAllWith_eq_map (deeper : Site → Expr → Option Ty) (es : List Expr) :
    extendAllWith deeper site es =
      es.map fun e => (extendWith deeper site false e).getD .unknown := by
  induction es with
  | nil => rfl
  | cons e es ih => rw [extendAllWith, ih, List.map_cons]

/-- A tuple: its elements, unknown where they denote nothing. -/
theorem extended_tuple : extended site (.tuple span elems) =
    some (.tuple (elems.map fun e => (extended site e).getD .unknown)) := by
  rw [extended_eq, extendWith, extendAllWith_eq_map]
  simp only [← extended_eq]

/-- **Parentheses** mean what stands in them. -/
theorem extended_paren : extended site (.paren span inner) = extended site inner := by
  rw [extended_eq, extendWith, ← extended_eq]
  refine orFallback_eq rfl fun hnone => ?_
  rw [standard_paren, standard_eq_none hnone]

/-- **An intersection** means what its left side does. -/
theorem extended_amp : extended site (.binary span .amp lhs rhs) = extended site lhs := by
  rw [extended_eq, extendWith, ← extended_eq]
  exact orFallback_eq rfl fun _ => rfl

theorem extended_dangling_amp : extended site (.dangling span .amp lhs) = extended site lhs := by
  rw [extended_eq, extendWith, ← extended_eq]
  exact orFallback_eq rfl fun _ => rfl

/-- **A bar** means the union of its sides. -/
theorem extended_bar : extended site (.binary span .bar lhs rhs) =
    Ty.union? (extended site lhs) (extended site rhs) := by
  rw [extended_eq, extendWith, ← extended_eq, ← extended_eq]
  refine orFallback_eq rfl fun hnone => ?_
  obtain ⟨hlhs, hrhs⟩ := Ty.eq_none_of_union?
    (Ty.proper_of_wellFormed (wellFormed_extended site lhs false))
    (Ty.proper_of_wellFormed (wellFormed_extended site rhs false)) hnone
  rw [standard_binary, standard_eq_none hlhs, standard_eq_none hrhs]
  rfl

/-- A string: the signature that it quotes, or else its standard meaning. -/
theorem extended_str : extended site (.str span text) =
    (signature? site (.str span text) <|> standard site (.str span text)) :=
  extended_eq site _ false

end Forms

end TypeReveal
