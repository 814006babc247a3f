import TypeReveal.Proofs.Annotation.Quoted
import TypeReveal.Proofs.Expr.Composed

/-!
# Parentheses and intersections erase

Parentheses around an annotation, and the right side of `&`, leave no trace in its extended meaning:
it is that of its **erasure**, which has neither (`extended_erase`).  Where the annotation is quoted
in a string its spans are of no account either, so all that counts of a quoted annotation is its
erasure without spans.
-/

set_option autoImplicit false
namespace TypeReveal

/-! ## Erasure

What is erased is what the extended meaning has equations for: a pair of parentheses, and an
intersection with its right side or without one. -/

namespace Expr

mutual

/-- **The erasure of an annotation**: no parentheses, and of every intersection the left side alone,
at the root, in the operands of bars and in the elements of tuples. -/
def erase : Expr → Expr
  | paren _ inner => inner.erase
  | binary _ .amp lhs _ => lhs.erase
  | dangling _ .amp lhs => lhs.erase
  | binary span .bar lhs rhs => binary span .bar lhs.erase rhs.erase
  | dangling span .bar lhs => dangling span .bar lhs.erase
  | tuple span elems => tuple span (eraseAll elems)
  | e => e

/-- The erasures of annotations. -/
def eraseAll : List Expr → List Expr
  | [] => []
  | e :: es => e.erase :: eraseAll es

end

end Expr

variable (site : Site)

mutual

/-- **An annotation means what its erasure does.** -/
theorem extended_erase : ∀ e : Expr, extended site e.erase = extended site e
  | .int .. | .bool .. | .none _ | .float .. | .ellipsis _ | .call .. | .list .. | .name ..
  | .member .. | .subscript .. | .str .. | .dangling _ .bar _ => rfl
  | .paren span inner => by rw [Expr.erase, extended_paren, extended_erase inner]
  | .binary span .amp lhs rhs => by rw [Expr.erase, extended_amp, extended_erase lhs]
  | .dangling span .amp lhs => by rw [Expr.erase, extended_dangling_amp, extended_erase lhs]
  | .binary span .bar lhs rhs => by
    rw [Expr.erase, extended_bar, extended_bar, extended_erase lhs, extended_erase rhs]
  | .tuple span elems => by
    rw [Expr.erase, extended_tuple, extended_tuple, extendedAll_erase elems]

theorem extendedAll_erase : ∀ es : List Expr,
    ((Expr.eraseAll es).map fun e => (extended site e).getD .unknown) =
      es.map fun e => (extended site e).getD .unknown
  | [] => rfl
  | e :: es => by
    rw [Expr.eraseAll, List.map_cons, List.map_cons, extended_erase e, extendedAll_erase es]

end

/-! ## Texts

In a string all names are looked up at one position, so two expressions that differ in spans have
one meaning there, and only the erasure is left to compare. -/

/-- The text of an intersection of two texts in parentheses. -/
theorem Expr.ofText?_amp {left right : List Char} {l r : Expr} (hl : ofText? left = some l)
    (hr : ofText? right = some r) :
    ∃ both, ofText? ("(".toList ++ left ++ ") & (".toList ++ right ++ ")".toList) = some both ∧
      both.bare = (binary default .amp (paren default l) (paren default r)).bare := by
  have htext : "(".toList ++ left ++ ") & (".toList ++ right ++ ")".toList =
      '(' :: (left ++ [')']) ++ (' ' :: '&' :: ' ' :: '(' :: (right ++ [')'])) := by simp
  rw [htext]
  exact (@Holds.binary _ _ _ _ .amp (holds_paren hl).toAmp (holds_paren hr)).ofText?

/-- **Grouping and intersections erase.**  Quoted annotations with the same erasure, spans aside,
denote the same, or nothing both; so two texts in parentheses with `&` between them denote what the
first of them does. -/
theorem extended_of_erase_eq (start : Nat) :
    (∀ e e' : Expr, e.erase.bare = e'.erase.bare →
      extended (site.quote start) e = extended (site.quote start) e') ∧
    ∀ (left right : List Char) (l r : Expr), Expr.ofText? left = some l →
      Expr.ofText? right = some r →
      ∃ both, Expr.ofText? ("(".toList ++ left ++ ") & (".toList ++ right ++ ")".toList) =
          some both ∧ extended (site.quote start) both = extended (site.quote start) l := by
  have hquoted := site.isQuoted_quote start
  refine ⟨fun e e' h => ?_, fun left right l r hl hr => ?_⟩
  · rw [← extended_erase _ e, extended_congr_bare hquoted h, extended_erase _ e']
  · obtain ⟨both, hboth, hbare⟩ := Expr.ofText?_amp hl hr
    refine ⟨both, hboth, ?_⟩
    rw [extended_congr_bare hquoted hbare, extended_amp, extended_paren]

/-- `(int & str)` and `(int) & (1)` denote what `int` does. -/
theorem extended_of_erase_eq_int :
    let site : Site := { above := [], inside := [] }
    extended (site.quote 5) (.paren ⟨0, 11⟩ (.binary ⟨1, 10⟩ .amp (.name ⟨1, 4⟩ "int")
        (.name ⟨7, 10⟩ "str"))) = some (.nominal "int" []) ∧
      ∃ both, Expr.ofText? "(int) & (1)".toList = some both ∧
        extended (site.quote 5) both = some (.nominal "int" []) := by
  intro site
  let int : Expr := .name ⟨0, 3⟩ "int"
  have hint : extended (site.quote 5) int = some (.nominal "int" []) := by rfl
  obtain ⟨herased, htexts⟩ := extended_of_erase_eq site 5
  obtain ⟨both, hboth, hleft⟩ :=
    htexts "int".toList "1".toList int (.int ⟨0, 1⟩ 1) (by decide +kernel) (by decide +kernel)
  exact ⟨(herased _ int rfl).trans hint, both, hboth, hleft.trans hint⟩

end TypeReveal
