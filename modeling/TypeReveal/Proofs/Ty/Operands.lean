import TypeReveal.Ty.Display
import TypeReveal.Proofs.Ty.Union

/-!
# What stands between the bars

A shown type is a row of **operands** with bars between them.  A union has one operand for all its
literals, at the place of the first, and one for each other member; any other type is its only
operand.  A type with an arrow stands in parentheses as an operand of a union, but not by itself.

* `Ty.text_of_operands` — how a type without an arrow of its own is shown.
* `Ty.types_operands` — the types that the operands of a union stand for are its members, in another
  order.

Operands are what a reader of the short form sees, and they differ from the members in two ways.
Literals are shown together, and a callable among other members is put in parentheses, since its
arrow would take in what follows.  Callables by themselves are not taken apart: the bars of the
result belong to the result.
-/

set_option autoImplicit false
namespace TypeReveal
namespace Ty

/-! ## Literals among the members

All literals are collected in the order in which they stand among the members. -/

/-- Whether a type is a literal. -/
def isLiteral : Ty → Bool
  | literal _ => true
  | _ => false

theorem exists_of_isLiteral {ty : Ty} (h : ty.isLiteral = true) : ∃ value, ty = literal value := by
  cases ty with
  | literal value => exact ⟨value, rfl⟩
  | _ => cases h

theorem literals_cons_literal (value : Literal) (tys : List Ty) :
    literals (literal value :: tys) = value :: literals tys := rfl

theorem literals_cons_of_not {ty : Ty} (h : ty.isLiteral = false) (tys : List Ty) :
    literals (ty :: tys) = literals tys := by
  cases ty with
  | literal => cases h
  | _ => rfl

/-- The literals of a union are its members that are literals. -/
theorem map_literals (members : List Ty) :
    (literals members).map literal = members.filter isLiteral := by
  induction members with
  | nil => rfl
  | cons ty members ih =>
    cases hty : ty.isLiteral with
    | true =>
      obtain ⟨value, rfl⟩ := exists_of_isLiteral hty
      rw [literals_cons_literal, List.map_cons, ih, List.filter_cons_of_pos hty]
    | false => rw [literals_cons_of_not hty, ih, List.filter_cons_of_neg (by simp [hty])]

/-! ## Types with a group in brackets, types with an arrow

A group is shown if there is something in it.  The tuple without elements is shown with a group of
its own. -/

theorem text_nominal (name : String) (arg : Ty) (args : List Ty) :
    (nominal name (arg :: args)).text = name.toList ++ bracketList ((arg :: args).map text) := by
  rw [← texts_eq_map]
  rfl

theorem text_tuple (elem : Ty) (elems : List Ty) :
    (tuple (elem :: elems)).text =
      "tuple".toList ++ bracketList ((elem :: elems).map text) := by
  rw [← texts_eq_map]
  rfl

/-- Whether a type is shown with an arrow of its own. -/
def isArrow : Ty → Bool
  | callable _ _ | function _ _ _ => true
  | _ => false

end Ty

/-! ## Operands

Going through the members, the first literal is replaced by all of them and the others are dropped.
The flag says whether the first literal is still to come. -/

/-- What stands between two bars. -/
inductive Operand where
  /-- All literals of a union. -/
  | literals (values : List Literal)
  /-- A type that is not a literal. -/
  | type (ty : Ty)

namespace Operand

/-- The types that an operand stands for. -/
def types : Operand → List Ty
  | literals values => values.map .literal
  | type ty => [ty]

/-- An operand as it is shown. -/
def text : Operand → List Char
  | literals values => literalText values
  | type ty => if ty.isArrow then '(' :: ty.text ++ [')'] else ty.text

end Operand

namespace Ty

/-- The operands of members; the first literal, if it is still `awaited`, stands for all
`values`. -/
def operandsFrom (values : List Literal) (awaited : Bool) : List Ty → List Operand
  | [] => []
  | literal _ :: members =>
    if awaited then .literals values :: operandsFrom values false members
    else operandsFrom values awaited members
  | ty :: members => .type ty :: operandsFrom values awaited members

/-- The operands of a type. -/
def operands : Ty → List Operand
  | literal value => [.literals [value]]
  | union members => operandsFrom (literals members) true members
  | ty => [.type ty]

/-- The members of a union; of any other type, the type alone. -/
def members : Ty → List Ty
  | union members => members
  | ty => [ty]

section Operands

variable {members : List Ty} {values : List Literal} {ty : Ty} {operand : Operand}

theorem operandsFrom_cons (h : ty.isLiteral = false) (awaited : Bool) :
    operandsFrom values awaited (ty :: members) =
      .type ty :: operandsFrom values awaited members := by
  cases ty with
  | literal => cases h
  | _ => rfl

theorem memberTexts_cons (h : ty.isLiteral = false) (merged : List Char) (awaited : Bool) :
    memberTexts merged awaited (ty :: members) =
      (Operand.type ty).text :: memberTexts merged awaited members := by
  cases ty with
  | literal => cases h
  | _ => rfl

theorem memberTexts_eq_map (values : List Literal) (awaited : Bool) (members : List Ty) :
    memberTexts (literalText values) awaited members =
      (operandsFrom values awaited members).map Operand.text := by
  induction members generalizing awaited with
  | nil => rfl
  | cons ty members ih =>
    cases hty : ty.isLiteral with
    | true =>
      obtain ⟨value, rfl⟩ := exists_of_isLiteral hty
      cases awaited with
      | true => rw [memberTexts, if_pos rfl, ih, operandsFrom, if_pos rfl]; rfl
      | false => rw [memberTexts, if_neg (by decide), ih, operandsFrom, if_neg (by decide)]
    | false => rw [memberTexts_cons hty, ih, operandsFrom_cons hty, List.map_cons]

theorem text_union (members : List Ty) :
    (union members).text = List.intercalate " | ".toList
      (memberTexts (literalText (literals members)) true members) := rfl

/-- **A type without an arrow of its own is shown as its operands.** -/
theorem text_of_operands (h : ty.isArrow = false) :
    ty.text = List.intercalate " | ".toList (ty.operands.map Operand.text) := by
  have hown : ∀ operand : Operand,
      List.intercalate " | ".toList ([operand].map Operand.text) = operand.text := by simp
  cases ty with
  | literal value => exact (hown (.literals [value])).symm
  | union members => rw [text_union, memberTexts_eq_map, operands]
  | callable | function => cases h
  | unknown => exact (hown (.type unknown)).symm
  | tuple elems => exact (hown (.type (tuple elems))).symm
  | nominal name args => exact (hown (.type (nominal name args))).symm

/-! ## The types of operands

The literals have moved to the place of the first one, so the types are the members up to a
permutation, and not more can be said. -/

/-- The operands stand for the members that are no literals and for the literals that are
awaited. -/
theorem types_operandsFrom (values : List Literal) (awaited : Bool) (members : List Ty) :
    ((operandsFrom values awaited members).flatMap Operand.types).Perm
      (members.filter (!·.isLiteral) ++
        if awaited && members.any isLiteral then values.map literal else []) := by
  induction members generalizing awaited with
  | nil => simp [operandsFrom]
  | cons ty members ih =>
    cases hty : ty.isLiteral with
    | true =>
      rw [List.filter_cons_of_neg (by simp [hty]), List.any_cons, hty, Bool.true_or, Bool.and_true]
      obtain ⟨value, rfl⟩ := exists_of_isLiteral hty
      cases awaited with
      | false =>
        rw [operandsFrom, if_neg (by decide)]
        exact ih false
      | true =>
        rw [operandsFrom, if_pos rfl, List.flatMap_cons]
        refine List.perm_append_comm.trans ?_
        simpa [Operand.types] using (ih false).append_right (values.map literal)
    | false =>
      rw [operandsFrom_cons hty, List.flatMap_cons, List.filter_cons_of_pos (by simp [hty]),
        List.any_cons, hty, Bool.false_or]
      exact (ih awaited).cons ty

/-- **The operands of a type stand for its members**, in another order. -/
theorem types_operands (ty : Ty) : (ty.operands.flatMap Operand.types).Perm ty.members := by
  cases ty with
  | union members =>
    have hrest : (if true && members.any isLiteral then (literals members).map literal else []) =
        members.filter isLiteral := by
      rw [map_literals, Bool.true_and, ite_eq_left_iff, List.any_eq_true]
      exact fun hnone => (List.filter_eq_nil_iff.2 fun ty hty h => hnone ⟨ty, hty, h⟩).symm
    have hperm := types_operandsFrom (literals members) true members
    rw [hrest] at hperm
    exact hperm.trans (List.perm_append_comm.trans (List.filter_append_perm isLiteral members))
  | _ => exact .refl _

/-- An operand of a union is one of its members or all of its literals. -/
theorem of_mem_operandsFrom {awaited : Bool} (h : operand ∈ operandsFrom values awaited members) :
    (operand = .literals values ∧ members.any isLiteral = true) ∨
      ∃ ty ∈ members, ty.isLiteral = false ∧ operand = .type ty := by
  induction members generalizing awaited with
  | nil => cases h
  | cons ty members ih =>
    have hmore : ∀ {awaited : Bool}, operand ∈ operandsFrom values awaited members →
        (operand = .literals values ∧ (ty :: members).any isLiteral = true) ∨
          ∃ t ∈ ty :: members, t.isLiteral = false ∧ operand = .type t := by
      intro awaited hmem
      refine (ih hmem).imp (fun ⟨heq, hany⟩ => ⟨heq, ?_⟩) fun ⟨t, ht, hrest⟩ =>
        ⟨t, List.mem_cons_of_mem _ ht, hrest⟩
      rw [List.any_cons, hany, Bool.or_true]
    cases hty : ty.isLiteral with
    | true =>
      obtain ⟨value, rfl⟩ := exists_of_isLiteral hty
      rw [operandsFrom] at h
      split at h
      · rcases List.mem_cons.1 h with rfl | h
        · exact .inl ⟨rfl, rfl⟩
        · exact hmore h
      · exact hmore h
    | false =>
      rw [operandsFrom_cons hty] at h
      rcases List.mem_cons.1 h with rfl | h
      · exact .inr ⟨ty, List.mem_cons_self, hty, rfl⟩
      · exact hmore h

end Operands

end Ty
end TypeReveal
