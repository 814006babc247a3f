import TypeReveal.Inference.Context
import TypeReveal.Proofs.Annotation.Forms
import TypeReveal.Proofs.Annotation.SignatureText

/-!
# The extension refines the standard reading

Whatever an annotation denotes by the standard rules is part of what it denotes in its extended
meaning: no member is lost (`within_extended`).  The two readings differ only where one of them
meets a form of its own, and a string is none for both: a text that is an expression is no
signature.

The induction is on the expression.  At a bar both sides may gain members, and the union of what is
gained has those of the union of what was there; at any other form the extended meaning takes up the
standard one whole or adds a form that has no standard meaning.
-/

set_option autoImplicit false
namespace TypeReveal

variable {site : Site} {deeper : Site → Expr → Option Ty}

theorem standard_str (span : Span) (text : String) :
    standard site (.str span text) =
      (Expr.ofText? text.toList).bind (readWithin annotationDepth (site.quote span.start)) := rfl

/-- A string with a standard meaning quotes no signature. -/
theorem signature?_eq_none {span : Span} {text : String} {ty : Ty}
    (h : standard site (.str span text) = some ty) : signature? site (.str span text) = none := by
  rw [standard_str] at h
  obtain ⟨e, he, -⟩ := Option.bind_eq_some_iff.1 h
  rw [signature?, signatureWith, readSignature?_eq_none he]
  rfl

/-- **A string** that denotes a type by the standard rules denotes this type. -/
theorem extended_str_of_standard {span : Span} {text : String} {ty : Ty}
    (h : standard site (.str span text) = some ty) : extended site (.str span text) = some ty := by
  rw [extended_str, signature?_eq_none h, h]
  rfl

/-- **The standard meaning is within the extended one.** -/
theorem within_extended (site : Site) : ∀ e : Expr,
    Ty.Within (standard site e) (extended site e)
  | .int .. | .bool .. | .tuple .. | .binary _ .amp .. | .dangling .. => Ty.within_none _
  | .none _ | .float .. | .ellipsis _ | .name .. | .list .. | .subscript .. | .member ..
  | .call .. => by
    rw [extended_of_isStandard rfl]
    exact Ty.within_refl _
  | .str span text => by
    cases h : standard site (.str span text) with
    | none => exact Ty.within_none _
    | some ty =>
      rw [extended_str_of_standard h]
      exact Ty.within_refl _
  | .paren span inner => by
    rw [standard_paren, extended_paren]
    exact within_extended site inner
  | .binary span .bar lhs rhs => by
    rw [standard_binary, extended_bar]
    exact Ty.Within.union? (Ty.proper_of_wellFormed (wellFormed_standard site lhs))
      (Ty.proper_of_wellFormed (wellFormed_standard site rhs))
      (Ty.proper_of_wellFormed (wellFormed_extended site lhs false))
      (Ty.proper_of_wellFormed (wellFormed_extended site rhs false))
      (within_extended site lhs) (within_extended site rhs)

/-- What has a standard meaning has an extended one, with all members of the standard one. -/
theorem exists_extended {e : Expr} {ty : Ty} (h : standard site e = some ty) :
    ∃ ty', extended site e = some ty' ∧
      ∀ member ∈ ty.members, ∃ other ∈ ty'.members, (member == other) = true := by
  cases hextended : extended site e with
  | none =>
    rw [standard_eq_none hextended] at h
    cases h
  | some ty' =>
    have hwithin := within_extended site e
    rw [h, hextended] at hwithin
    exact ⟨ty', rfl, hwithin⟩

/-- **The extension refines the standard reading**, of every expression at every site and so of
every node of a file: no member of the standard meaning is lost, and where no form of the extension
is met on the way down through operators and parentheses, both meanings are the same. -/
theorem extended_refines_standard :
    (∀ (site : Site) (e : Expr),
      (∀ ty, standard site e = some ty → ∃ ty', extended site e = some ty' ∧
        ∀ member ∈ ty.members, ∃ other ∈ ty'.members, (member == other) = true) ∧
      (e.isStandard = true → extended site e = standard site e)) ∧
    ∀ place : Place,
      (∀ ty, place.standardType? = some ty → ∃ ty', place.extendedType? false = some ty' ∧
        ∀ member ∈ ty.members, ∃ other ∈ ty'.members, (member == other) = true) ∧
      ((∀ e, place.node = .expr e → e.isStandard = true) →
        place.extendedType? false = place.standardType?) := by
  refine ⟨fun site e => ⟨fun ty h => exists_extended h, extended_of_isStandard⟩, fun place => ?_⟩
  cases hnode : place.node with
  | expr e =>
    rw [Place.standardType?, Place.extendedType?, hnode]
    exact ⟨fun ty h => exists_extended h, fun h => extended_of_isStandard (h e rfl)⟩
  | _ =>
    rw [Place.standardType?, Place.extendedType?, hnode]
    exact ⟨nofun, fun _ => rfl⟩

/-- In `int | (1)` the standard rules see the left side alone. -/
theorem extended_refines_standard_literal :
    let site : Site := { above := [], inside := [] }
    let e : Expr := .binary ⟨0, 9⟩ .bar (.name ⟨0, 3⟩ "int") (.paren ⟨6, 9⟩ (.int ⟨7, 8⟩ 1))
    standard site e = some (.nominal "int" []) ∧
      ∃ ty', extended site e = some ty' ∧
        ∃ other ∈ ty'.members, (Ty.nominal "int" [] == other) = true := by
  intro site e
  have hstandard : standard site e = some (.nominal "int" []) := by rfl
  obtain ⟨ty', hextended, hmembers⟩ := (extended_refines_standard.1 site e).1 _ hstandard
  exact ⟨hstandard, ty', hextended, hmembers _ List.mem_cons_self⟩

end TypeReveal
