import TypeReveal.Proofs.Ty.Union

/-!
# Well-formed types

A type is **well formed** if every union in it, at any depth, has at least two members, and these
are flat: pairwise different, unions being compared as sets, and none of them a union.  Unions of
well-formed types are well formed, whether they collapse or not.

Every type that is inferred is well formed, and this file has the part of it that is about building
types: names of classes, values of classes, results of callables, and unions.  The definition goes
down into elements, arguments, parameters and results, because any of these can be taken out of a
type again and used alone.
-/

set_option autoImplicit false
namespace TypeReveal
namespace Ty

/-- **A well-formed type**: every union in it, at any depth, has two flat members or more. -/
inductive WellFormed : Ty → Prop
  | unknown : WellFormed unknown
  | literal (value : Literal) : WellFormed (literal value)
  | union {members : List Ty} (htwo : 2 ≤ members.length) (hflat : Flat members)
    (h : ∀ ty ∈ members, WellFormed ty) : WellFormed (union members)
  | tuple {elems : List Ty} (h : ∀ ty ∈ elems, WellFormed ty) : WellFormed (tuple elems)
  | callable {params : List Slot} {result : Ty} (hparams : ∀ slot ∈ params, WellFormed slot.ty)
    (hresult : WellFormed result) : WellFormed (callable params result)
  | nominal (name : String) {args : List Ty} (h : ∀ ty ∈ args, WellFormed ty) :
    WellFormed (nominal name args)
  | function (name : String) {params : List Slot} {result : Ty}
    (hparams : ∀ slot ∈ params, WellFormed slot.ty) (hresult : WellFormed result) :
    WellFormed (function name params result)

variable {members tys : List Ty} {ty : Ty}

/-- The type of a class by its name has no parts. -/
theorem wellFormed_ofClass (name : String) : (ofClass name).WellFormed :=
  .nominal name fun _ h => absurd h List.not_mem_nil

/-- The class of a well-formed type as a value. -/
theorem WellFormed.classValue (h : ty.WellFormed) : (classValue ty).WellFormed :=
  .nominal "type" fun _ hmem => List.mem_singleton.1 hmem ▸ h

/-- What a callable returns is a part of it. -/
theorem WellFormed.result? (h : ty.WellFormed) : ∀ result ∈ ty.result?, result.WellFormed := by
  intro result hresult
  cases h with
  | callable _ h | function _ _ h => exact Option.some.inj hresult ▸ h
  | _ => cases hresult

/-- A type, or else another one. -/
theorem wellFormed_getD {ty? : Option Ty} (h : ∀ ty ∈ ty?, ty.WellFormed) (hty : ty.WellFormed) :
    (ty?.getD ty).WellFormed := by
  cases ty? with
  | none => exact hty
  | some t => exact h t rfl

theorem wellFormed_orElse {ty? other? : Option Ty} (h : ∀ ty ∈ ty?, ty.WellFormed)
    (hother : ∀ ty ∈ other?, ty.WellFormed) : ∀ ty ∈ ty? <|> other?, ty.WellFormed := by
  cases ty? with
  | none => exact hother
  | some t => exact h

/-! ## Unions

A union is built by adding members one by one, which keeps them flat and well formed.  It collapses
to its member if there is only one, so that the members of what is left are two or more. -/

mutual

/-- What is added are members of the type, so nothing that was not well formed comes in. -/
theorem wellFormed_insertMember {members : List Ty} (hmembers : ∀ ty ∈ members, ty.WellFormed)
    (ty : Ty) (hty : ty.WellFormed) : ∀ t ∈ insertMember members ty, t.WellFormed := by
  have hadd : ∀ t ∈ addMember members ty, t.WellFormed := fun t ht =>
    (mem_addMember ht).elim (hmembers t) fun heq => heq ▸ hty
  cases ty with
  | union nested =>
    cases hty with
    | union _ _ hnested => exact wellFormed_insertMembers hmembers nested hnested
  | _ => exact hadd

theorem wellFormed_insertMembers {members : List Ty} (hmembers : ∀ ty ∈ members, ty.WellFormed) :
    ∀ tys : List Ty, (∀ ty ∈ tys, ty.WellFormed) → ∀ t ∈ insertMembers members tys, t.WellFormed
  | [], _ => hmembers
  | ty :: tys, htys => wellFormed_insertMembers
    (wellFormed_insertMember hmembers ty (htys ty List.mem_cons_self)) tys
    fun t ht => htys t (List.mem_cons_of_mem _ ht)

end

/-- Flat and well-formed members make up a well-formed type: a union of two of them or more, or the
only one. -/
theorem wellFormed_ofMembers (hflat : Flat members) (h : ∀ ty ∈ members, ty.WellFormed) :
    ∀ ty ∈ ofMembers members, ty.WellFormed := by
  intro ty hty
  match members, hty with
  | [_], rfl => exact h _ List.mem_cons_self
  | _ :: _ :: _, rfl => exact .union (Nat.le_add_left 2 _) hflat h

/-- **The union of well-formed types is well formed.** -/
theorem wellFormed_unionOf (h : ∀ ty ∈ tys, ty.WellFormed) :
    ∀ ty ∈ unionOf tys, ty.WellFormed :=
  wellFormed_ofMembers (.unionMembers tys)
    (wellFormed_insertMembers (fun _ hmem => absurd hmem List.not_mem_nil) tys h)

/-- **Joining well-formed types** gives a well-formed type, if any. -/
theorem wellFormed_union? {a? b? : Option Ty} (ha : ∀ ty ∈ a?, ty.WellFormed)
    (hb : ∀ ty ∈ b?, ty.WellFormed) : ∀ ty ∈ union? a? b?, ty.WellFormed := by
  match a?, b? with
  | none, _ => exact hb
  | some _, none => exact ha
  | some a, some b =>
    refine wellFormed_unionOf fun ty hty => ?_
    rcases List.mem_cons.1 hty with rfl | hty
    · exact ha _ rfl
    · exact List.mem_singleton.1 hty ▸ hb _ rfl

end Ty
end TypeReveal
