import TypeReveal.Ty.Order

/-!
# Building unions

The members of a union are pairwise different and none of them is a union: adding a union adds its
members, and a type that equals a member is not added again.  Members keep the order in which they
were first added.

`Ty.unionOf` is the union of a list of types, if there is one: nothing for no members, the member
itself for one.  `Ty.union?` joins two types of which either may be missing.
-/

set_option autoImplicit false
namespace TypeReveal
namespace Ty

/-! ## Members -/

/-- The members with one more type, unless an equal one is there already. -/
def addMember (members : List Ty) (ty : Ty) : List Ty :=
  if members.any (· == ty) then members else members ++ [ty]

mutual

/-- The members of a union with one more type, the members of that type if it is a union. -/
def insertMember (members : List Ty) : Ty → List Ty
  | .union nested => insertMembers members nested
  | ty => addMember members ty

/-- The members of a union with more types. -/
def insertMembers (members : List Ty) : List Ty → List Ty
  | [] => members
  | ty :: tys => insertMembers (insertMember members ty) tys

end

/-- The members of the union of a list of types. -/
def unionMembers (tys : List Ty) : List Ty := insertMembers [] tys

theorem insertMembers_eq_foldl (members tys : List Ty) :
    insertMembers members tys = tys.foldl insertMember members := by
  induction tys generalizing members with
  | nil => rfl
  | cons ty tys ih => simp [insertMembers, ih]

/-! ## Unions -/

/-- The type with these members: nothing for none, the member itself for one. -/
def ofMembers : List Ty → Option Ty
  | [] => none
  | [ty] => some ty
  | members => some (.union members)

/-- The union of a list of types. -/
def unionOf (tys : List Ty) : Option Ty := ofMembers (unionMembers tys)

/-- The union of two types; a missing side yields the other side. -/
def union? : Option Ty → Option Ty → Option Ty
  | none, other => other
  | other, none => other
  | some a, some b => unionOf [a, b]

end Ty
end TypeReveal
