import TypeReveal.Proofs.Ty.Operands
import TypeReveal.Proofs.Ty.WellFormed

/-!
# Types as lists of members

A type is **proper** if it is no union, or one with two flat members or more.  A proper type is the
union of its members, and no type is the union of none.  So the union of two proper types, either of
which may be missing, is that of the members of both (`Ty.union?_eq_unionOf`).  Well-formed types
are proper at every depth.

A type is **within** another if each of its members has an equal among those of the other.  Joining
types keeps this (`Ty.Within.union?`).

A missing type stands for the union of no types: inference yields no type where nothing is known,
and joins what it has.  As lists of members the two are alike, a missing type being the empty list
(`memberList`), and laws about joining need no cases for it.
-/

set_option autoImplicit false
namespace TypeReveal
namespace Ty

variable {ty : Ty} {tys more : List Ty} {a? b? a'? b'? : Option Ty}

/-! ## Members

Only proper types are determined by their members.  A union with a single member has the members
that the member has, and so has a union with a union in it the members that it was given. -/

theorem members_of_not_isUnion (h : ty.isUnion = false) : ty.members = [ty] := by
  cases ty with
  | union => cases h
  | _ => rfl

/-- **A proper type**: if it is a union, its members are flat, as those that are added one by one
are, and there are two of them or more. -/
structure Proper (ty : Ty) : Prop where
  flat : Flat ty.members
  two : ty.isUnion = true → 2 ≤ ty.members.length

instance (ty : Ty) : Decidable ty.Proper :=
  decidable_of_iff (Flat ty.members ∧ (ty.isUnion = true → 2 ≤ ty.members.length))
    ⟨fun ⟨flat, two⟩ => ⟨flat, two⟩, fun h => ⟨h.flat, h.two⟩⟩

theorem WellFormed.proper (h : ty.WellFormed) : ty.Proper := by
  cases h with
  | union htwo hflat => exact ⟨hflat, fun _ => htwo⟩
  | _ => exact ⟨flat_singleton rfl, nofun⟩

theorem proper_of_wellFormed (h : ∀ ty ∈ a?, ty.WellFormed) : ∀ ty ∈ a?, ty.Proper :=
  fun ty hty => (h ty hty).proper

theorem Proper.members_ne_nil (h : ty.Proper) : ty.members ≠ [] := by
  cases hunion : ty.isUnion with
  | true => exact List.ne_nil_of_length_pos (Nat.lt_of_lt_of_le Nat.zero_lt_two (h.two hunion))
  | false => exact members_of_not_isUnion hunion ▸ List.cons_ne_nil ty []

/-- **A proper type is the union of its members.** -/
theorem Proper.unionOf_members (h : ty.Proper) : unionOf ty.members = some ty := by
  rw [unionOf_of_flat h.flat]
  cases ty with
  | union members =>
    match members, h.two rfl with
    | _ :: _ :: _, _ => rfl
  | _ => rfl

/-- The members of a union of types. -/
theorem members_of_unionOf (h : unionOf tys = some ty) : ty.members = unionMembers tys := by
  have hflat := Flat.unionMembers tys
  rw [unionOf] at h
  generalize unionMembers tys = members at h hflat ⊢
  cases members with
  | nil => cases h
  | cons first rest =>
    cases rest with
    | nil =>
      obtain rfl := Option.some.inj h
      exact members_of_not_isUnion (hflat.notUnion _ List.mem_cons_self)
    | cons =>
      cases h
      rfl

/-- What is found among the members after adding was there before or has been added. -/
theorem mem_insertMembers {members : List Ty} (h : ∀ ty ∈ tys, ty.isUnion = false)
    (hty : ty ∈ insertMembers members tys) : ty ∈ members ∨ ty ∈ tys := by
  induction tys generalizing members with
  | nil => exact .inl hty
  | cons first tys ih =>
    obtain ⟨hfirst, htys⟩ := List.forall_mem_cons.1 h
    rw [insertMembers, insertMember_of_not_isUnion hfirst] at hty
    rcases ih htys hty with hty | hty
    · refine (mem_addMember hty).imp_right ?_
      rintro rfl
      exact List.mem_cons_self
    · exact .inr (List.mem_cons_of_mem _ hty)

/-! ## Types that may be missing

Joining is adding members, and for proper types the members say what the type is, so joining is a
function of lists. -/

/-- The members of a type that may be missing. -/
def memberList : Option Ty → List Ty
  | none => []
  | some ty => ty.members

theorem flat_memberList (h : ∀ ty ∈ a?, ty.Proper) : Flat (memberList a?) := by
  cases a? with
  | none => exact .nil
  | some ty => exact (h ty rfl).flat

theorem unionOf_memberList (h : ∀ ty ∈ a?, ty.Proper) : unionOf (memberList a?) = a? := by
  cases a? with
  | none => rfl
  | some ty => exact (h ty rfl).unionOf_members

/-- **The union of two types** is the union of the members of both. -/
theorem union?_eq_unionOf (ha : ∀ ty ∈ a?, ty.Proper) (hb : ∀ ty ∈ b?, ty.Proper) :
    union? a? b? = unionOf (memberList a? ++ memberList b?) := by
  rw [← union?_unionOf, unionOf_memberList ha, unionOf_memberList hb]

theorem memberList_unionOf (tys : List Ty) : memberList (unionOf tys) = unionMembers tys := by
  cases h : unionOf tys with
  | none => exact (eq_nil_of_ofMembers h).symm
  | some ty => exact members_of_unionOf h

theorem memberList_eq_nil (h : ∀ ty ∈ a?, ty.Proper) (hnil : memberList a? = []) :
    a? = none := by
  rw [← unionOf_memberList h, hnil]
  rfl

/-! ## Types within others

The relation is used to compare an inferred type with another one of which less is known.  It
compares members by `==`, and does not ask for an order. -/

/-- **A type within another**: each member has an equal there. -/
def Within (a? b? : Option Ty) : Prop :=
  ∀ x ∈ memberList a?, ∃ y ∈ memberList b?, (x == y) = true

theorem within_refl (a? : Option Ty) : Within a? a? := fun x hx => ⟨x, hx, x.beq_self⟩

theorem within_none (b? : Option Ty) : Within none b? := fun _ hx => absurd hx List.not_mem_nil

section

variable (ha : ∀ ty ∈ a?, ty.Proper) (hb : ∀ ty ∈ b?, ty.Proper)
include ha hb

theorem notUnion_of_mem_append : ∀ ty ∈ memberList a? ++ memberList b?, ty.isUnion = false := by
  intro ty hty
  rcases List.mem_append.1 hty with hty | hty
  · exact (flat_memberList ha).notUnion ty hty
  · exact (flat_memberList hb).notUnion ty hty

/-- Each member of either side has an equal among those of the union. -/
theorem exists_mem_memberList_union? (h : ty ∈ memberList a? ++ memberList b?) :
    ∃ y ∈ memberList (union? a? b?), (y == ty) = true := by
  rw [union?_eq_unionOf ha hb, memberList_unionOf]
  exact exists_mem_insertMembers (notUnion_of_mem_append ha hb) h []

/-- A union has no other members than its sides. -/
theorem mem_of_mem_memberList_union? (h : ty ∈ memberList (union? a? b?)) :
    ty ∈ memberList a? ++ memberList b? := by
  rw [union?_eq_unionOf ha hb, memberList_unionOf] at h
  exact (mem_insertMembers (notUnion_of_mem_append ha hb) h).resolve_left List.not_mem_nil

/-- **A union is missing** only if both sides are. -/
theorem eq_none_of_union? (h : union? a? b? = none) : a? = none ∧ b? = none := by
  have hnil : memberList a? ++ memberList b? = [] := by
    refine List.eq_nil_iff_forall_not_mem.2 fun ty hty => ?_
    obtain ⟨y, hy, -⟩ := exists_mem_memberList_union? ha hb hty
    rw [h] at hy
    cases hy
  obtain ⟨hnila, hnilb⟩ := List.append_eq_nil_iff.1 hnil
  exact ⟨memberList_eq_nil ha hnila, memberList_eq_nil hb hnilb⟩

/-- **Unions of types within others** are within the unions of these.  The types on the greater side
have to be proper, since otherwise the members that are joined there would not be those that are
listed. -/
theorem Within.union? (ha' : ∀ ty ∈ a'?, ty.Proper) (hb' : ∀ ty ∈ b'?, ty.Proper)
    (hwithin : Within a? a'?) (hwithin' : Within b? b'?) :
    Within (union? a? b?) (union? a'? b'?) := by
  intro x hx
  obtain ⟨y, hy, hxy⟩ : ∃ y ∈ memberList a'? ++ memberList b'?, (x == y) = true := by
    rcases List.mem_append.1 (mem_of_mem_memberList_union? ha hb hx) with hx | hx
    · obtain ⟨y, hy, heq⟩ := hwithin x hx
      exact ⟨y, List.mem_append_left _ hy, heq⟩
    · obtain ⟨y, hy, heq⟩ := hwithin' x hx
      exact ⟨y, List.mem_append_right _ hy, heq⟩
  obtain ⟨z, hz, hzy⟩ := exists_mem_memberList_union? ha' hb' hy
  exact ⟨z, hz, beq_iff_key_eq.2 ((beq_iff_key_eq.1 hxy).trans (beq_iff_key_eq.1 hzy).symm)⟩

end

end Ty
end TypeReveal
