import TypeReveal.Ty.Union

/-!
# The members of unions

Adding types one by one leaves members that are **flat**: pairwise different, and none of them a
union (`Flat.insertMembers`).  Flat members are all that is left of a union when it is added to
another:

* `Ty.unionMembers_of_flat` — flat members stay as they are.
* `Ty.insertMembers_unionMembers` — adding the members of a union is adding the types it was built
  from.
* `Ty.union?_unionOf` — the union of two unions is the union of all their types, in order.

Types are added to a list of members in order, and each is compared by `==` with the members that
are there.  This is a set that remembers the order in which its elements came.  A union that is
added is taken apart, so that no member ever is a union, at the first level or below.

Two lists of flat members with the same codes, in any order, make up equal types.  So most of the
facts are about codes, where equality is that of lists of integers and the library speaks of
permutations and duplicates.
-/

set_option autoImplicit false
namespace TypeReveal
namespace Ty

/-! ## Equality

The first number of a code is that of the form, so that types with one code are both unions or
neither is. -/

theorem beq_iff_key_eq {a b : Ty} : (a == b) = true ↔ a.key = b.key := by
  rw [beq_def, beq_iff_eq]

theorem beq_self (a : Ty) : (a == a) = true := beq_iff_key_eq.2 rfl

/-- Whether a type is a union. -/
def isUnion : Ty → Bool
  | union _ => true
  | _ => false

/-- Pairwise different types of which none is a union. -/
structure Flat (members : List Ty) : Prop where
  distinct : members.Pairwise fun a b => (a == b) = false
  notUnion : ∀ ty ∈ members, ty.isUnion = false

instance (members : List Ty) : Decidable (Flat members) :=
  decidable_of_iff
    ((members.Pairwise fun a b => (a == b) = false) ∧ ∀ ty ∈ members, ty.isUnion = false)
    ⟨fun ⟨distinct, notUnion⟩ => ⟨distinct, notUnion⟩, fun h => ⟨h.distinct, h.notUnion⟩⟩

variable {members tys : List Ty} {ty other : Ty}

theorem flat_singleton (h : ty.isUnion = false) : Flat [ty] :=
  ⟨List.pairwise_singleton .., fun _ hmem => List.mem_singleton.1 hmem ▸ h⟩

theorem isUnion_iff : ty.isUnion = true ↔ ty.key.head? = some 2 := by
  cases ty <;> simp [isUnion, key]

/-- Equal types are both unions or neither is. -/
theorem isUnion_eq_of_key_eq (h : ty.key = other.key) : ty.isUnion = other.isUnion := by
  rw [Bool.eq_iff_iff, isUnion_iff, isUnion_iff, h]

theorem insertMember_of_not_isUnion (h : ty.isUnion = false) :
    insertMember members ty = addMember members ty := by
  cases ty with
  | union => cases h
  | _ => rfl

theorem insertMembers_append (members tys more : List Ty) :
    insertMembers members (tys ++ more) = insertMembers (insertMembers members tys) more := by
  simp only [insertMembers_eq_foldl, List.foldl_append]

theorem mem_addMember (h : other ∈ addMember members ty) : other ∈ members ∨ other = ty := by
  rw [addMember] at h
  split at h
  · exact .inl h
  · exact (List.mem_append.1 h).imp_right List.mem_singleton.1

/-- Members stay when a type is added, and an equal of the type is among them afterwards. -/
theorem subset_addMember : members ⊆ addMember members ty := by
  intro x hx
  rw [addMember]
  split
  · exact hx
  · exact List.mem_append_left _ hx

theorem exists_mem_addMember : ∃ x ∈ addMember members ty, (x == ty) = true := by
  rw [addMember]
  split
  · next h => exact List.any_eq_true.1 h
  · exact ⟨ty, List.mem_append_right _ List.mem_cons_self, ty.beq_self⟩

theorem addMember_of_mem {x : Ty} (hx : x ∈ members) (h : (x == ty) = true) :
    addMember members ty = members :=
  if_pos (List.any_eq_true.2 ⟨x, hx, h⟩)

/-- Types are pairwise different if their codes are. -/
theorem distinct_iff_nodup :
    (members.Pairwise fun a b => (a == b) = false) ↔ (members.map key).Nodup := by
  rw [List.Nodup, List.pairwise_map]
  simp only [Bool.eq_false_iff, Ne, beq_iff_key_eq]

namespace Flat

theorem nil : Flat [] := ⟨.nil, fun _ h => absurd h List.not_mem_nil⟩

/-- Different types have different codes. -/
theorem nodup_map_key (h : Flat members) : (members.map key).Nodup :=
  distinct_iff_nodup.1 h.distinct

/-- Whether types are flat is a matter of their codes, in any order. -/
theorem of_perm (h : Flat members) (hperm : (tys.map key).Perm (members.map key)) : Flat tys := by
  refine ⟨distinct_iff_nodup.2 (hperm.nodup_iff.2 h.nodup_map_key), fun ty hty => ?_⟩
  obtain ⟨member, hmember, hkey⟩ :=
    List.mem_map.1 (hperm.mem_iff.1 (List.mem_map_of_mem hty))
  rw [← isUnion_eq_of_key_eq hkey, h.notUnion member hmember]

theorem addMember (hmembers : Flat members) (h : ty.isUnion = false) :
    Flat (addMember members ty) := by
  rw [Ty.addMember]
  split
  · exact hmembers
  · next hnew =>
    refine ⟨List.pairwise_append.2 ⟨hmembers.distinct, List.pairwise_singleton .., ?_⟩, ?_⟩
    · intro a ha b hb
      rw [List.mem_singleton.1 hb, Bool.eq_false_iff]
      exact fun heq => hnew (List.any_eq_true.2 ⟨a, ha, heq⟩)
    · intro a ha
      rcases List.mem_append.1 ha with ha | ha
      · exact hmembers.notUnion a ha
      · exact List.mem_singleton.1 ha ▸ h

mutual

/-- **Members stay flat** when a type is added. -/
theorem insertMember {members : List Ty} (hmembers : Flat members) (ty : Ty) :
    Flat (insertMember members ty) := by
  cases ty with
  | union nested => exact insertMembers hmembers nested
  | _ => exact hmembers.addMember rfl

theorem insertMembers {members : List Ty} (hmembers : Flat members) : ∀ tys : List Ty,
    Flat (insertMembers members tys)
  | [] => hmembers
  | ty :: tys => insertMembers (insertMember hmembers ty) tys

end

theorem unionMembers (tys : List Ty) : Flat (unionMembers tys) := nil.insertMembers tys

end Flat

/-! ## Adding unions

What has been added need not be added again, and a union whose members were found by adding adds as
the types did.  The statements carry a list of members to which is added, as adding is a fold from
the left. -/

mutual

theorem subset_insertMember (members : List Ty) (ty : Ty) : members ⊆ insertMember members ty := by
  cases ty with
  | union nested => exact subset_insertMembers members nested
  | _ => exact subset_addMember

theorem subset_insertMembers (members : List Ty) : ∀ tys : List Ty,
    members ⊆ insertMembers members tys
  | [] => List.Subset.refl _
  | ty :: tys => List.Subset.trans (subset_insertMember members ty)
    (subset_insertMembers (insertMember members ty) tys)

end

/-- Each of some flat members has an equal among the members that they are added to. -/
theorem exists_mem_insertMembers (h : ∀ ty ∈ tys, ty.isUnion = false) (hty : ty ∈ tys)
    (members : List Ty) : ∃ x ∈ insertMembers members tys, (x == ty) = true := by
  obtain ⟨before, after, rfl⟩ := List.append_of_mem hty
  rw [insertMembers_append, insertMembers, insertMember_of_not_isUnion (h ty hty)]
  obtain ⟨x, hx, heq⟩ := @exists_mem_addMember (insertMembers members before) ty
  exact ⟨x, subset_insertMembers _ after hx, heq⟩

theorem insertMembers_addMember (htys : Flat tys) (h : ty.isUnion = false) (members : List Ty) :
    insertMembers members (addMember tys ty) = addMember (insertMembers members tys) ty := by
  by_cases hold : tys.any (· == ty) = true
  · obtain ⟨other, hother, heq⟩ := List.any_eq_true.1 hold
    obtain ⟨x, hx, hxother⟩ := exists_mem_insertMembers htys.notUnion hother members
    have hxty : (x == ty) = true :=
      beq_iff_key_eq.2 ((beq_iff_key_eq.1 hxother).trans (beq_iff_key_eq.1 heq))
    rw [addMember_of_mem hother heq, addMember_of_mem hx hxty]
  · rw [addMember, if_neg hold, insertMembers_append, insertMembers, insertMembers,
      insertMember_of_not_isUnion h]

mutual

/-- What is added to flat members may be added afterwards. -/
theorem insertMembers_insertMember (members : List Ty) {tys : List Ty} (htys : Flat tys)
    (ty : Ty) : insertMembers members (insertMember tys ty) =
      insertMember (insertMembers members tys) ty := by
  cases ty with
  | union nested => exact insertMembers_insertMembers members htys nested
  | _ => exact insertMembers_addMember htys rfl members

theorem insertMembers_insertMembers (members : List Ty) {tys : List Ty} (htys : Flat tys) :
    ∀ more : List Ty, insertMembers members (insertMembers tys more) =
      insertMembers (insertMembers members tys) more
  | [] => rfl
  | ty :: more => by
    rw [insertMembers, insertMembers_insertMembers members (htys.insertMember ty) more,
      insertMembers_insertMember members htys ty, insertMembers]

end

/-- **Adding the members of a union** is adding the types it was built from.  The members have an
equal for every alternative of the types and are in the order in which these were met, so the fold
over the members leaves what the fold over the types does. -/
theorem insertMembers_unionMembers (members tys : List Ty) :
    insertMembers members (unionMembers tys) = insertMembers members tys :=
  insertMembers_insertMembers members .nil tys

/-! ## Unions of flat members

With flat members there is nothing to take apart and nothing to leave out.  Members make up a type
if there are any: a single one is the type itself, several are a union. -/

theorem insertMembers_of_flat (h : Flat (members ++ tys)) :
    insertMembers members tys = members ++ tys := by
  induction tys generalizing members with
  | nil => rw [insertMembers, List.append_nil]
  | cons ty tys ih =>
    have hnew : ¬ members.any (· == ty) = true := by
      intro hold
      obtain ⟨x, hx, heq⟩ := List.any_eq_true.1 hold
      have hne := (List.pairwise_append.1 h.distinct).2.2 x hx ty List.mem_cons_self
      rw [heq] at hne
      cases hne
    have hty := h.notUnion ty (List.mem_append_right _ List.mem_cons_self)
    rw [List.append_cons] at h ⊢
    rw [insertMembers, insertMember_of_not_isUnion hty, addMember, if_neg hnew, ih h]

/-- **Flat members stay as they are.** -/
theorem unionMembers_of_flat (h : Flat members) : unionMembers members = members :=
  @insertMembers_of_flat [] members h

theorem unionOf_of_flat (h : Flat members) : unionOf members = ofMembers members := by
  rw [unionOf, unionMembers_of_flat h]

theorem eq_nil_of_ofMembers (h : ofMembers members = none) : members = [] := by
  match members with
  | [] => rfl
  | [_] | _ :: _ :: _ => cases h

/-- The type that members make up adds just these members. -/
theorem insertMember_of_ofMembers (h : ofMembers tys = some ty) (members : List Ty) :
    insertMember members ty = insertMembers members tys := by
  match tys, h with
  | [_], rfl => rfl
  | _ :: _ :: _, rfl => rfl

/-- **The union of unions** is the union of all their types, in order.  Either of them may be
missing, when there were no types to build it from. -/
theorem union?_unionOf (tys more : List Ty) :
    union? (unionOf tys) (unionOf more) = unionOf (tys ++ more) := by
  have happend : unionMembers (tys ++ more) = insertMembers (unionMembers tys) more :=
    insertMembers_append [] tys more
  cases htys : unionOf tys with
  | none =>
    rw [unionOf, unionOf, happend, eq_nil_of_ofMembers htys]
    rfl
  | some a =>
    cases hmore : unionOf more with
    | none =>
      rw [union?, unionOf, happend, ← insertMembers_unionMembers, eq_nil_of_ofMembers hmore]
      · exact htys.symm
      · exact nofun
    | some b =>
      have hpair : unionMembers [a, b] = insertMember (insertMember [] a) b := rfl
      rw [union?, unionOf, unionOf, happend, hpair, insertMember_of_ofMembers htys,
        insertMember_of_ofMembers hmore, insertMembers_unionMembers]
      exact congrArg (ofMembers <| insertMembers · more) (unionMembers_of_flat (.unionMembers tys))

end Ty
end TypeReveal
