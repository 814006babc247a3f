import Mathlib.Data.Finset.Card
import Mathlib.Data.List.Permutation
import TypeReveal.Proofs.Ty.Members
import TypeReveal.Proofs.Ty.Order

/-!
# The alternatives of types

The **alternatives** of a type are what unions leave of it: those of a union are the alternatives of
its members, in order, and any other type is its only one.

* `Ty.unionMembers_eq_eraseDups` — the members of a union are the alternatives of the types that it
  was built from, of equal ones the first.
* `Ty.unionOf_beq_of_perm` — in which order the types come makes no difference to `==`.
* `Joining.union?_eq` — how proper types are put in brackets, to be joined two at a time, makes no
  difference at all: the members and their order are those of the union of all of them.

`Ty.union_lawful` puts these together.

Adding a type to a union adds its members, and these are no unions if the union was built by adding.
A union that was not built so, with unions among its members, is handled as well: the alternatives
go down to any depth, and so does adding.

Equality of types is `==`, which compares codes, and is coarser than being the same term.  Therefore
the order of members is seen when a type is shown and is not seen by `==`, and the laws say in which
sense each of them holds.
-/

set_option autoImplicit false
namespace TypeReveal
namespace Ty

/-! ## Alternatives

Types nest lists of types, so the two functions are defined together and the statements about lists
are proved along with those about types. -/

mutual

/-- The types that are left when unions are replaced by their members, at every depth. -/
def alternatives : Ty → List Ty
  | union members => alternativesAll members
  | ty => [ty]

/-- The alternatives of a list of types, in order. -/
def alternativesAll : List Ty → List Ty
  | [] => []
  | ty :: tys => ty.alternatives ++ alternativesAll tys

end

variable {members tys more : List Ty} {ty : Ty} {a? b? : Option Ty}

theorem alternativesAll_eq_flatMap (tys : List Ty) :
    alternativesAll tys = tys.flatMap alternatives := by
  induction tys with
  | nil => rfl
  | cons ty tys ih => rw [alternativesAll, ih, List.flatMap_cons]

mutual

/-- No alternative is a union. -/
theorem isUnion_of_mem_alternatives (ty : Ty) :
    ∀ part ∈ ty.alternatives, part.isUnion = false := by
  cases ty with
  | union members => exact isUnion_of_mem_alternativesAll members
  | _ => exact List.forall_mem_singleton.2 rfl

theorem isUnion_of_mem_alternativesAll : ∀ tys : List Ty,
    ∀ part ∈ alternativesAll tys, part.isUnion = false
  | [] => List.forall_mem_nil _
  | ty :: tys => List.forall_mem_append.2
    ⟨isUnion_of_mem_alternatives ty, isUnion_of_mem_alternativesAll tys⟩

end

mutual

/-- Adding a type is adding its alternatives. -/
theorem insertMember_eq_alternatives (members : List Ty) (ty : Ty) :
    insertMember members ty = insertMembers members ty.alternatives := by
  cases ty with
  | union nested => exact insertMembers_eq_alternatives members nested
  | _ => rfl

theorem insertMembers_eq_alternatives (members : List Ty) : ∀ tys : List Ty,
    insertMembers members tys = insertMembers members (alternativesAll tys)
  | [] => rfl
  | ty :: tys => by
    rw [insertMembers, insertMember_eq_alternatives members ty,
      insertMembers_eq_alternatives _ tys, alternativesAll, insertMembers_append]

end

/-! ## The first of equal types

Without unions, adding a list of types is taking the first of equal ones, `List.eraseDups`.  With
the alternatives in the place of the types this holds in general. -/

theorem beq_comm (ty other : Ty) : (ty == other) = (other == ty) := by
  rw [beq_def, beq_def, BEq.comm]

/-- Types that are no unions are added as far as no equal one is there, the first of equal ones. -/
theorem insertMembers_of_not_isUnion (h : ∀ ty ∈ tys, ty.isUnion = false) :
    insertMembers members tys =
      members ++ (tys.filter fun ty => !members.any (· == ty)).eraseDups := by
  induction tys generalizing members with
  | nil => simp [insertMembers]
  | cons ty tys ih =>
    obtain ⟨hty, htys⟩ := List.forall_mem_cons.1 h
    rw [insertMembers, insertMember_of_not_isUnion hty, addMember]
    cases hold : members.any (· == ty) with
    | true =>
      rw [if_pos rfl, ih htys, List.filter_cons_of_neg (by rw [hold]; exact Bool.false_ne_true)]
    | false =>
      have hrest : (fun other => !(members ++ [ty]).any (· == other)) =
          fun other => !members.any (· == other) && !other == ty := by
        funext other
        rw [List.any_append, List.any_cons, List.any_nil, Bool.or_false, Bool.not_or,
          beq_comm ty]
      rw [if_neg Bool.false_ne_true, ih htys, hrest, List.filter_cons_of_pos (by rw [hold]; rfl),
        List.eraseDups_cons, List.filter_filter, List.append_assoc, List.singleton_append]
      simp only [Bool.and_comm]

/-- **The members of a union** are the alternatives of the types that it is built from, of equal
ones the first. -/
theorem unionMembers_eq_eraseDups (tys : List Ty) :
    unionMembers tys = (alternativesAll tys).eraseDups := by
  rw [unionMembers, insertMembers_eq_alternatives,
    insertMembers_of_not_isUnion (isUnion_of_mem_alternativesAll tys)]
  simp

/-- The members of a union have the codes of the alternatives. -/
theorem mem_map_key_unionMembers {k : List Int} :
    k ∈ (unionMembers tys).map key ↔ k ∈ (alternativesAll tys).map key := by
  have hunions := isUnion_of_mem_alternativesAll tys
  have hmembers : unionMembers tys = insertMembers [] (alternativesAll tys) :=
    insertMembers_eq_alternatives [] tys
  rw [hmembers, List.mem_map, List.mem_map]
  constructor
  · rintro ⟨ty, hty, rfl⟩
    exact ⟨ty, (mem_insertMembers hunions hty).resolve_left List.not_mem_nil, rfl⟩
  · rintro ⟨ty, hty, rfl⟩
    obtain ⟨other, hother, heq⟩ := exists_mem_insertMembers hunions hty []
    exact ⟨other, hother, beq_iff_key_eq.1 heq⟩

/-- A union has as many members as there are different alternatives. -/
theorem length_unionMembers (tys : List Ty) :
    (unionMembers tys).length = ((alternativesAll tys).map key).toFinset.card := by
  have hsame : ((alternativesAll tys).map key).toFinset =
      ((unionMembers tys).map key).toFinset := by
    ext k
    rw [List.mem_toFinset, List.mem_toFinset, mem_map_key_unionMembers]
  rw [hsame, List.toFinset_card_of_nodup (Flat.unionMembers tys).nodup_map_key, List.length_map]

/-! ## The order of types

Members that are permuted have codes that are permuted, and the code of a union sorts them. -/

/-- Types with equal members are equal, in whatever order these come. -/
theorem ofMembers_beq_of_perm (h : (members.map key).Perm (more.map key)) :
    (ofMembers members == ofMembers more) = true := by
  have hlength : members.length = more.length := by simpa using h.length_eq
  match members, more with
  | [], [] => rfl
  | [a], [b] => exact beq_iff_key_eq.2 (List.singleton_perm_singleton.1 h)
  | a :: a' :: as, b :: b' :: bs =>
    refine beq_iff_key_eq.2 ?_
    rw [key, key, keys_eq_map, keys_eq_map, sortKeys_eq_of_perm h]
  | [], _ :: _ | _ :: _, [] | [_], _ :: _ :: _ | _ :: _ :: _, [_] => simp at hlength

/-- **The order of types** makes no difference to their union, as far as `==` goes. -/
theorem unionOf_beq_of_perm (h : tys.Perm more) : (unionOf tys == unionOf more) = true := by
  refine ofMembers_beq_of_perm ?_
  have halternatives : (alternativesAll tys).Perm (alternativesAll more) := by
    rw [alternativesAll_eq_flatMap, alternativesAll_eq_flatMap]
    exact h.flatMap_right _
  refine (List.perm_ext_iff_of_nodup (Flat.unionMembers tys).nodup_map_key
    (Flat.unionMembers more).nodup_map_key).2 fun k => ?_
  rw [mem_map_key_unionMembers, mem_map_key_unionMembers, (halternatives.map key).mem_iff]

/-- Which of two types comes first makes no difference, as far as `==` goes. -/
theorem union?_beq_comm (a? b? : Option Ty) : (union? a? b? == union? b? a?) = true := by
  cases a? with
  | none => cases b? with
    | none => rfl
    | some b => exact beq_self b
  | some a => cases b? with
    | none => exact beq_self a
    | some b => exact unionOf_beq_of_perm (.swap ..)

/-! ## Members of joined types

Joining is adding to the members of the first type those of the second.  The members of a proper
type are flat, so that the type is rebuilt from them. -/

theorem insertMember_eq_members (members : List Ty) (ty : Ty) :
    insertMember members ty = insertMembers members ty.members := by
  cases ty <;> rfl

theorem unionMembers_singleton (h : Flat ty.members) : unionMembers [ty] = ty.members :=
  (insertMember_eq_members [] ty).trans (unionMembers_of_flat h)

/-- Joining two types adds the members of the second to those of the first. -/
theorem memberList_union? (ha : Flat (memberList a?)) (hb : Flat (memberList b?)) :
    memberList (union? a? b?) = insertMembers (memberList a?) (memberList b?) := by
  cases a? with
  | none => exact (unionMembers_of_flat hb).symm
  | some a =>
    cases b? with
    | none => rfl
    | some b =>
      rw [union?, memberList_unionOf, unionMembers, insertMembers, insertMembers, insertMembers,
        insertMember_eq_members, insertMember_eq_members]
      exact congrArg (insertMembers · b.members) (unionMembers_of_flat ha)

end Ty

/-! ## Brackets

A joining is a tree with types at its leaves.  What comes out of it depends on the leaves alone. -/

/-- Types, of which some may be missing, in brackets that say which two are joined. -/
inductive Joining where
  | single (ty? : Option Ty)
  | pair (left right : Joining)

namespace Joining

/-- The types that are joined, in order. -/
def types : Joining → List Ty
  | single ty? => ty?.toList
  | pair left right => left.types ++ right.types

/-- The union that comes out. -/
def union? : Joining → Option Ty
  | single ty? => ty?
  | pair left right => Ty.union? left.union? right.union?

open Ty

/-- **The members that come out** are those of the union of all types, in the same order. -/
theorem memberList_union? {joining : Joining} (h : ∀ ty ∈ joining.types, Flat ty.members) :
    memberList joining.union? = unionMembers joining.types := by
  induction joining with
  | single ty? =>
    cases ty? with
    | none => rfl
    | some ty => exact (unionMembers_singleton (h ty List.mem_cons_self)).symm
  | pair left right ihleft ihright =>
    obtain ⟨hleft, hright⟩ := List.forall_mem_append.1 h
    have hflat {joining : Joining} (h : memberList joining.union? = unionMembers joining.types) :
        Flat (memberList joining.union?) := h ▸ .unionMembers joining.types
    rw [union?, Ty.memberList_union? (hflat (ihleft hleft)) (hflat (ihright hright)),
      ihleft hleft, ihright hright, insertMembers_unionMembers, types, unionMembers, unionMembers,
      insertMembers_append]

/-- **What comes out** of proper types is the union of all of them, whatever the brackets. -/
theorem union?_eq {joining : Joining} (h : ∀ ty ∈ joining.types, ty.Proper) :
    joining.union? = unionOf joining.types := by
  induction joining with
  | single ty? =>
    cases ty? with
    | none => rfl
    | some ty =>
      have hty := h ty List.mem_cons_self
      rw [union?, types, Option.toList_some, unionOf, unionMembers_singleton hty.flat,
        ← unionOf_of_flat hty.flat, hty.unionOf_members]
  | pair left right ihleft ihright =>
    obtain ⟨hleft, hright⟩ := List.forall_mem_append.1 h
    rw [union?, ihleft hleft, ihright hright, union?_unionOf, types]

end Joining

/-! ## Laws

What has no alternatives is the union without members, at any depth, and this is what the laws have
to leave out: such a type has no union, although it is a type. -/

namespace Ty

variable {tys : List Ty} {a? b? c? : Option Ty}

/-- There is no union of types without alternatives, and only then. -/
theorem unionOf_eq_none_iff : unionOf tys = none ↔ unionMembers tys = [] := by
  refine ⟨eq_nil_of_ofMembers, fun h => ?_⟩
  rw [unionOf, h]
  rfl

/-- Proper types have a union, if there are any. -/
theorem unionOf_eq_none_iff_of_proper (h : ∀ ty ∈ tys, ty.Proper) :
    unionOf tys = none ↔ tys = [] := by
  rw [unionOf_eq_none_iff]
  refine ⟨fun hnone => ?_, fun hnil => congrArg unionMembers hnil⟩
  cases tys with
  | nil => rfl
  | cons ty tys =>
    have hty := h ty List.mem_cons_self
    have hmembers : ty.members ⊆ unionMembers (ty :: tys) :=
      unionMembers_singleton hty.flat ▸ subset_insertMembers (insertMember [] ty) tys
    rw [hnone, List.subset_nil] at hmembers
    exact absurd hmembers hty.members_ne_nil

theorem unionOf_of_two (h : 2 ≤ (unionMembers tys).length) :
    unionOf tys = some (union (unionMembers tys)) := by
  rw [unionOf]
  cases hmembers : unionMembers tys with
  | nil => simp [hmembers] at h
  | cons first rest =>
    cases rest with
    | nil => simp [hmembers] at h
    | cons => rfl

/-- **Joining proper types is associative**, members and their order included. -/
theorem union?_assoc (ha : ∀ ty ∈ a?, ty.Proper) (hb : ∀ ty ∈ b?, ty.Proper)
    (hc : ∀ ty ∈ c?, ty.Proper) : union? (union? a? b?) c? = union? a? (union? b? c?) := by
  have hmem {d? : Option Ty} (h : ∀ ty ∈ d?, ty.Proper) : ∀ ty ∈ d?.toList, ty.Proper :=
    fun ty hty => h ty (Option.mem_toList.1 hty)
  have hleft : (Joining.pair (.pair (.single a?) (.single b?)) (.single c?)).union? = _ :=
    Joining.union?_eq
      (List.forall_mem_append.2 ⟨List.forall_mem_append.2 ⟨hmem ha, hmem hb⟩, hmem hc⟩)
  have hright : (Joining.pair (.single a?) (.pair (.single b?) (.single c?))).union? = _ :=
    Joining.union?_eq
      (List.forall_mem_append.2 ⟨hmem ha, List.forall_mem_append.2 ⟨hmem hb, hmem hc⟩⟩)
  exact hleft.trans ((congrArg unionOf (List.append_assoc ..)).trans hright.symm)

/-- **A proper type joined with itself** is itself. -/
theorem union?_self (h : ∀ ty ∈ a?, ty.Proper) : union? a? a? = a? := by
  have hflat := flat_memberList h
  have hnone : (memberList a?).filter (fun ty => !(memberList a?).any (· == ty)) = [] := by
    refine List.filter_eq_nil_iff.2 fun ty hty => ?_
    have hold : (memberList a?).any (· == ty) = true :=
      List.any_eq_true.2 ⟨ty, hty, ty.beq_self⟩
    rw [hold]
    exact Bool.false_ne_true
  have hmembers : unionMembers (memberList a? ++ memberList a?) = memberList a? := by
    rw [unionMembers, insertMembers_append, ← unionMembers, unionMembers_of_flat hflat,
      insertMembers_of_not_isUnion hflat.notUnion, hnone, List.eraseDups_nil, List.append_nil]
  rw [union?_eq_unionOf h h, unionOf, hmembers, ← unionOf_of_flat hflat, unionOf_memberList h]

/-- **Unions are built as sets that remember their order.** The union of a list of types has as its
members the alternatives of the types, of equal ones the first: there is none without members, and
one member stands for itself.  Adding types one by one gives these members.  Joining two proper
types is associative, up to `==` commutative, and idempotent, and a missing type is neutral.
However a list of types is put in brackets, the members are those of its union, in the same order;
for proper types it is the same union. -/
theorem union_lawful :
    (∀ tys : List Ty, let flat := (alternativesAll tys).eraseDups
      ((unionOf tys = none ↔ flat = []) ∧ (∀ ty, flat = [ty] → unionOf tys = some ty) ∧
        (2 ≤ flat.length → unionOf tys = some (union flat))) ∧
      let members := tys.foldl insertMember []
      members = flat ∧ members.length = ((alternativesAll tys).map key).toFinset.card ∧
        ∀ ty ∈ members, ty.isUnion = false) ∧
    (∀ a? b? c? : Option Ty,
      (∀ ty ∈ a?, ty.Proper) → (∀ ty ∈ b?, ty.Proper) → (∀ ty ∈ c?, ty.Proper) →
      union? (union? a? b?) c? = union? a? (union? b? c?) ∧
        (union? a? b? == union? b? a?) = true ∧ union? a? a? = a? ∧
        union? none a? = a? ∧ union? a? none = a?) ∧
    (∀ joining : Joining, (∀ ty ∈ joining.types, Flat ty.members) →
      memberList joining.union? = memberList (unionOf joining.types)) ∧
    ∀ joining : Joining, (∀ ty ∈ joining.types, ty.Proper) →
      joining.union? = unionOf joining.types := by
  refine ⟨fun tys => ?_, fun a? b? c? ha hb hc => ?_, fun joining h => ?_,
    fun joining => Joining.union?_eq⟩
  · rw [← unionMembers_eq_eraseDups, ← insertMembers_eq_foldl, ← unionMembers]
    refine ⟨⟨unionOf_eq_none_iff, fun ty hty => ?_, unionOf_of_two⟩, rfl, length_unionMembers tys,
      (Flat.unionMembers tys).notUnion⟩
    rw [unionOf, hty, ofMembers]
  · refine ⟨union?_assoc ha hb hc, union?_beq_comm a? b?, union?_self ha, rfl, ?_⟩
    cases a? <;> rfl
  · rw [Joining.memberList_union? h, memberList_unionOf]

/-- Two tuples that are equal but shown differently: the first one stays. -/
theorem union_lawful_tuple :
    let first := tuple [union [literal (.int 1), unknown]]
    let second := tuple [union [unknown, literal (.int 1)]]
    let a? := some (union [first, unknown])
    let b? := some second
    let c? := some (union [unknown, tuple []])
    let all := some (union [first, unknown, tuple []])
    (first == second) = true ∧ (∀ ty ∈ a?, ty.Proper) ∧ (∀ ty ∈ b?, ty.Proper) ∧
      (∀ ty ∈ c?, ty.Proper) ∧ union? (union? a? b?) c? = all ∧ union? a? (union? b? c?) = all ∧
      (Joining.pair (.single a?) (.pair (.single b?) (.single c?))).union? = all := by
  intro first second a? b? c? all
  have hfirst : ∀ ty ∈ a?, ty.Proper := fun _ h => Option.some.inj h ▸ by decide
  have hsecond : ∀ ty ∈ b?, ty.Proper := fun _ h => Option.some.inj h ▸ by decide
  have hthird : ∀ ty ∈ c?, ty.Proper := fun _ h => Option.some.inj h ▸ by decide
  have hequal : (first == second) = true := by
    subst second first
    cbv
  have hall : union? (union? a? b?) c? = all := by
    subst all c? b? a? second first
    cbv
  have hlist : unionOf [union [first, unknown], second, union [unknown, tuple []]] =
      all := by
    subst all c? b? a? second first
    cbv
  refine ⟨hequal, hfirst, hsecond, hthird, hall, ?_, ?_⟩
  · rw [← (union_lawful.2.1 a? b? c? hfirst hsecond hthird).1, hall]
  · refine (union_lawful.2.2.2 _ fun ty hty => ?_).trans hlist
    simp only [Joining.types] at hty
    rcases List.mem_cons.1 hty with rfl | hty
    · exact hfirst _ rfl
    · rcases List.mem_cons.1 hty with rfl | hty
      · exact hsecond _ rfl
      · exact hthird ty (List.mem_singleton.1 hty ▸ rfl)

end Ty

end TypeReveal
