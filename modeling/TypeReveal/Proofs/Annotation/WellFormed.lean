import TypeReveal.Annotation.Overload
import TypeReveal.Inference.Narrowing
import TypeReveal.Proofs.Ty.WellFormed

/-!
# Annotations denote well-formed types

Whatever reads an annotation gives a well-formed type, if what is left to `deeper` does.  Both
readings are recursions on the annotation with a budget for the steps out of it, so each needs the
recursion (`wellFormed_readWith`, `wellFormed_extendWith`) and an induction on the budget.
-/

set_option autoImplicit false
namespace TypeReveal

open Ty

/-- The types that a reading of annotations gives are well formed. -/
def ReadsWellFormed (read : Site → Expr → Option Ty) : Prop :=
  ∀ site e, ∀ ty ∈ read site e, ty.WellFormed

/-! ## The standard meaning

The meaning of a subscript is what its head makes of its arguments, so the heads are gone through
once, for any arguments whose meanings are well formed.  Two types are then joined by bars, and
everything else is a name or is quoted. -/

theorem wellFormed_namedType? {name : String} : ∀ ty ∈ namedType? name, ty.WellFormed := by
  intro ty hty
  rw [namedType?] at hty
  split at hty
  · exact Option.some.inj hty ▸ .unknown
  · split at hty
    · exact Option.some.inj hty ▸ wellFormed_ofClass _
    · cases hty

theorem wellFormed_literalArgument? {e : Expr} : ∀ ty ∈ literalArgument? e, ty.WellFormed := by
  intro ty hty
  rw [literalArgument?.eq_def] at hty
  split at hty
  · exact Option.some.inj hty ▸ .literal _
  · exact Option.some.inj hty ▸ .literal _
  · exact Option.some.inj hty ▸ .literal _
  · exact Option.some.inj hty ▸ wellFormed_ofClass _
  · cases hty

/-- An argument whose meanings are well-formed types. -/
structure Argument.WellFormed (arg : Argument) : Prop where
  type? : ∀ ty ∈ arg.type? (), ty.WellFormed
  elems : ∀ ty ∈ arg.elems (), ty.WellFormed

theorem Argument.WellFormed.type {arg : Argument} (h : arg.WellFormed) : arg.type.WellFormed :=
  wellFormed_getD h.type? .unknown

/-- **What a head makes of its arguments is well formed**, if their types are.  Only `Callable`,
tuples and the classes put types together, and only `Union` and `Optional` join them. -/
theorem Head.wellFormed_apply (head : Head) {args : List Argument}
    (h : ∀ arg ∈ args, arg.WellFormed) : ∀ ty ∈ head.apply args, ty.WellFormed := by
  have htypes : ∀ ty ∈ args.map Argument.type, ty.WellFormed := by
    intro ty hty
    obtain ⟨arg, harg, rfl⟩ := List.mem_map.1 hty
    exact (h arg harg).type
  have hhead : ∀ arg ∈ args.head?, arg.WellFormed := fun arg harg =>
    h arg (List.mem_of_head? harg)
  have helems : ∀ ty ∈ (args.head?.map fun arg => arg.elems ()).getD [], ty.WellFormed := by
    cases harg : args.head? with
    | none => exact fun _ hty => absurd hty List.not_mem_nil
    | some arg => exact (hhead arg harg).elems
  intro ty hty
  rw [Head.apply.eq_def] at hty
  split at hty
  · exact Option.some.inj hty ▸ .nominal _ htypes
  split at hty
  iterate 3
    obtain ⟨arg, harg, hty⟩ := Option.bind_eq_some_iff.1 hty
    exact (hhead arg harg).type? ty hty
  · obtain ⟨arg, harg, hty⟩ := Option.bind_eq_some_iff.1 hty
    refine wellFormed_union? ?_ ?_ ty hty
    · rintro _ ⟨⟩
      exact (hhead arg harg).type
    · rintro _ ⟨⟩
      exact wellFormed_ofClass _
  · exact wellFormed_unionOf htypes ty hty
  · refine wellFormed_unionOf (fun ty hty => ?_) ty hty
    obtain ⟨arg, -, hty⟩ := List.mem_filterMap.1 hty
    exact wellFormed_literalArgument? ty hty
  · exact Option.some.inj hty ▸ .tuple htypes
  · obtain ⟨arg, harg, rfl⟩ := Option.map_eq_some_iff.1 hty
    exact (hhead arg harg).type.classValue
  · rw [← Option.some.inj hty]
    refine .callable (fun slot hslot => ?_) (wellFormed_getD (fun ty hty => ?_) .unknown)
    · obtain ⟨ty, hty, rfl⟩ := List.mem_map.1 hslot
      exact helems ty hty
    · obtain ⟨arg, harg, rfl⟩ := Option.map_eq_some_iff.1 hty
      exact (h arg (List.mem_of_getElem? harg)).type
  · split at hty
    · exact Option.some.inj hty ▸ .nominal _ htypes
    · cases hty

variable {deeper : Site → Expr → Option Ty} {site : Site}

/-- A name denotes a class, a type of its own, or what its alias does. -/
theorem wellFormed_readNameWith (h : ReadsWellFormed deeper) {start : Nat} {name : String} :
    ∀ ty ∈ readNameWith deeper site start name, ty.WellFormed := by
  intro ty hty
  rw [readNameWith.eq_def] at hty
  split at hty
  · split at hty
    · exact Option.some.inj hty ▸ wellFormed_ofClass _
    · obtain ⟨e, -, hty⟩ := Option.bind_eq_some_iff.1 hty
      exact h _ _ ty hty
  · exact wellFormed_namedType? ty hty

/-- A subscript denotes what its head makes of its arguments. -/
theorem wellFormed_subscript {value : Expr} {args : List Argument}
    (h : ∀ arg ∈ args, arg.WellFormed) :
    ∀ ty ∈ (head? site value).bind fun head => head.apply args, ty.WellFormed := by
  intro ty hty
  obtain ⟨head, -, hty⟩ := Option.bind_eq_some_iff.1 hty
  exact head.wellFormed_apply h ty hty

theorem Argument.wellFormed_ofType {e : Expr} {type? : Unit → Option Ty}
    (h : ∀ ty ∈ type? (), ty.WellFormed) : (Argument.ofType e type?).WellFormed :=
  ⟨h, fun _ hty => absurd hty List.not_mem_nil⟩

theorem Argument.wellFormed_ofList {e : Expr} {elems : Unit → List Ty}
    (h : ∀ ty ∈ elems (), ty.WellFormed) : (Argument.ofList e elems).WellFormed :=
  ⟨fun _ hty => (by cases hty), h⟩

theorem wellFormed_singleton {arg : Argument} (h : arg.WellFormed) :
    ∀ a ∈ [arg], a.WellFormed :=
  fun _ ha => List.mem_singleton.1 ha ▸ h

mutual

/-- **What an annotation denotes is well formed**, if what is read in other places is. -/
theorem wellFormed_readWith (h : ReadsWellFormed deeper) (e : Expr) :
    ∀ ty ∈ readWith deeper site e, ty.WellFormed := by
  intro ty hty
  rw [readWith.eq_def] at hty
  split at hty
  · exact Option.some.inj hty ▸ wellFormed_ofClass _
  · obtain ⟨e, -, hty⟩ := Option.bind_eq_some_iff.1 hty
    exact h _ _ ty hty
  · exact wellFormed_readWith h _ ty hty
  · exact wellFormed_union? (wellFormed_readWith h _) (wellFormed_readWith h _) ty hty
  · exact wellFormed_readNameWith h ty hty
  · obtain ⟨name, -, hty⟩ := Option.bind_eq_some_iff.1 hty
    exact wellFormed_namedType? ty hty
  · exact wellFormed_subscript (wellFormed_argumentsWith h _) ty hty
  · refine wellFormed_subscript (wellFormed_singleton ?_) ty hty
    exact Argument.wellFormed_ofList (wellFormed_readAllWith h _)
  · refine wellFormed_subscript (wellFormed_singleton ?_) ty hty
    exact Argument.wellFormed_ofType (wellFormed_readWith h _)
  · cases hty

/-- The arguments of a subscript have well-formed types, each by itself. -/
theorem wellFormed_argumentsWith (h : ReadsWellFormed deeper) : ∀ es : List Expr,
    ∀ arg ∈ argumentsWith deeper site es, arg.WellFormed := by
  intro es arg harg
  rw [argumentsWith.eq_def] at harg
  split at harg
  · cases harg
  · rcases List.mem_cons.1 harg with rfl | harg
    · exact Argument.wellFormed_ofList (wellFormed_readAllWith h _)
    · exact wellFormed_argumentsWith h _ arg harg
  · rcases List.mem_cons.1 harg with rfl | harg
    · exact Argument.wellFormed_ofType (wellFormed_readWith h _)
    · exact wellFormed_argumentsWith h _ arg harg

theorem wellFormed_readAllWith (h : ReadsWellFormed deeper) : ∀ es : List Expr,
    ∀ ty ∈ readAllWith deeper site es, ty.WellFormed
  | [], _, hty => absurd hty List.not_mem_nil
  | e :: es, ty, hty => by
    rcases List.mem_cons.1 hty with rfl | hty
    · exact wellFormed_getD (wellFormed_readWith h e) .unknown
    · exact wellFormed_readAllWith h es ty hty

end

/-- A reader with a budget is used for other places with a smaller one. -/
theorem wellFormed_readWithin : ∀ budget, ReadsWellFormed (readWithin budget)
  | 0, _, _ => fun _ hty => (by cases hty)
  | budget + 1, _, e => wellFormed_readWith (wellFormed_readWithin budget) e

/-- **The standard meaning of an annotation is well formed.** -/
theorem wellFormed_standard : ReadsWellFormed standard :=
  wellFormed_readWithin (annotationDepth + 1)

/-! ## The extended meaning

Tuples and intersections are new, literals stand for their values, and a quoted signature is a
callable with its parameters and its result.  Where none of these applies the standard meaning
counts. -/

/-- A quoted signature is a callable, with parameters and a result that are well formed or unknown.
-/
theorem wellFormed_signatureWith (h : ReadsWellFormed deeper) {e : Expr} :
    ∀ ty ∈ signatureWith deeper site e, ty.WellFormed := by
  intro ty hty
  rw [signatureWith.eq_def] at hty
  split at hty
  · obtain ⟨⟨params, result⟩, -, hty⟩ := Option.bind_eq_some_iff.1 hty
    rw [← Option.some.inj hty]
    refine .callable (fun slot hslot => ?_) (wellFormed_getD (h _ _) .unknown)
    obtain ⟨e, -, rfl⟩ := List.mem_map.1 hslot
    exact wellFormed_getD (h _ _) .unknown
  · cases hty

/-- The fallback is a quoted signature or the standard meaning. -/
theorem wellFormed_fallbackWith (h : ReadsWellFormed deeper) {strict : Bool} {e : Expr} :
    ∀ ty ∈ fallbackWith deeper site strict e, ty.WellFormed := by
  rw [fallbackWith]
  split
  · exact fun _ hty => (by cases hty)
  · exact wellFormed_orElse (wellFormed_signatureWith h) (wellFormed_standard _ _)

mutual

/-- **What an annotation denotes in its extended meaning is well formed**, strictly read or not. -/
theorem wellFormed_extendWith (h : ReadsWellFormed deeper) (strict : Bool) (e : Expr) :
    ∀ ty ∈ extendWith deeper site strict e, ty.WellFormed := by
  rw [extendWith.eq_def]
  split
  · rintro _ ⟨⟩
    exact .literal _
  · rintro _ ⟨⟩
    exact .literal _
  · exact wellFormed_orElse
      (wellFormed_union? (wellFormed_extendWith h false _) (wellFormed_extendWith h false _))
      (wellFormed_fallbackWith h)
  · exact wellFormed_orElse (wellFormed_extendWith h false _) (wellFormed_fallbackWith h)
  · exact wellFormed_orElse (wellFormed_extendWith h false _) (wellFormed_fallbackWith h)
  · rintro _ ⟨⟩
    exact .tuple (wellFormed_extendAllWith h _)
  · exact wellFormed_orElse (wellFormed_extendWith h false _) (wellFormed_fallbackWith h)
  · exact wellFormed_fallbackWith h

theorem wellFormed_extendAllWith (h : ReadsWellFormed deeper) : ∀ es : List Expr,
    ∀ ty ∈ extendAllWith deeper site es, ty.WellFormed
  | [], _, hty => absurd hty List.not_mem_nil
  | e :: es, ty, hty => by
    rcases List.mem_cons.1 hty with rfl | hty
    · exact wellFormed_getD (wellFormed_extendWith h false e) .unknown
    · exact wellFormed_extendAllWith h es ty hty

end

/-- The budget is for signatures in signatures. -/
theorem wellFormed_extendWithin : ∀ budget site strict e,
    ∀ ty ∈ extendWithin budget site strict e, ty.WellFormed
  | 0, _, _, _ => fun _ hty => (by cases hty)
  | budget + 1, _, strict, e =>
    wellFormed_extendWith (fun site e => wellFormed_extendWithin budget site false e) strict e

/-- **The extended meaning of an annotation is well formed.** -/
theorem wellFormed_extended (site : Site) (e : Expr) (strict : Bool) :
    ∀ ty ∈ extended site e strict, ty.WellFormed :=
  wellFormed_extendWithin _ site strict e

/-! ## Overloads and checks

Both are unions of types that annotations denote, of the overloads of a function or of the classes
in a check. -/

/-- The union of what some annotations denote. -/
theorem wellFormed_unionOf_filterMap {α : Type} {read : α → Option Ty} (l : List α)
    (h : ∀ x, ∀ ty ∈ read x, ty.WellFormed) :
    ∀ ty ∈ unionOf (l.filterMap read), ty.WellFormed := by
  refine wellFormed_unionOf fun ty hty => ?_
  obtain ⟨x, -, hty⟩ := List.mem_filterMap.1 hty
  exact h x ty hty

theorem wellFormed_overloadedParam (overloads : List Place) (name : String) :
    ∀ ty ∈ overloadedParam overloads name, ty.WellFormed := by
  refine wellFormed_unionOf_filterMap _ fun function ty hty => ?_
  obtain ⟨⟨param, e⟩, -, hty⟩ := Option.bind_eq_some_iff.1 hty
  exact wellFormed_extended _ _ _ ty hty

theorem wellFormed_overloadedResult (overloads : List Place) :
    ∀ ty ∈ overloadedResult overloads, ty.WellFormed := by
  refine wellFormed_unionOf_filterMap _ fun function ty hty => ?_
  obtain ⟨e, -, hty⟩ := Option.bind_eq_some_iff.1 hty
  exact wellFormed_extended _ _ _ ty hty

mutual

/-- The instances that a check admits are those of the classes in it. -/
theorem wellFormed_admitted? (e : Expr) : ∀ ty ∈ admitted? site e, ty.WellFormed := by
  rw [admitted?.eq_def]
  split
  · exact wellFormed_admitted? _
  · exact wellFormed_unionOf (wellFormed_admittedAll _)
  · exact wellFormed_standard _ _

theorem wellFormed_admittedAll : ∀ es : List Expr, ∀ ty ∈ admittedAll site es, ty.WellFormed
  | [], _, hty => absurd hty List.not_mem_nil
  | e :: es, ty, hty => by
    rcases List.mem_append.1 hty with hty | hty
    · exact wellFormed_admitted? e ty (Option.mem_toList.1 hty)
    · exact wellFormed_admittedAll es ty hty

end

theorem wellFormed_checkedType? {name : String} {cond : Expr} :
    ∀ ty ∈ checkedType? site name cond, ty.WellFormed := by
  rw [checkedType?.eq_def]
  split
  · split
    · exact wellFormed_admitted? _
    · exact fun _ hty => (by cases hty)
  · exact fun _ hty => (by cases hty)

/-- The search for a conditional ends with what its check gives. -/
theorem wellFormed_narrowedIn (name : String) (binding? : Option Binding) (above : List Place)
    (inner : Option Place) : ∀ ty ∈ narrowedIn name binding? inner above, ty.WellFormed := by
  induction above generalizing inner with
  | nil => exact fun _ hty => (by cases hty)
  | cons place above ih =>
    rw [narrowedIn]
    split
    · exact fun _ hty => (by cases hty)
    · exact fun _ hty => (by cases hty)
    · refine wellFormed_orElse ?_ (ih _)
      split
      · exact wellFormed_checkedType?
      · exact fun _ hty => (by cases hty)
    · exact ih _

/-- **What a conditional gives to a name is well formed.** -/
theorem wellFormed_narrowed? (e : Expr) : ∀ ty ∈ narrowed? site e, ty.WellFormed := by
  rw [narrowed?.eq_def]
  split
  · split
    · exact fun _ hty => (by cases hty)
    · exact wellFormed_narrowedIn _ _ _ _
  · exact fun _ hty => (by cases hty)

end TypeReveal
