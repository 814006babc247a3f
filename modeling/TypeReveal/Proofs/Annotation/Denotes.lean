import TypeReveal.Proofs.Annotation.Standard
import TypeReveal.Proofs.Expr.Compact
import TypeReveal.Proofs.Ty.Order
import TypeReveal.Proofs.Ty.Union

/-!
# What hints denote where nothing is bound

A **hint** is made of names, `None`, subscripts and bars.  Where no name is bound, all that counts
for its meaning are the names themselves, not where they stand (`Expr.Denotes`).

The parts of a union are read one after another and joined; as a union may stand for several
literals at once and collapse to a single type, a part denotes a list of types
(`Expr.DenotesAll`).  Types are compared by their codes: two types with one code are equal.
-/

set_option autoImplicit false
namespace TypeReveal

/-- No name is bound at a site. -/
def Site.BindsNothing (site : Site) : Prop := ∀ start name, site.lookup start name = none

namespace Expr

/-! ## Hints

Hints are the expressions that types are shown as.  None of them is a list or a tuple, so that each
is one argument. -/

/-- Whether an expression is made of names, `None`, subscripts and bars. -/
def isHint : Expr → Bool
  | .none _ | .name .. | .subscript .. => true
  | .binary _ .bar lhs rhs => lhs.isHint && rhs.isHint
  | _ => false

/-- Whether an expression is one argument in the brackets of a subscript. -/
def isArgument : Expr → Bool
  | .tuple .. | .list .. => false
  | _ => true

theorem isArgument_of_isHint {e : Expr} (h : e.isHint = true) : e.isArgument = true := by
  cases e with
  | tuple | list => cases h
  | _ => rfl

theorem isStandard_of_isHint {e : Expr} (h : e.isHint = true) : e.isStandard = true := by
  induction e using isHint.induct with
  | case1 | case2 | case3 => rfl
  | case4 span lhs rhs ihl ihr =>
    rw [isHint, Bool.and_eq_true] at h
    rw [isStandard, ihl h.1, ihr h.2, Bool.and_self]
  | case5 e hnone hname hsubscript hbinary =>
    rw [isHint.eq_5 _ hnone hname hsubscript hbinary] at h
    cases h

theorem isHint_bare : ∀ e : Expr, e.bare.isHint = e.isHint
  | .binary _ .bar lhs rhs => by rw [bare, isHint, isHint, isHint_bare lhs, isHint_bare rhs]
  | .binary _ .amp .. | .dangling .. | .int .. | .float .. | .bool .. | .none _ | .ellipsis _
  | .str .. | .name .. | .paren .. | .tuple .. | .list .. | .subscript .. | .member ..
  | .call .. => rfl

/-! ## Spans

What an expression is without its spans tells what form it has. -/

section Bare

variable {e : Expr}

theorem exists_of_bare_eq_name {name : String} (h : e.bare = .name default name) :
    ∃ span, e = .name span name := by
  cases e with
  | name span name' => exact ⟨span, congrArg (Expr.name span) (Expr.name.inj h).2⟩
  | _ => cases h

theorem exists_of_bare_eq_binary {op : Operator} {lhs rhs : Expr}
    (h : e.bare = .binary default op lhs rhs) :
    ∃ span lhs' rhs', e = .binary span op lhs' rhs' ∧ lhs'.bare = lhs ∧ rhs'.bare = rhs := by
  cases e with
  | binary span op' lhs' rhs' =>
    obtain ⟨-, rfl, hlhs, hrhs⟩ := Expr.binary.inj h
    exact ⟨span, lhs', rhs', rfl, hlhs, hrhs⟩
  | _ => cases h

theorem exists_of_bare_eq_subscript {value index : Expr}
    (h : e.bare = .subscript default value index) :
    ∃ span value' index', e = .subscript span value' index' ∧ value'.bare = value ∧
      index'.bare = index := by
  cases e with
  | subscript span value' index' =>
    obtain ⟨-, hvalue, hindex⟩ := Expr.subscript.inj h
    exact ⟨span, value', index', rfl, hvalue, hindex⟩
  | _ => cases h

theorem exists_of_bare_eq_tuple {es : List Expr} (h : e.bare = .tuple default es) :
    ∃ span es', e = .tuple span es' ∧ es'.map bare = es := by
  cases e with
  | tuple span es' =>
    obtain ⟨-, hes⟩ := Expr.tuple.inj h
    exact ⟨span, es', rfl, bareAll_eq_map es' ▸ hes⟩
  | _ => cases h

theorem isArgument_bare (e : Expr) : e.bare.isArgument = e.isArgument := by
  cases e <;> rfl

end Bare

/-! ## Subscripts

What stands in brackets is one expression or a tuple, and both are taken for a list of arguments. -/

section Subscript

variable (deeper : Site → Expr → Option Ty) {site : Site}

theorem argumentsWith_eq_map {es : List Expr} (h : ∀ e ∈ es, e.isArgument = true) :
    argumentsWith deeper site es =
      es.map fun e => Argument.ofType e fun _ => readWith deeper site e := by
  induction es with
  | nil => rfl
  | cons e es ih =>
    have he := h e List.mem_cons_self
    have hes := ih fun e he => h e (List.mem_cons_of_mem _ he)
    rw [argumentsWith.eq_def, List.map_cons, ← hes]
    split
    · next heq => cases heq
    · next heq =>
      rw [(List.cons.inj heq).1] at he
      cases he
    · next heq =>
      obtain ⟨rfl, rfl⟩ := List.cons.inj heq
      rfl

theorem isArgument_of_map_bare {es es' : List Expr} (hes : ∀ e ∈ es, e.isArgument = true)
    (h : es'.map bare = es.map bare) : ∀ e ∈ es', e.isArgument = true := by
  intro e he
  have hmem : e.bare ∈ es.map bare := h ▸ List.mem_map_of_mem he
  obtain ⟨other, hother, hbare⟩ := List.mem_map.1 hmem
  rw [← isArgument_bare, ← hbare, isArgument_bare, hes other hother]

/-- The brackets of a subscript hold the arguments, spans aside. -/
theorem readWith_subscript {value index' : Expr} {args : List Expr} (span : Span)
    (hargs : ∀ arg ∈ args, arg.isArgument = true) (h : index'.bare = (index args).bare) :
    ∃ args' : List Expr, args'.map bare = args.map bare ∧
      readWith deeper site (.subscript span value index') =
        (head? site value).bind fun head => head.apply
          (args'.map fun arg => Argument.ofType arg fun _ => readWith deeper site arg) := by
  have htuple : index'.bare = (Expr.tuple default args).bare → ∃ args' : List Expr,
      args'.map bare = args.map bare ∧ readWith deeper site (.subscript span value index') =
        (head? site value).bind fun head => head.apply
          (args'.map fun arg => Argument.ofType arg fun _ => readWith deeper site arg) := by
    intro h
    obtain ⟨tupleSpan, args', rfl, hargs'⟩ := exists_of_bare_eq_tuple h
    rw [bareAll_eq_map] at hargs'
    refine ⟨args', hargs', ?_⟩
    rw [readWith, argumentsWith_eq_map deeper (isArgument_of_map_bare hargs hargs')]
  cases args with
  | nil => exact htuple h
  | cons arg args =>
    cases args with
    | cons => exact htuple h
    | nil =>
      refine ⟨[index'], by rw [List.map_singleton, h]; rfl, ?_⟩
      have hindex : index'.isArgument = true := by
        rw [← isArgument_bare, h, isArgument_bare]
        exact hargs arg List.mem_cons_self
      cases index' with
      | tuple | list => cases hindex
      | _ => rfl

/-- **A name with arguments** applies what it stands for to what its arguments denote. -/
theorem readWith_withArguments {name : String} {args : List Expr} {e : Expr}
    (hargs : ∀ arg ∈ args, arg.isArgument = true) (hsite : site.BindsNothing)
    (he : e.bare = (withArguments name args).bare) :
    ∃ args' : List Expr, args'.map bare = args.map bare ∧ readWith deeper site e =
      (Head.special name).apply
        (args'.map fun arg => Argument.ofType arg fun _ => readWith deeper site arg) := by
  obtain ⟨span, value, index', rfl, hvalue, hindex⟩ := exists_of_bare_eq_subscript he
  obtain ⟨nameSpan, rfl⟩ := exists_of_bare_eq_name hvalue
  have hhead : head? site (.name nameSpan name) = some (.special name) := by
    rw [head?, hsite]
  obtain ⟨args', hargs', hread⟩ := readWith_subscript deeper span hargs hindex
  exact ⟨args', hargs', by rw [hread, hhead, Option.bind_some]⟩

end Subscript

/-! ## Meanings

That a hint denotes a type is said for every site at which nothing is bound, and for every way to
read in other places, as there is no other place to go to. -/

/-- **A hint denotes a type** where nothing is bound, wherever it stands and whatever is left to
`deeper`. -/
def Denotes (e : Expr) (ty : Ty) : Prop :=
  ∀ (deeper : Site → Expr → Option Ty) (site : Site), site.BindsNothing →
    ∀ e' : Expr, e'.bare = e.bare → ∃ t, readWith deeper site e' = some t ∧ t.key = ty.key

/-- A hint denotes the union of some types. -/
def DenotesAll (e : Expr) (tys : List Ty) : Prop :=
  ∀ (deeper : Site → Expr → Option Ty) (site : Site), site.BindsNothing →
    ∀ e' : Expr, e'.bare = e.bare →
      ∃ ts, readWith deeper site e' = Ty.unionOf ts ∧ ts.map Ty.key = tys.map Ty.key

variable {e lhs rhs : Expr} {args : List Expr} {ty : Ty} {tys more : List Ty} {name : String}

theorem denotes_none : Denotes (.none default) Ty.noneType := by
  intro deeper site _ e' he
  cases e' with
  | none => exact ⟨Ty.noneType, rfl, rfl⟩
  | _ => cases he

/-- A name that stands for a type. -/
theorem denotes_name (h : namedType? name = some ty) : Denotes (.name default name) ty := by
  intro deeper site hsite e' he
  obtain ⟨span, rfl⟩ := exists_of_bare_eq_name he
  exact ⟨ty, by rw [readWith, readNameWith, hsite]; exact h, rfl⟩

/-- What the arguments of a subscript denote. -/
theorem map_key_of_forall₂ (deeper : Site → Expr → Option Ty) {site : Site} {args' : List Expr}
    (h : List.Forall₂ Denotes args tys) (hsite : site.BindsNothing)
    (hargs : args'.map bare = args.map bare) :
    ((args'.map fun arg => Argument.ofType arg fun _ => readWith deeper site arg).map
      Argument.type).map Ty.key = tys.map Ty.key := by
  induction h generalizing args' with
  | nil => rw [List.map_eq_nil_iff.1 hargs]; rfl
  | cons harg _ ih =>
    rw [List.map_cons] at hargs
    obtain ⟨arg', args', rfl, harg', hargs⟩ := List.map_eq_cons_iff.1 hargs
    obtain ⟨t, hread, hkey⟩ := harg deeper site hsite arg' harg'
    have htype : (Argument.ofType arg' fun _ => readWith deeper site arg').type = t := by
      rw [Argument.type, Argument.ofType, hread]
      rfl
    rw [List.map_cons, List.map_cons, List.map_cons, List.map_cons, htype, hkey, ih hargs]

/-- A name that makes a type of its arguments, which depends on the codes of these alone. -/
theorem denotes_withArguments {make : List Ty → Ty}
    (hargs : ∀ arg ∈ args, arg.isHint = true) (h : List.Forall₂ Denotes args tys)
    (hhead : ∀ arguments : List Argument, arguments.length = tys.length →
      (Head.special name).apply arguments = some (make (arguments.map Argument.type)))
    (hmake : ∀ ts : List Ty, ts.map Ty.key = tys.map Ty.key → (make ts).key = (make tys).key) :
    Denotes (withArguments name args) (make tys) := by
  intro deeper site hsite e' he
  obtain ⟨args', hargs', hread⟩ := readWith_withArguments deeper
    (fun arg harg => isArgument_of_isHint (hargs arg harg)) hsite he
  have hkeys := map_key_of_forall₂ deeper h hsite hargs'
  refine ⟨_, hread.trans (hhead _ ?_), hmake _ hkeys⟩
  simpa using congrArg List.length hkeys

theorem apply_of_knownClass (hname : name ∈ knownClasses) (htuple : name ≠ "tuple")
    (htype : name ≠ "type") (arguments : List Argument) :
    (Head.special name).apply arguments = some (.nominal name (arguments.map Argument.type)) := by
  simp only [knownClasses, List.mem_cons, List.not_mem_nil, or_false] at hname
  rcases hname with rfl | rfl | rfl | rfl | rfl | rfl | rfl | rfl | rfl | rfl | rfl | rfl | rfl
  all_goals first
    | rfl
    | exact absurd rfl htuple
    | exact absurd rfl htype

/-- A class with arguments denotes the class with the types that they denote. -/
theorem denotes_nominal (hname : name ∈ knownClasses) (htuple : name ≠ "tuple")
    (htype : name ≠ "type") (hargs : ∀ arg ∈ args, arg.isHint = true)
    (h : List.Forall₂ Denotes args tys) :
    Denotes (withArguments name args) (.nominal name tys) :=
  denotes_withArguments hargs h
    (fun arguments _ => apply_of_knownClass hname htuple htype arguments)
    fun ts hts => by rw [Ty.key, Ty.key, Ty.keys_eq_map, Ty.keys_eq_map, hts]

/-- A tuple of hints denotes the tuple of their types. -/
theorem denotes_tuple (hargs : ∀ arg ∈ args, arg.isHint = true)
    (h : List.Forall₂ Denotes args tys) : Denotes (withArguments "tuple" args) (.tuple tys) :=
  denotes_withArguments hargs h (fun _ _ => rfl)
    fun ts hts => by rw [Ty.key, Ty.key, Ty.keys_eq_map, Ty.keys_eq_map, hts]

/-- A class as a value. -/
theorem denotes_classValue (he : e.isHint = true) (h : Denotes e ty) :
    Denotes (withArguments "type" [e]) (Ty.classValue ty) := by
  refine (denotes_withArguments ?_ (.cons h .nil) ?_ ?_ : Denotes _ (Ty.nominal "type" [ty]))
  · exact fun arg harg => List.mem_singleton.1 harg ▸ he
  · intro arguments hlength
    obtain ⟨argument, rfl⟩ := List.length_eq_one_iff.1 hlength
    rfl
  · exact fun ts hts => by rw [Ty.key, Ty.key, Ty.keys_eq_map, Ty.keys_eq_map, hts]

/-! ## Unions

A part of a union denotes a list of types and not a type, since a literal part stands for several.
Permuted lists have equal unions. -/

/-- A type that is no union is the union of itself. -/
theorem denotesAll_of_denotes (h : Denotes e ty) (hty : ty.isUnion = false) :
    DenotesAll e [ty] := by
  intro deeper site hsite e' he
  obtain ⟨t, hread, hkey⟩ := h deeper site hsite e' he
  have hflat : Ty.Flat [t] := Ty.flat_singleton (Ty.isUnion_eq_of_key_eq hkey ▸ hty)
  exact ⟨[t], by rw [hread, Ty.unionOf_of_flat hflat]; rfl, by simp [hkey]⟩

theorem denotes_of_denotesAll (h : DenotesAll e [ty]) (hty : ty.isUnion = false) :
    Denotes e ty := by
  intro deeper site hsite e' he
  obtain ⟨ts, hread, hts⟩ := h deeper site hsite e' he
  obtain ⟨t, rfl, hkey⟩ := List.map_eq_singleton_iff.1 hts
  have hflat : Ty.Flat [t] := Ty.flat_singleton (Ty.isUnion_eq_of_key_eq hkey ▸ hty)
  exact ⟨t, by rw [hread, Ty.unionOf_of_flat hflat]; rfl, hkey⟩

/-- A bar puts together what its sides denote. -/
theorem denotesAll_binary (hlhs : DenotesAll lhs tys) (hrhs : DenotesAll rhs more) :
    DenotesAll (.binary default .bar lhs rhs) (tys ++ more) := by
  intro deeper site hsite e' he
  obtain ⟨span, lhs', rhs', rfl, hlhs', hrhs'⟩ := exists_of_bare_eq_binary he
  obtain ⟨ts, hread, hts⟩ := hlhs deeper site hsite lhs' hlhs'
  obtain ⟨us, hread', hus⟩ := hrhs deeper site hsite rhs' hrhs'
  refine ⟨ts ++ us, ?_, by rw [List.map_append, List.map_append, hts, hus]⟩
  rw [readWith, hread, hread', Ty.union?_unionOf]

/-- **What denotes the members of a union, in any order, denotes the union.** -/
theorem denotes_union {members : List Ty} (h : DenotesAll e tys) (hperm : tys.Perm members)
    (htwo : 2 ≤ members.length) (hflat : Ty.Flat members) : Denotes e (.union members) := by
  intro deeper site hsite e' he
  obtain ⟨ts, hread, hts⟩ := h deeper site hsite e' he
  have hkeys : (ts.map Ty.key).Perm (members.map Ty.key) := hts ▸ hperm.map Ty.key
  have hlength : ts.length = members.length := by simpa using hkeys.length_eq
  have hunion : Ty.ofMembers ts = some (.union ts) := by
    match ts, hlength with
    | [], hlength | [_], hlength => simp at hlength; omega
    | _ :: _ :: _, _ => rfl
  refine ⟨.union ts, by rw [hread, Ty.unionOf_of_flat (hflat.of_perm hkeys), hunion], ?_⟩
  rw [Ty.key, Ty.key, Ty.keys_eq_map, Ty.keys_eq_map, sortKeys_eq_of_perm hkeys]

/-! ## Literals

An expression with `Literal` in front has the values of its arguments as its types. -/

end Expr

/-- The expression of a literal's value. -/
def Literal.expr : Literal → Expr
  | int value => .int default value
  | bool value => .bool default value
  | str value => .str default value

namespace Expr

/-- The value of a literal does not depend on where it stands. -/
theorem literalArgument?_of_bare {e : Expr} {value : Literal} (h : e.bare = value.expr.bare) :
    literalArgument? e = some (.literal value) := by
  cases value <;> cases e <;> cases h <;> rfl

/-- **Literals together** denote the union of them. -/
theorem denotesAll_literals (values : List Literal) :
    DenotesAll (withArguments "Literal" (values.map Literal.expr)) (values.map Ty.literal) := by
  intro deeper site hsite e' he
  have hargs : ∀ arg ∈ values.map Literal.expr, arg.isArgument = true := by
    intro arg harg
    obtain ⟨value, -, rfl⟩ := List.mem_map.1 harg
    cases value <;> rfl
  obtain ⟨args', hargs', hread⟩ := readWith_withArguments deeper hargs hsite he
  refine ⟨values.map Ty.literal, ?_, rfl⟩
  have hliterals : args'.filterMap literalArgument? = values.map Ty.literal := by
    clear hread he hargs
    induction values generalizing args' with
    | nil => rw [List.map_eq_nil_iff.1 hargs']; rfl
    | cons value values ih =>
      rw [List.map_cons, List.map_cons] at hargs'
      obtain ⟨arg', args', rfl, harg', hargs'⟩ := List.map_eq_cons_iff.1 hargs'
      rw [List.filterMap_cons_some (literalArgument?_of_bare harg'), ih args' hargs', List.map_cons]
  have happly : ∀ arguments, (Head.special "Literal").apply arguments =
      Ty.unionOf (arguments.filterMap fun arg => literalArgument? arg.expr) := fun _ => rfl
  rw [hread, happly, List.filterMap_map, ← hliterals]
  rfl

end Expr

end TypeReveal
