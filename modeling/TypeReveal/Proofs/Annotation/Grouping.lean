import TypeReveal.Proofs.Annotation.Quoted
import TypeReveal.Proofs.Expr.Composed

/-!
# Parentheses in the brackets of a subscript

Parentheses around the index of a subscript make no difference to most of what it denotes: a head
asks its argument for its type, and parentheses have the type of what stands in them.  Three things
are looked at as they are written, and parentheses hide them:

* `()`, which is a list of no arguments, and in parentheses one argument that denotes nothing;
* the list of parameters of `Callable`;
* the literal of `Literal`.

`Head.distinguishes` says for each head which of these it notices, and `standard_grouped_index` that
there is no other difference.

The heads are gone through once.  For a single argument a head makes use of its type, of its
elements if it is a list, and of its literal if it is one, and `Head.applyOne` is that function.
Parentheses keep the type and take the other two away.
-/

set_option autoImplicit false
namespace TypeReveal

namespace Expr

/-- Whether an expression is `()`. -/
def isUnit : Expr → Bool
  | tuple _ [] => true
  | _ => false

/-- Whether an expression is a list that is not empty. -/
def isFilledList : Expr → Bool
  | list _ (_ :: _) => true
  | _ => false

end Expr

/-- **Whether a head tells an index from the same index in parentheses.** -/
def Head.distinguishes (head : Head) (e : Expr) : Bool :=
  match head with
  | .declared _ => e.isUnit
  | .special name =>
    match canonicalName name with
    | "Final" | "ClassVar" | "Annotated" => false
    | "Literal" => (literalArgument? e).isSome
    | "Callable" => e.isFilledList
    | "Optional" | "Union" | "tuple" | "type" => e.isUnit
    | name => isKnownClass name && e.isUnit

section Heads

variable {head : Head} {ty? : Option Ty}

/-- A literal is a type by itself. -/
theorem unionOf_literalArgument? {e : Expr} {ty : Ty} (h : literalArgument? e = some ty) :
    Ty.unionOf [ty] = some ty := by
  cases e with
  | int | bool | str | none =>
    cases h
    rfl
  | _ => cases h

/-- What a head makes of a single argument: of its type, its elements and its literal. -/
def Head.applyOne (head : Head) (ty? : Option Ty) (elems : List Ty) (literal? : Option Ty) :
    Option Ty :=
  match head with
  | .declared name => some (.nominal name [ty?.getD .unknown])
  | .special name =>
    match canonicalName name with
    | "Final" | "ClassVar" | "Annotated" => ty?
    | "Optional" => Ty.union? (some (ty?.getD .unknown)) (some Ty.noneType)
    | "Union" => Ty.unionOf [ty?.getD .unknown]
    | "Literal" => Ty.unionOf literal?.toList
    | "tuple" => some (.tuple [ty?.getD .unknown])
    | "type" => some (Ty.classValue (ty?.getD .unknown))
    | "Callable" => some (.callable (elems.map Slot.anonymous) .unknown)
    | name => if isKnownClass name then some (.nominal name [ty?.getD .unknown]) else none

theorem Head.apply_singleton (head : Head) (arg : Argument) :
    head.apply [arg] = head.applyOne (arg.type? ()) (arg.elems ()) (literalArgument? arg.expr) := by
  cases head with
  | declared name => rfl
  | special name =>
    simp only [apply, applyOne]
    generalize canonicalName name = canonical
    split
    case h_6 => cases hliteral : literalArgument? arg.expr <;> simp [hliteral]
    case h_10 => simp only [List.map_singleton, Argument.type]
    all_goals rfl

/-- **Parentheses hide** that an argument is a literal or a list. -/
theorem Head.applyOne_eq_iff {e : Expr} {elems : List Ty} (hunit : e.isUnit = false)
    (hlist : e.isFilledList = !elems.isEmpty) :
    head.applyOne ty? [] none = head.applyOne ty? elems (literalArgument? e) ↔
      head.distinguishes e = false := by
  cases head with
  | declared name => simp [applyOne, distinguishes, hunit]
  | special name =>
    simp only [applyOne, distinguishes]
    generalize canonicalName name = canonical
    split
    case h_6 =>
      cases hliteral : literalArgument? e with
      | none => simp
      | some ty =>
        rw [Option.toList_some, unionOf_literalArgument? hliteral]
        exact ⟨nofun, nofun⟩
    case h_9 => cases elems <;> simp [hlist]
    all_goals simp [hunit]

/-- **Parentheses make an argument** of `()`, one that denotes nothing. -/
theorem Head.applyOne_eq_apply_nil_iff (span : Span) :
    head.applyOne none [] none = head.apply [] ↔ head.distinguishes (.tuple span []) = false := by
  have hoptional : Ty.union? (some .unknown) (some Ty.noneType) =
      some (.union [.unknown, Ty.noneType]) := by cbv
  have hunion : Ty.unionOf [.unknown] = some .unknown := by cbv
  have hnothing : Ty.unionOf [] = none := rfl
  cases head with
  | declared name => simp [apply, applyOne, distinguishes, Expr.isUnit]
  | special name =>
    simp only [apply, applyOne, distinguishes]
    generalize canonicalName name = canonical
    split
    case h_10 =>
      cases hknown : isKnownClass canonical <;> simp [Expr.isUnit, hknown]
    all_goals
      simp [Expr.isUnit, Expr.isFilledList, literalArgument?, hoptional, hunion, hnothing]

end Heads

/-! ## Readings

The text of the index is read in brackets and in brackets with parentheses, and its parts are the
same but for spans. -/

section Readings

variable {deeper : Site → Expr → Option Ty} {site : Site} {e : Expr}

/-- **Parentheses around an index** make no difference but to a head that looks at it. -/
theorem apply_subscriptArguments_paren_iff (head : Head) (span : Span) (h : e.fits .bar = true) :
    head.apply (subscriptArguments deeper site (.paren span e)) =
        head.apply (subscriptArguments deeper site e) ↔ head.distinguishes e = false := by
  have hparen : head.apply (subscriptArguments deeper site (.paren span e)) =
      head.applyOne (readWith deeper site e) [] none := head.apply_singleton _
  have htype (hargument : e.isArgument = true) (hlist : e.isFilledList = false) :
      head.applyOne (readWith deeper site e) [] none =
        head.apply [.ofType e fun _ => readWith deeper site e] ↔ head.distinguishes e = false := by
    rw [Head.apply_singleton]
    refine Head.applyOne_eq_iff ?_ hlist
    cases e with
    | tuple => cases hargument
    | _ => rfl
  rw [hparen]
  cases e with
  | tuple span elems =>
    cases elems with
    | nil => exact Head.applyOne_eq_apply_nil_iff span
    | cons => cases h
  | list span elems =>
    have harguments : subscriptArguments deeper site (.list span elems) =
        [.ofList (.list span elems) fun _ => readAllWith deeper site elems] := rfl
    rw [harguments, Head.apply_singleton]
    refine Head.applyOne_eq_iff rfl ?_
    cases elems <;> rfl
  | _ => exact htype rfl rfl

/-- **Parentheses in the brackets of a subscript.**  In a quoted annotation the text of a subscript
denotes the same with its index in parentheses, or nothing both, if and only if what stands before
the bracket does not look at how the index is written: it is no list of no arguments, no literal of
`Literal` and no list of parameters of `Callable`. -/
theorem standard_grouped_index (site : Site) (start : Nat) {value index : List Char} {v e : Expr}
    (hvalue : Expr.ofText? value = some v) (hprimary : v.fits .primary = true)
    (hindex : Expr.ofText? index = some e) (hfits : e.fits .bar = true) :
    ∃ plain grouped, Expr.ofText? (Expr.subscriptText value [index]) = some plain ∧
      Expr.ofText? (Expr.subscriptText value ['(' :: (index ++ [')'])]) = some grouped ∧
      (standard (site.quote start) grouped = standard (site.quote start) plain ↔
        ∀ head, head? (site.quote start) v = some head → head.distinguishes e = false) := by
  have hquoted := site.isQuoted_quote start
  have hholds := Expr.holds_primary_of_ofText? hvalue hprimary
  obtain ⟨plain, hplain, hplainBare⟩ :=
    (hholds.subscript (.cons (Expr.holds_of_ofText? hindex hfits) .nil) nofun).ofText?
  obtain ⟨grouped, hgrouped, hgroupedBare⟩ :=
    (hholds.subscript (.cons (Expr.holds_paren hindex).toAmp.toBar .nil) nofun).ofText?
  refine ⟨plain, grouped, hplain, hgrouped, ?_⟩
  rw [standard_congr_bare hquoted hplainBare, standard_congr_bare hquoted hgroupedBare,
    standard_subscript, standard_subscript]
  cases head? (site.quote start) v with
  | none => exact ⟨nofun, fun _ => rfl⟩
  | some head =>
    rw [Option.bind_some, Option.bind_some, Expr.index, Expr.index,
      apply_subscriptArguments_paren_iff head default hfits]
    exact ⟨fun h _ heq => Option.some.inj heq ▸ h, fun h => h head rfl⟩

/-- A union as the only argument of a name of the typing module. -/
theorem standard_grouped_index_optional :
    let site : Site := { above := [], inside := [] }
    ∃ plain grouped, Expr.ofText? "typing.Optional[int | str]".toList = some plain ∧
      Expr.ofText? "typing.Optional[(int | str)]".toList = some grouped ∧
      standard (site.quote 3) grouped = standard (site.quote 3) plain := by
  intro site
  obtain ⟨plain, grouped, hplain, hgrouped, hiff⟩ := standard_grouped_index site 3
    (show Expr.ofText? "typing.Optional".toList =
      some (.member ⟨0, 15⟩ (.name ⟨0, 6⟩ "typing") "Optional") by decide +kernel) rfl
    (show Expr.ofText? "int | str".toList =
      some (.binary ⟨0, 9⟩ .bar (.name ⟨0, 3⟩ "int") (.name ⟨6, 9⟩ "str")) by decide +kernel) rfl
  refine ⟨plain, grouped, hplain, hgrouped, hiff.2 fun head hhead => ?_⟩
  obtain rfl : head = .special "Optional" := (Option.some.inj hhead).symm
  rfl

/-- Three indices that are looked at as they are written: a literal, a list of no arguments, and a
list of parameters. -/
theorem standard_grouped_index_literal :
    let denoted (text : String) : Option Ty :=
      quotedType? { above := [], inside := [] } 3 text.toList
    (denoted "Literal[1]" = some (.literal (.int 1)) ∧ denoted "Literal[(1)]" = none) ∧
      (denoted "tuple[()]" = some (.tuple []) ∧
        denoted "tuple[(())]" = some (.tuple [.unknown])) ∧
      denoted "Callable[[int]]" = some (.callable [.anonymous (.nominal "int" [])] .unknown) ∧
        denoted "Callable[([int])]" = some (.callable [] .unknown) := by
  have hliteral : Expr.ofText? "Literal[1]".toList =
      some (.subscript ⟨0, 10⟩ (.name ⟨0, 7⟩ "Literal") (.int ⟨8, 9⟩ 1)) := by decide +kernel
  have hliteral' : Expr.ofText? "Literal[(1)]".toList =
      some (.subscript ⟨0, 12⟩ (.name ⟨0, 7⟩ "Literal") (.paren ⟨8, 11⟩ (.int ⟨9, 10⟩ 1))) := by
    decide +kernel
  have htuple : Expr.ofText? "tuple[()]".toList =
      some (.subscript ⟨0, 9⟩ (.name ⟨0, 5⟩ "tuple") (.tuple ⟨6, 8⟩ [])) := by decide +kernel
  have htuple' : Expr.ofText? "tuple[(())]".toList =
      some (.subscript ⟨0, 11⟩ (.name ⟨0, 5⟩ "tuple") (.paren ⟨6, 10⟩ (.tuple ⟨7, 9⟩ []))) := by
    decide +kernel
  have hcallable : Expr.ofText? "Callable[[int]]".toList =
      some (.subscript ⟨0, 15⟩ (.name ⟨0, 8⟩ "Callable")
        (.list ⟨9, 14⟩ [.name ⟨10, 13⟩ "int"])) := by decide +kernel
  have hcallable' : Expr.ofText? "Callable[([int])]".toList =
      some (.subscript ⟨0, 17⟩ (.name ⟨0, 8⟩ "Callable")
        (.paren ⟨9, 16⟩ (.list ⟨10, 15⟩ [.name ⟨11, 14⟩ "int"]))) := by decide +kernel
  exact ⟨⟨quotedType?_eq hliteral rfl, quotedType?_eq hliteral' rfl⟩,
    ⟨quotedType?_eq htuple rfl, quotedType?_eq htuple' rfl⟩,
    quotedType?_eq hcallable rfl, quotedType?_eq hcallable' rfl⟩

end Readings

end TypeReveal
