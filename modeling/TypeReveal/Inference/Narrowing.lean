import TypeReveal.Annotation.Standard

/-!
# Narrowing

In the first branch of `if isinstance(x, T):` the name `x` has the type `T`, the check of the
innermost such conditional counting.  A check does not reach into functions and classes, nor does it
count when the branches of its conditional bind the name anew.
-/

set_option autoImplicit false
namespace TypeReveal

/-! ## Checks -/

mutual

/-- The type of the instances that the second argument of a check admits. -/
def admitted? (site : Site) : Expr → Option Ty
  | .paren _ inner => admitted? site inner
  | .tuple _ elems => Ty.unionOf (admittedAll site elems)
  | e => standard site e

/-- The types of the instances that the parts of a tuple of classes admit. -/
def admittedAll (site : Site) : List Expr → List Ty
  | [] => []
  | e :: es => (admitted? site e).toList ++ admittedAll site es

end

/-- The type that a condition gives to `name`, if it is a check of that name. -/
def checkedType? (site : Site) (name : String) : Expr → Option Ty
  | .call _ (.name _ function) [.name _ subject, info] =>
    if function = "isinstance" && subject = name then admitted? site info else none
  | _ => none

/-! ## Conditionals -/

/-- The type that the conditionals among `above` give to a name.  `inner` is the place below the
first of them on the way to the name, and `binding?` is what binds the name. -/
def narrowedIn (name : String) (binding? : Option Binding) (inner : Option Place) :
    List Place → Option Ty
  | [] => none
  | place :: above =>
    match place.node with
    | .stmt (.function ..) | .stmt (.classDef ..) => none
    | .stmt (.conditional _ cond body _) =>
      let inBody := inner.any fun p => (place.stmts.take body.length).any (· == p)
      let rebound := binding?.any fun b => b.place.isInside place
      let checked := if inBody && !rebound then checkedType? place.interior name cond else none
      checked <|> narrowedIn name binding? (some place) above
    | _ => narrowedIn name binding? (some place) above

/-- The type that a conditional around it gives to a name. -/
def narrowed? (site : Site) : Expr → Option Ty
  | .name span name =>
    if site.isQuoted then none
    else narrowedIn name (site.lookup span.start name) none site.above
  | _ => none

end TypeReveal
