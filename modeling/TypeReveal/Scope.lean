import TypeReveal.Tree.Block

/-!
# Scopes

Names are looked up from a **site**: the scopes around it, innermost first, and the point of the
text at which it stands.

* A function definition binds its parameters and what its body binds, a class definition and the
  file what their bodies bind.  The branches of a conditional belong to the scope around it.
* The body of a class is visible to the statements directly in it, not from functions in it.
* In one scope the last binding that ends before the name counts, or else the last one; a binding
  that encloses the site never counts.

An expression that was quoted in a string stands, whole, where the string does.
-/

set_option autoImplicit false
namespace TypeReveal

/-- What a name is bound by. -/
inductive Binding where
  /-- A binding, a function, a class or a parameter. -/
  | declaration (place : Place)
  | imported (place : Place)

namespace Binding

/-- The place that binds the name. -/
def place : Binding → Place
  | declaration place | imported place => place

end Binding

/-! ## Bindings of a scope -/

/-- The bindings of `name` that a statement other than a conditional makes in the scope it belongs
to. -/
def Place.bindings (name : String) (place : Place) : List Binding :=
  match place.node with
  | .stmt (.function _ declared ..) | .stmt (.classDef _ declared ..)
  | .stmt (.binding _ declared ..) =>
    if declared == name then [.declaration place] else []
  | .stmt (.imports _ _ names) => if names.contains name then [.imported place] else []
  | _ => []

/-- The bindings of `name` in a scope; a class counts as one only if it is `open`. -/
def Place.scopeBindings (name : String) (classOpen : Bool) (scope : Place) : List Binding :=
  let inBody := scope.flatStmts.flatMap (·.bindings name)
  match scope.node with
  | .stmt (.function ..) =>
    (scope.params.filter (·.declared? == some name)).map .declaration ++ inBody
  | .stmt (.classDef ..) => if classOpen then inBody else []
  | .file .. => inBody
  | _ => []

/-! ## Sites -/

/-- Where names are looked up. -/
structure Site where
  /-- The places above, innermost first. -/
  above : List Place
  /-- The places that the site is at or below. -/
  inside : List Place
  /-- Where the string stands that the expression was quoted in. -/
  quoted? : Option Nat := none

/-- The site of a place. -/
def Place.site (place : Place) : Site := { above := place.ancestors, inside := place.chain }

/-- The site of the expressions directly below a place. -/
def Place.interior (place : Place) : Site := { above := place.chain, inside := place.chain }

namespace Site

/-- The site of what is quoted in a string that stands at `start`. -/
def quote (site : Site) (start : Nat) : Site :=
  { site with quoted? := some (site.quoted?.getD start) }

/-- Whether the expressions of a site were quoted in a string. -/
def isQuoted (site : Site) : Bool := site.quoted?.isSome

/-- The binding that counts at `position`, of those of one scope. -/
def pick? (site : Site) (position : Nat) (bindings : List Binding) : Option Binding :=
  let usable := bindings.filter fun b => !site.inside.any (· == b.place)
  let before := usable.filter fun b => b.place.span.stop ≤ position
  before.getLast? <|> usable.getLast?

/-- The binding of `name` in the innermost of `scopes` that has one that counts. -/
def lookupIn (site : Site) (position : Nat) (name : String) (classOpen : Bool) :
    List Place → Option Binding
  | [] => none
  | scope :: scopes =>
    site.pick? position (scope.scopeBindings name classOpen) <|>
      lookupIn site position name (classOpen && !scope.node.isFunction) scopes

/-- The binding of a name that stands at `start`. -/
def lookup (site : Site) (start : Nat) (name : String) : Option Binding :=
  site.lookupIn (site.quoted?.getD start) name true site.above

/-- The binding of the name that an expression is. -/
def bindingOf (site : Site) (e : Expr) : Option Binding :=
  match e with
  | .name span name => site.lookup span.start name
  | _ => none

end Site

/-! ## Aliases -/

/-- The name that a declaration is an alias of: the value of a binding without annotation. -/
def Place.aliased? (place : Place) : Option Expr :=
  match place.node with
  | .stmt (.binding _ _ none (some (.name span name))) => some (.name span name)
  | _ => none

/-- The declaration or import that a name stands for after at most `steps` steps, of which all but
the last are aliases. -/
def Site.follow : Nat → Site → Expr → Option Place
  | 0, _, _ => none
  | steps + 1, site, e => do
    let place := (← site.bindingOf e).place
    match place.aliased? with
    | some e => Site.follow steps place.interior e
    | none => some place

/-- How many steps of aliases are followed. -/
def aliasSteps : Nat := 32

/-- The declaration or import that a name stands for when aliases are followed. -/
def Site.followAliases (site : Site) (e : Expr) : Option Place := Site.follow aliasSteps site e

/-! ## Declarations of a file -/

/-- Whether a place is a binding or a function. -/
def Place.isDeclaration (place : Place) : Bool :=
  match place.node with
  | .stmt (.binding ..) | .stmt (.function ..) => true
  | _ => false

/-- All bindings and functions of a file, in the order of the text. -/
def Place.declarations (file : Place) : List Place := file.preorder.filter isDeclaration

/-- The first binding, function or parameter that declares `name`. -/
def Place.declarationOf? (file : Place) (name : String) : Option Place :=
  file.preorder.find? fun place =>
    match place.node with
    | .stmt (.binding ..) | .stmt (.function ..) | .param _ => place.declared? == some name
    | _ => false

end TypeReveal
