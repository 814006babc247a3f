import TypeReveal.Annotation.Extended

/-!
# Annotations step by step

A **reading** asks what an annotation denotes, by the extended rules or by the standard ones.
`Reading.step` answers one reading by further ones: it takes a single step of the rules and leaves
the rest to its argument `ask`.  `Reading.eval` does so with readings nested less than a given depth
and fails at that depth.  Nothing else bounds the readings of `extended`: the strings of an
annotation are not counted.  Of `standard` no more is counted than the rules themselves count, the
aliases and strings on the way.

A **walk** follows aliases, one at a time.

What a reading answers is what its annotation means (`Reading.meaning`), which the readers find that
count their steps down.
-/

set_option autoImplicit false
namespace TypeReveal

/-! ## Readings -/

/-- An attempt at a reading; it fails when readings are nested too deep. -/
abbrev Attempt : Type → Type := Option

/-- An annotation that is to be read. -/
inductive Reading where
  /-- By the extended rules. -/
  | extended (strict : Bool) (site : Site) (e : Expr)
  /-- By the standard rules, `depth` aliases and strings deep in another annotation. -/
  | standard (depth : Nat) (site : Site) (e : Expr)

namespace Reading

/-- Where the names of the annotation are looked up. -/
def site : Reading → Site
  | extended _ site _ | standard _ site _ => site

/-- The annotation. -/
def expr : Reading → Expr
  | extended _ _ e | standard _ _ e => e

/-- **What a reading answers.** -/
def meaning : Reading → Option Ty
  | extended strict site e => TypeReveal.extended site e strict
  | standard depth site e => readWithin (annotationDepth + 1 - depth) site e

/-- The first of two rules that applies. -/
def orElse (first second : Attempt (Option Ty)) : Attempt (Option Ty) := do
  match ← first with
  | some ty => return some ty
  | none => second

section

variable (ask : Reading → Attempt (Option Ty))

/-- The type that an annotation denotes, or the unknown one. -/
def type (reading : Reading) : Attempt Ty := return (← ask reading).getD .unknown

/-- What an annotation denotes that may be missing. -/
def any (reading? : Option Reading) : Attempt (Option Ty) :=
  match reading? with
  | some reading => ask reading
  | none => return none

/-! ## The extended rules -/

/-- The callable with some parameters and the result in a text, which is read after them. -/
def callable (site : Site) (params : List Expr) (resultText : List Char) :
    Attempt (Option Ty) := do
  let params ← params.mapM fun e => type ask (.extended false site e)
  match Expr.ofText? resultText with
  | some result =>
    return some (.callable (params.map .anonymous) (← type ask (.extended false site result)))
  | none => return none

/-- The callable that a text quotes. -/
def signature (site : Site) (text : List Char) : Attempt (Option Ty) :=
  if isSignature text then
    match signatureParts? text with
    | some (paramsText, resultText) =>
      match (Expr.ofText? paramsText).bind signatureParams? with
      | some params => callable ask site params resultText
      | none => return none
    | none => return none
  else return none

/-- The meaning of an annotation that has no extended form of its own. -/
def fallback (strict : Bool) (site : Site) (e : Expr) : Attempt (Option Ty) :=
  if strict then return none
  else
    orElse
      (match e with
      | .str span text => signature ask (site.quote span.start) text.toList
      | _ => return none)
      (ask (.standard 0 site e))

/-- The types of a tuple. -/
def tuple (site : Site) (elems : List Expr) : Attempt (Option Ty) := do
  return some (.tuple (← elems.mapM fun e => type ask (.extended false site e)))

/-- One step of the extended rules. -/
def extendedStep (strict : Bool) (site : Site) : Expr → Attempt (Option Ty)
  | .int _ value => return some (.literal (.int value))
  | .bool _ value => return some (.literal (.bool value))
  | .binary span .bar lhs rhs =>
    orElse
      (do
        let left ← ask (.extended false site lhs)
        return Ty.union? left (← ask (.extended false site rhs)))
      (fallback ask strict site (.binary span .bar lhs rhs))
  | .binary span .amp lhs rhs =>
    orElse (ask (.extended false site lhs))
      (fallback ask strict site (.binary span .amp lhs rhs))
  | .dangling span .amp lhs =>
    orElse (ask (.extended false site lhs)) (fallback ask strict site (.dangling span .amp lhs))
  | .tuple _ elems => tuple ask site elems
  | .paren _ (.tuple _ elems) => tuple ask site elems
  | .paren span inner =>
    orElse (ask (.extended false site inner)) (fallback ask strict site (.paren span inner))
  | e => fallback ask strict site e

/-! ## The standard rules -/

/-- The parameters among the arguments of `Callable`. -/
def callableParams : List Expr → List Expr
  | .list _ elems :: _ => elems
  | _ => []

/-- The type that a head makes of the arguments in its brackets. -/
def apply (depth : Nat) (site : Site) (args : List Expr) (head : Head) : Attempt (Option Ty) :=
  let typeOf (e : Expr) : Attempt Ty := type ask (.standard depth site e)
  match head with
  | .declared name => return some (.nominal name (← args.mapM typeOf))
  | .special name =>
    match canonicalName name with
    | "Final" | "ClassVar" | "Annotated" => any ask (args.head?.map (.standard depth site))
    | "Optional" =>
      match args with
      | arg :: _ => return Ty.union? (some (← typeOf arg)) (some Ty.noneType)
      | [] => return none
    | "Union" => return Ty.unionOf (← args.mapM typeOf)
    | "Literal" => return Ty.unionOf (args.filterMap literalArgument?)
    | "tuple" => return some (.tuple (← args.mapM typeOf))
    | "type" =>
      match args with
      | arg :: _ => return some (Ty.classValue (← typeOf arg))
      | [] => return none
    | "Callable" => do
      let params ← callableParams args |>.mapM typeOf
      match args[1]? with
      | some result => return some (.callable (params.map .anonymous) (← typeOf result))
      | none => return some (.callable (params.map .anonymous) .unknown)
    | name =>
      if isKnownClass name then return some (.nominal name (← args.mapM typeOf)) else return none

/-- The arguments in the brackets of a subscript. -/
def arguments : Expr → List Expr
  | .tuple _ elems => elems
  | index => [index]

/-- One step of the standard rules. -/
def standardStep (depth : Nat) (site : Site) : Expr → Attempt (Option Ty)
  | .none _ => return some Ty.noneType
  | .str span text =>
    any ask ((Expr.ofText? text.toList).map (.standard (depth + 1) (site.quote span.start)))
  | .paren _ inner => ask (.standard depth site inner)
  | .binary _ .bar lhs rhs => do
    let left ← ask (.standard depth site lhs)
    return Ty.union? left (← ask (.standard depth site rhs))
  | .name span name =>
    match site.lookup span.start name with
    | some (.declaration place) =>
      match place.node with
      | .stmt (.classDef _ declared ..) => return some (Ty.ofClass declared)
      | _ => any ask (place.aliasValue?.map (.standard (depth + 1) place.interior))
    | _ => return namedType? name
  | .member span value attr => return (hintName? (.member span value attr)).bind namedType?
  | .subscript _ value index =>
    match head? site value with
    | some head => apply ask depth site (arguments index) head
    | none => return none
  | _ => return none

/-! ## Evaluation -/

/-- **Answers a reading by further ones.** -/
def step : Reading → Attempt (Option Ty)
  | extended strict site e => extendedStep ask strict site e
  | standard depth site e =>
    if annotationDepth < depth then return none else standardStep ask depth site e

end

/-- Answers a reading by readings that are nested less than `depth` deep. -/
def eval : (depth : Nat) → Reading → Attempt (Option Ty)
  | 0, _ => failure
  | depth + 1, reading => reading.step (eval depth)

end Reading

/-! ## Walks -/

/-- A walk along aliases, at a name after so many of them. -/
structure Walk where
  taken : Nat
  site : Site
  name : Expr

namespace Walk

/-- Takes a walk along the next alias, or else ends it with the place that was looked for. -/
def step (walk : Walk) : Walk ⊕ Option Place :=
  if walk.taken < aliasSteps then
    match walk.site.bindingOf walk.name with
    | some b =>
      match b.place.aliased? with
      | some name => .inl ⟨walk.taken + 1, b.place.interior, name⟩
      | none => .inr (some b.place)
    | none => .inr none
  else .inr none

/-- What a walk ends with, if it does so within some steps. -/
def run : (steps : Nat) → Walk → Attempt (Option Place)
  | 0, _ => failure
  | steps + 1, walk =>
    match walk.step with
    | .inl further => run steps further
    | .inr place? => some place?

end Walk
end TypeReveal
