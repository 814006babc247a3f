import TypeReveal.Proofs.Annotation.Denotes
import TypeReveal.Proofs.Annotation.Forms
import TypeReveal.Proofs.Annotation.Lengths

/-!
# Quoted annotations

What is quoted in a string stands, whole, where the string does.  So the spans of a quoted
annotation are of no account, neither for its standard meaning (`standard_bare`) nor for its
extended one (`extended_bare`).
-/

set_option autoImplicit false
namespace TypeReveal

variable {site : Site} {deeper : Site → Expr → Option Ty}

/-! ## Sites

A quoted site looks names up at one position, that of the string, whatever the spans of the names.
-/

namespace Site

theorem isQuoted_quote (site : Site) (start : Nat) : (site.quote start).isQuoted = true := rfl

/-- Quoted once, quoted for good. -/
theorem quote_of_isQuoted (h : site.isQuoted = true) (start : Nat) : site.quote start = site := by
  obtain ⟨above, inside, quoted?⟩ := site
  cases quoted? with
  | none => cases h
  | some => rfl

theorem lookup_of_isQuoted (h : site.isQuoted = true) (start start' : Nat) (name : String) :
    site.lookup start name = site.lookup start' name := by
  obtain ⟨above, inside, quoted?⟩ := site
  cases quoted? with
  | none => cases h
  | some => rfl

end Site

/-! ## Subscripts

Heads are decided by names, and what a head makes of its arguments depends on what these denote and
on the literals that they are. -/

theorem hintName?_bare (e : Expr) : hintName? e.bare = hintName? e := by
  cases e with
  | member _ value => cases value <;> rfl
  | _ => rfl

theorem head?_bare (h : site.isQuoted = true) (e : Expr) : head? site e.bare = head? site e := by
  cases e with
  | name span name => rw [Expr.bare, head?, head?, site.lookup_of_isQuoted h _ span.start]
  | member span value attr =>
    exact congrArg (Option.map _) (hintName?_bare (.member span value attr))
  | _ => rfl

theorem literalArgument?_bare (e : Expr) : literalArgument? e.bare = literalArgument? e := by
  cases e <;> rfl

namespace Argument

/-- An argument without its spans. -/
def bare (arg : Argument) : Argument := { arg with expr := arg.expr.bare }

@[simp] theorem type_bare (arg : Argument) : arg.bare.type = arg.type := rfl

@[simp] theorem type?_bare (arg : Argument) : arg.bare.type? = arg.type? := rfl

@[simp] theorem elems_bare (arg : Argument) : arg.bare.elems = arg.elems := rfl

@[simp] theorem literalArgument?_expr_bare (arg : Argument) :
    literalArgument? arg.bare.expr = literalArgument? arg.expr := literalArgument?_bare arg.expr

end Argument

/-- A head looks at the meanings of its arguments and at their literals. -/
theorem Head.apply_bare (head : Head) (args : List Argument) :
    head.apply (args.map Argument.bare) = head.apply args := by
  have htypes : (args.map Argument.bare).map Argument.type = args.map Argument.type := by simp
  cases head with
  | declared name => rw [Head.apply, Head.apply, htypes]
  | special name =>
    simp only [Head.apply, htypes, List.head?_map, List.getElem?_map, List.filterMap_map,
      Option.map_map, Option.bind_map, Function.comp_def, Argument.type_bare, Argument.type?_bare,
      Argument.elems_bare, Argument.literalArgument?_expr_bare]

/-! ## The standard meaning

The statement has two sites and two ways to read in other places, and a hypothesis about single
tokens, so that it can be used for a text in a string as well as for the same text in another file.
-/

theorem readNameWith_of_isQuoted (h : site.isQuoted = true) (start start' : Nat) (name : String) :
    readNameWith deeper site start name = readNameWith deeper site start' name := by
  rw [readNameWith, readNameWith, site.lookup_of_isQuoted h start start']

theorem readQuotedWith_of_isQuoted (h : site.isQuoted = true) (start start' : Nat)
    (text : String) :
    readQuotedWith deeper site start text = readQuotedWith deeper site start' text := by
  rw [readQuotedWith, readQuotedWith, site.quote_of_isQuoted h, site.quote_of_isQuoted h]

/-- An expression as an argument of a subscript. -/
def argumentWith (deeper : Site → Expr → Option Ty) (site : Site) : Expr → Argument
  | .list span elems => .ofList (.list span elems) fun _ => readAllWith deeper site elems
  | e => .ofType e fun _ => readWith deeper site e

theorem argumentsWith_eq (es : List Expr) :
    argumentsWith deeper site es = es.map (argumentWith deeper site) := by
  induction es with
  | nil => rfl
  | cons e es ih =>
    rw [List.map_cons, ← ih]
    cases e <;> rfl

theorem readAllWith_eq (es : List Expr) :
    readAllWith deeper site es = es.map fun e => (readWith deeper site e).getD .unknown := by
  induction es with
  | nil => rfl
  | cons e es ih => rw [readAllWith, ih, List.map_cons]

/-- The arguments in the brackets of a subscript. -/
def subscriptArguments (deeper : Site → Expr → Option Ty) (site : Site) : Expr → List Argument
  | .tuple _ elems => argumentsWith deeper site elems
  | e => [argumentWith deeper site e]

theorem readWith_subscript (span : Span) (value index : Expr) :
    readWith deeper site (.subscript span value index) =
      (head? site value).bind fun head => head.apply (subscriptArguments deeper site index) := by
  cases index <;> rfl

section Alike

variable {deeper' : Site → Expr → Option Ty} {site' : Site} {e value index : Expr}
  {elems : List Expr}

/-- An annotation denotes at `site` what it denotes at `site'` without its spans: alone, as an
argument, in the brackets of a subscript, and in front of them. -/
structure ReadsBare (deeper deeper' : Site → Expr → Option Ty) (site site' : Site) (e : Expr) :
    Prop where
  type? : readWith deeper' site' e.bare = readWith deeper site e
  argument : argumentWith deeper' site' e.bare = (argumentWith deeper site e).bare
  arguments : subscriptArguments deeper' site' e.bare =
    (subscriptArguments deeper site e).map Argument.bare
  head : head? site' e.bare = head? site e

/-- The single tokens of an annotation denote at `site` what they denote at `site'`. -/
def Expr.AtomsAgree (deeper deeper' : Site → Expr → Option Ty) (site site' : Site) (e : Expr) :
    Prop :=
  ∀ c, c = e ∨ e.HasPart c → c.isAtom = true →
    readWith deeper' site' c.bare = readWith deeper site c ∧ head? site' c.bare = head? site c

theorem Expr.AtomsAgree.part {c : Expr} (h : e.AtomsAgree deeper deeper' site site')
    (hc : c ∈ e.children) : c.AtomsAgree deeper deeper' site site' := by
  rintro d (rfl | hd)
  · exact h d (.inr (hasPart_of_mem hc))
  · exact h d (.inr ((hasPart_of_mem hc).trans hd))

namespace ReadsBare

theorem of_type? (he : e.isArgument = true)
    (h : readWith deeper' site' e.bare = readWith deeper site e)
    (hhead : head? site' e.bare = head? site e) : ReadsBare deeper deeper' site site' e := by
  have hargument : Argument.ofType e.bare (fun _ => readWith deeper' site' e.bare) =
      Argument.ofType e.bare fun _ => readWith deeper site e := by rw [h]
  cases e with
  | tuple | list => cases he
  | _ => exact ⟨h, hargument, congrArg (fun arg => [arg]) hargument, hhead⟩

theorem atom (he : e.isAtom = true) (h : e.AtomsAgree deeper deeper' site site') :
    ReadsBare deeper deeper' site site' e := by
  obtain ⟨htype, hhead⟩ := h e (.inl rfl) he
  refine of_type? ?_ htype hhead
  cases e with
  | tuple | list => cases he
  | _ => rfl

theorem list (h : ∀ e ∈ elems, ReadsBare deeper deeper' site site' e) (span : Span) :
    ReadsBare deeper deeper' site site' (.list span elems) := by
  have helems : readAllWith deeper' site' (Expr.bareAll elems) = readAllWith deeper site elems := by
    rw [readAllWith_eq, readAllWith_eq, Expr.bareAll_eq_map, List.map_map]
    refine List.map_congr_left fun e he => ?_
    rw [Function.comp, (h e he).type?]
  have hargument : argumentWith deeper' site' (Expr.list span elems).bare =
      (argumentWith deeper site (.list span elems)).bare :=
    congrArg (fun tys => Argument.ofList _ fun _ => tys) helems
  exact ⟨rfl, hargument, congrArg (fun arg => [arg]) hargument, rfl⟩

theorem tuple (h : ∀ e ∈ elems, ReadsBare deeper deeper' site site' e) (span : Span) :
    ReadsBare deeper deeper' site site' (.tuple span elems) := by
  refine ⟨rfl, rfl, ?_, rfl⟩
  rw [Expr.bare, subscriptArguments, subscriptArguments, argumentsWith_eq, argumentsWith_eq,
    Expr.bareAll_eq_map, List.map_map, List.map_map]
  exact List.map_congr_left fun e he => (h e he).argument

/-- **A subscript**: its head is the same, and its arguments denote the same. -/
theorem subscript (hvalue : ReadsBare deeper deeper' site site' value)
    (hindex : ReadsBare deeper deeper' site site' index) (span : Span) :
    ReadsBare deeper deeper' site site' (.subscript span value index) := by
  refine of_type? rfl ?_ rfl
  rw [Expr.bare, readWith_subscript, readWith_subscript, hvalue.head, hindex.arguments]
  simp only [Head.apply_bare]

end ReadsBare

mutual

/-- **The spans of an annotation** are of no account for what it denotes, and neither is its site,
but for its single tokens. -/
theorem readsBare : ∀ e : Expr, e.AtomsAgree deeper deeper' site site' →
    ReadsBare deeper deeper' site site' e
  | .none _, h | .int .., h | .float .., h | .bool .., h | .ellipsis _, h | .str .., h
  | .name .., h => .atom rfl h
  | .dangling .., _ | .call .., _ | .binary _ .amp .., _ => .of_type? rfl rfl rfl
  | .paren _ inner, h => .of_type? rfl (readsBare inner (h.part List.mem_cons_self)).type? rfl
  | .binary _ .bar lhs rhs, h =>
    .of_type? rfl (congrArg₂ Ty.union? (readsBare lhs (h.part List.mem_cons_self)).type?
      (readsBare rhs (h.part (List.mem_cons_of_mem _ List.mem_cons_self))).type?) rfl
  | .member span value attr, _ =>
    have hhint := hintName?_bare (.member span value attr)
    .of_type? rfl (congrArg (Option.bind · namedType?) hhint) (congrArg (Option.map _) hhint)
  | .tuple span elems, h => .tuple (readsBareAll elems fun _ he => h.part he) span
  | .list span elems, h => .list (readsBareAll elems fun _ he => h.part he) span
  | .subscript span value index, h =>
    .subscript (readsBare value (h.part List.mem_cons_self))
      (readsBare index (h.part (List.mem_cons_of_mem _ List.mem_cons_self))) span

theorem readsBareAll : ∀ es : List Expr, (∀ e ∈ es, e.AtomsAgree deeper deeper' site site') →
    ∀ e ∈ es, ReadsBare deeper deeper' site site' e
  | [], _ => fun _ he => absurd he List.not_mem_nil
  | e :: es, h =>
    have ⟨hhead, htail⟩ := List.forall_mem_cons.1 h
    List.forall_mem_cons.2 ⟨readsBare e hhead, readsBareAll es htail⟩

end

end Alike

/-- What is quoted stands, whole, where the string does. -/
theorem Expr.atomsAgree_of_isQuoted (h : site.isQuoted = true) (e : Expr) :
    e.AtomsAgree deeper deeper site site := by
  intro c _ hatom
  cases c with
  | name span name =>
    exact ⟨readNameWith_of_isQuoted h _ span.start name, head?_bare h (.name span name)⟩
  | str span text => exact ⟨readQuotedWith_of_isQuoted h _ span.start text, rfl⟩
  | int | float | bool | none | ellipsis => exact ⟨rfl, rfl⟩
  | _ => cases hatom

theorem standard_bare (h : site.isQuoted = true) (e : Expr) :
    standard site e.bare = standard site e := (readsBare e (e.atomsAgree_of_isQuoted h)).type?

/-- Quoted annotations that differ in their spans alone denote the same. -/
theorem standard_congr_bare (h : site.isQuoted = true) {e e' : Expr} (hbare : e.bare = e'.bare) :
    standard site e = standard site e' := by
  rw [← standard_bare h e, hbare, standard_bare h e']

/-- **A subscript** is what its head makes of its arguments. -/
theorem standard_subscript (span : Span) (value index : Expr) :
    standard site (.subscript span value index) = (head? site value).bind fun head =>
      head.apply (subscriptArguments (readWithin annotationDepth) site index) :=
  readWith_subscript span value index

/-- The type that a text denotes as an annotation that is quoted in a string at `start`, by the
standard rules. -/
def quotedType? (site : Site) (start : Nat) (text : List Char) : Option Ty :=
  (Expr.ofText? text).bind (standard (site.quote start))

/-- A quoted text denotes what the expression in it does, spans aside. -/
theorem quotedType?_eq {start : Nat} {text : List Char} {e e' : Expr}
    (h : Expr.ofText? text = some e) (hbare : e.bare = e'.bare) :
    quotedType? site start text = standard (site.quote start) e' := by
  rw [quotedType?, h, Option.bind_some, standard_congr_bare (site.isQuoted_quote start) hbare]

/-! ## The extended meaning -/

theorem signature?_bare (h : site.isQuoted = true) (span : Span) (text : String) :
    signature? site (.str default text) = signature? site (.str span text) := by
  rw [signature?, signatureWith, site.quote_of_isQuoted h]
  rw [signature?, signatureWith, site.quote_of_isQuoted h]

/-- What has no form of its own is as standard, quoted or not. -/
theorem extended_bare_of_isStandard (h : site.isQuoted = true) {e : Expr}
    (he : e.isStandard = true) (hbare : e.bare.isStandard = true) :
    extended site e.bare = extended site e := by
  rw [extended_of_isStandard he, extended_of_isStandard hbare, standard_bare h]

mutual

/-- **The spans of a quoted annotation** are of no account for its extended meaning. -/
theorem extended_bare (h : site.isQuoted = true) : ∀ e : Expr,
    extended site e.bare = extended site e
  | .int .. | .bool .. | .dangling _ .bar _ => rfl
  | .none _ | .float .. | .ellipsis _ | .call .. | .list .. | .name .. | .member ..
  | .subscript .. => extended_bare_of_isStandard h rfl rfl
  | .str span text => by
    have hstandard := standard_bare h (.str span text)
    rw [Expr.bare] at hstandard ⊢
    rw [extended_str, extended_str, signature?_bare h, hstandard]
  | .paren _ inner => by rw [Expr.bare, extended_paren, extended_paren, extended_bare h inner]
  | .binary _ .amp lhs _ => by rw [Expr.bare, extended_amp, extended_amp, extended_bare h lhs]
  | .dangling _ .amp lhs => by
    rw [Expr.bare, extended_dangling_amp, extended_dangling_amp, extended_bare h lhs]
  | .binary _ .bar lhs rhs => by
    rw [Expr.bare, extended_bar, extended_bar, extended_bare h lhs, extended_bare h rhs]
  | .tuple _ elems => by
    rw [Expr.bare, extended_tuple, extended_tuple, extendedAll_bare h elems]

theorem extendedAll_bare (h : site.isQuoted = true) : ∀ es : List Expr,
    ((Expr.bareAll es).map fun e => (extended site e).getD .unknown) =
      es.map fun e => (extended site e).getD .unknown
  | [] => rfl
  | e :: es => by
    rw [Expr.bareAll, List.map_cons, List.map_cons, extended_bare h e, extendedAll_bare h es]

end

/-- Quoted annotations that differ in their spans alone denote the same. -/
theorem extended_congr_bare (h : site.isQuoted = true) {e e' : Expr} (hbare : e.bare = e'.bare) :
    extended site e = extended site e' := by
  rw [← extended_bare h e, hbare, extended_bare h e']

end TypeReveal
