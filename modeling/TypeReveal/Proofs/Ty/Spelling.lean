import TypeReveal.Proofs.Annotation.Denotes
import TypeReveal.Proofs.Ty.Operands

/-!
# Types that are shown as annotations

The short form of many types is an annotation for the type: read again, it denotes an equal type.
Such a type is `Ty.Spellable`; callables and classes of a file are not, and a literal text must be
typed, since the escapes of other characters are not read back.

* `Ty.Spellable.exists_hint` — the short form is a compact form of a hint that denotes the type.  A
  union is taken apart into its operands, the `Parts` that are read one after the other; one of them
  stands for all literals, so the members come back in another order.

A hint for a type is an expression that is written as the type is shown, is made of the forms that
annotations have, and denotes the type by the rules for annotations.  There is one for each
constructor.  Names and `Any` are names, a class with arguments is a subscript, a literal an
argument of `Literal`, and a union joins its parts by bars.

What is compact about the form is its blanks: a type is shown without blanks other than those after
commas and around bars, and an expression can be written in many ways.  The reader of expressions is
known to read compact forms back.
-/

set_option autoImplicit false
namespace TypeReveal

/-- Whether a literal's value is not a text, or a text that can be typed. -/
def Literal.isTyped : Literal → Bool
  | str text => text.toList.all TypeReveal.isTyped
  | _ => true

namespace Ty

/-- **A type that is shown as an annotation for it.** -/
inductive Spellable : Ty → Prop
  | unknown : Spellable unknown
  | literal {value : Literal} (h : value.isTyped = true) : Spellable (literal value)
  | noneType : Spellable noneType
  | ofClass {name : String} (h : name ∈ knownClasses) : Spellable (ofClass name)
  | nominal {name : String} {args : List Ty} (hname : name ∈ knownClasses)
    (htuple : name ≠ "tuple") (htype : name ≠ "type") (hne : args ≠ [])
    (h : ∀ ty ∈ args, Spellable ty) : Spellable (nominal name args)
  | classValue {ty : Ty} (h : Spellable ty) : Spellable (classValue ty)
  | tuple {elems : List Ty} (h : ∀ ty ∈ elems, Spellable ty) : Spellable (tuple elems)
  | union {members : List Ty} (htwo : 2 ≤ members.length) (hflat : Flat members)
    (h : ∀ ty ∈ members, Spellable ty) : Spellable (union members)

/-- A spellable type is shown without an arrow of its own. -/
theorem Spellable.isArrow {ty : Ty} (h : ty.Spellable) : ty.isArrow = false := by
  cases h <;> rfl

end Ty

/-! ## Hints for types

The operands of a union become the parts of an expression with bars.  Joined from the left, they
denote the union of the types that the parts stand for, each in its turn. -/

/-- A hint whose compact form is `text` and that denotes the union of some types. -/
structure Expr.IsHintFor (e : Expr) (s : Stratum) (text : List Char) (tys : List Ty) : Prop where
  compact : e.Compact s text
  isHint : e.isHint = true
  denotesAll : e.DenotesAll tys

/-- The texts of the parts of a union, and the types that the parts stand for. -/
inductive Parts : List (List Char) → List Ty → Prop
  | nil : Parts [] []
  | cons {e : Expr} {text : List Char} {texts : List (List Char)} {tys more : List Ty}
    (h : e.IsHintFor .primary text tys) (hs : Parts texts more) :
    Parts (text :: texts) (tys ++ more)

theorem intercalate_append_cons {α : Type} (sep text next : List α) (more : List (List α)) :
    List.intercalate sep ((text ++ (sep ++ next)) :: more) =
      List.intercalate sep (text :: next :: more) := by
  cases more with
  | nil => simp
  | cons => simp [List.intercalate_cons_cons]

namespace Parts

variable {texts : List (List Char)} {text : List Char} {tys more : List Ty} {e : Expr}

/-- The parts of a union after what has been joined. -/
theorem exists_joined (h : Parts texts more) (hfirst : e.IsHintFor .bar text tys) :
    ∃ e' : Expr, e'.IsHintFor .bar (List.intercalate " | ".toList (text :: texts))
      (tys ++ more) := by
  induction h generalizing e text tys with
  | nil => exact ⟨e, by simpa using hfirst⟩
  | @cons part next texts tys' more hpart _ ih =>
    have hjoined : (Expr.binary default .bar e part).IsHintFor .bar
        (text ++ (" | ".toList ++ next)) (tys ++ tys') :=
      { compact := hfirst.compact.binary hpart.compact
        isHint := by rw [Expr.isHint, hfirst.isHint, hpart.isHint, Bool.and_self]
        denotesAll := Expr.denotesAll_binary hfirst.denotesAll hpart.denotesAll }
    obtain ⟨e', he'⟩ := ih hjoined
    exact ⟨e', by rwa [intercalate_append_cons, List.append_assoc] at he'⟩

/-- **The parts of a union joined.** -/
theorem exists_hint (h : Parts texts tys) (hne : tys ≠ []) :
    ∃ e : Expr, e.IsHintFor .bar (List.intercalate " | ".toList texts) tys := by
  cases h with
  | nil => exact absurd rfl hne
  | cons hfirst hs =>
    exact hs.exists_joined { hfirst with compact := hfirst.compact.bar }

end Parts

/-- Operands that have hints are the parts of a union. -/
theorem parts_of_operands {operands : List Operand}
    (h : ∀ o ∈ operands, ∃ e : Expr, e.IsHintFor .primary o.text o.types) :
    Parts (operands.map Operand.text) (operands.flatMap Operand.types) := by
  induction operands with
  | nil => exact .nil
  | cons o operands ih =>
    obtain ⟨e, he⟩ := h o List.mem_cons_self
    exact .cons he (ih fun o ho => h o (List.mem_cons_of_mem _ ho))

/-! ## Hints for the constructors

A hint for a type that is no union binds as tightly as a name does and may stand wherever one may; a
union stands at the stratum of bars, which is also that of arguments in brackets. -/

namespace Expr

/-- **A hint for a type**: its compact form is how the type is shown, and it denotes the type. -/
structure IsHintOf (e : Expr) (ty : Ty) : Prop where
  compact : e.Compact (if ty.isUnion then .bar else .primary) ty.text
  isHint : e.isHint = true
  denotes : e.Denotes ty

section Hints

variable {e : Expr} {ty : Ty} {tys : List Ty} {name : String}

theorem IsHintOf.bar (h : e.IsHintOf ty) : e.Compact .bar ty.text := by
  have hcompact := h.compact
  split at hcompact
  · exact hcompact
  · exact hcompact.bar

/-- A hint for a type that is no union is a part of a union. -/
theorem IsHintOf.isHintFor (h : e.IsHintOf ty) (hty : ty.isUnion = false) :
    e.IsHintFor .primary ty.text [ty] where
  compact := by
    have hcompact := h.compact
    rwa [hty] at hcompact
  isHint := h.isHint
  denotesAll := denotesAll_of_denotes h.denotes hty

/-- Hints for types are arguments that denote them. -/
theorem exists_arguments (h : ∀ ty ∈ tys, ∃ e : Expr, e.IsHintOf ty) :
    ∃ es : List Expr, (∀ e ∈ es, e.isHint = true) ∧
      List.Forall₂ (Compact .bar) es (tys.map Ty.text) ∧ List.Forall₂ Denotes es tys := by
  induction tys with
  | nil => exact ⟨[], by simp, .nil, .nil⟩
  | cons ty tys ih =>
    obtain ⟨e, he⟩ := h ty List.mem_cons_self
    obtain ⟨es, hhints, hcompact, hdenotes⟩ := ih fun ty hty => h ty (List.mem_cons_of_mem _ hty)
    refine ⟨e :: es, ?_, .cons he.bar hcompact, .cons he.denotes hdenotes⟩
    exact List.forall_mem_cons.2 ⟨he.isHint, hhints⟩

/-- A name by itself. -/
theorem isHintOf_name (hfits : (Expr.name default name).fits .primary = true)
    (htext : ty.text = name.toList) (hty : ty.isUnion = false) (h : namedType? name = some ty) :
    (Expr.name default name).IsHintOf ty where
  compact := by
    rw [htext, hty]
    exact Compact.name hfits
  isHint := rfl
  denotes := denotes_name h

/-- The value of a literal. -/
theorem compact_literal {value : Literal} (h : value.isTyped = true) :
    Compact .bar value.expr value.text := by
  cases value with
  | int value => exact Compact.solid (t := .int value) rfl rfl rfl rfl
  | bool value =>
    cases value with
    | true => exact Compact.solid (t := .word "True") rfl (by decide) rfl rfl
    | false => exact Compact.solid (t := .word "False") rfl (by decide) rfl rfl
  | str text => exact Compact.str (List.all_eq_true.1 h)

/-- Literals that are shown together. -/
theorem isHintFor_literals {values : List Literal} (hne : values ≠ [])
    (h : ∀ value ∈ values, value.isTyped = true) :
    (withArguments "Literal" (values.map Literal.expr)).IsHintFor .primary (literalText values)
      (values.map Ty.literal) where
  compact := by
    refine Compact.withArguments (by decide) (by simpa using hne) ?_
    rw [List.forall₂_map_left_iff, List.forall₂_map_right_iff, List.forall₂_same]
    exact fun value hvalue => compact_literal (h value hvalue)
  isHint := rfl
  denotesAll := denotesAll_literals values

end Hints

end Expr

/-! ## Hints for types -/

theorem fits_of_mem_knownClasses {name : String} (h : name ∈ knownClasses) :
    (Expr.name default name).fits .primary = true :=
  (by decide : ∀ name ∈ knownClasses, (Expr.name default name).fits .primary = true) name h

theorem namedType?_of_mem_knownClasses {name : String} (h : name ∈ knownClasses) :
    namedType? name = some (Ty.ofClass name) := by
  simp only [knownClasses, List.mem_cons, List.not_mem_nil, or_false] at h
  rcases h with rfl | rfl | rfl | rfl | rfl | rfl | rfl | rfl | rfl | rfl | rfl | rfl | rfl <;> rfl

namespace Ty

variable {ty : Ty} {name : String} {args elems members : List Ty}

theorem exists_hint_nominal (hname : name ∈ knownClasses) (htuple : name ≠ "tuple")
    (htype : name ≠ "type") (hne : args ≠ []) (h : ∀ ty ∈ args, ∃ e : Expr, e.IsHintOf ty) :
    ∃ e : Expr, e.IsHintOf (nominal name args) := by
  obtain ⟨es, hhints, hcompact, hdenotes⟩ := Expr.exists_arguments h
  obtain ⟨arg, args, rfl⟩ := List.exists_cons_of_ne_nil hne
  have hes : es ≠ [] := by
    rintro rfl
    cases hdenotes
  refine ⟨_, ⟨?_, rfl, Expr.denotes_nominal hname htuple htype hhints hdenotes⟩⟩
  rw [text_nominal]
  exact .withArguments (fits_of_mem_knownClasses hname) hes hcompact

theorem exists_hint_classValue (h : ∃ e : Expr, e.IsHintOf ty) :
    ∃ e : Expr, e.IsHintOf (classValue ty) := by
  obtain ⟨e, he⟩ := h
  have hcompact := Expr.Compact.withArguments (s := .primary)
    (fits_of_mem_knownClasses (by decide : "type" ∈ knownClasses)) (List.cons_ne_nil e [])
    (.cons he.bar .nil)
  exact ⟨_, { compact := hcompact
              isHint := rfl
              denotes := Expr.denotes_classValue he.isHint he.denotes }⟩

theorem exists_hint_tuple (h : ∀ ty ∈ elems, ∃ e : Expr, e.IsHintOf ty) :
    ∃ e : Expr, e.IsHintOf (tuple elems) := by
  obtain ⟨es, hhints, hcompact, hdenotes⟩ := Expr.exists_arguments h
  have hfits := fits_of_mem_knownClasses (by decide : "tuple" ∈ knownClasses)
  refine ⟨_, ⟨?_, rfl, Expr.denotes_tuple hhints hdenotes⟩⟩
  cases hdenotes with
  | nil => exact .withoutArguments hfits
  | @cons e ty es elems =>
    rw [text_tuple]
    exact .withArguments hfits (List.cons_ne_nil e es) hcompact

/-- The literals of a union, if there are any, have a hint together. -/
theorem exists_hint_literals (hspellable : ∀ ty ∈ members, ty.Spellable)
    (hany : members.any isLiteral = true) :
    ∃ e : Expr, e.IsHintFor .primary (literalText (literals members))
      (members.filter isLiteral) := by
  rw [← map_literals]
  refine ⟨_, Expr.isHintFor_literals ?_ fun value hvalue => ?_⟩
  · intro hnil
    obtain ⟨ty, hmem, hty⟩ := List.any_eq_true.1 hany
    have hfilter : ty ∈ members.filter isLiteral := List.mem_filter.2 ⟨hmem, hty⟩
    rw [← map_literals, hnil] at hfilter
    cases hfilter
  · have hmem : literal value ∈ members :=
      List.mem_of_mem_filter (map_literals members ▸ List.mem_map_of_mem hvalue)
    cases hspellable _ hmem with
    | literal htyped => exact htyped

/-- The members of a union give it a hint, the literals among them together. -/
theorem exists_hint_union (hspellable : ∀ ty ∈ members, ty.Spellable)
    (htwo : 2 ≤ members.length) (hflat : Flat members)
    (h : ∀ ty ∈ members, ∃ e : Expr, e.IsHintOf ty) : ∃ e : Expr, e.IsHintOf (union members) := by
  have hown : ∀ ty ∈ members, ∃ e : Expr, e.IsHintFor .primary ty.text [ty] := by
    intro ty hty
    obtain ⟨e, he⟩ := h ty hty
    exact ⟨e, he.isHintFor (hflat.notUnion ty hty)⟩
  have hparts : Parts ((union members).operands.map Operand.text)
      ((union members).operands.flatMap Operand.types) := by
    refine parts_of_operands fun o ho => ?_
    rcases of_mem_operandsFrom ho with ⟨rfl, hany⟩ | ⟨ty, hty, -, rfl⟩
    · rw [Operand.types, map_literals]
      exact exists_hint_literals hspellable hany
    · rw [Operand.text, (hspellable ty hty).isArrow, if_neg Bool.false_ne_true]
      exact hown ty hty
  have hperm : ((union members).operands.flatMap Operand.types).Perm members :=
    types_operands (union members)
  have hne : (union members).operands.flatMap Operand.types ≠ [] := by
    intro hnil
    rw [← hperm.length_eq, hnil] at htwo
    cases htwo
  obtain ⟨e, he⟩ := hparts.exists_hint hne
  rw [← text_of_operands rfl] at he
  exact ⟨e, { compact := he.compact
              isHint := he.isHint
              denotes := Expr.denotes_union he.denotesAll hperm htwo hflat }⟩

/-- **A spellable type has a hint** that is shown as the type is.  By induction on the type, with
the hints of its parts as arguments.  The union of the parts denotes a type that is equal to it by
`==`: literals are shown at the place of the first of them, so the order of members can differ. -/
theorem Spellable.exists_hint (h : ty.Spellable) : ∃ e : Expr, e.IsHintOf ty := by
  induction h with
  | unknown =>
    have hfits : (Expr.name default "Any").fits .primary = true := by decide
    exact ⟨_, Expr.isHintOf_name hfits rfl rfl rfl⟩
  | @literal value h =>
    have hliteral := Expr.isHintFor_literals (List.cons_ne_nil value [])
      fun v hv => List.mem_singleton.1 hv ▸ h
    exact ⟨_, { compact := hliteral.compact
                isHint := hliteral.isHint
                denotes := Expr.denotes_of_denotesAll hliteral.denotesAll rfl }⟩
  | noneType =>
    exact ⟨.none default, { compact := .solid (t := .word "None") rfl (by decide) rfl rfl
                            isHint := rfl
                            denotes := Expr.denotes_none }⟩
  | ofClass h =>
    exact ⟨_, Expr.isHintOf_name (fits_of_mem_knownClasses h) rfl rfl
      (namedType?_of_mem_knownClasses h)⟩
  | nominal hname htuple htype hne _ ih => exact exists_hint_nominal hname htuple htype hne ih
  | classValue _ ih => exact exists_hint_classValue ih
  | tuple _ ih => exact exists_hint_tuple ih
  | union htwo hflat h ih => exact exists_hint_union h htwo hflat ih

end Ty

end TypeReveal
