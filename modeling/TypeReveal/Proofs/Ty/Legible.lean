import TypeReveal.Proofs.Text.Told
import TypeReveal.Proofs.Ty.Operands
import TypeReveal.Proofs.Ty.Order
import TypeReveal.Proofs.Expr.Stratum

/-!
# Types that are told by how they are shown

The short form says which type is shown, as long as classes are named by words of their own and
parameters have no names (`Ty.Legible`).  It is told apart **operand by operand**: an operand is a
word and a group in brackets, and the word already says which kind of type it is (`told_group`).
The parenthesis of an operand with an arrow looks like the parameters of a callable until the
arrow, or what stands in its place, is reached (`told_arrow`).

* `Ty.Legible.told` — how a legible type is shown is told from how any other one is.
* `Ty.beq_of_display_eq` — legible types that are shown in the same way are equal.

That one text is told from another is a statement about what may follow (`Told`): if two texts, each
with something allowed behind it, come out the same, then the types are the same and so is what is
behind.  Only in this form can texts be told piece by piece, the second piece being what is behind
the first.  The same word may start two operands of different lengths, and what decides is that
neither a word nor a group goes on into what follows it.

The conditions on a type cannot be dropped.  A class named `Any`, or `int | None`, is shown as
another type is.  A function of a file is shown as the callable with its parameters.  A union of a
single member is shown as the member, and a union among the members of another as its own members.

The induction is on the type, and goes from a type to the types in the groups of its operands
(`Operand.inner`).  A callable is its own group if it is an operand, in parentheses, and so the
operands of a type are told after its parameters and its result have been.
-/

set_option autoImplicit false
namespace TypeReveal

/-! ## Legible types

The names of classes must be words, and none of `Any`, `Literal` and `tuple`, the words by which
other types are shown. -/

namespace Ty

/-- **A type that is told by how it is shown**: its classes have names of their own, its parameters
have none, and its unions are made of two different types or more. -/
inductive Legible : Ty → Prop
  | unknown : Legible unknown
  | literal (value : Literal) : Legible (literal value)
  | nominal {name : String} {args : List Ty} (hname : isWord name.toList = true)
    (hany : name ≠ "Any") (hliteral : name ≠ "Literal") (htuple : name ≠ "tuple")
    (h : ∀ ty ∈ args, Legible ty) : Legible (nominal name args)
  | tuple {elems : List Ty} (h : ∀ ty ∈ elems, Legible ty) : Legible (tuple elems)
  | callable {params : List Ty} {result : Ty} (hparams : ∀ ty ∈ params, Legible ty)
    (hresult : Legible result) : Legible (callable (params.map Slot.anonymous) result)
  | union {members : List Ty} (htwo : 2 ≤ members.length) (hflat : Flat members)
    (h : ∀ ty ∈ members, Legible ty) : Legible (union members)

end Ty

/-! ## What follows a type

A type ends at a comma, at a closing bracket, or at the end of the text.  An operand of a union ends
there or at a bar.  None of these can be a part of a word, and none of them is an opening bracket.
-/

/-- What may follow a type: nothing, a comma, or the end of the group it stands in. -/
def Ends : List Char → Prop := StartsIn [',', ']', ')']

/-- What may follow an operand. -/
def EndsOperand (s : List Char) : Prop := Ends s ∨ ∃ t, s = " | ".toList ++ t

/-- A text that is not empty and does not start as what follows a type does. -/
def Leads (u : List Char) : Prop := ∃ c rest, u = c :: rest ∧ c ∉ [',', ']', ')', ' ']

theorem EndsOperand.startsIn {s : List Char} (h : EndsOperand s) :
    StartsIn [',', ']', ')', ' '] s := by
  rcases h with h | ⟨t, rfl⟩
  · exact h.mono (by decide)
  · exact startsIn_cons (by decide) _

section Lists

variable {α β : Type} {text : α → List Char} {key : α → β} {xs ys : List α} {close : Char}

/-- **Lists in brackets**, empty ones among them.  The elements are told from the left, each
followed by a comma or by the bracket that closes the list, and the lists are of the same length
because an element does not start as what ends the list. -/
theorem told_commaList (hclose : close ∈ [']', ')']) (hlead : ∀ x ∈ xs, Leads (text x))
    (hlead' : ∀ y ∈ ys, Leads (text y))
    (h : ∀ x ∈ xs, ∀ y ∈ ys, Told Ends (text x) (text y) (key x = key y)) :
    Told Anything (commaList (xs.map text) ++ [close]) (commaList (ys.map text) ++ [close])
      (xs.map key = ys.map key) := by
  have hend : ∀ s, Anything s → StartsIn [close] ([close] ++ s) :=
    fun s _ => startsIn_cons List.mem_cons_self s
  have hmarks : [close] ⊆ [',', ']', ')'] := by
    intro c hc
    rw [List.mem_singleton.1 hc]
    exact List.mem_cons_of_mem _ hclose
  -- An empty list ends at once, where any other starts with an item.
  have hempty : ∀ {zs : List α} (z : α), (∀ z ∈ zs, Leads (text z)) → z ∈ zs →
      Told Anything (commaList ([].map text) ++ [close]) (commaList (zs.map text) ++ [close])
        False := by
    intro zs z hzs hz
    obtain ⟨z, zs, rfl⟩ := List.exists_cons_of_ne_nil (List.ne_nil_of_mem hz)
    obtain ⟨c, rest, htext, hc⟩ := hzs z List.mem_cons_self
    obtain ⟨t, ht, -⟩ := @exists_intercalate_cons [',', ' '] Anything [close] trivial
      (fun _ => trivial) (text z) (zs.map text)
    rw [List.map_cons, commaList, commaList, ht, htext]
    refine .of_ne ?_ _ _
    rintro rfl
    exact hc (by simp only [List.mem_cons] at hclose ⊢; tauto)
  match xs, ys with
  | [], [] => exact .self _ rfl
  | [], y :: ys => exact (hempty y hlead' List.mem_cons_self).imp False.elim
  | x :: xs, [] => exact (hempty x hlead List.mem_cons_self).symm.imp False.elim
  | x :: xs, y :: ys =>
    have hjoin : Told (StartsIn [close]) (commaList ((x :: xs).map text))
        (commaList ((y :: ys).map text)) ((x :: xs).map key = (y :: ys).map key) := by
      refine .join (fun s => startsIn_cons List.mem_cons_self _) (fun s hs => hs.mono hmarks) ?_
        (List.cons_ne_nil _ _) (List.cons_ne_nil _ _) h
      rintro s t hs rfl
      have hcomma := List.mem_singleton.1 (hs ',' rfl)
      rw [← hcomma] at hclose
      exact absurd hclose (by decide)
    exact (hjoin.append hend hend fun _ => .self [close] trivial).imp And.left

end Lists

/-! ## Literals

Numbers are told by their digits, which no digit follows, and strings by the closing quote, since
the quotes in them are escaped. -/

theorem exists_intText (i : Int) :
    ∃ c rest, intText i = c :: rest ∧ (c = '-' ∨ c.isDigit = true) := by
  rw [intText]
  split
  · exact ⟨'-', _, rfl, .inl rfl⟩
  · obtain ⟨c, rest, h⟩ :=
      List.exists_cons_of_ne_nil (Nat.toDigits_ne_nil (n := i.natAbs) (b := 10))
    refine ⟨c, rest, h, .inr ?_⟩
    exact Nat.isDigit_of_mem_toDigits (by decide) (by decide) (h ▸ List.mem_cons_self)

theorem told_intText (i j : Int) : Told Ends (intText i) (intText j) (i = j) := by
  have hdigits := told_toDigits (b := 10) (by decide) (by decide)
    (fun s (hs : Ends s) => hs.head?_any (by decide)) i.natAbs j.natAbs
  have hsign : ∀ m n : Nat, Told Ends ('-' :: Nat.toDigits 10 m) (Nat.toDigits 10 n) False := by
    intro m n
    obtain ⟨c, rest, h⟩ := List.exists_cons_of_ne_nil (Nat.toDigits_ne_nil (n := n) (b := 10))
    have hc := Nat.isDigit_of_mem_toDigits (by decide) (by decide) (h ▸ List.mem_cons_self)
    rw [h]
    refine .of_ne ?_ _ _
    rintro rfl
    exact absurd hc (by decide)
  rw [intText, intText]
  split <;> split
  · exact (hdigits.cons '-').imp (by omega)
  · exact (hsign _ _).imp False.elim
  · exact (hsign _ _).symm.imp False.elim
  · exact hdigits.imp (by omega)

namespace Literal

/-- The values of literals are told apart. -/
theorem told (v w : Literal) : Told Ends v.text w.text (v = w) := by
  -- A number starts with a sign or a digit, as no other literal does.
  have hint : ∀ (i : Int) {c : Char} (u : List Char), c ≠ '-' → c.isDigit = false →
      Told Ends (intText i) (c :: u) False := by
    intro i c u hminus hdigit
    obtain ⟨d, rest, h, hd⟩ := exists_intText i
    rw [h]
    refine .of_ne ?_ _ _
    rintro rfl
    rcases hd with hd | hd
    · exact hminus hd
    · rw [hdigit] at hd
      cases hd
  have hstr : ∀ (s : String) (b : Bool), Told Ends (str s).text (bool b).text False := by
    intro s b
    cases b <;> exact .of_ne (by decide) _ _
  have hbool : ∀ (i : Int) (b : Bool), Told Ends (intText i) (bool b).text False := by
    intro i b
    cases b <;> exact hint i _ (by decide) (by decide)
  cases v with
  | int i =>
    cases w with
    | int j => exact (told_intText i j).imp fun h => h ▸ rfl
    | bool b => exact (hbool i b).imp False.elim
    | str s => exact (hint i _ (by decide) (by decide)).imp False.elim
  | bool b =>
    cases w with
    | int j => exact (hbool j b).symm.imp False.elim
    | bool b' =>
      cases b <;> cases b'
      · exact .self _ rfl
      · exact .of_ne (by decide) _ _
      · exact .of_ne (by decide) _ _
      · exact .self _ rfl
    | str s => exact (hstr s b).symm.imp False.elim
  | str s =>
    cases w with
    | int j => exact (hint j _ (by decide) (by decide)).symm.imp False.elim
    | bool b => exact (hstr s b).imp False.elim
    | str s' =>
      have hbody : Told Ends (escapeAscii s.toList ++ ['\'']) (escapeAscii s'.toList ++ ['\''])
          (s.toList = s'.toList) := (told_escapeAscii s.toList s'.toList).mono fun _ _ => trivial
      exact (hbody.imp fun h => congrArg str (String.toList_injective h)).cons '\''

theorem leads (v : Literal) : Leads v.text := by
  cases v with
  | int i =>
    obtain ⟨c, rest, h, hc⟩ := exists_intText i
    refine ⟨c, rest, h, ?_⟩
    rcases hc with rfl | hc
    · decide
    · rintro hmem
      rw [(by decide : ∀ c ∈ [',', ']', ')', ' '], c.isDigit = false) c hmem] at hc
      cases hc
  | bool b => cases b <;> exact ⟨_, _, rfl, by decide⟩
  | str s => exact ⟨_, _, rfl, by decide⟩

end Literal

/-! ## Operands

How a type is shown is a list of operands with bars between them, of which one stands for all of the
literals.  An operand is a word and a group, where an operand with an arrow has the empty word.  The
word decides which kind of operand it is, and the kind decides how the group is made up; this is
what makes the case analysis one on five kinds and not one on pairs of types. -/

namespace Operand

/-- An operand of a legible type. -/
inductive Legible : Operand → Prop
  | literals {values : List Literal} (h : values ≠ []) : Legible (literals values)
  | unknown : Legible (type .unknown)
  | nominal {name : String} {args : List Ty} (hname : isWord name.toList = true)
    (hany : name ≠ "Any") (hliteral : name ≠ "Literal") (htuple : name ≠ "tuple")
    (h : ∀ ty ∈ args, ty.Legible) : Legible (type (.nominal name args))
  | tuple {elems : List Ty} (h : ∀ ty ∈ elems, ty.Legible) : Legible (type (.tuple elems))
  | callable {params : List Ty} {result : Ty} (hparams : ∀ ty ∈ params, ty.Legible)
    (hresult : result.Legible) : Legible (type (.callable (params.map Slot.anonymous) result))

theorem legible_type {ty : Ty} (h : ty.Legible) (hunion : ty.isUnion = false)
    (hliteral : ty.isLiteral = false) : Legible (type ty) := by
  cases h with
  | literal => cases hliteral
  | union => cases hunion
  | unknown => exact .unknown
  | nominal hname hany hliteral htuple h => exact .nominal hname hany ‹_› htuple h
  | tuple h => exact .tuple h
  | callable hparams hresult => exact .callable hparams hresult

/-- The kinds of operands. -/
inductive Kind where
  | literals | any | tuple | arrow | cls
deriving DecidableEq

/-- What kind an operand is of. -/
def kind : Operand → Kind
  | literals _ => .literals
  | type .unknown => .any
  | type (.tuple _) => .tuple
  | type (.nominal _ _) => .cls
  | type _ => .arrow

/-- The kind of the operands that start with a word. -/
def Kind.ofWord (word : List Char) : Kind :=
  if word = "Literal".toList then .literals
  else if word = "Any".toList then .any
  else if word = "tuple".toList then .tuple
  else if word = [] then .arrow
  else .cls

/-- The word that an operand starts with; none if it is shown with an arrow. -/
def word : Operand → List Char
  | literals _ => "Literal".toList
  | type .unknown => "Any".toList
  | type (.tuple _) => "tuple".toList
  | type (.nominal name _) => name.toList
  | type _ => []

/-- The group in brackets that follows the word. -/
def group : Operand → List Char
  | literals values => bracketList (values.map Literal.text)
  | type .unknown => []
  | type (.tuple []) => "[()]".toList
  | type (.tuple (elem :: elems)) => bracketList ((elem :: elems).map Ty.text)
  | type (.nominal _ []) => []
  | type (.nominal _ (arg :: args)) => bracketList ((arg :: args).map Ty.text)
  | type ty => '(' :: ty.text ++ [')']

/-- The types that are shown in the group. -/
def inner : Operand → List Ty
  | type (.tuple elems) => elems
  | type (.nominal _ args) => args
  | type (.callable params result) => [.callable params result]
  | _ => []

variable {o p : Operand}

theorem Legible.text_eq (h : o.Legible) : o.text = o.word ++ o.group := by
  cases h with
  | literals | unknown | callable => rfl
  | @nominal name args =>
    cases args with
    | nil => exact (List.append_nil _).symm
    | cons arg args => exact Ty.text_nominal name arg args
  | @tuple elems =>
    cases elems with
    | nil => rfl
    | cons elem elems => exact Ty.text_tuple elem elems

/-- **The word says of which kind an operand is.** -/
theorem Legible.ofWord_word (h : o.Legible) : Kind.ofWord o.word = o.kind := by
  cases h with
  | literals => exact (by decide : Kind.ofWord "Literal".toList = .literals)
  | unknown => decide
  | tuple => exact (by decide : Kind.ofWord "tuple".toList = .tuple)
  | callable => exact (by decide : Kind.ofWord [] = .arrow)
  | @nominal name args hname hany hliteral htuple =>
    have hne : ∀ {word : String}, name ≠ word → name.toList ≠ word.toList :=
      fun h heq => h (String.toList_injective heq)
    have hcls : Kind.ofWord name.toList = .cls := by
      rw [Kind.ofWord, if_neg (hne hliteral), if_neg (hne hany), if_neg (hne htuple),
        if_neg (isWordPart_of_isWord hname).1]
    exact hcls

theorem Legible.isWordPart_word (h : o.Legible) : ∀ c ∈ o.word, isWordPart c = true := by
  cases h with
  | literals => exact (by decide : ∀ c ∈ "Literal".toList, isWordPart c = true)
  | unknown => decide
  | tuple => exact (by decide : ∀ c ∈ "tuple".toList, isWordPart c = true)
  | callable => exact fun c hc => absurd hc List.not_mem_nil
  | nominal hname => exact (isWordPart_of_isWord hname).2

/-- After the word of an operand, its group or what follows the operand is no part of a word. -/
theorem Legible.not_isWordPart_group (h : o.Legible) {s : List Char} (hs : EndsOperand s) :
    (o.group ++ s).head?.any isWordPart = false := by
  have hnone : s.head?.any isWordPart = false := hs.startsIn.head?_any (by decide)
  cases h with
  | literals | callable => rfl
  | unknown => exact hnone
  | @nominal name args =>
    cases args with
    | nil => exact hnone
    | cons => rfl
  | @tuple elems => cases elems <;> rfl

theorem Legible.inner (h : o.Legible) : ∀ ty ∈ o.inner, ty.Legible := by
  cases h with
  | literals | unknown => exact nofun
  | nominal _ _ _ _ h | tuple h => exact h
  | callable hparams hresult =>
    exact fun ty hty => List.mem_singleton.1 hty ▸ .callable hparams hresult

/-- **What an operand starts with**: a word, or the parenthesis around an arrow. -/
theorem Legible.starts (h : o.Legible) :
    (∃ c rest, o.text = c :: rest ∧ isWordPart c = true) ∨
      ∃ ty ∈ o.inner, o.text = '(' :: (ty.text ++ [')']) := by
  cases hword : o.word with
  | nil =>
    have hkind := h.ofWord_word
    rw [hword] at hkind
    cases h with
    | callable => exact .inr ⟨_, List.mem_cons_self, rfl⟩
    | _ => cases hkind
  | cons c rest =>
    refine .inl ⟨c, rest ++ o.group, ?_, h.isWordPart_word c (hword ▸ List.mem_cons_self)⟩
    rw [h.text_eq, hword, List.cons_append]

end Operand

namespace Ty

variable {ty a b : Ty}

theorem Legible.operands (h : ty.Legible) : ∀ o ∈ ty.operands, o.Legible := by
  intro o ho
  cases h with
  | unknown => exact List.mem_singleton.1 ho ▸ .unknown
  | literal value => exact List.mem_singleton.1 ho ▸ .literals (List.cons_ne_nil _ _)
  | nominal hname hany hliteral htuple h =>
    exact List.mem_singleton.1 ho ▸ .nominal hname hany hliteral htuple h
  | tuple h => exact List.mem_singleton.1 ho ▸ .tuple h
  | callable hparams hresult => exact List.mem_singleton.1 ho ▸ .callable hparams hresult
  | union htwo hflat h =>
    rcases of_mem_operandsFrom ho with ⟨rfl, hany⟩ | ⟨ty, hty, hliteral, rfl⟩
    · refine .literals fun hnil => ?_
      obtain ⟨ty, hty, hliteral⟩ := List.any_eq_true.1 hany
      have hmem := List.mem_filter.2 ⟨hty, hliteral⟩
      rw [← map_literals, hnil] at hmem
      cases hmem
    · exact Operand.legible_type (h ty hty) (hflat.notUnion ty hty) hliteral

/-- A legible type has an operand. -/
theorem Legible.exists_operands (h : ty.Legible) : ∃ o os, ty.operands = o :: os := by
  refine List.exists_cons_of_ne_nil fun hnil => ?_
  have hlength := (types_operands ty).length_eq
  rw [hnil] at hlength
  cases h with
  | union htwo =>
    rw [members] at hlength
    rw [← hlength] at htwo
    cases htwo
  | _ => cases hlength

/-- A legible type without an arrow of its own starts with an operand. -/
theorem Legible.exists_text (h : ty.Legible) (harrow : ty.isArrow = false) {s : List Char}
    (hs : Ends s) : ∃ o ∈ ty.operands, ∃ t, ty.text ++ s = o.text ++ t ∧ EndsOperand t := by
  obtain ⟨o, os, hos⟩ := h.exists_operands
  obtain ⟨t, ht, hend⟩ := @exists_intercalate_cons " | ".toList EndsOperand s (.inl hs)
    (fun t => .inr ⟨t, rfl⟩) o.text (os.map Operand.text)
  refine ⟨o, hos ▸ List.mem_cons_self, t, ?_, hend⟩
  rw [text_of_operands harrow, hos, List.map_cons, ht]

/-- **What a type starts with**: a word, or parameters, or an operand with an arrow. -/
theorem Legible.starts (h : ty.Legible) {s : List Char} (hs : Ends s) :
    (∃ c rest, ty.text ++ s = c :: rest ∧ isWordPart c = true) ∨
      (∃ (params : List Ty) (result : Ty), (∀ p ∈ params, p.Legible) ∧ result.Legible ∧
        ty = Ty.callable (params.map Slot.anonymous) result) ∨
      ∃ o ∈ ty.operands, ∃ arrow ∈ o.inner, ∃ t, EndsOperand t ∧
        ty.text ++ s = '(' :: (arrow.text ++ ')' :: t) := by
  cases harrow : ty.isArrow with
  | true =>
    cases h with
    | callable hparams hresult => exact .inr (.inl ⟨_, _, hparams, hresult, rfl⟩)
    | _ => cases harrow
  | false =>
    obtain ⟨o, ho, t, ht, hend⟩ := h.exists_text harrow hs
    rcases (h.operands o ho).starts with ⟨c, rest, htext, hc⟩ | ⟨arrow, hinner, htext⟩
    · exact .inl ⟨c, rest ++ t, by rw [ht, htext, List.cons_append], hc⟩
    · refine .inr (.inr ⟨o, ho, arrow, hinner, t, hend, ?_⟩)
      rw [ht, htext, List.cons_append, List.append_assoc]
      rfl

theorem Legible.leads (h : ty.Legible) : Leads ty.text := by
  have hstart := h.starts (s := []) nofun
  rw [List.append_nil] at hstart
  rcases hstart with ⟨c, rest, htext, hc⟩ | ⟨params, result, -, -, rfl⟩ |
    ⟨_, -, arrow, -, t, -, htext⟩
  · refine ⟨c, rest, htext, fun hmem => ?_⟩
    rw [(by decide : ∀ c ∈ [',', ']', ')', ' '], isWordPart c = false) c hmem] at hc
    cases hc
  · exact ⟨'(', _, rfl, by decide⟩
  · exact ⟨'(', _, htext, by decide⟩

/-- **A type that is told** from every legible type. -/
def IsTold (a : Ty) : Prop := ∀ b : Ty, b.Legible → Told Ends a.text b.text (a.key = b.key)

/-! ## Parameters and parentheses

A callable starts with a list of parameters in parentheses, and an operand with an arrow with a
callable in parentheses.  What is in the parentheses may be the same, but the one is followed by an
arrow and the other is not. -/

theorem text_callable (params : List Ty) (result : Ty) :
    (callable (params.map Slot.anonymous) result).text =
      '(' :: ((commaList (params.map text) ++ [')']) ++ (" -> ".toList ++ result.text)) := by
  have hparams : Slot.texts (params.map Slot.anonymous) = params.map text := by
    rw [Slot.texts_eq_map, List.map_map]
    rfl
  have htext : (callable (params.map Slot.anonymous) result).text =
      '(' :: commaList (Slot.texts (params.map Slot.anonymous)) ++ ") -> ".toList ++
        result.text := rfl
  have harrow : ") -> ".toList = [')'] ++ " -> ".toList := by decide
  rw [htext, hparams, harrow]
  simp only [List.cons_append, List.append_assoc]

/-- **A parenthesis is told from parameters** by what stands in the place of the arrow.  A
parenthesis around a callable holds its parameters in a parenthesis of their own, and if these start
alike the difference comes after the group. -/
theorem told_arrow {types params : List Ty} {result : Ty} (htypes : ∀ ty ∈ types, ty.Legible)
    (hparams : ∀ p ∈ params, p.Legible)
    (h : ∀ ty ∈ types, ∀ p ∈ params, Told Ends ty.text p.text True) :
    Told EndsOperand ('(' :: (commaList (types.map text) ++ [')']))
      (callable (params.map Slot.anonymous) result).text False := by
  have hgroup : Told Anything (commaList (types.map text) ++ [')'])
      (commaList (params.map text) ++ [')'])
      (types.map (fun _ => ()) = params.map fun _ => ()) :=
    told_commaList (by decide) (fun ty hty => (htypes ty hty).leads)
      (fun p hp => (hparams p hp).leads) fun ty hty p hp => (h ty hty p hp).imp fun _ => rfl
  intro s t hs ht heq
  rw [text_callable, List.cons_append, List.cons_append, List.append_assoc (_ ++ [')'])] at heq
  have hrest := (hgroup _ _ trivial trivial (List.cons.inj heq).2).2
  rcases hs with hs | ⟨s, rfl⟩
  · exact absurd (hs ' ' (hrest ▸ rfl)) (by decide)
  · exact absurd (List.cons.inj (List.cons.inj hrest).2).1 (by decide)

/-- Lists of types in square brackets. -/
theorem told_bracketList {as bs : List Ty} (has : ∀ a ∈ as, a.Legible)
    (hbs : ∀ b ∈ bs, b.Legible) (h : ∀ a ∈ as, a.IsTold) :
    Told Anything (bracketList (as.map text)) (bracketList (bs.map text))
      (as.map key = bs.map key) :=
  Told.cons '[' <| told_commaList (by decide) (fun a ha => (has a ha).leads)
    (fun b hb => (hbs b hb).leads) fun a ha b hb => h a ha b (hbs b hb)

/-- No type is shown as a pair of parentheses. -/
theorem Legible.told_unit (h : ty.Legible) : Told Ends "()".toList ty.text False := by
  intro s t hs ht heq
  rcases h.starts ht with ⟨c, rest, htext, hc⟩ | ⟨params, result, hparams, hresult, rfl⟩ |
    ⟨o, ho, arrow, hinner, t, -, htext⟩
  · rw [htext] at heq
    rw [← (List.cons.inj heq).1] at hc
    exact absurd hc (by decide)
  · have htold := @told_arrow [] params result nofun hparams nofun
    exact htold.mono (fun s hs => .inl hs) s t hs ht heq
  · obtain ⟨c, rest, harrow, hc⟩ := ((h.operands o ho).inner arrow hinner).leads
    rw [htext, harrow] at heq
    rw [← (List.cons.inj (List.cons.inj heq).2).1] at hc
    exact absurd hc (by decide)

end Ty

/-! ## Operands are told

Two operands with different words are told by these.  With the same word both have groups of the
same kind, and the groups are lists of types or of literals that are told one by one. -/

namespace Operand

variable {o p : Operand}

/-- The tuple without elements is shown like no other. -/
theorem told_emptyTuple {elem : Ty} {elems : List Ty} (h : elem.Legible) :
    Told EndsOperand "[()]".toList (bracketList ((elem :: elems).map Ty.text)) False := by
  intro s t hs ht heq
  obtain ⟨u, hu, hend⟩ := @exists_intercalate_cons [',', ' '] Ends (']' :: t)
    (startsIn_cons (by decide) _) (fun _ => startsIn_cons (by decide) _) elem.text
    (elems.map Ty.text)
  rw [bracketList, List.cons_append, List.cons_append, List.append_assoc] at heq
  have hrest := (List.cons.inj heq).2.trans hu
  exact (h.told_unit (']' :: s) u (startsIn_cons (by decide) _) hend hrest).1.elim

/-- A group does not look like what follows an operand. -/
theorem told_noGroup (u : List Char) : Told EndsOperand [] ('[' :: u) False := by
  rintro s t hs ht rfl
  exact absurd (hs.startsIn '[' rfl) (by decide)

/-- The groups of operands with the same word are told apart.  By the word both operands are of one
kind, so this is one case for each kind: literals by their values, a tuple or a class by its
elements, and an operand with an arrow by the callable in it. -/
theorem told_group (ho : o.Legible) (hp : p.Legible) (hword : o.word = p.word)
    (h : ∀ ty ∈ o.inner, ty.IsTold) :
    Told EndsOperand o.group p.group (o.types.map Ty.key = p.types.map Ty.key) := by
  have hkind : o.kind = p.kind := by rw [← ho.ofWord_word, ← hp.ofWord_word, hword]
  cases ho with
  | @literals values =>
    cases hp with
    | @literals more =>
      have hlist : Told Anything (commaList (values.map Literal.text) ++ [']'])
          (commaList (more.map Literal.text) ++ [']']) (values.map id = more.map id) :=
        told_commaList (by decide) (fun v _ => v.leads) (fun w _ => w.leads)
          fun v _ w _ => v.told w
      refine ((hlist.cons '[').mono fun _ _ => trivial).imp fun heq => ?_
      rw [List.map_id, List.map_id] at heq
      rw [heq]
    | _ => cases hkind
  | unknown =>
    cases hp with
    | unknown => exact .self _ rfl
    | _ => cases hkind
  | @tuple elems helems =>
    cases hp with
    | @tuple elems' helems' =>
      -- The empty group is spelled by itself, so it is told from every other.
      rcases elems with - | ⟨elem, elems⟩ <;> rcases elems' with - | ⟨elem', elems'⟩
      · exact .self _ rfl
      · exact (told_emptyTuple (helems' elem' List.mem_cons_self)).imp False.elim
      · exact (told_emptyTuple (helems elem List.mem_cons_self)).symm.imp False.elim
      · refine ((Ty.told_bracketList helems helems' h).mono fun _ _ => trivial).imp fun heq => ?_
        rw [types, types, List.map_singleton, List.map_singleton, Ty.key, Ty.key, Ty.keys_eq_map,
          Ty.keys_eq_map, heq]
    | _ => cases hkind
  | callable hparams hresult =>
    cases hp with
    | callable hparams' hresult' =>
      have hinner := (h _ List.mem_cons_self) _ (Ty.Legible.callable hparams' hresult')
      have hend : ∀ s, EndsOperand s → Ends ([')'] ++ s) :=
        fun s _ => startsIn_cons (by decide) s
      have hclosed := hinner.append hend hend fun _ => .self [')'] trivial
      exact (hclosed.cons '(').imp fun heq => congrArg (fun key => [key]) heq.1
    | _ => cases hkind
  | @nominal name args hname hany hliteral htuple hargs =>
    cases hp with
    | @nominal name' args' _ _ _ _ hargs' =>
      obtain rfl : name = name' := String.toList_injective hword
      rcases args with - | ⟨arg, args⟩ <;> rcases args' with - | ⟨arg', args'⟩
      · exact .self _ rfl
      · exact (told_noGroup _).imp False.elim
      · exact (told_noGroup _).symm.imp False.elim
      · refine ((Ty.told_bracketList hargs hargs' h).mono fun _ _ => trivial).imp fun heq => ?_
        rw [types, types, List.map_singleton, List.map_singleton, Ty.key, Ty.key, Ty.keys_eq_map,
          Ty.keys_eq_map, heq]
    | _ => cases hkind

/-- **Operands are told apart**, if the types in the group of one of them are. -/
theorem Legible.told (ho : o.Legible) (hp : p.Legible) (h : ∀ ty ∈ o.inner, ty.IsTold) :
    Told EndsOperand o.text p.text (o.types.map Ty.key = p.types.map Ty.key) := by
  intro s t hs ht heq
  rw [ho.text_eq, hp.text_eq, List.append_assoc, List.append_assoc] at heq
  have hwords : Told (fun s => s.head?.any isWordPart = false) o.word p.word (o.word = p.word) :=
    .run ho.isWordPart_word hp.isWordPart_word fun _ => id
  obtain ⟨hword, hgroups⟩ :=
    hwords _ _ (ho.not_isWordPart_group hs) (hp.not_isWordPart_group ht) heq
  exact told_group ho hp hword h s t hs ht hgroups

end Operand

/-! ## Types are told

A type without an arrow of its own is told by its operands, in the order in which they are shown.
The literals of a union are shown together, wherever they stand among its members, so that only the
set of the members can be recovered; this is what `==` compares. -/

namespace Ty

variable {a b : Ty}

/-- Legible types with the same members, in any order, are equal. -/
theorem key_eq_of_members (ha : a.Legible) (hb : b.Legible)
    (h : (a.members.map key).Perm (b.members.map key)) : a.key = b.key := by
  have hlength : a.members.length = b.members.length := by simpa using h.length_eq
  have hone : ∀ {ty : Ty}, ty.isUnion = false → ty.members = [ty] := by
    intro ty hty
    cases ty with
    | union => cases hty
    | _ => rfl
  have htwo : ∀ {ty : Ty}, ty.Legible → ty.isUnion = true → 2 ≤ ty.members.length := by
    intro ty hty hunion
    cases hty with
    | union htwo => exact htwo
    | _ => cases hunion
  -- A union has two members at least, anything else is its only member: the lengths decide.
  cases hunion : a.isUnion <;> cases hunion' : b.isUnion
  · rw [hone hunion, hone hunion', List.map_singleton, List.map_singleton] at h
    exact (List.cons.inj (List.perm_singleton.1 h)).1
  · have := htwo hb hunion'
    rw [← hlength, hone hunion] at this
    cases this with
    | step h => cases h
  · have := htwo ha hunion
    rw [hlength, hone hunion'] at this
    cases this with
    | step h => cases h
  · cases a with
    | union as =>
      cases b with
      | union bs =>
        rw [members, members] at h
        rw [key, key, keys_eq_map, keys_eq_map, sortKeys_eq_of_perm h]
      | _ => cases hunion'
    | _ => cases hunion

/-- Legible types with the same operands are equal. -/
theorem key_eq_of_operands (ha : a.Legible) (hb : b.Legible)
    (h : a.operands.map (·.types.map key) = b.operands.map (·.types.map key)) :
    a.key = b.key := by
  have hperm : ∀ ty : Ty, (ty.operands.map (·.types.map key)).flatten.Perm
      (ty.members.map key) := by
    intro ty
    rw [← List.flatMap_def, ← List.map_flatMap]
    exact (types_operands ty).map key
  exact key_eq_of_members ha hb ((hperm a).symm.trans (h ▸ hperm b))

/-- Parameters are told from what a type without an arrow of its own is shown as. -/
theorem Legible.told_callable {params : List Ty} {result : Ty} (ha : a.Legible)
    (harrow : a.isArrow = false) (hparams : ∀ p ∈ params, p.Legible)
    (h : ∀ o ∈ a.operands, ∀ ty ∈ o.inner, ∀ p ∈ params, Told Ends ty.text p.text True) :
    Told Ends a.text (Ty.callable (params.map Slot.anonymous) result).text False := by
  intro s t hs ht heq
  rcases ha.starts hs with ⟨c, rest, htext, hc⟩ | ⟨_, _, _, _, rfl⟩ |
    ⟨o, ho, arrow, hinner, s', hs', htext⟩
  · rw [htext] at heq
    rw [(List.cons.inj heq).1] at hc
    exact absurd hc (by decide)
  · cases harrow
  · have hlegible := (ha.operands o ho).inner arrow hinner
    have htold := @told_arrow [arrow] params result
      (fun ty hty => List.mem_singleton.1 hty ▸ hlegible) hparams
      (fun ty hty => List.mem_singleton.1 hty ▸ h o ho arrow hinner)
    rw [htext] at heq
    refine (htold s' t hs' (.inl ht) ?_).1.elim
    rw [← heq, List.map_singleton, commaList, List.intercalate_singleton, List.cons_append,
      List.append_assoc]
    rfl

/-- **A type without an arrow of its own is told by its operands.** The operands of both types are
compared one after the other; where one of them has no more, what follows is no bar. -/
theorem Legible.isTold_of_operands (ha : a.Legible) (harrow : a.isArrow = false)
    (h : ∀ o ∈ a.operands, ∀ ty ∈ o.inner, ty.IsTold) : a.IsTold := by
  intro b hb
  have hne : ∀ {ty : Ty}, ty.Legible → ty.operands ≠ [] := by
    intro ty hty hnil
    obtain ⟨o, os, hos⟩ := hty.exists_operands
    rw [hos] at hnil
    cases hnil
  cases harrow' : b.isArrow with
  | true =>
    cases hb with
    | callable hparams =>
      exact (ha.told_callable harrow hparams fun o ho ty hty p hp =>
        (h o ho ty hty p (hparams p hp)).imp fun _ => trivial).imp False.elim
    | _ => cases harrow'
  | false =>
    have hjoin : Told Ends (List.intercalate " | ".toList (a.operands.map Operand.text))
        (List.intercalate " | ".toList (b.operands.map Operand.text))
        (a.operands.map (·.types.map key) = b.operands.map (·.types.map key)) := by
      refine .join (fun s => .inr ⟨s, rfl⟩) (fun s hs => .inl hs) ?_ (hne ha) (hne hb)
        fun o ho p hp => (ha.operands o ho).told (hb.operands p hp) (h o ho)
      rintro s t hs rfl
      exact absurd (hs ' ' rfl) (by decide)
    rw [text_of_operands harrow, text_of_operands harrow']
    exact hjoin.imp (key_eq_of_operands ha hb)

/-- **A callable is told** if its parameters and its result are. -/
theorem isTold_callable {params : List Ty} {result : Ty} (hparams : ∀ p ∈ params, p.Legible)
    (h : ∀ p ∈ params, p.IsTold) (h' : result.IsTold) :
    (callable (params.map Slot.anonymous) result).IsTold := by
  intro b hb
  cases harrow : b.isArrow with
  | false =>
    refine (hb.told_callable harrow hparams fun o ho ty hty p hp => ?_).symm.imp False.elim
    exact ((h p hp ty ((hb.operands o ho).inner ty hty)).imp fun _ => trivial).symm
  | true =>
    cases hb with
    | @callable params' result' hparams' hresult' =>
      have hlist : Told Anything (commaList (params.map text) ++ [')'])
          (commaList (params'.map text) ++ [')']) (params.map key = params'.map key) :=
        told_commaList (by decide) (fun p hp => (hparams p hp).leads)
          (fun p hp => (hparams' p hp).leads) fun p hp q hq => h p hp q (hparams' q hq)
      have harrow : Told Anything " -> ".toList " -> ".toList True := .self _ trivial
      have hresults := harrow.append (fun _ _ => trivial) (fun _ _ => trivial)
        fun _ => h' result' hresult'
      have hall := hlist.append (fun _ _ => trivial) (fun _ _ => trivial) fun _ => hresults
      rw [text_callable, text_callable]
      refine (hall.cons '(').imp fun ⟨hkeys, _, hkey⟩ => ?_
      have hslots : ∀ tys : List Ty, Slot.keys (tys.map Slot.anonymous) =
          (tys.map key).map (0 :: ·) := by
        intro tys
        rw [Slot.keys_eq_map, List.map_map, List.map_map]
        rfl
      rw [key, key, hslots, hslots, hkeys, hkey]
    | _ => cases harrow

/-- **How a legible type is shown is told** from how any other is. -/
theorem Legible.told (h : a.Legible) : a.IsTold ∧ ∀ ty ∈ (Operand.type a).inner, ty.IsTold := by
  induction h with
  | unknown =>
    exact ⟨Legible.unknown.isTold_of_operands rfl fun o ho => List.mem_singleton.1 ho ▸ nofun,
      nofun⟩
  | literal value =>
    exact ⟨(Legible.literal value).isTold_of_operands rfl fun o ho =>
      List.mem_singleton.1 ho ▸ nofun, nofun⟩
  | nominal hname hany hliteral htuple h ih =>
    have hargs := fun ty hty => (ih ty hty).1
    exact ⟨(Legible.nominal hname hany hliteral htuple h).isTold_of_operands rfl fun o ho =>
      List.mem_singleton.1 ho ▸ hargs, hargs⟩
  | tuple h ih =>
    have helems := fun ty hty => (ih ty hty).1
    exact ⟨(Legible.tuple h).isTold_of_operands rfl fun o ho =>
      List.mem_singleton.1 ho ▸ helems, helems⟩
  | callable hparams hresult ih ih' =>
    have hself := isTold_callable hparams (fun p hp => (ih p hp).1) ih'.1
    exact ⟨hself, fun ty hty => List.mem_singleton.1 hty ▸ hself⟩
  | union htwo hflat h ih =>
    refine ⟨(Legible.union htwo hflat h).isTold_of_operands rfl fun o ho => ?_, nofun⟩
    rcases of_mem_operandsFrom ho with ⟨rfl, -⟩ | ⟨ty, hty, -, rfl⟩
    · exact nofun
    · exact (ih ty hty).2

/-- **Legible types that are shown in the same way are equal.** Equal is `==`, by which unions are
sets: the literals of a union are shown together, and the order of the other members is the order in
which they are shown. -/
theorem beq_of_display_eq (ha : a.Legible) (hb : b.Legible) (h : a.display = b.display) :
    (a == b) = true := by
  have htext : a.text ++ [] = b.text ++ [] := by
    rw [List.append_nil, List.append_nil]
    exact String.ofList_injective h
  exact beq_iff_key_eq.2 (ha.told.1 b hb [] [] nofun nofun htext).1

/-- The second literal of a union is shown before the callable, wherever it stands. -/
theorem beq_of_display_eq_callback :
    let callback := callable [.anonymous (callable [] (ofClass "int"))] (ofClass "str")
    let a := union [literal (.int 1), callback, literal (.str "|'")]
    let b := union [literal (.int 1), literal (.str "|'"), callback]
    a.Legible ∧ b.Legible ∧ a.display = "Literal[1, '|\\''] | ((() -> int) -> str)" ∧
      (a == b) = true := by
  intro callback a b
  have hclass : ∀ name ∈ ["int", "str"], (ofClass name).Legible := by
    intro name hname
    obtain ⟨hword, hany, hliteral, htuple⟩ := (by decide : ∀ name ∈ ["int", "str"],
      isWord name.toList = true ∧ name ≠ "Any" ∧ name ≠ "Literal" ∧ name ≠ "tuple") name hname
    exact .nominal hword hany hliteral htuple nofun
  have hthunk : (callable ([].map .anonymous) (ofClass "int")).Legible :=
    .callable nofun (hclass "int" (by decide))
  have hcallback : (callable ([_].map .anonymous) (ofClass "str")).Legible :=
    .callable (List.forall_mem_singleton.2 hthunk) (hclass "str" (by decide))
  have hone := Legible.literal (.int 1)
  have htext := Legible.literal (.str "|'")
  have ha : a.Legible := .union (by decide) (by decide) <| List.forall_mem_cons.2
    ⟨hone, List.forall_mem_cons.2 ⟨hcallback, List.forall_mem_singleton.2 htext⟩⟩
  have hb : b.Legible := .union (by decide) (by decide) <| List.forall_mem_cons.2
    ⟨hone, List.forall_mem_cons.2 ⟨htext, List.forall_mem_singleton.2 hcallback⟩⟩
  have hdisplay : a.display = "Literal[1, '|\\''] | ((() -> int) -> str)" := by decide
  exact ⟨ha, hb, hdisplay, beq_of_display_eq ha hb (by decide)⟩

end Ty
end TypeReveal
