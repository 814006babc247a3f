import TypeReveal.Proofs.Annotation.Grouping
import TypeReveal.Proofs.Annotation.WellFormed
import TypeReveal.Proofs.Ty.Alternatives

/-!
# The ways to write a union

`Union[S, T]` builds the union of all its arguments at once, `(S) | (T)` joins one type after the
other, and `Optional[T]` adds `None` to a type.  They are the same, members in the same order
(`quotedType?_union`): what an annotation denotes is proper, and joining proper types is the union
of all of them (`Ty.union?_unionOf`).

Every text is quoted by itself and read as an expression of its own, and in the longer text it is a
part of an expression.  That it denotes the same in both places is because annotations in strings
are read without regard to spans.
-/

set_option autoImplicit false
namespace TypeReveal

section

variable {deeper : Site → Expr → Option Ty} {site : Site} {e : Expr} {ty : Ty} {es : List Expr}
  {tys : List Ty}

/-! ## Arguments that denote types

A subscript evaluates its arguments one by one, and takes the type of each or what it is otherwise.
-/

/-- An expression that denotes a type stands for this type among the arguments, for neither a list
nor a tuple denotes one. -/
theorem type_argumentWith (h : readWith deeper site e = some ty) :
    (argumentWith deeper site e).type = ty := by
  cases e with
  | tuple | list => cases h
  | _ => exact congrArg (Option.getD · Ty.unknown) h

/-- Each of the expressions denotes the type in its place. -/
theorem map_type_subscriptArguments
    (h : List.Forall₂ (fun e ty => readWith deeper site e = some ty) es tys) :
    (subscriptArguments deeper site (Expr.index es)).map Argument.type = tys := by
  have hmap : (es.map (argumentWith deeper site)).map Argument.type = tys := by
    induction h with
    | nil => rfl
    | cons he _ ih => rw [List.map_cons, List.map_cons, type_argumentWith he, ih]
  match es, h with
  | [], _ => exact hmap
  | [e], .cons he .nil =>
    rw [← hmap, Expr.index]
    cases e with
    | tuple => cases he
    | _ => rfl
  | first :: second :: rest, _ =>
    rw [← hmap, ← argumentsWith_eq]
    rfl

theorem Ty.unionOf_standard (h : standard site e = some ty) : Ty.unionOf [ty] = some ty := by
  have hproper : ty.Proper := (wellFormed_standard site e ty h).proper
  rw [Ty.unionOf, Ty.unionMembers_singleton hproper.flat, ← Ty.unionOf_of_flat hproper.flat,
    hproper.unionOf_members]

end

/-! ## Texts

A text is put in parentheses in front of and behind a bar, since it may have bars of its own.  The
parentheses mean what stands in them. -/

/-- Texts in parentheses, with bars between them. -/
def barsText (texts : List (List Char)) : List Char :=
  List.intercalate " | ".toList (texts.map fun text => '(' :: (text ++ [')']))

/-- A text that is an element and denotes a type, quoted in a string. -/
def QuotesType (site : Site) (start : Nat) (text : List Char) (ty : Ty) : Prop :=
  ∃ e, Expr.ofText? text = some e ∧ e.fits .bar = true ∧ standard (site.quote start) e = some ty

section Texts

variable {site : Site} {start : Nat} {text : List Char} {texts : List (List Char)} {ty : Ty}
  {tys : List Ty}

/-- **Bars between texts** join what they denote. -/
theorem exists_bars (h : List.Forall₂ (QuotesType site start) texts tys) {acc : List Char}
    {lhs : Expr} {before : List Ty} (hacc : Expr.Holds .bar lhs acc)
    (hlhs : standard (site.quote start) lhs = Ty.unionOf before) :
    ∃ e, Expr.Holds .bar e
        (acc ++ texts.flatMap fun text => " | ".toList ++ '(' :: (text ++ [')'])) ∧
      standard (site.quote start) e = Ty.unionOf (before ++ tys) := by
  induction h generalizing acc lhs before with
  | nil => exact ⟨lhs, by simpa using hacc, by simpa using hlhs⟩
  | @cons text ty texts tys htext _ ih =>
    obtain ⟨e, he, -, hty⟩ := htext
    have hjoined := @Expr.Holds.binary _ _ _ _ .bar hacc (Expr.holds_paren he).toAmp
    obtain ⟨all, hall, hmeaning⟩ := @ih _ _ (before ++ [ty]) hjoined (by
      rw [standard_binary, hlhs, standard_paren, hty, ← Ty.unionOf_standard hty,
        Ty.union?_unionOf])
    refine ⟨all, ?_, by rw [hmeaning, List.append_assoc, List.singleton_append]⟩
    simpa [Operator.mark] using hall

theorem barsText_cons (text : List Char) (texts : List (List Char)) :
    barsText (text :: texts) = '(' :: (text ++ [')']) ++
      texts.flatMap fun text => " | ".toList ++ '(' :: (text ++ [')']) := by
  induction texts generalizing text with
  | nil => simp [barsText]
  | cons next more ih =>
    have hrest := ih next
    rw [barsText, List.map_cons] at hrest
    rw [barsText, List.map_cons, List.map_cons, List.intercalate_cons_cons, hrest]
    simp

theorem quotedType?_bars (h : List.Forall₂ (QuotesType site start) texts tys)
    (hne : texts ≠ []) : quotedType? site start (barsText texts) = Ty.unionOf tys := by
  cases h with
  | nil => exact absurd rfl hne
  | @cons text ty texts tys htext hrest =>
    obtain ⟨e, he, -, hty⟩ := htext
    have hfirst : standard (site.quote start) (.paren default e) = Ty.unionOf [ty] := by
      rw [standard_paren, hty, Ty.unionOf_standard hty]
    obtain ⟨all, hall, hmeaning⟩ := exists_bars hrest (Expr.holds_paren he).toAmp.toBar hfirst
    obtain ⟨whole, hwhole, hbare⟩ := hall.ofText?
    rw [barsText_cons, quotedType?_eq hwhole hbare, hmeaning, List.singleton_append]

/-- Types that are denoted have a union, if there are any. -/
theorem exists_unionOf (h : List.Forall₂ (QuotesType site start) texts tys) (hne : texts ≠ []) :
    ∃ union, Ty.unionOf tys = some union := by
  have hproper : ∀ ty ∈ tys, ty.Proper := by
    clear hne
    induction h with
    | nil => exact List.forall_mem_nil _
    | cons htext _ ih =>
      obtain ⟨e, -, -, hty⟩ := htext
      exact List.forall_mem_cons.2 ⟨(wellFormed_standard _ e _ hty).proper, ih⟩
  refine Option.ne_none_iff_exists'.1 fun hnone => hne ?_
  rw [Ty.unionOf_eq_none_iff_of_proper hproper] at hnone
  subst hnone
  cases h
  rfl

/-- **A subscript of a name** that no declaration stands for is what the name makes of its
arguments. -/
theorem quotedType?_subscript {name : String} {span : Span}
    (hname : Expr.ofText? name.toList = some (.name span name))
    (hprimary : (Expr.name span name).fits .primary = true)
    (hfree : ∀ place, (site.quote start).lookup start name ≠ some (.declaration place))
    (h : List.Forall₂ (QuotesType site start) texts tys) (hne : texts ≠ []) :
    ∃ args : List Argument, args.map Argument.type = tys ∧
      quotedType? site start (Expr.subscriptText name.toList texts) =
        (Head.special name).apply args := by
  obtain ⟨es, hes, hmeanings⟩ : ∃ es, List.Forall₂ (Expr.Holds .bar) es texts ∧
      List.Forall₂ (fun e ty => standard (site.quote start) e = some ty) es tys := by
    clear hne
    induction h with
    | nil => exact ⟨[], .nil, .nil⟩
    | cons htext _ ih =>
      obtain ⟨e, he, hfits, hty⟩ := htext
      obtain ⟨es, hes, hmeanings⟩ := ih
      exact ⟨e :: es, .cons (Expr.holds_of_ofText? he hfits) hes, .cons hty hmeanings⟩
  obtain ⟨whole, hwhole, hbare⟩ :=
    ((Expr.holds_primary_of_ofText? hname hprimary).subscript hes hne).ofText?
  refine ⟨_, map_type_subscriptArguments hmeanings, ?_⟩
  have hhead : head? (site.quote start) (.name span name) = some (.special name) := by
    rw [head?, Site.lookup_of_isQuoted (site.isQuoted_quote start) span.start start]
    cases hbinding : (site.quote start).lookup start name with
    | none => rfl
    | some binding =>
      cases binding with
      | declaration place => exact absurd hbinding (hfree place)
      | imported place => rfl
  rw [quotedType?_eq hwhole hbare, standard_subscript, hhead, Option.bind_some]
  rfl

/-- **The ways to write a union are one.**  Where no declaration stands for `Union` and `Optional`,
texts that denote types, each quoted by itself, have one union, and `Union[S, T]` and `(S) | (T)`
denote just that.  `Optional[T]`, `Union[T, None]` and `(T) | None` are one type, too. -/
theorem quotedType?_union (site : Site) (start : Nat)
    (hunion : ∀ place, (site.quote start).lookup start "Union" ≠ some (.declaration place))
    (hoptional : ∀ place, (site.quote start).lookup start "Optional" ≠ some (.declaration place)) :
    (∀ texts tys, texts ≠ [] → List.Forall₂ (QuotesType site start) texts tys →
      ∃ union, Ty.unionOf tys = some union ∧
        quotedType? site start (Expr.subscriptText "Union".toList texts) = some union ∧
        quotedType? site start (barsText texts) = some union) ∧
    ∀ text ty, QuotesType site start text ty →
      ∃ optional, Ty.unionOf [ty, Ty.noneType] = some optional ∧
        quotedType? site start (Expr.subscriptText "Optional".toList [text]) = some optional ∧
        quotedType? site start (Expr.subscriptText "Union".toList [text, "None".toList]) =
          some optional ∧
        quotedType? site start ('(' :: (text ++ [')']) ++ " | None".toList) = some optional := by
  have hnameUnion : Expr.ofText? "Union".toList = some (.name ⟨0, 5⟩ "Union") := by decide +kernel
  have hnameOptional : Expr.ofText? "Optional".toList = some (.name ⟨0, 8⟩ "Optional") := by
    decide +kernel
  have hnone : Expr.ofText? "None".toList = some (.none ⟨0, 4⟩) := by decide +kernel
  have hquotesNone : QuotesType site start "None".toList Ty.noneType := ⟨_, hnone, rfl, rfl⟩
  refine ⟨fun texts tys hne h => ?_, fun text ty h => ?_⟩
  · obtain ⟨union, htys⟩ := exists_unionOf h hne
    obtain ⟨args, hargs, hsubscript⟩ := quotedType?_subscript hnameUnion rfl hunion h hne
    refine ⟨union, htys, ?_, by rw [quotedType?_bars h hne, htys]⟩
    rw [hsubscript, ← htys, ← hargs]
    rfl
  · have hboth := List.Forall₂.cons h (.cons hquotesNone .nil)
    obtain ⟨optional, htys⟩ := exists_unionOf hboth (List.cons_ne_nil _ _)
    obtain ⟨args, hargs, hsubscript⟩ :=
      quotedType?_subscript hnameUnion rfl hunion hboth (List.cons_ne_nil _ _)
    obtain ⟨args', hargs', hsubscript'⟩ :=
      quotedType?_subscript hnameOptional rfl hoptional (.cons h .nil) (List.cons_ne_nil _ _)
    refine ⟨optional, htys, ?_, ?_, ?_⟩
    · obtain ⟨arg, rfl, rfl⟩ := List.map_eq_singleton_iff.1 hargs'
      rw [hsubscript', ← htys]
      rfl
    · rw [hsubscript, ← htys, ← hargs]
      rfl
    -- The bar is read without a look at any name.
    · obtain ⟨e, he, -, hty⟩ := h
      have hright : Expr.Holds .amp (.none ⟨0, 4⟩) "None".toList :=
        (Expr.holds_primary_of_ofText? hnone rfl).toAmp
      obtain ⟨whole, hwhole, hbare⟩ :=
        (@Expr.Holds.binary _ _ _ _ .bar (Expr.holds_paren he).toAmp.toBar hright).ofText?
      have hmeaning : standard (site.quote start)
          (.binary default .bar (.paren default e) (.none ⟨0, 4⟩)) = some optional := by
        rw [standard_binary, standard_paren, hty, ← htys]
        rfl
      rw [← hmeaning]
      exact quotedType?_eq hwhole hbare

/-- Three types, of which the first is a union that has the last one in it. -/
theorem quotedType?_union_nested :
    let site : Site := { above := [], inside := [] }
    (∃ union, Ty.unionOf [.union [.nominal "int" [], .nominal "str" []], Ty.noneType,
          .nominal "int" []] = some union ∧
        quotedType? site 3 "Union[int | str, None, int]".toList = some union ∧
        quotedType? site 3 "(int | str) | (None) | (int)".toList = some union) ∧
      ∃ optional, Ty.unionOf [.nominal "int" [], Ty.noneType] = some optional ∧
        quotedType? site 3 "Optional[int]".toList = some optional ∧
        quotedType? site 3 "Union[int, None]".toList = some optional ∧
        quotedType? site 3 "(int) | None".toList = some optional := by
  intro site
  have hfree : ∀ name place, (site.quote 3).lookup 3 name ≠ some (.declaration place) :=
    fun _ _ h => by cases h
  have hint : QuotesType site 3 "int".toList (.nominal "int" []) :=
    ⟨.name ⟨0, 3⟩ "int", by decide +kernel, rfl, rfl⟩
  have hnone : QuotesType site 3 "None".toList Ty.noneType :=
    ⟨.none ⟨0, 4⟩, by decide +kernel, rfl, rfl⟩
  have hboth : QuotesType site 3 "int | str".toList
      (.union [.nominal "int" [], .nominal "str" []]) :=
    ⟨.binary ⟨0, 9⟩ .bar (.name ⟨0, 3⟩ "int") (.name ⟨6, 9⟩ "str"), by decide +kernel, rfl, by cbv⟩
  obtain ⟨hall, hone⟩ := quotedType?_union site 3 (hfree "Union") (hfree "Optional")
  exact ⟨hall ["int | str".toList, "None".toList, "int".toList] _ (List.cons_ne_nil _ _)
    (.cons hboth (.cons hnone (.cons hint .nil))), hone _ _ hint⟩

end Texts

end TypeReveal
