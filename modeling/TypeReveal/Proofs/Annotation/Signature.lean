import TypeReveal.Proofs.Annotation.Quoted
import TypeReveal.Proofs.Annotation.Refinement

/-!
# What written signatures denote

A string that quotes a signature, `(P, Q) -> R` or `def (P, Q) -> R`, denotes a callable whose
parameters and result are what `P`, `Q` and `R` denote, each quoted in the string by itself
(`extended_signatureText`).  There are two exceptions.

* `()` as the only parameter is taken for a list without parameters (`declaredParams`).
* The result is trimmed before it is read.  If it ends in a line break behind a backslash, the
  backslash is left over, and the string denotes nothing.
-/

set_option autoImplicit false
namespace TypeReveal

/-! ## Parameters

What stands in the parentheses of a signature is read as an expression, and only then taken for a
list of parameters: a tuple for its elements, anything else for a single parameter.  The empty tuple
in parentheses of its own is a tuple, too. -/

/-- The parameters that an element alone in parentheses declares: a tuple is taken for the list. -/
def loneParams : Expr → List Expr
  | .tuple _ elems => elems
  | e => [e]

/-- The parameters that some elements in parentheses declare. -/
def declaredParams : List Expr → List Expr
  | [e] => loneParams e
  | es => es

theorem declaredParams_of_length_ne {es : List Expr} (h : es.length ≠ 1) :
    declaredParams es = es := by
  match es, h with
  | [], _ | _ :: _ :: _, _ => rfl

theorem map_bare_loneParams (e : Expr) : (loneParams e).map Expr.bare = loneParams e.bare := by
  cases e with
  | tuple _ elems => exact (Expr.bareAll_eq_map elems).symm
  | _ => rfl

namespace Expr

theorem exists_of_bare_eq_paren {e inner : Expr} (h : e.bare = .paren default inner) :
    ∃ span inner', e = .paren span inner' ∧ inner'.bare = inner := by
  cases e with
  | paren span inner' => exact ⟨span, inner', rfl, (Expr.paren.inj h).2⟩
  | _ => cases h

end Expr

/-- A pair of parentheses in front of an arrow declares the parameters in it. -/
theorem signatureParams?_of_bare {params : Expr} {es : List Expr}
    (h : params.bare = (Expr.group es).bare) :
    ∃ params', signatureParams? params = some params' ∧
      params'.map Expr.bare = (declaredParams es).map Expr.bare := by
  match es, h with
  | [], h =>
    obtain ⟨span, es', rfl, hes'⟩ := Expr.exists_of_bare_eq_tuple h
    exact ⟨es', rfl, hes'⟩
  | [e], h =>
    obtain ⟨span, inner, rfl, hinner⟩ := Expr.exists_of_bare_eq_paren h
    have hlone : signatureParams? (.paren span inner) = some (loneParams inner) := by
      cases inner <;> rfl
    refine ⟨_, hlone, ?_⟩
    rw [map_bare_loneParams, hinner, ← map_bare_loneParams]
    rfl
  | first :: second :: es, h =>
    obtain ⟨span, inner, rfl, hinner⟩ := Expr.exists_of_bare_eq_paren h
    obtain ⟨tupleSpan, es', rfl, hes'⟩ := Expr.exists_of_bare_eq_tuple hinner
    exact ⟨es', rfl, hes'.trans (Expr.bareAll_eq_map (first :: second :: es))⟩

/-! ## Signatures

The parts of the string are cut out and read as expressions, and are then annotations at the site of
the string. -/

section Signature

variable {site : Site} {span : Span} {keyword before after result : List Char}
  {texts : List (List Char)} {es : List Expr} {r : Expr}

/-- The types of parameters that differ in their spans alone. -/
theorem map_extended_congr (h : site.isQuoted = true) {es' : List Expr}
    (hbare : es'.map Expr.bare = es.map Expr.bare) (f : Option Ty → Slot) :
    (es'.map fun e => f (extended site e)) = es.map fun e => f (extended site e) := by
  have hmap : ∀ es : List Expr, (es.map fun e => f (extended site e)) =
      (es.map Expr.bare).map fun e => f (extended site e) := by
    intro es
    rw [List.map_map]
    exact List.map_congr_left fun e _ => by rw [Function.comp, extended_bare h]
  rw [hmap, hbare, ← hmap]

/-- **A string that quotes a signature** denotes the callable with the parameters and the result of
the signature, unless a backslash is left at the end of the result. -/
theorem extended_signatureText
    (hparams : List.Forall₂
      (fun e text => Expr.ofText? text = some e ∧ e.fits .bar = true) es texts)
    (harrow : ∀ text ∈ texts, ¬ arrow <:+: text) (hresult : Expr.ofText? result = some r)
    (hkeyword : keyword = [] ∨ keyword = "def ".toList)
    (hbefore : ∀ c ∈ before, isBlank c = true) (hafter : ∀ c ∈ after, isBlank c = true) :
    extended site
        (.str span (String.ofList (before ++ signatureText keyword texts result ++ after))) =
      if (trim result).getLast? = some '\\' then none
      else some (.callable
        ((declaredParams es).map fun e =>
          .anonymous ((extended (site.quote span.start) e).getD .unknown))
        ((extended (site.quote span.start) r).getD .unknown)) := by
  have hquoted := site.isQuoted_quote span.start
  have hholds : List.Forall₂ (Expr.Holds .bar) es texts :=
    hparams.imp fun e text h => Expr.holds_of_ofText? h.1 h.2
  obtain ⟨list, hlist, hlistBare⟩ := (Expr.holds_group hholds).ofText?
  obtain ⟨params, hdeclared, hparamsBare⟩ := signatureParams?_of_bare hlistBare
  obtain ⟨hsignature, hparts⟩ := signatureParts?_signatureText hkeyword harrow
    (Expr.trim_ne_nil_of_ofText? hresult) hbefore hafter
  generalize before ++ signatureText keyword texts result ++ after = text at hsignature hparts ⊢
  have hread : readSignature? (String.ofList text) =
      (Expr.ofText? (trim result)).map fun r => (params, r) := by
    rw [readSignature?, String.toList_ofList, hsignature, hparts]
    change ((Expr.ofText? ('(' :: (commaList texts ++ [')']))).bind fun list =>
      (signatureParams? list).bind fun params =>
        (Expr.ofText? (trim result)).bind fun r => some (params, r)) = _
    rw [hlist, Option.bind_some, hdeclared, Option.bind_some]
    cases Expr.ofText? (trim result) <;> rfl
  rw [extended_str, signature?, signatureWith, hread]
  split
  · next hlast =>
    -- The standard reading fails on the text as well: a backslash at its end joins nothing.
    have htext : Expr.ofText? text = none := by
      cases htext : Expr.ofText? text with
      | none => rfl
      | some e =>
        exact absurd (Expr.lexed_of_ofText? htext 0)
          (not_lexed_signature hsignature hparts fun pos => ⟨_, Expr.lexed_of_ofText? hlist pos⟩)
    rw [Expr.ofText?_eq_none hlast, standard_str, String.toList_ofList, htext]
    rfl
  · next hlast =>
    obtain ⟨r', hr', hrBare⟩ := Expr.ofText?_trim hresult hlast
    rw [hr', ← map_extended_congr hquoted hparamsBare fun ty? => .anonymous (ty?.getD .unknown),
      ← extended_congr_bare hquoted hrBare]
    rfl

/-- **Any number of parameters but one.**  A string that quotes a signature with no parameters, or
with two or more, denotes a callable with just these parameters, each by itself what it denotes
alone, and with the result of the signature; only if the result ends in a line break behind a
backslash, it denotes nothing. -/
theorem extended_signature_list (hlength : texts.length ≠ 1)
    (hparams : List.Forall₂
      (fun e text => Expr.ofText? text = some e ∧ e.fits .bar = true) es texts)
    (harrow : ∀ text ∈ texts, ¬ arrow <:+: text) (hresult : Expr.ofText? result = some r)
    (hkeyword : keyword = [] ∨ keyword = "def ".toList)
    (hbefore : ∀ c ∈ before, isBlank c = true) (hafter : ∀ c ∈ after, isBlank c = true) :
    extended site
        (.str span (String.ofList (before ++ signatureText keyword texts result ++ after))) =
      if (trim result).getLast? = some '\\' then none
      else some (.callable
        (es.map fun e => .anonymous ((extended (site.quote span.start) e).getD .unknown))
        ((extended (site.quote span.start) r).getD .unknown)) := by
  rw [extended_signatureText hparams harrow hresult hkeyword hbefore hafter,
    declaredParams_of_length_ne (hparams.length_eq ▸ hlength)]

/-- A signature with two parameters, with its keyword and a space before it. -/
theorem extended_signature_list_two :
    let site : Site := { above := [], inside := [] }
    extended site (.str ⟨3, 28⟩ " def (int, str) -> None") =
      some (.callable [.anonymous (.nominal "int" []), .anonymous (.nominal "str" [])]
        (.nominal "None" [])) := by
  intro site
  exact @extended_signature_list site ⟨3, 28⟩ "def ".toList [' '] [] "None".toList
    ["int".toList, "str".toList] [.name ⟨0, 3⟩ "int", .name ⟨0, 3⟩ "str"] (.none ⟨0, 4⟩)
    (by decide) (.cons ⟨by decide +kernel, rfl⟩ (.cons ⟨by decide +kernel, rfl⟩ .nil))
    (by decide) (by decide +kernel) (.inr rfl)
    (by decide) (by decide)

/-- A result that is an expression, with a line break behind a backslash at its end. -/
theorem extended_signature_list_continued :
    let site : Site := { above := [], inside := [] }
    Expr.ofText? "int\\\n".toList = some (.name ⟨0, 3⟩ "int") ∧
      extended site (.str ⟨3, 17⟩ "() -> int\\\n") = none ∧
      extended (site.quote 3) (.name ⟨0, 3⟩ "int") = some (.nominal "int" []) := by
  intro site
  have hresult : Expr.ofText? "int\\\n".toList = some (.name ⟨0, 3⟩ "int") := by decide +kernel
  have hnone := @extended_signatureText site ⟨3, 17⟩ [] [] [] "int\\\n".toList [] [] _ .nil
    (by decide) hresult (.inl rfl) (by decide) (by decide)
  exact ⟨hresult, hnone.trans (if_pos (by decide)), rfl⟩

/-- **One parameter.** A string that quotes a signature with one parameter denotes a callable with
this parameter, which is what it denotes alone, or unknown; but with `()` in its parentheses it
denotes a callable without parameters, and if a backslash is left at the end of its result it
denotes nothing. -/
theorem extended_signature_lone {text : List Char} {e : Expr}
    (hparam : Expr.ofText? text = some e) (hfits : e.fits .bar = true) (harrow : ¬ arrow <:+: text)
    (hresult : Expr.ofText? result = some r) (hkeyword : keyword = [] ∨ keyword = "def ".toList)
    (hbefore : ∀ c ∈ before, isBlank c = true) (hafter : ∀ c ∈ after, isBlank c = true) :
    extended site
        (.str span (String.ofList (before ++ signatureText keyword [text] result ++ after))) =
      if (trim result).getLast? = some '\\' then none
      else some (.callable
        (match e with
          | .tuple .. => []
          | _ => [.anonymous ((extended (site.quote span.start) e).getD .unknown)])
        ((extended (site.quote span.start) r).getD .unknown)) := by
  have htexts : ∀ t ∈ [text], ¬ arrow <:+: t := by simpa using harrow
  rw [extended_signatureText (.cons ⟨hparam, hfits⟩ .nil) htexts hresult hkeyword hbefore hafter]
  cases e with
  | tuple _ elems =>
    cases elems with
    | nil => rfl
    | cons => cases hfits
  | _ => rfl

/-- A signature with one parameter that is a union. -/
theorem extended_signature_lone_union :
    let site : Site := { above := [], inside := [] }
    extended site (.str ⟨3, 23⟩ "(int | None) -> str") =
      some (.callable [.anonymous (.union [.nominal "int" [], .nominal "None" []])]
        (.nominal "str" [])) := by
  intro site
  exact @extended_signature_lone site ⟨3, 23⟩ [] [] [] "str".toList (.name ⟨0, 3⟩ "str")
    "int | None".toList (.binary ⟨0, 10⟩ .bar (.name ⟨0, 3⟩ "int") (.none ⟨6, 10⟩))
    (by decide +kernel) rfl (by decide) (by decide +kernel) (.inl rfl) (by decide) (by decide)

/-- The empty tuple is taken for a list without parameters. -/
theorem extended_signature_lone_unit :
    let site : Site := { above := [], inside := [] }
    let unit : Expr := .tuple ⟨0, 2⟩ []
    Expr.ofText? "()".toList = some unit ∧ unit.fits .bar = true ∧
      extended (site.quote 3) unit = some (.tuple []) ∧
      extended site (.str ⟨3, 16⟩ "(()) -> int") = some (.callable [] (.nominal "int" [])) := by
  intro site unit
  have hunit : Expr.ofText? "()".toList = some unit := by decide +kernel
  have hresult : Expr.ofText? "int".toList = some (.name ⟨0, 3⟩ "int") := by decide +kernel
  have hcallable := @extended_signatureText site ⟨3, 16⟩ [] [] [] "int".toList ["()".toList] [unit]
    _ (.cons ⟨hunit, rfl⟩ .nil) (by decide) hresult (.inl rfl) (by decide) (by decide)
  exact ⟨hunit, rfl, rfl, hcallable⟩

end Signature

end TypeReveal
