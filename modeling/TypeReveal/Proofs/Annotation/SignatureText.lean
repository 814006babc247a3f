import TypeReveal.Annotation.Extended
import TypeReveal.Proofs.Annotation.SignatureShape
import TypeReveal.Proofs.Expr.Composed

/-!
# Texts that are signatures

No text is both a signature and an expression (`readSignature?_eq_none`): the parameters before an
arrow are an expression, which has no junk, and then the arrow itself is junk.

A text that is written as a signature is cut where it was put together
(`signatureParts?_signatureText`): the arrow after the parameters is the first one, as no parameter
has one, and what is trimmed is what was written around.
-/

set_option autoImplicit false
namespace TypeReveal

variable {pos : Nat} {text s u v params result : List Char} {ls : List Lexeme}

/-! ## Signatures are no expressions

The tokens up to the arrow are those of the parameters, and the minus sign of the arrow is a token
only in front of a digit.  A word in front of the parameters does not help, since it takes them for
a call. -/

/-- An arrow is junk. -/
theorem not_lexed_arrow : ¬ Lexed pos (arrow ++ s) ls := by
  intro h
  have hjunk : lexemes pos (arrow ++ s) = [⟨.junk, ⟨pos, pos⟩⟩] := by
    simp [arrow, lexemes, isSpacing, token?, number?]
  refine h.not_junk ⟨.junk, ⟨pos, pos⟩⟩ ?_ rfl
  rw [← h.lexemes_eq, hjunk]
  exact List.mem_cons_self

theorem Apart.of_isBlank {c : Char} (hc : isBlank c = true) (rest : List Char) :
    Apart (c :: rest) := by
  refine .cons ⟨?_, ?_⟩ rest
  · refine Bool.eq_false_iff.2 fun hpart => ?_
    rw [isBlank_of_isNamePart (isNamePart_of_isWordPart hpart)] at hc
    cases hc
  · rintro rfl
    exact absurd hc (by decide)

theorem Apart.blank_append (hv : ∀ c ∈ v, isBlank c = true) (h : Apart s) : Apart (v ++ s) := by
  cases v with
  | nil => exact h
  | cons c v => exact .of_isBlank (hv c List.mem_cons_self) _

/-- After parameters that are an expression an arrow is junk, with blank characters before it or
not. -/
theorem not_lexed_params (hparams : ∀ pos, ∃ ms, Lexed pos params ms)
    (hv : ∀ c ∈ v, isBlank c = true) : ¬ Lexed pos (params ++ (v ++ (arrow ++ s))) ls := by
  intro h
  obtain ⟨ms, hms⟩ := hparams pos
  obtain ⟨ns, hns⟩ := h.of_append hms (.blank_append hv (.cons (by decide) _))
  exact not_lexed_arrow (hns.of_blank_append hv)

/-- A signature with the word before its parameters has a space behind the word. -/
theorem exists_space_of_isSignature (h : isSignature text = true)
    (hu : ∀ c ∈ u, isBlank c = true) (htext : trim text = u ++ ("def".toList ++ s)) :
    ∃ rest, s = ' ' :: rest := by
  rw [isSignature, Bool.and_eq_true, Bool.or_eq_true, List.isPrefixOf_iff_prefix,
    List.isPrefixOf_iff_prefix, htext] at h
  cases u with
  | nil =>
    rcases h.1 with ⟨rest, hrest⟩ | ⟨rest, hrest⟩
    · have hspace : "def".toList ++ (" (".toList ++ rest) = "def".toList ++ s := hrest
      exact ⟨_, (List.append_cancel_left hspace).symm⟩
    · exact absurd (List.cons.inj hrest).1 (by decide)
  | cons c u =>
    have hc := hu c List.mem_cons_self
    rcases h.1 with ⟨rest, hrest⟩ | ⟨rest, hrest⟩
    · rw [← (List.cons.inj hrest).1] at hc
      exact absurd hc (by decide)
    · rw [← (List.cons.inj hrest).1] at hc
      exact absurd hc (by decide)

/-- After a word and parameters that are an expression an arrow is junk. -/
theorem not_lexed_keyword_params {rest : List Char} (hparams : ∀ pos, ∃ ms, Lexed pos params ms)
    (hrest : trim rest = params) (hv : ∀ c ∈ v, isBlank c = true)
    (hspace : ∃ more, rest ++ (v ++ (arrow ++ s)) = ' ' :: more) :
    ¬ Lexed pos ("def".toList ++ (rest ++ (v ++ (arrow ++ s)))) ls := by
  intro h
  have hword : ∀ pos, Lexed pos "def".toList [⟨.word "def", ⟨pos, pos + 3⟩⟩] :=
    fun pos => @Lexed.token pos 'd' ['e', 'f'] [] _ _ rfl (.nil _)
  obtain ⟨more, hmore⟩ := hspace
  obtain ⟨ms, hms⟩ := h.of_append (hword _) (hmore ▸ .cons (by decide) more)
  obtain ⟨u', v', hedges, hu', hv'⟩ := exists_trim rest
  rw [hedges, hrest] at hms
  simp only [List.append_assoc] at hms
  have hlexed := hms.of_blank_append hu'
  rw [← List.append_assoc v' v] at hlexed
  exact not_lexed_params hparams (fun c hc => (List.mem_append.1 hc).elim (hv' c) (hv c)) hlexed

/-- **The text of a signature is junk** as an expression, if its parameters are not. -/
theorem not_lexed_signature (hsignature : isSignature text = true)
    (hparts : signatureParts? text = some (params, result))
    (hparams : ∀ pos, ∃ ms, Lexed pos params ms) : ¬ Lexed pos text ls := by
  intro h
  obtain ⟨u, v, htext, hu, hv⟩ := exists_trim text
  obtain ⟨⟨before, after⟩, hsplit, heq⟩ := Option.map_eq_some_iff.1 hparts
  have htrim := eq_append_of_splitAt? hsplit
  obtain ⟨u', v', hbefore, hu', hv'⟩ := exists_trim before
  rw [htext, htrim] at h
  replace h := h.of_blank_append hu
  replace heq := (Prod.mk.inj heq).1
  rw [hbefore] at h htrim
  cases hdef : dropStart? "def".toList (trim before) with
  | none =>
    rw [hdef, Option.getD_none, trim_trim] at heq
    rw [heq] at h
    simp only [List.append_assoc] at h
    exact not_lexed_params hparams hv' (h.of_blank_append hu')
  | some rest =>
    rw [hdef, Option.getD_some] at heq
    rw [dropStart?_eq_some.1 hdef] at h htrim
    simp only [List.append_assoc] at h htrim
    obtain ⟨more, hmore⟩ := exists_space_of_isSignature hsignature hu' htrim
    refine not_lexed_keyword_params hparams heq hv' ⟨more ++ v, ?_⟩ (h.of_blank_append hu')
    rw [← List.cons_append, ← hmore]
    simp only [List.append_assoc]

/-- **No expression is a signature.** -/
theorem readSignature?_eq_none {text : String} {e : Expr} (h : Expr.ofText? text.toList = some e) :
    readSignature? text = none := by
  cases hread : readSignature? text with
  | none => rfl
  | some parts =>
    have hsignature : isSignature text.toList = true := by
      cases hsignature : isSignature text.toList with
      | true => rfl
      | false =>
        rw [readSignature?, hsignature] at hread
        cases hread
    obtain ⟨-, -, hread⟩ := Option.bind_eq_some_iff.1 hread
    obtain ⟨⟨params, result⟩, hparts, hread⟩ := Option.bind_eq_some_iff.1 hread
    obtain ⟨paramsExpr, hparams, -⟩ := Option.bind_eq_some_iff.1 hread
    exact absurd (Expr.lexed_of_ofText? h 0)
      (not_lexed_signature hsignature hparts fun pos => ⟨_, Expr.lexed_of_ofText? hparams pos⟩)

/-! ## Written signatures

The parameters have no arrow in them, so that the first arrow of the text is the one behind them. -/

/-- The text of a signature: a keyword, which may be missing, the parameters and the result. -/
def signatureText (keyword : List Char) (params : List (List Char)) (result : List Char) :
    List Char :=
  keyword ++ '(' :: (commaList params ++ (") -> ".toList ++ result))

section Written

variable {keyword mid : List Char} {texts : List (List Char)}

theorem arrow_not_infix_append {c : Char} (hc : c ∉ arrow) (hs : ¬ arrow <:+: s)
    (hu : ¬ arrow <:+: u) : ¬ arrow <:+: s ++ c :: u := fun h =>
  (infix_append_cons hc h).elim hs hu

theorem arrow_not_infix_commaList (h : ∀ text ∈ texts, ¬ arrow <:+: text) :
    ¬ arrow <:+: commaList texts := by
  induction texts with
  | nil => decide
  | cons text texts ih =>
    obtain ⟨htext, htexts⟩ := List.forall_mem_cons.1 h
    cases texts with
    | nil => rwa [show commaList [text] = text from List.intercalate_singleton]
    | cons next more =>
      rw [commaList_cons_cons]
      refine arrow_not_infix_append (by decide) htext ?_
      exact @arrow_not_infix_append [] _ ' ' (by decide) (by decide) (ih htexts)

/-- A list of parameters in its parentheses. -/
def paramsText (params : List (List Char)) : List Char := '(' :: (commaList params ++ [')'])

theorem sharp_paramsText (hkeyword : keyword = [] ∨ keyword = "def ".toList)
    (texts : List (List Char)) : Sharp (keyword ++ paramsText texts) :=
  sharp_keyword_append hkeyword
    ⟨⟨'(', commaList texts ++ [')'], rfl, by decide⟩, ⟨'(' :: commaList texts, ')', rfl, by decide⟩⟩

/-- The arrow of a written signature is the first one. -/
theorem indexOf?_arrow (hkeyword : keyword = [] ∨ keyword = "def ".toList)
    (htexts : ∀ text ∈ texts, ¬ arrow <:+: text) (rest : List Char) :
    indexOf? arrow (keyword ++ paramsText texts ++ [' '] ++ (arrow ++ rest)) =
      some (keyword ++ paramsText texts ++ [' ']).length := by
  refine indexOf?_of_not_infix (by decide) ?_ rest
  have htext : keyword ++ paramsText texts ++ [' '] =
      keyword ++ '(' :: (commaList texts ++ ')' :: [' ']) := by simp [paramsText]
  rw [htext]
  refine arrow_not_infix_append (by decide) ?_ ?_
  · rcases hkeyword with rfl | rfl <;> decide
  · exact arrow_not_infix_append (by decide) (arrow_not_infix_commaList htexts) (by decide)

/-- **A written signature is cut where it was put together**, whatever blank characters stand around
it. -/
theorem signatureParts?_signatureText (hkeyword : keyword = [] ∨ keyword = "def ".toList)
    (htexts : ∀ text ∈ texts, ¬ arrow <:+: text) (hresult : trim result ≠ [])
    (hu : ∀ c ∈ u, isBlank c = true) (hv : ∀ c ∈ v, isBlank c = true) :
    isSignature (u ++ signatureText keyword texts result ++ v) = true ∧
      signatureParts? (u ++ signatureText keyword texts result ++ v) =
        some (paramsText texts, trim result) := by
  rcases blank_or_exists_sharp result with hblank | ⟨w, mid, w', rfl, hw, hmid, hw'⟩
  · exact absurd (trim_eq_nil hblank) hresult
  have hparams := sharp_paramsText hkeyword texts
  have htext : u ++ signatureText keyword texts (w ++ (mid ++ w')) ++ v =
      u ++ (keyword ++ paramsText texts ++ ((" -> ".toList ++ w) ++ mid) ++ (w' ++ v)) := by
    simp [signatureText, paramsText]
  have htrim : trim (u ++ signatureText keyword texts (w ++ (mid ++ w')) ++ v) =
      keyword ++ paramsText texts ++ [' '] ++ (arrow ++ (' ' :: w ++ mid)) := by
    rw [htext, trim_append hu (hparams.join _ hmid) fun c hc =>
      (List.mem_append.1 hc).elim (hw' c) (hv c)]
    simp [arrow]
  have hindex := indexOf?_arrow hkeyword htexts (' ' :: w ++ mid)
  have hlist : Sharp (paramsText texts) := sharp_paramsText (.inl rfl) texts
  constructor
  · rw [isSignature, htrim, hindex, Option.isSome_some, Bool.and_true]
    rcases hkeyword with rfl | rfl <;> rfl
  · have hafter : trim (' ' :: w ++ mid) = mid :=
      trim_append_left (List.forall_mem_cons.2 ⟨by decide, hw⟩) hmid
    rw [signatureParts?, htrim, splitAt?_of_indexOf? hindex, Option.map_some]
    dsimp only
    rw [trim_append_space hparams, trim_dropStart?_keyword hkeyword rfl hlist, hafter,
      trim_append hw hmid hw']

end Written

end TypeReveal
