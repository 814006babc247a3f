import TypeReveal.Annotation.SignatureText
import TypeReveal.Proofs.Text.Search
import TypeReveal.Proofs.Text.Trim

/-!
# The shape of a signature

Whether a text is a signature is seen from its start and from any arrow in it; the parameters and
the result come from a cut at the first arrow and from what is trimmed after that.
`signatureParts?_agrees` says that the two belong together: a text has the shape of a signature if
and only if it is laid out as one (`HasShape`) around the parts that the cut gives.

The arrow is sharp, so that blank characters around a text neither hide an arrow nor make one.
-/

set_option autoImplicit false
namespace TypeReveal

variable {text keyword params result before after s v : List Char}

theorem sharp_arrow : Sharp arrow := .of_forall (by decide) (by decide)

/-- **A text laid out as a signature**, with its parameters and its result. -/
structure HasShape (text params result : List Char) : Prop where
  opening : params.head? = some '('
  not_arrow : ¬ arrow <:+: params
  sharp_params : Sharp params
  sharp_result : result = [] ∨ Sharp result
  /-- Around the first arrow of the text there are only blank characters between the parts, and
  before the parameters there may be `def` and a space. -/
  layout : ∃ u keyword v w x : List Char,
    (keyword = [] ∨ keyword = "def ".toList) ∧
    (∀ c ∈ u ++ (v ++ (w ++ x)), isBlank c = true) ∧
    text = u ++ (trim text ++ x) ∧
    trim text = keyword ++ (params ++ (v ++ (arrow ++ (w ++ result)))) ∧
    ¬ arrow <:+: u ++ (keyword ++ (params ++ v))

/-! ## The keyword

The word before the parameters may be there or not, with blanks in front of it and behind it.
Trimming the text before the first arrow and taking the word off leaves a list in parentheses. -/

theorem sharp_keyword_append (hkeyword : keyword = [] ∨ keyword = "def ".toList)
    (hparams : Sharp params) : Sharp (keyword ++ params) := by
  rcases hkeyword with rfl | rfl
  · exact hparams
  · exact Sharp.join ⟨⟨'d', ['e', 'f'], rfl, by decide⟩, ⟨['d', 'e'], 'f', rfl, by decide⟩⟩ [' ']
      hparams

/-- Without its keyword a list of parameters is left. -/
theorem trim_dropStart?_keyword (hkeyword : keyword = [] ∨ keyword = "def ".toList)
    (hopening : params.head? = some '(') (hparams : Sharp params) :
    trim ((dropStart? "def".toList (keyword ++ params)).getD (keyword ++ params)) = params := by
  rcases hkeyword with rfl | rfl
  · obtain ⟨rest, rfl⟩ := List.head?_eq_some_iff.1 hopening
    exact trim_eq_self hparams
  · have hdef : dropStart? "def".toList ("def ".toList ++ params) = some (' ' :: params) :=
      dropStart?_eq_some.2 rfl
    rw [hdef, Option.getD_some, trim_space_cons hparams]

/-! ## The test and the cut

The test looks for an arrow anywhere behind an opening parenthesis.  Any arrow will do, because the
first one is then behind that parenthesis as well. -/

/-- **What the test sees**: an opening parenthesis, perhaps behind a keyword, before the first
arrow. -/
theorem exists_of_isSignature (h : isSignature text = true) :
    ∃ keyword before after, (keyword = [] ∨ keyword = "def ".toList) ∧
      splitAt? arrow (trim text) = some (keyword ++ '(' :: before, after) := by
  rw [isSignature, Bool.and_eq_true, Bool.or_eq_true, List.isPrefixOf_iff_prefix,
    List.isPrefixOf_iff_prefix, isSome_indexOf?_iff, ← isSome_splitAt?_iff] at h
  obtain ⟨hstart, hsplit⟩ := h
  obtain ⟨⟨before, after⟩, hsplit⟩ := Option.isSome_iff_exists.1 hsplit
  rw [eq_append_of_splitAt? hsplit] at hstart
  rcases hstart with hstart | hstart
  · obtain ⟨rest, rfl⟩ := prefix_of_prefix_append_cons (by decide) hstart
    exact ⟨"def ".toList, rest, after, .inr rfl, hsplit⟩
  · obtain ⟨rest, rfl⟩ := prefix_of_prefix_append_cons (by decide) hstart
    exact ⟨[], rest, after, .inl rfl, hsplit⟩

/-- **A cut behind a keyword and a parenthesis** gives the parts of a text laid out as a
signature. -/
theorem hasShape_of_splitAt? (hkeyword : keyword = [] ∨ keyword = "def ".toList)
    (hsplit : splitAt? arrow (trim text) = some (keyword ++ '(' :: before, after)) :
    ∃ params, signatureParts? text = some (params, trim after) ∧
      HasShape text params (trim after) := by
  obtain ⟨params, v, hbefore, hparams, hv⟩ :=
    exists_sharp_of_head (by decide : isBlank '(' = false) before
  obtain ⟨w, y, hafter, hw, hy⟩ := exists_trim after
  obtain ⟨u, x, hmargins, hu, hx⟩ := exists_trim text
  rw [hbefore] at hsplit
  have htext := eq_append_of_splitAt? hsplit
  have hfirst := not_infix_of_splitAt? (by decide) hsplit
  have hopening : params.head? = some '(' := by
    obtain ⟨c, rest, rfl, -⟩ := hparams.head
    exact congrArg some (List.cons.inj hbefore).1.symm
  -- The text is trimmed, so nothing blank is left behind the result.
  have hnothing : y = [] := by
    have hsharp : Sharp (trim text) := sharp_trim (by simp [htext, arrow])
    rw [htext, hafter] at hsharp
    simp only [← List.append_assoc] at hsharp
    exact hsharp.eq_nil_of_append hy
  have hbody : trim (keyword ++ (params ++ v)) = keyword ++ params := by
    have hblank : ∀ c ∈ ([] : List Char), isBlank c = true := by simp
    rw [← List.append_assoc]
    exact trim_append hblank (sharp_keyword_append hkeyword hparams) hv
  refine ⟨params, ?_, hopening, ?_, hparams, ?_, u, keyword, v, w, x, hkeyword, ?_, hmargins, ?_,
    ?_⟩
  · rw [signatureParts?, hsplit, Option.map_some]
    dsimp only
    rw [hbody, trim_dropStart?_keyword hkeyword hopening hparams]
  · exact fun h => hfirst (h.trans ⟨keyword, v, by simp⟩)
  · exact or_iff_not_imp_left.2 sharp_trim
  · simp only [List.forall_mem_append]
    exact ⟨hu, hv, hw, hx⟩
  · rw [htext, List.append_assoc, List.append_assoc]
    rw [hnothing, List.append_nil] at hafter
    rw [← hafter]
  · exact fun h => hfirst (sharp_arrow.infix_of_blank_append hu h)

/-- **The test and the cut of signatures agree.**  A text is cut if there is an arrow in it.  It has
the shape of a signature if and only if it is laid out as one, and then it is laid out around the
parts into which it is cut. -/
theorem signatureParts?_agrees (text : List Char) :
    ((signatureParts? text).isSome = true ↔ arrow <:+: text) ∧
      (isSignature text = true ↔ ∃ params result,
        signatureParts? text = some (params, result) ∧ HasShape text params result) := by
  refine ⟨?_, fun h => ?_, ?_⟩
  · rw [signatureParts?, Option.isSome_map, isSome_splitAt?_iff, sharp_arrow.infix_trim_iff]
  · obtain ⟨keyword, before, after, hkeyword, hsplit⟩ := exists_of_isSignature h
    obtain ⟨params, hparts, hshape⟩ := hasShape_of_splitAt? hkeyword hsplit
    exact ⟨params, trim after, hparts, hshape⟩
  · rintro ⟨params, result, -, hshape⟩
    obtain ⟨u, keyword, v, w, x, hkeyword, -, -, htext, -⟩ := hshape.layout
    obtain ⟨rest, rfl⟩ := List.head?_eq_some_iff.1 hshape.opening
    have harrow : (indexOf? arrow (trim text)).isSome = true := by
      rw [isSome_indexOf?_iff, htext]
      exact ⟨keyword ++ ('(' :: rest ++ v), w ++ result, by simp⟩
    rw [isSignature, harrow, htext]
    rcases hkeyword with rfl | rfl <;> rfl

/-- A signature that gives a signature: only the first arrow counts. -/
theorem signatureParts?_agrees_curried :
    signatureParts? " def (int) -> (str) -> bool".toList =
        some ("(int)".toList, "(str) -> bool".toList) ∧
      HasShape " def (int) -> (str) -> bool".toList "(int)".toList "(str) -> bool".toList := by
  have hparts : signatureParts? " def (int) -> (str) -> bool".toList =
    some ("(int)".toList, "(str) -> bool".toList) := by decide +kernel
  have hsignature : isSignature " def (int) -> (str) -> bool".toList = true := by decide +kernel
  obtain ⟨params, result, hsome, hshape⟩ :=
    (signatureParts?_agrees " def (int) -> (str) -> bool".toList).2.1 hsignature
  obtain ⟨rfl, rfl⟩ := Prod.mk.inj (Option.some.inj (hparts.symm.trans hsome))
  exact ⟨hparts, hshape⟩

end TypeReveal
