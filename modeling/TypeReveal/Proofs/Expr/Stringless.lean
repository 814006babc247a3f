import TypeReveal.Proofs.Expr.Joined
import TypeReveal.Proofs.Layout.Sealed

/-!
# Texts without strings

The text of an expression in which no string stands is made of few characters: those of words and
numbers, operators, points, commas, brackets, and what stands between tokens
(`Lexed.forall_isTextChar`).  The brackets in it are closed where they are opened, because the
expression is derived from its tokens, so the text is **sealed** for a scan: commas stand only in
its brackets, unless the expression is a tuple (`Derives.sealedAs`).
-/

set_option autoImplicit false
namespace TypeReveal

/-- A text without quotes. -/
def Stringless (text : List Char) : Prop := ∀ c ∈ text, c ≠ '"' ∧ c ≠ '\''

theorem Stringless.left {u v : List Char} (h : Stringless (u ++ v)) : Stringless u :=
  fun c hc => h c (List.mem_append_left v hc)

theorem Stringless.right {u v : List Char} (h : Stringless (u ++ v)) : Stringless v :=
  fun c hc => h c (List.mem_append_right u hc)

/-! ## Characters

Three kinds of characters: those of operands and operators, those between tokens, and brackets with
commas.  None of them starts a comment, and the ones of the first two kinds are plain to a scan. -/

/-- A character of a token that is neither a bracket nor a comma nor a string. -/
def isOperandChar (c : Char) : Bool := isWordPart c || ".-|&".toList.contains c

/-- A character between tokens. -/
def isGapChar (c : Char) : Bool := isSpacing c || c == '\\'

/-- A character of a text without strings. -/
def isTextChar (c : Char) : Bool := isOperandChar c || isGapChar c || "()[],".toList.contains c

variable {c d : Char} {cs rest text u v seps : List Char} {t : Token} {pos : Nat}
  {l r : Lexeme} {ls ms : List Lexeme}

theorem isPlain_of_isOperandChar (h : isOperandChar c = true) : isPlain c = true ∧ c ≠ ',' := by
  rw [isOperandChar, Bool.or_eq_true] at h
  rcases h with h | h
  · have hpart := isNamePart_of_isWordPart h
    have hmarks := @not_mem_of_isNamePart c hpart
      ['(', ')', '[', ']', '\x7b', '\x7d', '"', '\'', '#', ','] (by decide)
    simp only [List.mem_cons, List.not_mem_nil, or_false, not_or] at hmarks
    simp [isPlain, isOpening, isClosing, hmarks]
  · exact (by decide : ∀ d ∈ ".-|&".toList, isPlain d = true ∧ d ≠ ',') c
      (List.contains_iff_mem.1 h)

theorem isPlain_of_isGapChar (h : isGapChar c = true) : isPlain c = true ∧ c ≠ ',' := by
  simp only [isGapChar, isSpacing, Bool.or_eq_true, beq_iff_eq] at h
  rcases h with (((rfl | rfl) | rfl) | rfl) | rfl <;> decide

theorem isGapChar_of_mem_gapUnits (hu : u ∈ gapUnits) : ∀ c ∈ u, isGapChar c = true :=
  (by decide : ∀ u ∈ gapUnits, ∀ c ∈ u, isGapChar c = true) u hu

/-! ## Tokens

Each kind of token is looked at once, and what it is made of is said by `Looks`. -/

/-- Whether a token is neither a bracket nor a comma. -/
def Token.isPart : Token → Bool
  | opening _ | closing _ | comma => false
  | word _ | int _ | float _ | str _ | operator _ | dot | ellipsis | junk => true

/-- What a token looks like that is no string. -/
inductive Looks : Token → List Char → Prop
  | opening {bracket : Bracket} {c : Char} (h : c ∈ ['(', '[']) : Looks (.opening bracket) [c]
  | closing {bracket : Bracket} {c : Char} (h : c ∈ [')', ']']) : Looks (.closing bracket) [c]
  | comma : Looks .comma [',']
  | part {t : Token} {s : List Char} (ht : t.isPart = true)
    (h : ∀ c ∈ s, isOperandChar c = true) : Looks t s

theorem isOperandChar_of_isWordPart (h : isWordPart c = true) : isOperandChar c = true := by
  rw [isOperandChar, h, Bool.true_or]

theorem isOperandChar_of_isDigit (h : c.isDigit = true) : isOperandChar c = true := by
  refine isOperandChar_of_isWordPart ?_
  rw [isWordPart, Char.isAlphanum, h, Bool.or_true, Bool.true_or]

theorem isOperandChar_of_number {sign : List Char} {n : Nat}
    (h : number? sign rest = some (t, n)) : ∀ d ∈ rest.take n, isOperandChar d = true := by
  intro d hd
  rcases isDigit_or_point_of_number? h d hd with hdigit | rfl
  · exact isOperandChar_of_isDigit hdigit
  · decide

/-- A number is a token of its own. -/
theorem Looks.number {sign s : List Char} {n : Nat} (h : number? sign rest = some (t, n))
    (hs : ∀ d ∈ s, isOperandChar d = true) : Looks t s := by
  obtain ⟨digits, after, -, -, hnumber⟩ := number?_eq_some_iff.1 h
  cases hnumber <;> exact .part rfl hs

/-- **What a token looks like.** -/
theorem looks_of_token? (hc : c ≠ '"' ∧ c ≠ '\'') {n : Nat}
    (h : token? c rest = some (t, n)) : Looks t (c :: rest.take n) := by
  cases token?_eq_some_iff.1 h with
  | mark hmark =>
    cases hmark with
    | openRound | openSquare => exact .opening (by decide)
    | closeRound | closeSquare => exact .closing (by decide)
    | bar | amp => exact .part rfl (List.forall_mem_singleton.2 rfl)
    | comma => exact .comma
  | dot hpoint =>
    subst hpoint
    exact .part rfl (List.forall_mem_singleton.2 rfl)
  | ellipsis hpoint hpoints =>
    subst hpoint
    obtain ⟨more, rfl⟩ := hpoints
    exact .part rfl (by simp [isOperandChar])
  | str hquote => exact absurd hquote (not_or.2 hc)
  | word hstart =>
    refine .part rfl (List.forall_mem_cons.2 ⟨?_, fun d hd => ?_⟩)
    · exact isOperandChar_of_isWordPart (isWordPart_of_isWordStart hstart)
    · rw [← List.prefix_iff_eq_take.1 (List.takeWhile_prefix _)] at hd
      exact isOperandChar_of_isWordPart (List.all_eq_true.1 List.all_takeWhile d hd)
  | negative hminus hnumber =>
    subst hminus
    exact .number hnumber (List.forall_mem_cons.2 ⟨by decide, isOperandChar_of_number hnumber⟩)
  | number _ hnumber => exact .number hnumber (isOperandChar_of_number hnumber)

theorem Looks.of_lexed (hs : Stringless (c :: (cs ++ rest)))
    (h : token? c (cs ++ rest) = some (t, cs.length)) : Looks t (c :: cs) := by
  have hlooks := looks_of_token? (hs c List.mem_cons_self) h
  rwa [List.take_left] at hlooks

theorem Looks.isTextChar {s : List Char} (h : Looks t s) : ∀ c ∈ s, isTextChar c = true := by
  cases h with
  | opening hc | closing hc =>
    refine List.forall_mem_singleton.2 ?_
    simp only [List.mem_cons, List.not_mem_nil, or_false] at hc
    rcases hc with rfl | rfl <;> decide
  | comma => decide
  | part _ h =>
    intro c hc
    rw [TypeReveal.isTextChar, h c hc, Bool.true_or, Bool.true_or]

/-- **The characters of a text without strings.** -/
theorem Lexed.forall_isTextChar (h : Lexed pos text ls) (hs : Stringless text) :
    ∀ c ∈ text, isTextChar c = true := by
  induction h with
  | nil => exact fun c hc => absurd hc List.not_mem_nil
  | gap hu _ ih =>
    refine List.forall_mem_append.2 ⟨fun c hc => ?_, ih hs.right⟩
    rw [isTextChar, isGapChar_of_mem_gapUnits hu c hc, Bool.or_true, Bool.true_or]
  | @token pos c cs text t ls ht _ ih =>
    have hlooks := Looks.of_lexed hs ht
    rw [← List.cons_append] at hs ⊢
    exact List.forall_mem_append.2 ⟨hlooks.isTextChar, ih hs.right⟩

/-- The characters that strings and the operator of intersections start with. -/
theorem mark_of_token? {n : Nat} (h : token? c rest = some (t, n)) :
    (∀ s, t = .str s → c = '"' ∨ c = '\'') ∧ (t = .operator .amp → c = '&') := by
  cases token?_eq_some_iff.1 h with
  | mark hmark => cases hmark <;> simp
  | str hquote => exact ⟨fun _ _ => hquote, nofun⟩
  | dot | ellipsis | word => exact ⟨nofun, nofun⟩
  | negative _ hnumber | number _ hnumber =>
    obtain ⟨digits, after, -, -, hnumeral⟩ := number?_eq_some_iff.1 hnumber
    cases hnumeral <;> exact ⟨nofun, nofun⟩

/-- **In a text without quotes** no token is a string, and none is the operator of intersections if
the text is without its mark too. -/
theorem Lexed.token_ne (h : Lexed pos text ls) (hs : Stringless text) (hl : l ∈ ls) :
    (∀ s, l.token ≠ .str s) ∧ ('&' ∉ text → l.token ≠ .operator .amp) := by
  obtain ⟨before, c, cs, after, rfl, -, htoken⟩ := h.exists_token hl
  have hc : c ∈ before ++ (c :: cs ++ after) := by simp
  obtain ⟨hstr, hamp⟩ := mark_of_token? htoken
  exact ⟨fun s heq => (hstr s heq).elim (hs c hc).1 (hs c hc).2,
    fun hmark heq => hmark (hamp heq ▸ hc)⟩

/-! ## Gaps

What stands between tokens has no brackets, no commas and no quotes, so it is sealed. -/

/-- Where there are no tokens, there are gaps only. -/
theorem Lexed.forall_isGapChar (h : Lexed pos text []) : ∀ c ∈ text, isGapChar c = true := by
  generalize hls : ([] : List Lexeme) = ls at h
  induction h with
  | nil => exact fun c hc => absurd hc List.not_mem_nil
  | gap hu _ ih => exact List.forall_mem_append.2 ⟨isGapChar_of_mem_gapUnits hu, ih hls⟩
  | token => cases hls

theorem sealed_of_isGapChar (h : ∀ c ∈ text, isGapChar c = true) : Sealed [','] text :=
  .of_forall fun c hc => by simpa using isPlain_of_isGapChar (h c hc)

/-- The text of a single token, with what stands around it. -/
theorem Lexed.exists_looks (h : Lexed pos text [l]) (hs : Stringless text) :
    ∃ u s v, text = u ++ (s ++ v) ∧ (∀ c ∈ u, isGapChar c = true) ∧ Looks l.token s ∧
      ∀ c ∈ v, isGapChar c = true := by
  generalize hls : [l] = ls at h
  induction h with
  | nil => cases hls
  | @gap pos unit text ls hu _ ih =>
    obtain ⟨u, s, v, rfl, hgap, hlooks, hv⟩ := ih hs.right hls
    exact ⟨unit ++ u, s, v, by simp,
      List.forall_mem_append.2 ⟨isGapChar_of_mem_gapUnits hu, hgap⟩, hlooks, hv⟩
  | @token pos c cs text t ls ht h =>
    obtain ⟨rfl, rfl⟩ := List.cons.inj hls
    exact ⟨[], c :: cs, text, rfl, fun c hc => absurd hc List.not_mem_nil, .of_lexed hs ht,
      h.forall_isGapChar⟩

/-! ## Sealed texts

The property is one of lists of tokens, as a statement about all texts that have these tokens, so
that it can be proved along a derivation.  In brackets commas are allowed, and outside of them they
are not. -/

/-- A text is sealed whenever it has the given tokens and no strings. -/
def SealedAs (seps : List Char) (ls : List Lexeme) : Prop :=
  ∀ pos text, Lexed pos text ls → Stringless text → Sealed seps text

namespace SealedAs

theorem nil : SealedAs [] [] :=
  fun _ _ h _ => (sealed_of_isGapChar h.forall_isGapChar).mono (List.nil_subset _)

theorem append (hls : SealedAs seps ls) (hms : SealedAs seps ms) : SealedAs seps (ls ++ ms) := by
  intro pos text h hs
  obtain ⟨front, back, rfl, hfront, hback, -⟩ := h.exists_cut
  exact (hls _ _ hfront hs.left).append (hms _ _ hback hs.right)

theorem cons (hl : SealedAs seps [l]) (hms : SealedAs seps ms) : SealedAs seps (l :: ms) :=
  hl.append hms

theorem mono {seps' : List Char} (h : SealedAs seps ls) (hseps : seps' ⊆ seps) :
    SealedAs seps' ls :=
  fun pos text hlexed hs => (h pos text hlexed hs).mono hseps

/-- A token that is neither a bracket nor a comma. -/
theorem part (hl : l.token.isPart = true) : SealedAs [','] [l] := by
  intro pos text h hs
  obtain ⟨u, s, v, rfl, hu, hlooks, hv⟩ := h.exists_looks hs
  refine (sealed_of_isGapChar hu).append (.append ?_ (sealed_of_isGapChar hv))
  generalize l.token = t at hl hlooks
  cases hlooks with
  | opening | closing | comma => cases hl
  | part _ hchars =>
    exact .of_forall fun c hc => by simpa using isPlain_of_isOperandChar (hchars c hc)

/-- A comma is sealed where commas may stand. -/
theorem comma (hl : l.token = .comma) : SealedAs [] [l] := by
  intro pos text h hs
  obtain ⟨u, s, v, rfl, hu, hlooks, hv⟩ := h.exists_looks hs
  rw [hl] at hlooks
  have hgap {w : List Char} (hw : ∀ c ∈ w, isGapChar c = true) : Sealed [] w :=
    (sealed_of_isGapChar hw).mono (List.nil_subset _)
  refine (hgap hu).append (.append ?_ (hgap hv))
  cases hlooks with
  | comma => exact .plain (by decide) List.not_mem_nil
  | part ht => cases ht

/-- **What stands in brackets** is sealed by them. -/
theorem bracket {bracket bracket' : Bracket} (hl : l.token = .opening bracket)
    (hr : r.token = .closing bracket') (hms : SealedAs [] ms) :
    SealedAs [','] (l :: (ms ++ [r])) := by
  intro pos text h hs
  rw [← List.singleton_append] at h
  obtain ⟨first, rest, rfl, hfirst, hrest, -⟩ := h.exists_cut
  obtain ⟨mid, last, rfl, hmid, hlast, -⟩ := hrest.exists_cut
  obtain ⟨u, s, v, rfl, hu, hopen, hv⟩ := hfirst.exists_looks hs.left
  obtain ⟨u', s', v', rfl, hu', hclose, hv'⟩ := hlast.exists_looks hs.right.right
  rw [hl] at hopen
  rw [hr] at hclose
  cases hopen with
  | part ht => cases ht
  | @opening _ o ho =>
    cases hclose with
    | part ht => cases ht
    | @closing _ c hc =>
      have hopening : isOpening o = true :=
        (by decide : ∀ o ∈ ['(', '['], isOpening o = true) o ho
      have hclosing : isClosing c = true :=
        (by decide : ∀ c ∈ [')', ']'], isClosing c = true) c hc
      have hgap {w : List Char} (hw : ∀ c ∈ w, isGapChar c = true) : Sealed [] w :=
        (sealed_of_isGapChar hw).mono (List.nil_subset _)
      have hinner : Sealed [] (v ++ (mid ++ u')) :=
        (hgap hv).append ((hms _ _ hmid hs.right.left).append (hgap hu'))
      have hall := (sealed_of_isGapChar hu).append
        ((Sealed.bracket hopening hclosing hinner).append (sealed_of_isGapChar hv'))
      simpa using hall

end SealedAs

theorem isPart_of_operand? {e : Expr} (h : l.token.operand? l.span = some e) :
    l.token.isPart = true := by
  cases htoken : l.token with
  | opening | closing | comma =>
    rw [htoken] at h
    cases h
  | _ => rfl

mutual

/-- **The text of an expression is sealed**: a bare tuple aside, the commas in it stand in its
brackets. -/
theorem Derives.sealedAs : ∀ {s : Stratum} {ls : List Lexeme} {e : Expr}, Derives s ls e →
    SealedAs [','] ls
  | _, _, _, .operand h => .part (isPart_of_operand? h)
  | _, _, _, .unit hl hr => .bracket hl hr .nil
  | _, _, _, .paren hl h _ hr => .bracket hl hr h.sealedAs
  | _, _, _, .list hl h hr => .bracket hl hr h.sealedAs
  | _, _, _, .call hcallee hl h hr => hcallee.sealedAs.append (.bracket hl hr h.sealedAs)
  | _, _, _, .subscript hvalue hl h _ hr => hvalue.sealedAs.append (.bracket hl hr h.sealedAs)
  | _, _, _, .member hvalue hl hr =>
    hvalue.sealedAs.append (.cons (.part (hl ▸ rfl)) (.part (hr ▸ rfl)))
  | _, _, _, .amp h => h.sealedAs
  | _, _, _, .bar h => h.sealedAs
  | _, _, _, .binary hlhs hl hrhs =>
    hlhs.sealedAs.append (.cons (.part (hl ▸ rfl)) hrhs.sealedAs)
  | _, _, _, .dangling hlhs hl => hlhs.sealedAs.append (.part (hl ▸ rfl))

/-- **The text of elements is sealed** as what brackets may hold. -/
theorem Fills.sealedAs : ∀ {ls : List Lexeme} {es : List Expr} {comma? : Option Nat}
    {ended : Bool}, Fills ls es comma? ended → SealedAs [] ls
  | _, _, _, _, .empty => .nil
  | _, _, _, _, .next h he => h.sealedAs.append (he.sealedAs.mono (List.nil_subset _))
  | _, _, _, _, .comma h hl => h.sealedAs.append (.comma hl)

end

end TypeReveal
