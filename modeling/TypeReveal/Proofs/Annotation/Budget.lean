import TypeReveal.Annotation.Extended
import TypeReveal.Proofs.Expr.Atoms
import TypeReveal.Proofs.Expr.Pieces
import TypeReveal.Proofs.Layout.Row

/-!
# The extended meaning needs no budget

The quotes of a string are not part of what it denotes, so every string of an expression is shorter
than the text that the expression is read from.  The parts of a quoted signature are read from parts
of its text, and each string in them is shorter than the string around them.  Hence the steps into
quoted signatures end by themselves: what is put for the parts that lie deeper than the longest
string has characters is of no account (`extended_eq_extendWith`).
-/

set_option autoImplicit false
namespace TypeReveal

/-! ## Strings are shorter than their texts

A string token has two quotes more than the text between them, and unescaping makes no text longer.
-/

/-- Unescaping makes no text longer. -/
theorem length_unescape_le (s : List Char) : (unescape s).length ≤ s.length := by
  fun_induction unescape s with
  | case1 | case2 => exact Nat.le_refl _
  | case3 rest ih | case4 rest ih | case5 _ rest _ _ ih | case6 _ rest _ _ _ _ ih =>
    simp only [List.length_cons]
    omega

/-- A string is shorter than the text that starts with it. -/
theorem length_lt_of_token? {c : Char} {rest : List Char} {text : String} {more : Nat}
    (h : token? c rest = some (.str text, more)) : text.length < (c :: rest).length := by
  obtain ⟨body, hbody, rfl, -⟩ := stringBody?_of_token? h
  have hlength := length_stringBody?_lt hbody
  have hunescape := length_unescape_le body
  rw [String.length_ofList, List.length_cons]
  omega

/-- Every string among the tokens of a text is shorter than the text. -/
theorem length_lt_of_mem_lexemes {pos : Nat} {text : List Char} {l : Lexeme} {s : String}
    (hl : l ∈ lexemes pos text) (hs : l.token = .str s) : s.length < text.length := by
  rcases token_of_mem_lexemes hl with hjunk | ⟨c, rest, n, hrest, htoken, -⟩
  · cases hs.symm.trans hjunk
  · rw [hs] at htoken
    exact Nat.lt_of_lt_of_le (length_lt_of_token? htoken) hrest.length_le

namespace Expr

theorem longestStrings_lt_iff {n : Nat} (hn : 0 < n) {es : List Expr} :
    longestStrings es < n ↔ ∀ e ∈ es, e.longestString < n := by
  induction es with
  | nil => simpa [longestStrings] using hn
  | cons e es ih => rw [longestStrings, Nat.max_lt, ih, List.forall_mem_cons]

/-- The longest string of an expression that is no single token is one of its parts'. -/
theorem inherited_longestString_lt {n : Nat} (hn : 0 < n) :
    Inherited fun e => e.longestString < n := by
  intro e he h
  cases e with
  | tuple _ elems | list _ elems => exact (longestStrings_lt_iff hn).2 h
  | call _ callee args =>
    rw [children, List.forall_mem_cons] at h
    exact Nat.max_lt.2 ⟨h.1, (longestStrings_lt_iff hn).2 h.2⟩
  | binary | subscript =>
    rw [children, List.forall_mem_cons, List.forall_mem_singleton] at h
    exact Nat.max_lt.2 h
  | paren _ inner => exact h inner List.mem_cons_self
  | dangling _ _ lhs => exact h lhs List.mem_cons_self
  | member _ value => exact h value List.mem_cons_self
  | _ => cases he

theorem longestString_lt_of_operand? {n : Nat} (hn : 0 < n) {t : Token} {span : Span} {e : Expr}
    (ht : ∀ s, t = .str s → s.length < n) (h : t.operand? span = some e) :
    e.longestString < n := by
  rw [Token.operand?.eq_def] at h
  split at h
  case h_7 s =>
    cases h
    exact ht s rfl
  case h_9 => cases h
  all_goals
    cases h
    exact hn

theorem ofText?_nil : ofText? [] = Option.none := by
  rw [ofText?, Expr.read, lexemes]
  rfl

/-- **Every string of an expression is shorter than the text of the expression.** -/
theorem longestString_lt_of_ofText? {text : List Char} {e : Expr} (h : ofText? text = some e) :
    e.longestString < text.length := by
  have hpos : 0 < text.length := by
    refine List.length_pos_iff.2 fun hnil => ?_
    rw [hnil, ofText?_nil] at h
    cases h
  have hread : Expr.read text 0 = .ok e := by
    rw [ofText?] at h
    cases hread : Expr.read text 0 with
    | error err =>
      rw [hread] at h
      cases h
    | ok f =>
      rw [hread] at h
      exact congrArg _ (Option.some.inj h)
  refine Expr.of_read (inherited_longestString_lt hpos) (fun l hl e he => ?_) hread
  exact longestString_lt_of_operand? hpos (fun s hs => length_lt_of_mem_lexemes hl hs) he

end Expr

/-! ## The parts of a signature

Parameters and result are pieces of the text of the signature, which is the content of a string. -/

theorem trim_sublist (s : List Char) : (trim s).Sublist s := by
  have hstart : (trimStart s).Sublist s := List.dropWhile_sublist _
  exact (prefix_trimEnd _).sublist.trans hstart

/-- Both sides of a cut have their characters from the text. -/
theorem sublist_of_splitAt? {part s before after : List Char}
    (h : splitAt? part s = some (before, after)) : before.Sublist s ∧ after.Sublist s := by
  obtain ⟨i, -, heq⟩ := Option.map_eq_some_iff.1 h
  cases heq
  exact ⟨List.take_sublist _ _, List.drop_sublist _ _⟩

theorem dropStart?_getD_sublist (start s : List Char) :
    ((dropStart? start s).getD s).Sublist s := by
  rw [dropStart?]
  split
  · exact List.drop_sublist _ _
  · exact List.Sublist.refl s

/-- A signature is cut into two of its parts. -/
theorem sublist_of_signatureParts? {text params result : List Char}
    (h : signatureParts? text = some (params, result)) :
    params.Sublist text ∧ result.Sublist text := by
  obtain ⟨⟨before, after⟩, hsplit, heq⟩ := Option.map_eq_some_iff.1 h
  obtain ⟨hbefore, hafter⟩ := sublist_of_splitAt? hsplit
  cases heq
  exact ⟨((trim_sublist _).trans (dropStart?_getD_sublist _ _)).trans
      ((trim_sublist _).trans (hbefore.trans (trim_sublist _))),
    (trim_sublist _).trans (hafter.trans (trim_sublist _))⟩

/-- The parameters of a signature are parts of the list of them. -/
theorem longestString_lt_of_signatureParams? {n : Nat} {e : Expr} {params : List Expr}
    (h : signatureParams? e = some params) (he : e.longestString < n) :
    ∀ param ∈ params, param.longestString < n := by
  rw [signatureParams?.eq_def] at h
  split at h
  · cases h
    exact (Expr.longestStrings_lt_iff (Nat.zero_lt_of_lt he)).1 he
  · cases h
    exact (Expr.longestStrings_lt_iff (Nat.zero_lt_of_lt he)).1 he
  · cases h
    exact List.forall_mem_singleton.2 he
  · cases h

/-- **The strings in the parts of a quoted signature are shorter than the string around it.** -/
theorem longestString_lt_of_readSignature? {text : String} {params : List Expr} {result : Expr}
    (h : readSignature? text = some (params, result)) :
    (∀ param ∈ params, param.longestString < text.length) ∧
      result.longestString < text.length := by
  obtain ⟨-, -, h⟩ := Option.bind_eq_some_iff.1 h
  obtain ⟨⟨paramsText, resultText⟩, hparts, h⟩ := Option.bind_eq_some_iff.1 h
  obtain ⟨paramsExpr, hparamsExpr, h⟩ := Option.bind_eq_some_iff.1 h
  obtain ⟨params', hparams, h⟩ := Option.bind_eq_some_iff.1 h
  obtain ⟨result', hresult, heq⟩ := Option.bind_eq_some_iff.1 h
  cases heq
  have hshorter {part : List Char} {e : Expr} (hpart : part.Sublist text.toList)
      (he : Expr.ofText? part = some e) : e.longestString < text.length :=
    Nat.lt_of_lt_of_le (Expr.longestString_lt_of_ofText? he)
      (Nat.le_trans hpart.length_le (Nat.le_of_eq text.length_toList))
  obtain ⟨hparamsText, hresultText⟩ := sublist_of_signatureParts? hparts
  exact ⟨longestString_lt_of_signatureParams? hparams (hshorter hparamsText hparamsExpr),
    hshorter hresultText hresult⟩

/-! ## Budgets

Two readers that agree where strings are shorter are used in the same way, and a budget that is one
greater is enough for strings that are one character longer. -/

/-- Two readers that agree where all strings have fewer than `n` characters. -/
def AgreeBelow (n : Nat) (deeper deeper' : Site → Expr → Option Ty) : Prop :=
  ∀ site e, e.longestString < n → deeper site e = deeper' site e

section

variable {deeper deeper' : Site → Expr → Option Ty} {n : Nat} {site : Site}

/-- The parts of a signature have shorter strings than the string that quotes it. -/
theorem signatureWith_congr (h : AgreeBelow n deeper deeper') {e : Expr}
    (he : e.longestString ≤ n) :
    signatureWith deeper site e = signatureWith deeper' site e := by
  cases e with
  | str span text =>
    refine Option.bind_congr fun ⟨params, result⟩ hsignature => ?_
    obtain ⟨hparams, hresult⟩ := longestString_lt_of_readSignature? hsignature
    have hread (e : Expr) (hlt : e.longestString < text.length) :
        deeper (site.quote span.start) e = deeper' (site.quote span.start) e :=
      h _ e (Nat.lt_of_lt_of_le hlt he)
    have hmap : (params.map fun e =>
          Slot.anonymous ((deeper (site.quote span.start) e).getD .unknown)) =
        params.map fun e => Slot.anonymous ((deeper' (site.quote span.start) e).getD .unknown) :=
      List.map_congr_left fun e hmem => by rw [hread e (hparams e hmem)]
    dsimp only
    rw [hmap, hread result hresult]
  | _ => rfl

theorem fallbackWith_congr (h : AgreeBelow n deeper deeper') {strict : Bool} {e : Expr}
    (he : e.longestString ≤ n) :
    fallbackWith deeper site strict e = fallbackWith deeper' site strict e := by
  rw [fallbackWith, fallbackWith, signatureWith_congr h he]

mutual

/-- Only expressions whose strings are shorter are left to `deeper`. -/
theorem extendWith_congr (h : AgreeBelow n deeper deeper') (strict : Bool) (e : Expr)
    (he : e.longestString ≤ n) :
    extendWith deeper site strict e = extendWith deeper' site strict e := by
  have hfallback : fallbackWith deeper site strict e = fallbackWith deeper' site strict e :=
    fallbackWith_congr h he
  cases e with
  | binary span op lhs rhs =>
    rw [Expr.longestString, Nat.max_le] at he
    have hlhs := extendWith_congr h false lhs he.1
    have hrhs := extendWith_congr h false rhs he.2
    cases op <;> simp only [extendWith, hlhs, hrhs, hfallback]
  | dangling span op lhs =>
    have hlhs := extendWith_congr h false lhs he
    cases op <;> simp only [extendWith, hlhs, hfallback]
  | paren span inner =>
    have hinner := extendWith_congr h false inner he
    simp only [extendWith, hinner, hfallback]
  | tuple span elems => simp only [extendWith, extendAllWith_congr h elems he]
  | int | bool => rfl
  | float | none | ellipsis | str | name | list | subscript | member | call =>
    simpa only [extendWith] using hfallback

theorem extendAllWith_congr (h : AgreeBelow n deeper deeper') (es : List Expr)
    (hes : Expr.longestStrings es ≤ n) :
    extendAllWith deeper site es = extendAllWith deeper' site es := by
  cases es with
  | nil => rfl
  | cons e es =>
    rw [Expr.longestStrings, Nat.max_le] at hes
    rw [extendAllWith, extendAllWith, extendWith_congr h false e hes.1,
      extendAllWith_congr h es hes.2]

end

end

/-- The extended meaning of an annotation, with `last` for what lies `budget` quoted signatures
deep. -/
def extendFrom (last : Site → Expr → Option Ty) : (budget : Nat) → Site → Expr → Option Ty
  | 0 => last
  | budget + 1 => fun site e => extendWith (extendFrom last budget) site false e

/-- A budget is a number of steps into quoted signatures, with no answer at the end of them. -/
theorem extendWithin_eq_extendWith (budget : Nat) (site : Site) (strict : Bool) (e : Expr) :
    extendWithin (budget + 1) site strict e =
      extendWith (extendFrom (fun _ _ => none) budget) site strict e := by
  induction budget generalizing site strict e with
  | zero => rfl
  | succ budget ih =>
    rw [extendWithin, funext fun site => funext fun e => ih site false e]
    rfl

variable {last last' : Site → Expr → Option Ty}

/-- What lies deeper than the longest string is of no account. -/
theorem extendFrom_eq {m n : Nat} {site : Site} {e : Expr} (hm : e.longestString < m)
    (hn : e.longestString < n) : extendFrom last m site e = extendFrom last' n site e := by
  induction m generalizing n site e with
  | zero => exact absurd hm (Nat.not_lt_zero _)
  | succ m ih =>
    cases n with
    | zero => exact absurd hn (Nat.not_lt_zero _)
    | succ n =>
      have hagree : AgreeBelow e.longestString (extendFrom last m) (extendFrom last' n) :=
        fun site f hf => ih (Nat.lt_of_lt_of_le hf (Nat.le_of_lt_succ hm))
          (Nat.lt_of_lt_of_le hf (Nat.le_of_lt_succ hn))
      exact extendWith_congr hagree false e (Nat.le_refl _)

/-- **The extended meaning of an annotation needs no budget**: whatever is put for what lies deeper
than its longest string has characters, it is never asked for. -/
theorem extended_eq_extendWith (last : Site → Expr → Option Ty) {budget : Nat} {e : Expr}
    (h : e.longestString ≤ budget) (site : Site) (strict : Bool) :
    extended site e strict = extendWith (extendFrom last budget) site strict e := by
  rw [extended, extendWithin_eq_extendWith]
  exact extendWith_congr
    (fun _ _ hf => extendFrom_eq hf (Nat.lt_of_lt_of_le hf h)) strict e (Nat.le_refl _)

end TypeReveal
