import TypeReveal.Proofs.Expr.Derivation
import TypeReveal.Proofs.Expr.Lexing

/-!
# What reading yields

Every expression that is read fits: `Expr.fits_of_read`.  It is derived from tokens that stand in a
text, which are proper (`isProper_of_mem_lexemes`), and each rule of the grammar makes what fits of
parts that do (`Derives.fits`).

The other half of the correspondence between expressions and texts.  To fit is a condition on the
whole tree: names are words and no values, numbers with a point are written as such, a side of an
operation stands at the stratum of that side, and a tuple of elements stands where one is admitted.
No reader checks it, and it comes out because of the way the tree is built.
-/

set_option autoImplicit false
namespace TypeReveal

/-! ## Tokens of a text

A token is proper if it could have been printed.  Words and numbers are, by the characters that they
are made of. -/

theorem isWord_takeWhile {c : Char} (h : isWordStart c = true) (rest : List Char) :
    isWord (c :: rest.takeWhile isWordPart) = true := by
  rw [isWord, h, Bool.true_and]
  exact List.all_takeWhile

theorem isDecimal_of_unsigned {sign text : List Char} (hsign : sign = [] ∨ sign = ['-'])
    (h : isUnsignedDecimal text = true) : isDecimal (sign ++ text) = true := by
  rcases hsign with rfl | rfl
  · rw [List.nil_append, isDecimal.eq_def]
    split
    · simp [isUnsignedDecimal, show '-'.isDigit = false from by decide] at h
    · exact h
  · exact h

theorem isUnsignedDecimal_append {digits fraction : List Char} (hne : digits ≠ [])
    (hdigits : ∀ c ∈ digits, c.isDigit = true) (hfraction : ∀ c ∈ fraction, c.isDigit = true) :
    isUnsignedDecimal (digits ++ '.' :: fraction) = true := by
  have htake : (digits ++ '.' :: fraction).takeWhile Char.isDigit = digits := by
    rw [List.takeWhile_append_of_pos hdigits]
    simp
  have hdrop : (digits ++ '.' :: fraction).dropWhile Char.isDigit = '.' :: fraction := by
    rw [List.dropWhile_append_of_pos hdigits]
    simp
  simpa [isUnsignedDecimal, htake, hdrop, hne] using hfraction

/-- A number that is read could have been printed. -/
theorem isProper_of_number? {sign rest : List Char} {t : Token} {n : Nat}
    (hsign : sign = [] ∨ sign = ['-']) (h : number? sign rest = some (t, n)) :
    t.isProper = true := by
  obtain ⟨s, after, -, -, hs⟩ := number?_eq_some_iff.1 h
  cases hs with
  | int => rfl
  | float hne hdigits hfraction =>
    rw [Token.isProper, String.toList_ofList, List.append_assoc]
    exact isDecimal_of_unsigned hsign (isUnsignedDecimal_append hne hdigits hfraction)

/-- So could any other token that is read. -/
theorem isProper_of_token? {c : Char} {rest : List Char} {t : Token} {n : Nat}
    (h : token? c rest = some (t, n)) : t.isProper = true := by
  cases token?_eq_some_iff.1 h with
  | mark hmark => cases hmark <;> rfl
  | dot | ellipsis | str => rfl
  | word hc =>
    rw [Token.isProper, String.toList_ofList]
    exact isWord_takeWhile hc rest
  | negative _ hnumber => exact isProper_of_number? (.inr rfl) hnumber
  | number _ hnumber => exact isProper_of_number? (.inl rfl) hnumber

/-- A text holds only proper tokens, apart from junk where none starts. -/
theorem isProper_of_mem_lexemes {pos : Nat} {text : List Char} {l : Lexeme}
    (h : l ∈ lexemes pos text) : l.token.isProper = true ∨ l.token = .junk := by
  rcases token_of_mem_lexemes h with hjunk | ⟨c, rest, n, -, htoken, -⟩
  · exact .inr hjunk
  · exact .inl (isProper_of_token? htoken)

/-- A token that is an operand is read as an expression of the tightest stratum. -/
theorem Token.fits_of_operand? {t : Token} {span : Span} {e : Expr} (ht : t.isProper = true)
    (h : t.operand? span = some e) : e.fits .primary = true := by
  rw [Token.operand?.eq_def] at h
  split at h
  case h_4 name htrue hfalse hnone =>
    cases h
    rw [Token.isProper] at ht
    rw [Expr.fits, ht, Bool.true_and, Bool.not_eq_true', valueWords, List.contains_eq_mem,
      decide_eq_false_iff_not]
    simp only [List.mem_cons, List.not_mem_nil, or_false, not_or]
    exact ⟨htrue, hfalse, hnone⟩
  case h_6 =>
    cases h
    exact ht
  case h_9 => cases h
  all_goals
    cases h
    rfl

/-! ## Derivations that fit

Two recursions, on derivations of expressions and on those of elements. -/

/-- What elements are as a whole fits if the elements do. -/
theorem fits_of_wholeOf? {es : List Expr} {comma? : Option Nat} {ended : Bool} {next : Nat}
    {e : Expr} (hes : Expr.fitAll es = true) (h : wholeOf? es comma? ended next = some e) :
    e.fits .whole = true := by
  rw [wholeOf?.eq_def] at h
  split at h
  · cases h
  · cases h
    rw [Expr.fitAll, Bool.and_eq_true] at hes
    exact Expr.fits_whole_of_bar hes.1
  · cases h
    rw [Expr.fits, hes]
    rfl

theorem Operator.before_admits (op : Operator) : op.before.admits op = true := by
  cases op <;> rfl

mutual

/-- **What proper tokens are** belongs to the stratum that it is derived in. -/
theorem Derives.fits : ∀ {s : Stratum} {ls : List Lexeme} {e : Expr}, Derives s ls e →
    (∀ l ∈ ls, l.token.isProper = true) → e.fits s = true
  | _, _, _, .operand h, hls => Token.fits_of_operand? (hls _ List.mem_cons_self) h
  | _, _, _, .unit _ _, _ => rfl
  | _, _, _, .paren _ h hinner _, hls => by
    have hes := h.fitAll fun l hl => hls l (List.mem_cons_of_mem _ (List.mem_append_left _ hl))
    exact fits_of_wholeOf? hes hinner
  | _, _, _, .list _ h _, hls =>
    h.fitAll fun l hl => hls l (List.mem_cons_of_mem _ (List.mem_append_left _ hl))
  | _, _, _, .call hcallee _ h _, hls => by
    obtain ⟨hleft, hright⟩ := List.forall_mem_append.1 hls
    obtain ⟨-, hright⟩ := List.forall_mem_cons.1 hright
    rw [Expr.fits, hcallee.fits hleft, h.fitAll (List.forall_mem_append.1 hright).1]
    rfl
  | _, _, _, .subscript hvalue _ h hindex _, hls => by
    obtain ⟨hleft, hright⟩ := List.forall_mem_append.1 hls
    obtain ⟨-, hright⟩ := List.forall_mem_cons.1 hright
    have hes := h.fitAll (List.forall_mem_append.1 hright).1
    rw [Expr.fits, hvalue.fits hleft, fits_of_wholeOf? hes hindex]
    rfl
  | _, _, _, @Derives.member l r _ _ attr hvalue _ hr, hls => by
    obtain ⟨hleft, hright⟩ := List.forall_mem_append.1 hls
    have hattr := hright r (List.mem_cons_of_mem l List.mem_cons_self)
    rw [hr, Token.isProper] at hattr
    rw [Expr.fits, hvalue.fits hleft, hattr]
    rfl
  | _, _, _, .amp h, hls => Expr.fits_amp_of_primary (h.fits hls)
  | _, _, _, .bar h, hls => Expr.fits_bar_of_amp (h.fits hls)
  | _, _, _, @Derives.binary op _ _ _ _ _ hlhs _ hrhs, hls => by
    obtain ⟨hleft, hright⟩ := List.forall_mem_append.1 hls
    obtain ⟨-, hright⟩ := List.forall_mem_cons.1 hright
    rw [Expr.fits, op.before_admits, hlhs.fits hleft, hrhs.fits hright]
    rfl
  | _, _, _, @Derives.dangling op _ _ _ hlhs _, hls => by
    rw [Expr.fits, op.before_admits, hlhs.fits (List.forall_mem_append.1 hls).1]
    rfl

/-- Each element belongs to the stratum of elements. -/
theorem Fills.fitAll : ∀ {ls : List Lexeme} {es : List Expr} {comma? : Option Nat}
    {ended : Bool}, Fills ls es comma? ended → (∀ l ∈ ls, l.token.isProper = true) →
    Expr.fitAll es = true
  | _, _, _, _, .empty, _ => rfl
  | _, _, _, _, .next h he, hls => by
    obtain ⟨hleft, hright⟩ := List.forall_mem_append.1 hls
    rw [Expr.fitAll_iff]
    exact List.forall_mem_append.2
      ⟨Expr.fitAll_iff.1 (h.fitAll hleft), List.forall_mem_singleton.2 (he.fits hright)⟩
  | _, _, _, _, .comma h _, hls => h.fitAll (List.forall_mem_append.1 hls).1

end

/-- **Every expression that is read fits.** -/
theorem Expr.fits_of_read {text : List Char} {start : Nat} {e : Expr}
    (h : Expr.read text start = .ok e) : e.fits .whole = true := by
  have hproper : ∀ l ∈ lexemes start text, l.token.isProper = true := fun l hl =>
    (isProper_of_mem_lexemes hl).resolve_right (Expr.not_junk_of_read h l hl)
  obtain ⟨es, comma?, ended, hfills, hwhole⟩ := Expr.derives_of_read h
  exact fits_of_wholeOf? (hfills.fitAll hproper) hwhole

end TypeReveal
