import Mathlib.Data.List.TakeWhile
import TypeReveal.Proofs.Expr.Lexing

/-!
# The tokens of a piece of a text

A token does not change when the text behind it is cut off (`token?_of_append`).  So a text that is
cut in front of a token has the tokens before the cut in its first part and those behind it in its
second (`exists_cut`), and what stands behind the last token can be dropped (`exists_trimmed`).
-/

set_option autoImplicit false
namespace TypeReveal

/-! ## Single tokens

The other direction of `token?_append`, without a condition on the text behind: what is cut off had
been looked at and had been no part of the token, and an empty text is no part of it either. -/

section Tokens

variable {c quote : Char} {front back rest body sign : List Char} {t : Token} {n : Nat}

/-- A run of characters that ends in the first part of a text is seen there as a whole. -/
theorem takeWhile_of_append {p : Char → Bool}
    (h : ((front ++ back).takeWhile p).length ≤ front.length) :
    front.takeWhile p = (front ++ back).takeWhile p := by
  by_cases hall : ∀ c ∈ front, p c = true
  · rw [List.takeWhile_append_of_pos hall] at h ⊢
    rw [List.length_append] at h
    have hnil : back.takeWhile p = [] := List.eq_nil_of_length_eq_zero (by omega)
    rw [hnil, List.append_nil, List.takeWhile_eq_self_iff.2 hall]
  · rw [List.takeWhile_append, if_neg]
    intro hlength
    have hself := (List.takeWhile_prefix p).eq_of_length hlength
    exact hall (List.takeWhile_eq_self_iff.1 hself)

theorem stringBody?_of_append (h : stringBody? quote (front ++ back) = some body)
    (hlength : body.length < front.length) : stringBody? quote front = some body := by
  fun_induction stringBody? quote front generalizing body with
  | case1 => cases hlength
  | case2 =>
    cases back with
    | nil => cases h
    | cons c back =>
      obtain ⟨inner, -, rfl⟩ := Option.map_eq_some_iff.1 h
      simp at hlength
  | case3 c rest ih =>
    obtain ⟨inner, hinner, rfl⟩ := Option.map_eq_some_iff.1 h
    rw [ih hinner (by simpa using hlength), Option.map_some]
  | case4 c rest hnil hcons hquote =>
    rw [List.cons_append, stringBody?_cons (ne_backslash hnil hcons), if_pos hquote] at h
    exact h
  | case5 c rest hnil hcons hquote hbreak =>
    rw [List.cons_append, stringBody?_cons (ne_backslash hnil hcons), if_neg hquote,
      if_pos hbreak] at h
    exact h
  | case6 c rest hnil hcons hquote hbreak ih =>
    rw [List.cons_append, stringBody?_cons (ne_backslash hnil hcons), if_neg hquote,
      if_neg hbreak] at h
    obtain ⟨inner, hinner, rfl⟩ := Option.map_eq_some_iff.1 h
    rw [ih hinner (by simpa using hlength), Option.map_some]

theorem Apart.left (h : Apart (front ++ back)) : Apart front := by
  cases front with
  | nil => exact .nil
  | cons => exact h

/-- A number is the same when the text behind it is cut off further on. -/
theorem WritesNumber.of_append {s : List Char} (h : WritesNumber sign s (front ++ back) t) :
    WritesNumber sign s front t := by
  cases h with
  | int hne hdigits hafter => exact .int hne hdigits hafter.left
  | float hne hdigits hfraction hafter =>
    refine .float hne hdigits hfraction ?_
    cases front with
    | nil => rfl
    | cons => exact hafter

theorem number?_of_append (h : number? sign (front ++ back) = some (t, n))
    (hn : n ≤ front.length) : number? sign front = some (t, n) := by
  obtain ⟨s, after, heq, rfl, hs⟩ := number?_eq_some_iff.1 h
  obtain ⟨more, rfl⟩ := List.prefix_of_prefix_length_le ⟨after, heq.symm⟩
    (List.prefix_append front back) hn
  rw [List.append_assoc, List.append_cancel_left_eq] at heq
  subst heq
  exact number?_eq_some_iff.2 ⟨s, more, rfl, rfl, hs.of_append⟩

/-- **A token is the same** when the text behind it is cut off. -/
theorem token?_of_append (h : token? c (front ++ back) = some (t, n)) (hn : n ≤ front.length) :
    token? c front = some (t, n) := by
  rw [token?_eq_some_iff]
  cases token?_eq_some_iff.1 h with
  | mark hmark => exact .mark hmark
  | dot hc hpoints => exact .dot hc fun hfront => hpoints (hfront.trans (List.prefix_append _ _))
  | ellipsis hc hpoints =>
    exact .ellipsis hc (List.prefix_of_prefix_length_le hpoints (List.prefix_append _ _) hn)
  | str hc hbody => exact .str hc (stringBody?_of_append hbody hn)
  | word hc =>
    rw [← takeWhile_of_append hn]
    exact .word hc
  | negative hc hnumber => exact .negative hc (number?_of_append hnumber hn)
  | number hc hnumber => exact .number hc (number?_of_append hnumber (Nat.succ_le_succ hn))

end Tokens

/-! ## Texts

`Lexed` is the list of tokens of a text as a relation, with a rule for tokens and one for gaps.  It
is defined only for texts without junk, and it is this that makes cutting possible: junk may be a
token that lacks its end. -/

/-- The tokens of a text that has no junk, token by token and gap by gap. -/
inductive Lexed : Nat → List Char → List Lexeme → Prop
  | nil (pos : Nat) : Lexed pos [] []
  | gap {pos : Nat} {u text : List Char} {ls : List Lexeme} (hu : u ∈ gapUnits)
    (h : Lexed (pos + utf8Length u) text ls) : Lexed pos (u ++ text) ls
  | token {pos : Nat} {c : Char} {cs text : List Char} {t : Token} {ls : List Lexeme}
    (ht : token? c (cs ++ text) = some (t, cs.length))
    (h : Lexed (pos + utf8Length (c :: cs)) text ls) :
    Lexed pos (c :: (cs ++ text)) (⟨t, ⟨pos, pos + utf8Length (c :: cs)⟩⟩ :: ls)

theorem Lexed.lexemes_eq {pos : Nat} {text : List Char} {ls : List Lexeme}
    (h : Lexed pos text ls) : lexemes pos text = ls := by
  induction h with
  | nil => rw [lexemes]
  | gap hu _ ih => rw [lexemes_unit_append hu, ih]
  | token ht _ ih => rw [lexemes_of_token? ht, ih]

/-- **The tokens of a text** stand at their places in it. -/
theorem Lexed.exists_token {pos : Nat} {text : List Char} {l : Lexeme} {ls : List Lexeme}
    (h : Lexed pos text ls) (hl : l ∈ ls) :
    ∃ before c cs after, text = before ++ ((c :: cs) ++ after) ∧
      l.span = ⟨pos + utf8Length before, pos + utf8Length before + utf8Length (c :: cs)⟩ ∧
      token? c cs = some (l.token, cs.length) := by
  induction h with
  | nil => cases hl
  | @gap pos u text ls _ _ ih =>
    obtain ⟨before, c, cs, after, rfl, hspan, htoken⟩ := ih hl
    refine ⟨u ++ before, c, cs, after, (List.append_assoc _ _ _).symm, ?_, htoken⟩
    rw [utf8Length_append, ← Nat.add_assoc]
    exact hspan
  | @token pos c cs text t ls ht _ ih =>
    rcases List.mem_cons.1 hl with rfl | hl
    · exact ⟨[], c, cs, text, rfl, rfl, token?_of_append ht (Nat.le_refl _)⟩
    · obtain ⟨before, d, ds, after, rfl, hspan, htoken⟩ := ih hl
      refine ⟨c :: cs ++ before, d, ds, after, by simp, ?_, htoken⟩
      rw [utf8Length_append, ← Nat.add_assoc]
      exact hspan

theorem lexed_of_lexemes (pos : Nat) (text : List Char)
    (h : ∀ l ∈ lexemes pos text, l.token ≠ .junk) : Lexed pos text (lexemes pos text) := by
  induction pos, text using lexemes.induct with
  | case1 pos =>
    rw [lexemes]
    exact .nil pos
  | case2 pos rest ih =>
    rw [lexemes] at h ⊢
    exact .gap (u := ['\\', '\n']) (by decide) (ih h)
  | case3 pos c rest hslash hspacing ih =>
    rw [lexemes.eq_3 _ _ _ hslash, if_pos hspacing] at h ⊢
    have hunit : [c] ∈ gapUnits ∧ utf8Length [c] = 1 := by
      simp only [isSpacing, Bool.or_eq_true, beq_iff_eq] at hspacing
      rcases hspacing with ((rfl | rfl) | rfl) | rfl <;> decide
    exact .gap (u := [c]) hunit.1 (hunit.2 ▸ ih h)
  | case4 pos c rest hslash hspacing htoken =>
    rw [lexemes.eq_3 _ _ _ hslash, if_neg hspacing, htoken] at h
    exact absurd rfl (h _ List.mem_cons_self)
  | case5 pos c rest hslash hspacing token more htoken stop ih =>
    -- The lexer counts the characters of a token where the relation names them.
    have hlength : (rest.take more).length = more :=
      List.length_take_of_le (length_token?_le htoken)
    have htoken' : token? c (rest.take more ++ rest.drop more) =
        some (token, (rest.take more).length) := by
      rw [List.take_append_drop, hlength, htoken]
    have heq := lexemes_of_token? htoken' pos
    have hstop : pos + utf8Length (c :: rest.take more) = stop := by
      simp only [stop, utf8Length_cons, Nat.add_assoc]
    rw [List.take_append_drop, hstop] at heq
    rw [heq] at h ⊢
    have hlexed := Lexed.token htoken' (hstop ▸ ih fun l hl => h l (List.mem_cons_of_mem _ hl))
    rwa [List.take_append_drop, hstop] at hlexed

/-! ## Cutting a text

The cut is made in front of the second part of the tokens, and gaps go to the first part of the
text.  A gap at the end of a text may be dropped as well. -/

/-- Where the first of some tokens starts, or `stop` if there are none. -/
def startOf (ls : List Lexeme) (stop : Nat) : Nat := (ls.head?.map (·.span.start)).getD stop

/-- A token in front of a text that is cut stays what it is. -/
theorem Lexed.token_front {pos : Nat} {c : Char} {cs front back : List Char} {t : Token}
    {ls : List Lexeme} (ht : token? c (cs ++ (front ++ back)) = some (t, cs.length))
    (h : Lexed (pos + utf8Length (c :: cs)) front ls) :
    Lexed pos (c :: (cs ++ front)) (⟨t, ⟨pos, pos + utf8Length (c :: cs)⟩⟩ :: ls) := by
  refine .token ?_ h
  rw [← List.append_assoc] at ht
  exact token?_of_append ht (by simp)

/-- **A text that is cut in front of a token** has the tokens before the cut in its first part and
those behind it in its second. -/
theorem Lexed.exists_cut {pos : Nat} {text : List Char} {ls ms : List Lexeme}
    (h : Lexed pos text (ls ++ ms)) :
    ∃ front back, text = front ++ back ∧ Lexed pos front ls ∧
      Lexed (pos + utf8Length front) back ms ∧
      pos + utf8Length front = startOf ms (pos + utf8Length text) := by
  generalize hts : ls ++ ms = ts at h
  induction h generalizing ls with
  | nil pos =>
    obtain ⟨rfl, rfl⟩ := List.append_eq_nil_iff.1 hts
    exact ⟨[], [], rfl, .nil pos, .nil pos, rfl⟩
  | @gap pos u text _ hu _ ih =>
    obtain ⟨front, back, rfl, hfront, hback, hstart⟩ := ih hts
    refine ⟨u ++ front, back, (List.append_assoc _ _ _).symm, .gap hu hfront, ?_, ?_⟩
    · rwa [utf8Length_append, ← Nat.add_assoc]
    · rw [utf8Length_append, utf8Length_append u, ← Nat.add_assoc, ← Nat.add_assoc, hstart]
  | @token pos c cs text t ts ht h ih =>
    cases ls with
    | nil =>
      rw [List.nil_append] at hts
      subst hts
      exact ⟨[], _, rfl, .nil pos, .token ht h, rfl⟩
    | cons l ls =>
      obtain ⟨rfl, htail⟩ := List.cons.inj hts
      obtain ⟨front, back, rfl, hfront, hback, hstart⟩ := ih htail
      refine ⟨c :: (cs ++ front), back, by simp, hfront.token_front ht, ?_, ?_⟩
      · rwa [← List.cons_append, utf8Length_append, ← Nat.add_assoc]
      · rw [← List.cons_append, ← List.cons_append, utf8Length_append,
          utf8Length_append (c :: cs), ← Nat.add_assoc, ← Nat.add_assoc, hstart]

/-- **What stands behind the last token** of a text can be dropped. -/
theorem Lexed.exists_trimmed {pos : Nat} {text : List Char} {l : Lexeme} {ls : List Lexeme}
    (h : Lexed pos text (ls ++ [l])) :
    ∃ front back, text = front ++ back ∧ Lexed pos front (ls ++ [l]) ∧
      Lexed (pos + utf8Length front) back [] ∧ pos + utf8Length front = l.span.stop := by
  generalize hts : ls ++ [l] = ts at h
  induction h generalizing ls with
  | nil pos => simp at hts
  | @gap pos u text _ hu _ ih =>
    obtain ⟨front, back, rfl, hfront, hback, hstop⟩ := ih hts
    refine ⟨u ++ front, back, (List.append_assoc _ _ _).symm, .gap hu hfront, ?_, ?_⟩
    · rwa [utf8Length_append, ← Nat.add_assoc]
    · rw [utf8Length_append, ← Nat.add_assoc, hstop]
  | @token pos c cs text t ts ht h ih =>
    cases ls with
    | nil =>
      obtain ⟨rfl, rfl⟩ := List.cons.inj hts
      exact ⟨c :: (cs ++ []), text, by simp, @token_front _ _ _ [] text _ _ ht (.nil _),
        by simpa using h, by simp⟩
    | cons m ls =>
      obtain ⟨rfl, htail⟩ := List.cons.inj hts
      obtain ⟨front, back, rfl, hfront, hback, hstop⟩ := ih htail
      refine ⟨c :: (cs ++ front), back, by simp, hfront.token_front ht, ?_, ?_⟩
      · rwa [← List.cons_append, utf8Length_append, ← Nat.add_assoc]
      · rw [← List.cons_append, utf8Length_append, ← Nat.add_assoc, hstop]

end TypeReveal
