import TypeReveal.Proofs.Annotation.Budget
import TypeReveal.Proofs.Expr.Nesting
import TypeReveal.Proofs.Text.Position

/-!
# What strings take up

What an escape stands for is no longer than the escape, so a string that is read takes up more bytes
than the text that it denotes: its quotes come on top (`Expr.quoting_of_read`).  A signature that it
quotes has an arrow between its two parts, so both parts together are shorter still
(`utf8Length_signatureParts?_lt`).
-/

set_option autoImplicit false
namespace TypeReveal

/-! ## Parts of expressions

Being a part is the transitive closure of being a child.  Sizes and longest strings are monotone in
it. -/

namespace Expr

/-- `c` is a part of `e`, or a part of a part, and so on. -/
def HasPart (e c : Expr) : Prop :=
  Relation.TransGen (fun above below => below ∈ above.children) e c

variable {e c c' : Expr}

theorem hasPart_of_mem (h : c ∈ e.children) : e.HasPart c := .single h

theorem HasPart.trans (h : e.HasPart c) (h' : c.HasPart c') : e.HasPart c' :=
  Relation.TransGen.trans h h'

theorem longestString_le_of_mem_children (h : c ∈ e.children) :
    c.longestString ≤ e.longestString := by
  have hall {es : List Expr} (hc : c ∈ es) : c.longestString ≤ longestStrings es :=
    Nat.le_of_lt_succ ((longestStrings_lt_iff (Nat.succ_pos _)).1 (Nat.lt_succ_self _) c hc)
  cases e with
  | tuple _ elems | list _ elems => exact hall h
  | binary _ _ lhs rhs | subscript _ lhs rhs =>
    rw [children, List.mem_cons, List.mem_singleton] at h
    rcases h with rfl | rfl
    · exact Nat.le_max_left _ _
    · exact Nat.le_max_right _ _
  | call _ callee args =>
    rcases List.mem_cons.1 h with rfl | h
    · exact Nat.le_max_left _ _
    · exact Nat.le_trans (hall h) (Nat.le_max_right _ _)
  | dangling _ _ lhs | paren _ lhs | member _ lhs _ =>
    rw [List.mem_singleton.1 h]
    exact Nat.le_refl _
  | _ => cases h

/-- The strings of a part are strings of the whole. -/
theorem HasPart.longestString_le (h : e.HasPart c) : c.longestString ≤ e.longestString := by
  induction h with
  | single h => exact longestString_le_of_mem_children h
  | tail _ h ih => exact Nat.le_trans (longestString_le_of_mem_children h) ih

/-- A part is smaller than the whole. -/
theorem HasPart.size_lt (h : e.HasPart c) : c.size < e.size := by
  induction h with
  | single h => exact size_lt_of_mem_children h
  | tail _ h ih => exact Nat.lt_trans (size_lt_of_mem_children h) ih

end Expr

/-! ## Strings

Bytes are counted and not characters, since it is positions in bytes that the program compares. -/

/-- **What an escape stands for** is no longer than the escape. -/
theorem utf8Length_unescape_le (s : List Char) : utf8Length (unescape s) ≤ utf8Length s := by
  fun_induction unescape s with
  | case1 | case2 => exact Nat.le_refl _
  | case3 rest ih | case4 rest ih =>
    rw [utf8Length_cons, utf8Length_cons, utf8Length_cons]
    exact Nat.add_le_add (by decide) (Nat.le_trans ih (Nat.le_add_left _ _))
  | case5 c rest _ _ ih =>
    rw [utf8Length_cons, utf8Length_cons, utf8Length_cons]
    omega
  | case6 c rest _ _ _ _ ih =>
    rw [utf8Length_cons, utf8Length_cons]
    omega

/-- A string token takes up more bytes than the text that it denotes. -/
theorem utf8Length_lt_of_token? {c : Char} {rest : List Char} {text : String} {more : Nat}
    (h : token? c rest = some (.str text, more)) :
    utf8Length text.toList < c.utf8Size + utf8Length (rest.take more) := by
  obtain ⟨body, hbody, rfl, rfl⟩ := stringBody?_of_token? h
  obtain ⟨after, rfl⟩ := prefix_of_stringBody? hbody
  have htake : (body ++ [c] ++ after).take (body.length + 1) = body ++ [c] :=
    List.take_left' (by simp)
  have hunescape := utf8Length_unescape_le body
  have hpos := c.utf8Size_pos
  rw [htake, String.toList_ofList, utf8Length_append]
  omega

/-- Every string among the tokens of a text takes up more bytes than the text that it denotes. -/
theorem utf8Length_lt_of_mem_lexemes {pos : Nat} {text : List Char} {l : Lexeme} {s : String}
    (hl : l ∈ lexemes pos text) (hs : l.token = .str s) : utf8Length s.toList < l.span.length := by
  rcases token_of_mem_lexemes hl with hjunk | ⟨c, rest, n, -, htoken, hlength⟩
  · cases hs.symm.trans hjunk
  · rw [hs] at htoken
    rw [hlength]
    exact utf8Length_lt_of_token? htoken

namespace Expr

/-- If an expression is a string, then it takes up more bytes than the text that it denotes. -/
def Quoting (e : Expr) : Prop :=
  ∀ span text, e = .str span text → utf8Length text.toList < span.length

theorem quoting_of_operand? {t : Token} {span : Span} {e : Expr}
    (ht : ∀ s, t = .str s → utf8Length s.toList < span.length) (h : t.operand? span = some e) :
    e.Quoting := by
  rintro span' text rfl
  rw [Token.operand?.eq_def] at h
  split at h
  all_goals cases h
  exact ht _ rfl

/-- **A property of single tokens**, and of all that is no single token, holds of every part of an
expression that is read. -/
theorem forall_part_of_read {P : Expr → Prop} {text : List Char} {start : Nat} {e : Expr}
    (hP : ∀ c, c.isAtom = false → P c)
    (hatom : ∀ l ∈ lexemes start text, ∀ c ∈ l.token.operand? l.span, P c)
    (h : Expr.read text start = .ok e) : ∀ c, c = e ∨ e.HasPart c → P c := by
  refine Expr.of_read (P := fun e => ∀ c, c = e ∨ e.HasPart c → P c) ?_ ?_ h
  · rintro e he hparts c (rfl | hc)
    · exact hP c he
    · obtain ⟨child, hchild, hc⟩ := Relation.TransGen.head'_iff.1 hc
      rcases Relation.reflTransGen_iff_eq_or_transGen.1 hc with rfl | hc
      · exact hparts _ hchild _ (.inl rfl)
      · exact hparts _ hchild _ (.inr hc)
  · intro l hl e he c hc
    have hnone : e.children = [] := (Token.span_of_operand? he).2
    rcases hc with rfl | hc
    · exact hatom l hl c he
    · obtain ⟨child, hchild, -⟩ := Relation.TransGen.head'_iff.1 hc
      rw [hnone] at hchild
      cases hchild

/-- **Every string of an expression that is read** takes up more bytes than the text that it
denotes. -/
theorem quoting_of_read {text : List Char} {start : Nat} {e : Expr}
    (h : Expr.read text start = .ok e) : ∀ c, c = e ∨ e.HasPart c → c.Quoting := by
  refine forall_part_of_read ?_ ?_ h
  · rintro c hc span text rfl
    cases hc
  · intro l hl c hc
    exact quoting_of_operand? (fun s => utf8Length_lt_of_mem_lexemes hl) hc

end Expr

/-! ## The parts of a signature

An arrow is two bytes, so what is cut at it has two bytes less. -/

theorem utf8Length_le_of_sublist {s t : List Char} (h : s.Sublist t) :
    utf8Length s ≤ utf8Length t := by
  induction h with
  | slnil => exact Nat.le_refl _
  | cons c _ ih => exact Nat.le_trans ih (Nat.le_add_left _ _)
  | cons_cons c _ ih => exact Nat.add_le_add_left ih _

theorem indexOf?_length_le {part s : List Char} {i : Nat} (h : indexOf? part s = some i) :
    i + part.length ≤ s.length := by
  fun_induction indexOf? part s generalizing i with
  | case1 hnil =>
    cases h
    rw [List.isEmpty_iff.1 hnil]
    exact Nat.le_refl _
  | case2 => cases h
  | case3 c rest hprefix =>
    cases h
    rw [Nat.zero_add]
    exact (List.isPrefixOf_iff_prefix.1 hprefix).length_le
  | case4 c rest hprefix ih =>
    obtain ⟨j, hj, rfl⟩ := Option.map_eq_some_iff.1 h
    have hle := ih hj
    rw [List.length_cons]
    omega

/-- **Both parts of a signature together** are shorter than the text: the arrow is in neither. -/
theorem utf8Length_signatureParts?_lt {text params result : List Char}
    (h : signatureParts? text = some (params, result)) :
    utf8Length params + utf8Length result < utf8Length text := by
  obtain ⟨⟨before, after⟩, hsplit, heq⟩ := Option.map_eq_some_iff.1 h
  obtain ⟨i, hi, hcut⟩ := Option.map_eq_some_iff.1 hsplit
  cases hcut
  cases heq
  have htrim := utf8Length_le_of_sublist (trim_sublist text)
  generalize trim text = inner at hi htrim
  have hparams := utf8Length_le_of_sublist
    ((trim_sublist _).trans ((dropStart?_getD_sublist "def".toList _).trans
      (trim_sublist (inner.take i))))
  have hresult := utf8Length_le_of_sublist (trim_sublist (inner.drop (i + arrow.length)))
  have hwhole : utf8Length inner = utf8Length (inner.take i) +
      (utf8Length ((inner.drop i).take arrow.length) +
        utf8Length (inner.drop (i + arrow.length))) := by
    rw [← List.drop_drop, ← utf8Length_append, List.take_append_drop, ← utf8Length_append,
      List.take_append_drop]
  have harrow : 0 < utf8Length ((inner.drop i).take arrow.length) := by
    have hle := indexOf?_length_le hi
    refine utf8Length_pos (List.ne_nil_of_length_pos ?_)
    rw [List.length_take, List.length_drop]
    have hpos : 0 < arrow.length := by decide
    omega
  omega

end TypeReveal
