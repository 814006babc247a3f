import TypeReveal.Proofs.Layout.Swap
import TypeReveal.Proofs.Quoting.Elsewhere

/-!
# Annotations in a segment

An annotation that is read from a segment stands there in code, behind a colon or an arrow and with
nothing but margins around its text (`Focus`).  When a piece of it is put in quotes
(`Quotation.Fits`) the segment stays as it is but for a sealed text, is as much longer as the file,
and starts with the same word (`Quotation.Edits`).

`Rewrites a seg K` says that `K` holds of what becomes of the segment.  It goes from a part of a
segment to the segment (`Rewrites.widen`, `Rewrites.untrim`), and so from the annotation to the
line that it stands on.

A focus is the piece together with what stands on both sides of it: `u` up to the sign, the sign
`m`, the text `w` of the annotation with the gaps around it, and `v` behind it.  The readers cut at
signs that no annotation has in its text outside of brackets, hence the sides stay what they are
while `w` changes, and a focus in a part of a segment is one in the segment with more on its sides.

`K` is a parameter and no fixed property because each reader has its own: what it makes of the
edited segment.  Going up, the property of a part becomes the property that the segment has such a
part.
-/

set_option autoImplicit false
namespace TypeReveal

/-! ## Blank characters

Blanks are never signs, and they belong to no token.  So they may be moved from a text to its side,
or dropped at the end of a segment, and neither the cuts nor the expression change. -/

/-- A blank is none of some marks that are no blanks. -/
theorem not_mem_of_isBlank {c : Char} (h : isBlank c = true) {marks : List Char}
    (hmarks : ∀ d ∈ marks, isBlank d = false) : c ∉ marks := by
  intro hc
  rw [hmarks c hc] at h
  cases h

/-- Nothing is cut in a margin. -/
theorem IsMargin.sealed {u : List Char} (h : IsMargin u) : Sealed [',', ':', '='] u := by
  refine .of_forall fun c hc => ?_
  rcases h c hc with hblank | rfl
  · refine ⟨?_, not_mem_of_isBlank hblank (by decide)⟩
    have hmarks : c ∉ ['(', '[', '\x7b', ')', ']', '\x7d', '"', '\'', '#'] :=
      not_mem_of_isBlank hblank (by decide)
    simp only [List.mem_cons, List.not_mem_nil, or_false, not_or] at hmarks
    simp [isPlain, isOpening, isClosing, hmarks]
  · decide

/-- A segment with an expression in it is not blank. -/
theorem Segment.not_blank_of_expr {seg : Segment} {e : Expr} (h : seg.expr = .ok e) :
    ¬ ∀ c ∈ seg.text, isBlank c = true := by
  intro hall
  rw [Segment.expr_eq_ok, trim_text, trim_eq_nil hall, Expr.read, lexemes] at h
  cases h

/-- Nor is the text of an annotation. -/
theorem Spells.not_blank {text : List Char} {start : Nat} {e : Expr} (h : Spells text start e) :
    ¬ ∀ c ∈ text, isBlank c = true := by
  intro hall
  obtain ⟨ls, hlexed, hderives⟩ := h.exists_lexed
  obtain rfl := hlexed.eq_nil_of_blank hall
  cases hderives.ends.1

/-- Blanks at the end of a segment do not matter to the expression in it. -/
theorem Segment.expr_append_blank {w y : List Char} (hw : ¬ ∀ c ∈ w, isBlank c = true)
    (hy : ∀ c ∈ y, isBlank c = true) (pos : Nat) :
    Segment.expr ⟨pos, w ++ y⟩ = Segment.expr ⟨pos, w⟩ := by
  obtain ⟨x, mid, z, rfl, hx, hmid, hz⟩ := (blank_or_exists_sharp w).resolve_left hw
  have htrim := @Segment.trim_of_sharp x (z ++ y) ⟨pos, x ++ (mid ++ z) ++ y⟩ mid (by simp) hx hmid
    (List.forall_mem_append.2 ⟨hz, hy⟩)
  have htrim' := @Segment.trim_of_sharp x z ⟨pos, x ++ (mid ++ z)⟩ mid rfl hx hmid hz
  rw [Segment.expr, Segment.expr, htrim, htrim']

/-- A text that starts as a sharp one does and ends with no blank. -/
theorem Sharp.of_head {u r t : List Char} {m c : Char} (h : Sharp (u ++ m :: r))
    (hc : isBlank c = false) : Sharp (u ++ m :: (t ++ [c])) := by
  refine ⟨?_, u ++ m :: t, c, by simp, hc⟩
  obtain ⟨d, rest, hsplit, hd⟩ := h.head
  cases u with
  | nil =>
    obtain ⟨rfl, -⟩ := List.cons.inj hsplit
    exact ⟨m, _, rfl, hd⟩
  | cons b u =>
    obtain ⟨rfl, -⟩ := List.cons.inj hsplit
    exact ⟨b, _, rfl, hd⟩

/-- A text without blanks at its ends does not end with one. -/
theorem Sharp.of_last {s : List Char} (h : Sharp s) {c : Char} (front : List Char)
    (hs : s = front ++ [c]) : isBlank c = false := by
  obtain ⟨f, d, hsplit, hd⟩ := h.last
  obtain rfl := List.singleton_inj.1 (List.append_inj_right' (hs.symm.trans hsplit) rfl)
  exact hd

/-! ## Annotations in a segment

`Quotation.Fits` relates the old text of the annotation to the new one, and `Quotation.Edits` the
old segment to the new one.  What follows from an edit is all that readers look at: where the
segment starts, how long it is, its first word, and whether a scan of it is sealed off (`Swap`). -/

/-- `w` is the text of the annotation `a` in a segment, between the sign before it and what follows,
which does not start with a blank. -/
structure Focus (a : Expr) (seg : Segment) (u : List Char) (m : Char) (w v : List Char) : Prop where
  text : seg.text = u ++ m :: (w ++ v)
  mark : m = ':' ∨ m = '>'
  codes : Codes u
  behind : ∀ c ∈ v.head?, isBlank c = false
  expr : Segment.expr ⟨seg.start + utf8Length (u ++ [m]), w⟩ = .ok a

/-- The sign before an annotation ends the word before it. -/
theorem Focus.not_namePart {a : Expr} {seg : Segment} {u w v : List Char} {m : Char}
    (h : Focus a seg u m w v) : isNamePart m = false := by
  rcases h.mark with rfl | rfl <;> decide

/-- The first word of a text ends where a character stands that is no part of a name. -/
theorem firstWord_append_cons {m : Char} (hm : isNamePart m = false) (u text : List Char) :
    Segment.firstWord (u ++ m :: text) = Segment.firstWord u := by
  induction u with
  | nil => simp [Segment.firstWord, hm]
  | cons c u ih =>
    rw [Segment.firstWord, Segment.firstWord] at ih
    rw [List.cons_append, Segment.firstWord, Segment.firstWord, List.takeWhile_cons,
      List.takeWhile_cons, ih]

/-- `w'` is the text `w` of the annotation `a` with the piece in quotes.  If nothing follows in the
segment, then blanks at the end of the piece may be missing. -/
def Quotation.Fits (q : Quotation) (a : Expr) (pos : Nat) (w w' v : List Char) : Prop :=
  IsPlainText q.text ∧ ∃ front o back, w = front ++ (o ++ back) ∧
    w' = front ++ (literal q.text ++ back) ∧ pos + utf8Length front = q.start ∧
    Spells o q.start a ∧ (o = q.text ∨ back = [] ∧ v = [] ∧ o <+: q.text)

/-- Quotes are two bytes. -/
theorem utf8Length_literal (text : List Char) :
    utf8Length (literal text) = utf8Length text + 2 := by
  simp only [literal, utf8Length_cons, utf8Length_append, utf8Length_nil,
    show '"'.utf8Size = 1 from rfl]
  omega

namespace Quotation.Fits

variable {q : Quotation} {a : Expr} {pos : Nat} {w w' v : List Char}

section

variable (h : q.Fits a pos w w' v)

include h

theorem expr_eq : q.expr a = q.string := by
  obtain ⟨-, front, o, back, -, -, -, ho, hfull⟩ := h
  have hbounds := ho.bounds
  have hlength : utf8Length o ≤ utf8Length q.text := by
    rcases hfull with rfl | ⟨-, -, hprefix⟩
    · exact Nat.le_refl _
    · exact utf8Length_le hprefix
  rw [Quotation.expr, if_neg (by omega), if_neg (by rw [stop]; omega)]

/-- Where the text stands. -/
theorem bounds : pos ≤ q.start ∧ q.start < pos + utf8Length w ∧
    pos + utf8Length w' = q.pos (pos + utf8Length w) ∧ (v ≠ [] → q.stop ≤ pos + utf8Length w) := by
  obtain ⟨-, front, o, back, rfl, rfl, hstart, ho, hfull⟩ := h
  have hbounds := ho.bounds
  simp only [utf8Length_append, utf8Length_literal, Quotation.pos, stop]
  rw [if_neg (by omega)]
  rcases hfull with rfl | ⟨rfl, rfl, hprefix⟩
  · refine ⟨by omega, by omega, ?_, fun _ => by omega⟩
    rw [Nat.max_eq_left (by omega)]
    omega
  · have hle := utf8Length_le hprefix
    refine ⟨by omega, by omega, ?_, fun hne => absurd rfl hne⟩
    rw [utf8Length_nil, Nat.max_eq_right (by omega)]
    omega

variable (hexpr : Segment.expr ⟨pos, w⟩ = .ok a)

include hexpr

theorem margins : ∃ front o back, w = front ++ (o ++ back) ∧
    w' = front ++ (literal q.text ++ back) ∧ IsMargin front ∧ Spells o q.start a ∧
    (∀ c ∈ back, isBlank c = true) ∧ Segment.expr ⟨pos, w'⟩ = .ok q.string ∧
    (o = q.text ∨ back = [] ∧ v = [] ∧ o <+: q.text) ∧ pos + utf8Length front = q.start := by
  obtain ⟨hplain, front, o, back, rfl, rfl, hstart, ho, hfull⟩ := h
  obtain ⟨hfront, hback, hstring⟩ := ho.expr_literal rfl hstart hexpr hplain
  refine ⟨front, o, back, rfl, rfl, hfront, ho, hback, ?_, hfull, hstart⟩
  rw [hstring, string, utf8Length_literal, stop, Nat.add_assoc]

/-- With the piece in quotes the text is read as the string. -/
theorem expr_string : Segment.expr ⟨pos, w'⟩ = .ok q.string := by
  obtain ⟨-, -, -, -, -, -, -, -, hstring, -⟩ := h.margins hexpr
  exact hstring

/-- Neither text has a comma, a colon or a sign of equality outside of brackets and strings. -/
theorem sealed : Sealed [',', ':', '='] w ∧ Sealed [',', ':', '='] w' := by
  obtain ⟨front, o, back, rfl, rfl, hfront, ho, hback, -⟩ := h.margins hexpr
  have hback := (isMargin_of_isBlank hback).sealed
  exact ⟨hfront.sealed.append ((ho.sealed.mono (by decide)).append hback),
    hfront.sealed.append ((sealed_literal h.1 _).append hback)⟩

/-- The last character of the text is no part of a sign. -/
theorem last : ∃ c, w'.getLast? = some c ∧ c ∉ ['=', '<', '>', '!', ':'] := by
  obtain ⟨front, o, back, rfl, rfl, -, -, hback, -⟩ := h.margins hexpr
  rw [List.getLast?_append, List.getLast?_append]
  cases hlast : back.getLast? with
  | none => exact ⟨'"', List.getLast?_concat (l := '"' :: q.text), by decide⟩
  | some c =>
    exact ⟨c, rfl, not_mem_of_isBlank (hback c (List.mem_of_getLast? hlast)) (by decide)⟩

end

end Quotation.Fits

/-- `seg'` is what becomes of the segment `seg` with the annotation `a` in it. -/
def Quotation.Edits (q : Quotation) (a : Expr) (seg seg' : Segment) : Prop :=
  ∃ u m w w' v, Focus a seg u m w v ∧ q.Fits a (seg.start + utf8Length (u ++ [m])) w w' v ∧
    seg' = ⟨seg.start, u ++ m :: (w' ++ v)⟩

/-- The annotation `a` stands in a segment, and `K` holds of what becomes of the segment when the
annotation is put in quotes. -/
def Rewrites (a : Expr) (seg : Segment) (K : Quotation → Segment → Prop) : Prop :=
  ∃ u m w v, Focus a seg u m w v ∧
    ∀ q w', q.Fits a (seg.start + utf8Length (u ++ [m])) w w' v →
      K q ⟨seg.start, u ++ m :: (w' ++ v)⟩

theorem Quotation.pos_add {q : Quotation} {p : Nat} (h : q.start < p) (h' : q.stop ≤ p) (k : Nat) :
    q.pos (p + k) = q.pos p + k := by
  rw [pos, pos, if_neg (by omega), if_neg (by omega)]
  omega

namespace Quotation.Edits

variable {q : Quotation} {a : Expr} {seg seg' : Segment}

section

variable (h : q.Edits a seg seg')

include h

theorem expr_eq : q.expr a = q.string := by
  obtain ⟨u, m, w, w', v, -, hfits, -⟩ := h
  exact hfits.expr_eq

theorem start_eq : seg'.start = seg.start := by
  obtain ⟨u, m, w, w', v, -, -, rfl⟩ := h
  rfl

theorem start_le : seg.start ≤ q.start := by
  obtain ⟨u, m, w, w', v, -, hfits, -⟩ := h
  exact Nat.le_trans (Nat.le_add_right _ _) hfits.bounds.1

theorem lt_stop : q.start < seg.span.stop := by
  obtain ⟨u, m, w, w', v, hfocus, hfits, -⟩ := h
  have hlt := hfits.bounds.2.1
  simp only [Segment.span, hfocus.text, utf8Length_append, utf8Length_cons, utf8Length_nil] at hlt ⊢
  omega

/-- The segment ends where its end is found afterwards. -/
theorem span_eq : seg'.span = q.span seg.span := by
  obtain ⟨u, m, w, w', v, hfocus, hfits, rfl⟩ := h
  obtain ⟨hle, hlt, hstop, hbehind⟩ := hfits.bounds
  have hstart : q.pos seg.start = seg.start := if_pos (Nat.le_trans (Nat.le_add_right _ _) hle)
  have hsplit (text : List Char) : seg.start + utf8Length (u ++ m :: (text ++ v)) =
      seg.start + utf8Length (u ++ [m]) + utf8Length text + utf8Length v := by
    simp only [utf8Length_append, utf8Length_cons, utf8Length_nil]
    omega
  rw [Quotation.span, Segment.span, Segment.span, hfocus.text, hsplit, hsplit, hstart, hstop]
  congr 1
  cases v with
  | nil => rfl
  | cons c v => rw [pos_add hlt (hbehind (List.cons_ne_nil c v))]

/-- A scan comes out of the new segment as it came out of the old one. -/
theorem swap : Swap seg.text seg'.text := by
  obtain ⟨u, m, w, w', v, hfocus, hfits, rfl⟩ := h
  obtain ⟨hw, hw'⟩ := hfits.sealed hfocus.expr
  have hm : Codes [m] := by rcases hfocus.mark with rfl | rfl <;> exact rfl
  refine ⟨u ++ [m], w, w', v, ?_, by simp, hfocus.codes.append hm, hw, hw'⟩
  rw [hfocus.text, List.append_assoc, List.singleton_append]

/-- The piece does not touch the first word. -/
theorem firstWord_eq : Segment.firstWord seg'.text = Segment.firstWord seg.text := by
  obtain ⟨u, m, w, w', v, hfocus, -, rfl⟩ := h
  rw [hfocus.text, firstWord_append_cons hfocus.not_namePart,
    firstWord_append_cons hfocus.not_namePart]

theorem head?_eq : seg'.text.head? = seg.text.head? := by
  obtain ⟨u, m, w, w', v, hfocus, -, rfl⟩ := h
  rw [hfocus.text]
  cases u <;> rfl

theorem exists_mark : ∃ m ∈ seg'.text, m = ':' ∨ m = '>' := by
  obtain ⟨u, m, w, w', v, hfocus, -, rfl⟩ := h
  exact ⟨m, by simp, hfocus.mark⟩

theorem ne_nil : seg'.text ≠ [] := by
  obtain ⟨m, hm, -⟩ := h.exists_mark
  exact List.ne_nil_of_mem hm

end

end Quotation.Edits

/-! ## Blanks behind an annotation

Segments are trimmed before they are read, so an annotation at the end of a segment loses the blanks
behind it.  In the file these blanks may lie inside the piece, and then the closing quote comes
after them.  `Focus.exists_outer` sorts out which of the two sides they belong to. -/

/-- A text that an expression stands at the end of, and blanks behind it: the expression is read
from what the text ends with. -/
theorem Spells.exists_prefix {a : Expr} {pos : Nat} {f y front o back : List Char} {d : Char}
    (h : Spells o pos a) (hsplit : f ++ [d] ++ y = front ++ (o ++ back)) (hd : isBlank d = false)
    (hy : ∀ c ∈ y, isBlank c = true) (hback : ∀ c ∈ back, isBlank c = true) :
    ∃ p, f ++ [d] = front ++ p ∧ Spells p pos a ∧ p <+: o := by
  rw [← List.append_assoc front] at hsplit
  rcases List.append_eq_append_iff.1 hsplit with ⟨z, hz, rfl⟩ | ⟨z, hz, rfl⟩
  · have hzblank : ∀ c ∈ z, isBlank c = true := fun c hc => hy c (List.mem_append_left back hc)
    rcases List.append_eq_append_iff.1 hz with ⟨p, hp, rfl⟩ | ⟨z', -, rfl⟩
    · exact ⟨p, hp, h.of_append_blank hzblank, List.prefix_append p z⟩
    · exact absurd (fun c hc => hzblank c (List.mem_append_right z' hc)) h.not_blank
  · refine ⟨o, ?_, h, List.prefix_rfl⟩
    rcases List.eq_nil_or_concat' z with rfl | ⟨z, b, rfl⟩
    · rw [hz, List.append_nil]
    · have hb := hback b (by simp)
      rw [← List.append_assoc] at hz
      obtain rfl := List.singleton_inj.1 (List.append_inj_right' hz rfl)
      rw [hd] at hb
      cases hb

/-- The text of an annotation at the end of a segment fits without the blanks behind it. -/
theorem Quotation.Fits.of_append_blank {q : Quotation} {a : Expr} {pos : Nat} {f y w' : List Char}
    {d : Char} (h : q.Fits a pos (f ++ [d] ++ y) w' []) (hd : isBlank d = false)
    (hy : ∀ c ∈ y, isBlank c = true) (hexpr : Segment.expr ⟨pos, f ++ [d] ++ y⟩ = .ok a) :
    ∃ front back, w' = front ++ literal q.text ++ back ∧ (∀ c ∈ back, isBlank c = true) ∧
      q.Fits a pos (f ++ [d]) (front ++ literal q.text) [] := by
  obtain ⟨front, o, back, hsplit, rfl, -, ho, hback, -, hfull, hfront⟩ := h.margins hexpr
  have hprefix : o <+: q.text := by
    rcases hfull with rfl | ⟨-, -, hprefix⟩
    · exact List.prefix_rfl
    · exact hprefix
  obtain ⟨p, hp, hspells, hpo⟩ := ho.exists_prefix hsplit hd hy hback
  exact ⟨front, back, by simp, hback,
    h.1, front, p, [], by simp [hp], by simp, hfront, hspells, .inr ⟨rfl, rfl, hpo.trans hprefix⟩⟩

/-- **Blanks behind a segment** belong to the text of the annotation if nothing else follows it, and
to what follows it otherwise.  Either way they do not matter. -/
theorem Focus.exists_outer {a : Expr} {n : Nat} {u w v y : List Char} {m : Char}
    (h : Focus a ⟨n, u ++ m :: (w ++ v)⟩ u m w v) (hsharp : Sharp (u ++ m :: (w ++ v)))
    (hy : ∀ c ∈ y, isBlank c = true) :
    ∃ w₁ v₁, w₁ ++ v₁ = w ++ (v ++ y) ∧ (∀ c ∈ v₁.head?, isBlank c = false) ∧
      Segment.expr ⟨n + utf8Length (u ++ [m]), w₁⟩ = .ok a ∧
      ∀ (q : Quotation) (w' : List Char), q.Fits a (n + utf8Length (u ++ [m])) w₁ w' v₁ →
        ∃ w₂ z, w' ++ v₁ = w₂ ++ (v ++ z) ∧ (∀ c ∈ z, isBlank c = true) ∧
          Sharp (u ++ m :: (w₂ ++ v)) ∧ q.Fits a (n + utf8Length (u ++ [m])) w w₂ v := by
  rcases List.eq_nil_or_concat' v with rfl | ⟨v, d, rfl⟩
  · have hw := Segment.not_blank_of_expr h.expr
    rcases List.eq_nil_or_concat' w with rfl | ⟨f, d, rfl⟩
    · exact absurd (fun c hc => absurd hc List.not_mem_nil) hw
    have hd : isBlank d = false := hsharp.of_last (u ++ m :: f) (by simp)
    have hexpr := (Segment.expr_append_blank hw hy (n + utf8Length (u ++ [m]))).trans h.expr
    refine ⟨f ++ [d] ++ y, [], by simp, by simp, hexpr, fun q w' hfits => ?_⟩
    obtain ⟨front, back, rfl, hback, hinner⟩ := hfits.of_append_blank hd hy hexpr
    have hquote := hsharp.of_head (t := front ++ '"' :: q.text) (c := '"') (by decide)
    exact ⟨front ++ literal q.text, back, by simp, hback, by simpa [literal] using hquote, hinner⟩
  · have hd : isBlank d = false := hsharp.of_last (u ++ m :: (w ++ v)) (by simp)
    refine ⟨w, v ++ [d] ++ y, rfl, ?_, h.expr, fun q w' hfits => ?_⟩
    · intro c hc
      refine h.behind c ?_
      cases v <;> exact hc
    · obtain ⟨hplain, front, o, back, hw, hw', hfront, ho, hfull⟩ := hfits
      refine ⟨w', y, rfl, hy, ?_, hplain, front, o, back, hw, hw', hfront, ho, ?_⟩
      · rw [← List.append_assoc]
        exact hsharp.of_head hd
      · exact hfull.imp_right fun hcut => absurd hcut.2.1 (by simp)

namespace Rewrites

variable {a : Expr} {seg part : Segment} {K K' : Quotation → Segment → Prop} {x y : List Char}

/-- What holds of the edited segment may be weakened, with the edit at hand. -/
theorem imp (h : Rewrites a seg K)
    (himp : ∀ q seg', q.Edits a seg seg' → K q seg' → K' q seg') : Rewrites a seg K' := by
  obtain ⟨u, m, w, v, hfocus, hK⟩ := h
  exact ⟨u, m, w, v, hfocus, fun q w' hfits =>
    himp q _ ⟨u, m, w, w', v, hfocus, hfits, rfl⟩ (hK q w' hfits)⟩

/-- **From a part of a segment to the segment.** -/
theorem widen (h : Rewrites a part K) (htext : seg.text = x ++ (part.text ++ y))
    (hstart : part.start = seg.start + utf8Length x) (hx : Codes x)
    (hy : ∀ c ∈ y.head?, isBlank c = false) :
    Rewrites a seg fun q seg' => ∃ part', q.Edits a part part' ∧ K q part' ∧
      (y ≠ [] → q.stop ≤ part.span.stop) ∧ seg' = ⟨seg.start, x ++ (part'.text ++ y)⟩ := by
  obtain ⟨u, m, w, v, hfocus, hK⟩ := h
  have hpos : part.start + utf8Length (u ++ [m]) = seg.start + utf8Length (x ++ u ++ [m]) := by
    simp only [hstart, utf8Length_append]
    omega
  refine ⟨x ++ u, m, w, v ++ y, ⟨?_, hfocus.mark, hx.append hfocus.codes, ?_, ?_⟩, ?_⟩
  · simp [htext, hfocus.text]
  · cases v with
    | nil => exact hy
    | cons c v => exact hfocus.behind
  · exact hpos ▸ hfocus.expr
  · intro q w' hfits
    rw [← hpos] at hfits
    have hbehind := hfits.bounds.2.2.2
    have hpart : q.Fits a (part.start + utf8Length (u ++ [m])) w w' v := by
      obtain ⟨hplain, front, o, back, hw, hw', hfront, ho, hfull⟩ := hfits
      refine ⟨hplain, front, o, back, hw, hw', hfront, ho, hfull.imp_right ?_⟩
      exact fun ⟨hback, hnil, hprefix⟩ => ⟨hback, (List.append_eq_nil_iff.1 hnil).1, hprefix⟩
    refine ⟨⟨part.start, u ++ m :: (w' ++ v)⟩, ⟨u, m, w, w', v, hfocus, hpart, rfl⟩,
      hK q w' hpart, fun hne => ?_, by simp⟩
    refine Nat.le_trans (hbehind (List.append_ne_nil_of_right_ne_nil v hne)) ?_
    simp only [Segment.span, hfocus.text, utf8Length_append, utf8Length_cons, utf8Length_nil]
    omega

/-- **From a segment without blanks at its ends to the segment.** -/
theorem untrim (h : Rewrites a seg.trim K) :
    Rewrites a seg fun q seg' => q.Edits a seg.trim seg'.trim ∧ K q seg'.trim := by
  rcases blank_or_exists_sharp seg.text with hall | ⟨x, mid, y, htext, hx, hmid, hy⟩
  · obtain ⟨u, m, w, v, hfocus, -⟩ := h
    have hnil := hfocus.text
    rw [Segment.trim_text, trim_eq_nil hall] at hnil
    simp at hnil
  rw [Segment.trim_of_sharp htext hx hmid hy] at h ⊢
  obtain ⟨u, m, w, v, hfocus, hK⟩ := h
  obtain rfl : mid = u ++ m :: (w ++ v) := hfocus.text
  obtain ⟨w₁, v₁, hwv, hbehind, hexpr, hfits⟩ := hfocus.exists_outer hmid hy
  have hpos : seg.start + utf8Length x + utf8Length (u ++ [m]) =
      seg.start + utf8Length (x ++ u ++ [m]) := by
    simp only [utf8Length_append]
    omega
  have hcodes := (isMargin_of_isBlank hx).sealed.codes.append hfocus.codes
  refine ⟨x ++ u, m, w₁, v₁, ⟨by simp [htext, hwv], hfocus.mark, hcodes, hbehind, hpos ▸ hexpr⟩,
    fun q w' hw' => ?_⟩
  obtain ⟨w₂, z, hsplit, hz, hsharp, hinner⟩ := hfits q w' (hpos ▸ hw')
  have hedit : Segment.trim ⟨seg.start, x ++ u ++ m :: (w' ++ v₁)⟩ =
      ⟨seg.start + utf8Length x, u ++ m :: (w₂ ++ v)⟩ := by
    have hshape : x ++ u ++ m :: (w' ++ v₁) = x ++ (u ++ m :: (w₂ ++ v) ++ z) := by simp [hsplit]
    exact @Segment.trim_of_sharp x z ⟨seg.start, _⟩ _ hshape hx hsharp hz
  rw [hedit]
  exact ⟨⟨u, m, w, w₂, v, hfocus, hinner, rfl⟩, hK q w₂ hinner⟩

/-- Text in front of a segment. -/
theorem prepend {s r : List Char} (h : Rewrites a ⟨seg.start + utf8Length s, r⟩ K)
    (htext : seg.text = s ++ r) (hs : Codes s) :
    Rewrites a seg fun q seg' => ∃ r', K q ⟨seg.start + utf8Length s, r'⟩ ∧
      q.Edits a ⟨seg.start + utf8Length s, r⟩ ⟨seg.start + utf8Length s, r'⟩ ∧
      seg' = ⟨seg.start, s ++ r'⟩ ∧ seg.start + utf8Length s ≤ q.start := by
  refine (h.widen (y := []) (by simpa using htext) rfl hs (by simp)).imp ?_
  rintro q seg' - ⟨⟨start, r'⟩, hedits, hK, -, rfl⟩
  obtain rfl : start = seg.start + utf8Length s := hedits.start_eq
  exact ⟨r', hK, hedits, by simp, hedits.start_le⟩

/-- Text behind a segment, from a character on that is not blank. -/
theorem append {s r : List Char} {d : Char} (h : Rewrites a ⟨seg.start, s⟩ K)
    (htext : seg.text = s ++ d :: r) (hd : isBlank d = false) :
    Rewrites a seg fun q seg' => ∃ s', K q ⟨seg.start, s'⟩ ∧
      q.Edits a ⟨seg.start, s⟩ ⟨seg.start, s'⟩ ∧ seg' = ⟨seg.start, s' ++ d :: r⟩ ∧
      q.Clear ⟨seg.start + utf8Length (s ++ [d]), r⟩ ∧
      q.segment ⟨seg.start + utf8Length (s ++ [d]), r⟩ =
        ⟨seg.start + utf8Length (s' ++ [d]), r⟩ := by
  refine (h.widen (x := []) (y := d :: r) htext rfl rfl (by simpa using hd)).imp ?_
  rintro q seg' - ⟨⟨start, s'⟩, hedits, hK, hstop, rfl⟩
  obtain rfl : start = seg.start := hedits.start_eq
  have hlt : q.start < seg.start + utf8Length s := hedits.lt_stop
  have hle : q.stop ≤ seg.start + utf8Length s := hstop (List.cons_ne_nil d r)
  have hspan : seg.start + utf8Length s' = q.pos (seg.start + utf8Length s) :=
    congrArg Span.stop hedits.span_eq
  simp only [utf8Length_append, ← Nat.add_assoc]
  refine ⟨s', hK, hedits, rfl, .inr ⟨by simp only; omega, by simp only; omega⟩, ?_⟩
  rw [Quotation.segment, Quotation.pos_add hlt hle, hspan]

end Rewrites

end TypeReveal
