import TypeReveal.Proofs.Statement.Print
import TypeReveal.Syntax.Header

/-!
# Parts of written lines

What the two forms that statements share are read as.

* `Segment.text_parts_of_listed` — a list is taken apart at its commas into the texts it was made
  of.
* `readBinding_declaration` — a name with a type and a value is taken apart at its first colon and
  its first equals sign, and `trim_take_declaration` is the name before them.  Parameters and
  bindings are both read in this way.
-/

set_option autoImplicit false
namespace TypeReveal

/-! ## Pieces of segments

The equations between cuts and the texts that a segment was put together from. -/

namespace Segment

variable {seg : Segment} {u v w : List Char} {c : Char}

theorem text_take (h : seg.text = u ++ v) : (seg.take u.length).text = u := by
  rw [take, h, List.take_left]

theorem text_drop (h : seg.text = u ++ v) : (seg.drop u.length).text = v := by
  rw [drop, h, List.drop_left]

theorem text_drop_succ (h : seg.text = u ++ c :: v) : (seg.drop (u.length + 1)).text = v := by
  have h' : seg.text = (u ++ [c]) ++ v := by rw [h, List.append_assoc]; rfl
  simpa using text_drop h'

/-- What stands between two separators, the first of which is left out. -/
theorem text_slice (h : seg.text = u ++ c :: (v ++ w)) :
    (seg.slice (u.length + 1) (u.length + (v.length + 1))).text = v := by
  have htake : (seg.take (u.length + (v.length + 1))).text = u ++ c :: v := by
    have h' : seg.text = (u ++ c :: v) ++ w := by rw [h, List.append_assoc]; rfl
    simpa using text_take h'
  exact text_drop_succ htake

theorem trim_text (seg : Segment) : seg.trim.text = TypeReveal.trim seg.text := rfl

end Segment

/-! ## Lists

Commas stand between the items and nowhere else outside of brackets, and trimming takes the spaces
off again. -/

variable {items : List (List Char)} {seps : List Char}

theorem listed_cons_cons (text next : List Char) (more : List (List Char)) :
    listed (text :: next :: more) = text ++ ',' :: ' ' :: listed (next :: more) := rfl

/-- A list is sealed if its items are, except against commas and spaces. -/
theorem sealed_listed (hcomma : ',' ∉ seps) (hspace : ' ' ∉ seps)
    (h : ∀ text ∈ items, Sealed seps text) : Sealed seps (listed items) := by
  induction items with
  | nil => exact .nil
  | cons text more ih =>
    cases more with
    | nil => exact h text List.mem_cons_self
    | cons next more =>
      have hmore := ih fun text htext => h text (List.mem_cons_of_mem _ htext)
      exact (h text List.mem_cons_self).append
        (.cons (by decide) hcomma (.cons (by decide) hspace hmore))

/-- A list has the ends of its first and of its last item. -/
theorem sharp_listed (hne : items ≠ []) (h : ∀ text ∈ items, Sharp text) :
    Sharp (listed items) := by
  induction items with
  | nil => exact absurd rfl hne
  | cons text more ih =>
    cases more with
    | nil => exact h text List.mem_cons_self
    | cons next more =>
      have hmore := ih (List.cons_ne_nil _ _) fun text htext =>
        h text (List.mem_cons_of_mem _ htext)
      exact (h text List.mem_cons_self).join [',', ' '] hmore

/-- In parentheses a list is sealed against everything. -/
theorem sealed_grouped (h : ∀ text ∈ items, Sealed [] text) : Sealed seps (grouped items) :=
  (sealed_listed (by simp) (by simp) h).bracket rfl rfl

theorem sealed_spaces {pre : List Char} (hpre : ∀ c ∈ pre, c = ' ') (hspace : ' ' ∉ seps) :
    Sealed seps pre :=
  .of_forall fun c hc => hpre c hc ▸ ⟨by decide, hspace⟩

theorem isBlank_of_spaces {pre : List Char} (hpre : ∀ c ∈ pre, c = ' ') :
    ∀ c ∈ pre, isBlank c = true :=
  fun c hc => hpre c hc ▸ rfl

/-- **A list is taken apart into the texts it was made of**, whether spaces stand before it or
not. -/
theorem Segment.text_parts_of_listed (pre : List Char) (hpre : ∀ c ∈ pre, c = ' ')
    (h : ∀ text ∈ items, Sealed [','] text ∧ Sharp text) {seg : Segment}
    (htext : seg.text = pre ++ listed items) : seg.parts.map Segment.text = items := by
  -- The prefix is what the induction carries: from the second item on it is the blank behind the
  -- comma.
  have hpre' : Sealed [','] pre := sealed_spaces hpre (by decide)
  have hblank := isBlank_of_spaces hpre
  induction items generalizing seg pre with
  | nil =>
    rw [listed, List.append_nil] at htext
    have hnone := index?_eq_none comma_isMark (by decide) (htext ▸ hpre')
    have hempty : seg.trim.isEmpty = true := by
      rw [isEmpty, trim_text, htext, trim_eq_nil hblank]
      rfl
    rw [parts_of_index?_eq_none hnone, if_pos hempty, List.map_nil]
  | cons text more ih =>
    obtain ⟨hsealed, hsharp⟩ := h text List.mem_cons_self
    cases more with
    | nil =>
      have hitem : Sealed [','] seg.text := by
        rw [htext]
        exact hpre'.append hsealed
      have hnone := index?_eq_none comma_isMark (by decide) hitem
      have htrim : seg.trim.text = text := by
        rw [trim_text, htext]
        exact trim_append_left hblank hsharp
      have hne : ¬ seg.trim.isEmpty = true := by
        rw [isEmpty, htrim]
        simpa using hsharp.ne_nil
      rw [parts_of_index?_eq_none hnone, if_neg hne, List.map_singleton, htrim]
    | cons next more =>
      have hsplit : seg.text = (pre ++ text) ++ ',' :: ([' '] ++ listed (next :: more)) := by
        rw [htext, listed_cons_cons, List.append_assoc]
        rfl
      have hsome := index?_of_sealed comma_isMark (by decide) (by decide)
        (hpre'.append hsealed) hsplit rfl
      have htrim : (seg.take (pre ++ text).length).trim.text = text := by
        rw [trim_text, text_take hsplit]
        exact trim_append_left hblank hsharp
      have hmore := ih [' '] (by simp)
        (fun text htext => h text (List.mem_cons_of_mem _ htext)) (text_drop_succ hsplit)
        (sealed_spaces (by simp) (by decide)) (by decide)
      rw [parts_of_index?_eq_some hsome, List.map_cons, htrim, hmore]

/-! ## Expressions after a mark

A colon, an equals sign or an arrow may be followed by an expression or be missing along with it. -/

/-- An expression behind a mark is sealed as far as its stratum is. -/
theorem sealed_marked {mark : List Char} {e? : Option Expr} {s : Stratum}
    (hmark : Sealed seps mark) (hseps : seps ⊆ s.separators)
    (he : e?.all (Expr.fits s) = true) : Sealed seps (marked mark e?) := by
  cases e? with
  | none => exact .nil
  | some e => exact hmark.append ((e.sealed_spaced he).mono hseps)

/-- The space in front of the first token is trimmed away. -/
theorem trim_spaced {e : Expr} {s : Stratum} (h : e.fits s = true) : trim e.spaced = e.written := by
  rw [e.spaced_eq, trim_space_cons (Expr.sharp_written h)]

/-! ## Declarations

The name has no separators, and the type none outside of brackets.  So the first colon is the one
behind the name, and the first equals sign is the one behind the type. -/

section declaration

variable {name : String} {annotation? value? : Option Expr} {s : Stratum} {seg : Segment}

theorem sealed_name {text : List Char} (h : isName text = true) (hseps : seps ⊆ punctuation) :
    Sealed seps text := by
  refine .of_forall fun c hc => ?_
  have hpart := (isNamePart_of_isName h).2 c hc
  exact ⟨isPlain_of_not_mem (not_mem_punctuation_of_isNamePart hpart),
    not_mem_of_isNamePart hpart hseps⟩

/-- A declaration is sealed against separators that it does not use itself: it has a colon if it has
a type, and an equals sign if it has a value. -/
theorem sealed_declaration (hname : isName name.toList = true) (hseps : seps ⊆ s.separators)
    (hcolon : annotation?.isSome = true → ':' ∉ seps) (hequals : value?.isSome = true → '=' ∉ seps)
    (ha : annotation?.all (Expr.fits s) = true) (hv : value?.all (Expr.fits s) = true) :
    Sealed seps (declaration name annotation? value?) := by
  have hseparators : seps ⊆ separators := List.Subset.trans hseps s.separators_subset
  have hsealed : Sealed seps name.toList :=
    sealed_name hname (List.Subset.trans hseparators (by decide))
  refine hsealed.append (.append ?_ ?_)
  · cases annotation? with
    | none => exact .nil
    | some e => exact sealed_marked (.plain (by decide) (hcolon rfl)) hseps ha
  · cases value? with
    | none => exact .nil
    | some e =>
      have hmark := sealed_space_cons hseparators (.plain (by decide) (hequals rfl))
      exact sealed_marked hmark hseps hv

/-- A declaration starts with its name and ends with its last part. -/
theorem sharp_declaration (hname : isName name.toList = true)
    (ha : annotation?.all (Expr.fits s) = true) (hv : value?.all (Expr.fits s) = true) :
    Sharp (declaration name annotation? value?) := by
  have hsharp := Sharp.of_isName hname
  have hmarked : Sharp (name.toList ++ marked [':'] annotation?) := by
    cases annotation? with
    | none => simpa [marked] using hsharp
    | some e => simpa [marked, e.spaced_eq] using hsharp.join [':', ' '] (Expr.sharp_written ha)
  rw [declaration, ← List.append_assoc]
  cases value? with
  | none => simpa [marked] using hmarked
  | some e => simpa [marked, e.spaced_eq] using hmarked.join [' ', '=', ' '] (Expr.sharp_written hv)

/-- What stands before the equals sign of a declaration. -/
def declared (name : String) (annotation? : Option Expr) : List Char :=
  name.toList ++ (marked [':'] annotation? ++ [' '])

variable (hname : isName name.toList = true) (ha : annotation?.all (Expr.fits s) = true)
  (hv : value?.all (Expr.fits s) = true) (htext : seg.text = declaration name annotation? value?)

include hname ha hv htext

/-- **The colon of a declaration** stands after the name. -/
theorem index?_colon_declaration :
    seg.index? Segment.colon = annotation?.map fun _ => name.toList.length := by
  cases annotation? with
  | none =>
    have hsealed : Sealed [':'] seg.text :=
      htext ▸ sealed_declaration hname (by cases s <;> decide) (by simp) (by simp) ha hv
    exact Segment.index?_eq_none Segment.colon_isMark (by decide) hsealed
  | some e =>
    have hsplit : seg.text = name.toList ++ ':' :: (e.spaced ++ marked [' ', '='] value?) := htext
    have hsealed : Sealed [':'] name.toList := sealed_name hname (by decide)
    exact Segment.index?_of_sealed Segment.colon_isMark (by decide) (by decide) hsealed hsplit rfl

/-- **The equals sign of a declaration** stands after the name and the type. -/
theorem index?_equals_declaration :
    seg.index? Segment.equals = value?.map fun _ => (declared name annotation?).length := by
  cases value? with
  | none =>
    have hsealed : Sealed ['='] seg.text :=
      htext ▸ sealed_declaration hname (by cases s <;> decide) (by simp) (by simp) ha hv
    exact Segment.index?_eq_none Segment.equals_isMark (by decide) hsealed
  | some e =>
    have hsplit : seg.text = declared name annotation? ++ '=' :: e.spaced := by
      rw [htext, declaration, declared]
      simp [marked]
    have hsealed : Sealed ['='] (declared name annotation?) :=
      (sealed_name hname (by decide)).append
        ((sealed_marked (.plain (by decide) (by decide)) (by cases s <;> decide) ha).append
          (.plain (by decide) (by decide)))
    have hlast : (declared name annotation?).getLast? = some ' ' := by
      rw [declared, ← List.append_assoc, List.getLast?_concat]
    refine Segment.index?_of_sealed Segment.equals_isMark (by decide) (by decide)
      hsealed hsplit ?_
    rw [hlast, e.spaced_eq]
    rfl

/-- **The name of a declaration** is what stands before its colon and its equals sign. -/
theorem trim_take_declaration :
    trim (seg.text.take ((first? (seg.index? Segment.colon) (seg.index? Segment.equals)).getD
      seg.text.length)) = name.toList := by
  have hsharp := Sharp.of_isName hname
  rw [index?_colon_declaration hname ha hv htext, index?_equals_declaration hname ha hv htext,
    htext]
  cases annotation? with
  | none =>
    cases value? with
    | none => simpa [first?, declaration, marked] using trim_eq_self hsharp
    | some e =>
      have hsplit : declaration name none (some e) = declared name none ++ '=' :: e.spaced := by
        simp [declaration, declared, marked]
      rw [hsplit, Option.map_none, Option.map_some, first?, Option.getD_some, List.take_left]
      exact trim_append_space hsharp
  | some e =>
    have hle : name.toList.length ≤ (declared name (some e)).length := by simp [declared]
    cases value? with
    | none => simpa [first?, declaration] using trim_eq_self hsharp
    | some e' =>
      simp only [Option.map_some, first?, Nat.min_eq_left hle, Option.getD_some, declaration,
        List.take_left]
      exact trim_eq_self hsharp

/-- **The type and the value of a declaration** are read as such. -/
theorem readBinding_declaration :
    ∃ annotation' value', readBinding seg (seg.index? Segment.colon) (seg.index? Segment.equals) =
        .ok (annotation', value') ∧
      annotation'.map Expr.bare = annotation?.map Expr.bare ∧
      value'.map Expr.bare = value?.map Expr.bare := by
  have hwhole : ∀ {e : Expr}, e.fits s = true → e.fits .whole = true := fun h =>
    Expr.fits_mono (fun _ _ => rfl) (fun _ => rfl) h
  rw [index?_colon_declaration hname ha hv htext, index?_equals_declaration hname ha hv htext]
  cases annotation? with
  | none =>
    cases value? with
    | none => exact ⟨none, none, rfl, rfl, rfl⟩
    | some v =>
      have hsplit : seg.text = declared name none ++ '=' :: v.spaced := by
        rw [htext]
        simp [declaration, declared, marked]
      obtain ⟨v', hread, hbare⟩ := Segment.expr_of_trim (hwhole hv)
        (by rw [Segment.text_drop_succ hsplit, trim_spaced hv])
      refine ⟨none, some v', ?_, rfl, by simp [hbare]⟩
      simp only [Option.map_none, Option.map_some, readBinding, hread]
      rfl
  | some a =>
    cases value? with
    | none =>
      have hsplit : seg.text = name.toList ++ ':' :: a.spaced := by
        rw [htext]
        simp [declaration, marked]
      obtain ⟨a', hread, hbare⟩ := Segment.expr_of_trim (hwhole ha)
        (by rw [Segment.text_drop_succ hsplit, trim_spaced ha])
      refine ⟨some a', none, ?_, by simp [hbare], rfl⟩
      simp only [Option.map_none, Option.map_some, readBinding, hread]
      rfl
    | some v =>
      -- The annotation ends before the blank and the equals sign, so it is a slice to be trimmed.
      have hlength : (declared name (some a)).length =
          name.toList.length + ((a.spaced ++ [' ']).length + 1) := by
        simp [declared, marked, Nat.add_comm]
      have hhint : seg.text =
          name.toList ++ ':' :: ((a.spaced ++ [' ']) ++ '=' :: v.spaced) := by
        rw [htext]
        simp [declaration, marked]
      have hvalue : seg.text = declared name (some a) ++ '=' :: v.spaced := by
        rw [htext]
        simp [declaration, declared, marked]
      have htrim : trim (seg.slice (name.toList.length + 1)
          (declared name (some a)).length).text = a.written := by
        rw [hlength, Segment.text_slice hhint, a.spaced_eq, List.cons_append]
        exact trim_append (u := [' ']) (by decide) (Expr.sharp_written ha) (by decide)
      obtain ⟨a', hread, hbare⟩ := Segment.expr_of_trim (hwhole ha) htrim
      obtain ⟨v', hread', hbare'⟩ := Segment.expr_of_trim (hwhole hv)
        (by rw [Segment.text_drop_succ hvalue, trim_spaced hv])
      have hlt : name.toList.length < (declared name (some a)).length := by omega
      refine ⟨some a', some v', ?_, by simp [hbare], by simp [hbare']⟩
      simp only [Option.map_some, readBinding, if_pos hlt, hread, hread']
      rfl

end declaration

end TypeReveal
