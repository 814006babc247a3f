import Mathlib.Data.List.Induction
import TypeReveal.Proofs.Text.Position

/-!
# Lines and columns tell positions apart

Where a character starts or the text ends is a *boundary* (`IsBoundary`).  The line of a boundary
counts the line breaks before it, and its column counts the bytes from the start of that line
(`lineColumn?_append`).  So the pair gives the position back, in the order of the text, and only
positions behind the end share theirs (`lineColumn?_boundaries`).

The starts of the lines are found by their own pass over the text (`lineStarts`), with no reference
to a position: it is the list that the line of a position is an index into.

Columns count bytes, so that a position in the middle of a line has the column that its bytes give
it, whichever characters they belong to.  A position inside a character has no line and column, and
the program ends there.  One behind the end of the text has those of the end.
-/

set_option autoImplicit false
namespace TypeReveal

/-- No character reaches over the position. -/
def IsBoundary (source : List Char) (offset : Nat) : Prop :=
  ∃ before after, source = before ++ after ∧ utf8Length before = offset

/-- The positions just behind the line breaks of a text that starts at a position. -/
def lineBreaks : Nat → List Char → List Nat
  | _, [] => []
  | pos, c :: rest =>
    if c = '\n' then (pos + c.utf8Size) :: lineBreaks (pos + c.utf8Size) rest
    else lineBreaks (pos + c.utf8Size) rest

/-- The positions where the lines of a text start. -/
def lineStarts (source : List Char) : List Nat :=
  0 :: lineBreaks 0 source

variable {source before after : List Char} {pos offset : Nat}

theorem lineBreaks_append (before after : List Char) :
    lineBreaks pos (before ++ after) =
      lineBreaks pos before ++ lineBreaks (pos + utf8Length before) after := by
  induction before generalizing pos with
  | nil => rfl
  | cons c before ih =>
    rw [utf8Length_cons, ← Nat.add_assoc, List.cons_append, lineBreaks, lineBreaks, ih]
    split <;> rfl

theorem lineStarts_append (before after : List Char) :
    lineStarts (before ++ after) =
      lineStarts before ++ lineBreaks (0 + utf8Length before) after :=
  congrArg (0 :: ·) (lineBreaks_append before after)

theorem lt_and_le_of_mem_lineBreaks {stop : Nat} (h : stop ∈ lineBreaks pos source) :
    pos < stop ∧ stop ≤ pos + utf8Length source := by
  induction source generalizing pos with
  | nil => cases h
  | cons c rest ih =>
    have hpos := c.utf8Size_pos
    rw [lineBreaks] at h
    rw [utf8Length_cons]
    split at h
    · rcases List.mem_cons.1 h with rfl | h
      · omega
      · have := ih h
        omega
    · have := ih h
      omega

theorem length_lineBreaks (source : List Char) :
    (lineBreaks pos source).length = source.count '\n' := by
  induction source generalizing pos with
  | nil => rfl
  | cons c rest ih =>
    rw [lineBreaks, List.count_cons]
    split <;> rename_i hc <;> simp [hc, ih]

/-- The line breaks that end at or before a boundary are those of the text before it. -/
theorem countP_lineBreaks (before after : List Char) :
    (lineBreaks 0 (before ++ after)).countP (· ≤ utf8Length before) = before.count '\n' := by
  have hbefore : (lineBreaks 0 before).countP (· ≤ utf8Length before) = before.count '\n' := by
    rw [← @length_lineBreaks 0 before, List.countP_eq_length]
    intro stop hstop
    have hle := (lt_and_le_of_mem_lineBreaks hstop).2
    rw [Nat.zero_add] at hle
    exact decide_eq_true hle
  have hafter : (lineBreaks (0 + utf8Length before) after).countP (· ≤ utf8Length before) = 0 := by
    rw [List.countP_eq_zero]
    intro stop hstop hle
    have hlt := (lt_and_le_of_mem_lineBreaks hstop).1
    rw [Nat.zero_add] at hlt
    exact Nat.not_le_of_lt hlt (of_decide_eq_true hle)
  rw [lineBreaks_append, List.countP_append, hbefore, hafter, Nat.add_zero]

/-- What stands on the last line of a text starts at the last of its starts of lines. -/
theorem exists_lineStarts_last (before : List Char) :
    ∃ start, (lineStarts before)[before.count '\n']? = some start ∧
      utf8Length before = start + utf8Length (before.reverse.takeWhile (· != '\n')) := by
  induction before using List.reverseRecOn with
  | nil => exact ⟨0, rfl, rfl⟩
  | append_singleton before c ih =>
    rw [lineStarts_append, List.reverse_concat, utf8Length_append]
    by_cases hc : c = '\n'
    · subst hc
      -- The new line starts behind the break, at the end of the text.
      refine ⟨utf8Length before + utf8Length ['\n'], ?_, by simp⟩
      rw [List.getElem?_append_right (by simp [lineStarts, length_lineBreaks])]
      simp [lineStarts, lineBreaks, length_lineBreaks]
    · obtain ⟨start, hstart, hlength⟩ := ih
      refine ⟨start, ?_, ?_⟩
      · have hnone : lineBreaks (0 + utf8Length before) [c] = [] := by simp [lineBreaks, hc]
        have hcount : (before ++ [c]).count '\n' = before.count '\n' := by simp [hc]
        rw [hnone, List.append_nil, hcount]
        exact hstart
      · have hkeep : (c != '\n') = true := bne_iff_ne.2 hc
        rw [List.takeWhile_cons, if_pos hkeep, utf8Length_cons, hlength]
        simp only [utf8Length_cons, utf8Length_nil]
        omega

/-- **The line and the column of a boundary** count the line breaks before it and the bytes from
the start of its line. -/
theorem lineColumn?_append (before after : List Char) :
    ∃ start column, lineColumn? (before ++ after) (utf8Length before) =
        some (before.count '\n' + 1, column + 1) ∧
      (lineStarts (before ++ after))[before.count '\n']? = some start ∧
      utf8Length before = start + column := by
  obtain ⟨start, hstart, hlength⟩ := exists_lineStarts_last before
  refine ⟨start, _, ?_, ?_, hlength⟩
  · rw [lineColumn?, utf8Length_append, Nat.min_eq_left (Nat.le_add_right _ _),
      takeBytes?_append, Option.map_some]
  · rw [lineStarts_append, List.getElem?_append_left (List.getElem?_eq_some_iff.1 hstart).1,
      hstart]

/-- What is longer than the text is cut off at its end. -/
theorem lineColumn?_of_length_le (h : utf8Length source ≤ offset) :
    lineColumn? source offset = lineColumn? source (utf8Length source) := by
  rw [lineColumn?, lineColumn?, Nat.min_eq_right h, Nat.min_self]

theorem IsBoundary.le_length (h : IsBoundary source offset) : offset ≤ utf8Length source := by
  obtain ⟨before, after, rfl, rfl⟩ := h
  rw [utf8Length_append]
  exact Nat.le_add_right _ _

theorem IsBoundary.exists_lineColumn? (h : IsBoundary source offset) :
    ∃ p, lineColumn? source offset = some p := by
  obtain ⟨before, after, rfl, rfl⟩ := h
  obtain ⟨_, _, h, -⟩ := lineColumn?_append before after
  exact ⟨_, h⟩

/-- Earlier boundaries are on earlier lines, or in earlier columns of the same line. -/
theorem IsBoundary.exists_lineColumn?_lt {m n : Nat} (hm : IsBoundary source m)
    (hn : IsBoundary source n) (hlt : m < n) :
    ∃ p q, lineColumn? source m = some p ∧ lineColumn? source n = some q ∧
      (p.1 < q.1 ∨ p.1 = q.1 ∧ p.2 < q.2) := by
  obtain ⟨p, hp⟩ := hm.exists_lineColumn?
  obtain ⟨q, hq⟩ := hn.exists_lineColumn?
  exact ⟨p, q, hp, hq, lineColumn?_lt hlt hn.le_length hp hq⟩

theorem IsBoundary.lineColumn?_ne_of_lt {m n : Nat} (hm : IsBoundary source m)
    (hn : IsBoundary source n) (hlt : m < n) : lineColumn? source m ≠ lineColumn? source n := by
  obtain ⟨p, q, hp, hq, hpq⟩ := hm.exists_lineColumn?_lt hn hlt
  intro h
  obtain rfl : p = q := Option.some.inj ((hp.symm.trans h).trans hq)
  rcases hpq with hline | ⟨-, hcolumn⟩
  · exact Nat.lt_irrefl _ hline
  · exact Nat.lt_irrefl _ hcolumn

/-- **Positions and their lines and columns** belong to each other one to one and in order.  A
boundary of a text has a line and a column: before it stand as many line breaks as there are lines
before its own, and it is as far behind the start of its line as there are columns before its own.
Other boundaries have other pairs, earlier ones smaller pairs, and all positions behind the end
have the pair of the end. -/
theorem lineColumn?_boundaries (source : List Char) :
    (∀ offset, IsBoundary source offset → ∃ line column start,
      lineColumn? source offset = some (line + 1, column + 1) ∧
      (lineBreaks 0 source).countP (· ≤ offset) = line ∧
      (lineStarts source)[line]? = some start ∧ offset = start + column) ∧
    (∀ m n, IsBoundary source m → IsBoundary source n → m ≠ n →
      lineColumn? source m ≠ lineColumn? source n) ∧
    (∀ m n, IsBoundary source m → IsBoundary source n → m < n →
      ∃ p q, lineColumn? source m = some p ∧ lineColumn? source n = some q ∧
        (p.1 < q.1 ∨ p.1 = q.1 ∧ p.2 < q.2)) ∧
    (∀ offset, utf8Length source ≤ offset →
      lineColumn? source offset = lineColumn? source (utf8Length source)) := by
  refine ⟨?_, ?_, ?_, ?_⟩
  · rintro offset ⟨before, after, rfl, rfl⟩
    obtain ⟨start, column, hpair, hstart, hoffset⟩ := lineColumn?_append before after
    exact ⟨_, column, start, hpair, countP_lineBreaks before after, hstart, hoffset⟩
  · intro m n hm hn hne
    rcases Nat.lt_or_gt_of_ne hne with hlt | hlt
    · exact hm.lineColumn?_ne_of_lt hn hlt
    · exact (hn.lineColumn?_ne_of_lt hm hlt).symm
  · intro m n hm hn hlt
    exact hm.exists_lineColumn?_lt hn hlt
  · intro offset h
    exact lineColumn?_of_length_le h

/-- The line break after a letter of two bytes, and the letter on the next line. -/
theorem lineColumn?_accented :
    lineColumn? "é\na".toList 2 ≠ lineColumn? "é\na".toList 3 ∧
      lineColumn? "é\na".toList 9 = lineColumn? "é\na".toList 4 ∧
      lineColumn? "é\na".toList 3 = some (2, 1) := by
  obtain ⟨-, hne, -, hend⟩ := lineColumn?_boundaries "é\na".toList
  have hbefore : IsBoundary "é\na".toList 2 := ⟨['é'], ['\n', 'a'], rfl, rfl⟩
  have hafter : IsBoundary "é\na".toList 3 := ⟨['é', '\n'], ['a'], rfl, rfl⟩
  exact ⟨hne 2 3 hbefore hafter (by decide), hend 9 (by decide), by decide⟩

end TypeReveal
