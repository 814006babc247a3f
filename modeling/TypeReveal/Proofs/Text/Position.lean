import TypeReveal.Text.Position

/-!
# The order of lines and columns

Of two positions in a text, the later one is on a later line, or on the same line in a later column
(`lineColumn?_lt`).  A position is a text that the whole text starts with: the later one is longer
by some more text, and either a line ends in that or the line grows by it.
-/

set_option autoImplicit false
namespace TypeReveal

variable {source before after more : List Char} {m n : Nat} {p q : Nat × Nat}

/-- What starts a text and is longer than another start of it continues that. -/
theorem exists_append_of_prefix (hbefore : before <+: source) (hafter : after <+: source)
    (h : utf8Length before < utf8Length after) : ∃ more, more ≠ [] ∧ after = before ++ more := by
  rcases List.prefix_or_prefix_of_prefix hbefore hafter with ⟨more, rfl⟩ | ⟨more, rfl⟩
  · refine ⟨more, fun hnil => ?_, rfl⟩
    rw [hnil, List.append_nil] at h
    exact Nat.lt_irrefl _ h
  · rw [utf8Length_append] at h
    omega

theorem utf8Length_pos (h : more ≠ []) : 0 < utf8Length more := by
  cases more with
  | nil => exact absurd rfl h
  | cons c rest => exact Nat.add_pos_left c.utf8Size_pos _

/-- Text that takes up no more than the rest of it is all of it. -/
theorem eq_nil_of_utf8Length_append_le (h : utf8Length (before ++ more) ≤ utf8Length before) :
    more = [] := by
  cases more with
  | nil => rfl
  | cons c rest =>
    have hpos := c.utf8Size_pos
    rw [utf8Length_append, utf8Length_cons] at h
    omega

/-- Of two places where a text is cut, the later one is further on by the text between them. -/
theorem exists_between_of_append_eq {s t s' t' : List Char} (h : s ++ t = s' ++ t')
    (hle : utf8Length s ≤ utf8Length s') : ∃ between, s' = s ++ between ∧ t = between ++ t' := by
  rcases List.append_eq_append_iff.1 h with ⟨between, rfl, rfl⟩ | ⟨between, rfl, rfl⟩
  · exact ⟨between, rfl, rfl⟩
  · obtain rfl := eq_nil_of_utf8Length_append_le hle
    exact ⟨[], by simp, by simp⟩

theorem append_inj_of_utf8Length {s t s' t' : List Char} (h : s ++ t = s' ++ t')
    (hlength : utf8Length s = utf8Length s') : s = s' ∧ t = t' := by
  obtain ⟨between, rfl, rfl⟩ := exists_between_of_append_eq h (Nat.le_of_eq hlength)
  obtain rfl := eq_nil_of_utf8Length_append_le (Nat.le_of_eq hlength.symm)
  exact ⟨(List.append_nil s).symm, List.nil_append t'⟩

/-- More text on a line moves its end. -/
theorem takeWhile_reverse_append (h : '\n' ∉ more) :
    (before ++ more).reverse.takeWhile (· != '\n') =
      more.reverse ++ before.reverse.takeWhile (· != '\n') := by
  rw [List.reverse_append]
  refine List.takeWhile_append_of_pos fun c hc => bne_iff_ne.2 fun heq => h ?_
  exact heq ▸ List.mem_reverse.1 hc

/-- **A later position** is on a later line or in a later column of the same line. -/
theorem lineColumn?_lt (hlt : m < n) (hn : n ≤ utf8Length source)
    (hp : lineColumn? source m = some p) (hq : lineColumn? source n = some q) :
    p.1 < q.1 ∨ p.1 = q.1 ∧ p.2 < q.2 := by
  rw [lineColumn?, Nat.min_eq_left (Nat.le_of_lt (Nat.lt_of_lt_of_le hlt hn))] at hp
  rw [lineColumn?, Nat.min_eq_left hn] at hq
  obtain ⟨before, hbefore, rfl⟩ := Option.map_eq_some_iff.1 hp
  obtain ⟨after, hafter, rfl⟩ := Option.map_eq_some_iff.1 hq
  obtain ⟨more, hmore, rfl⟩ := exists_append_of_prefix (prefix_of_takeBytes? hbefore)
    (prefix_of_takeBytes? hafter)
    (by rwa [utf8Length_of_takeBytes? hbefore, utf8Length_of_takeBytes? hafter])
  rw [List.count_append]
  by_cases hline : '\n' ∈ more
  · have hcount := List.count_pos_iff.2 hline
    exact .inl (by omega)
  · refine .inr ⟨by rw [List.count_eq_zero_of_not_mem hline, Nat.add_zero], ?_⟩
    have hpos := utf8Length_pos (mt List.reverse_eq_nil_iff.1 hmore)
    rw [takeWhile_reverse_append hline, utf8Length_append]
    omega

end TypeReveal
