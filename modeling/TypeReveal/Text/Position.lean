import TypeReveal.Text.Basic

/-!
# Lines and columns

A position in a text as a line and a column, both counted from 1.  Columns count bytes, like
positions.  A position inside a character has no line and column, and a range of bytes that cuts a
character has no text.

Texts are lists of characters and positions are bytes, so a position is a number of characters at
the front of the text together with their bytes.  That no character is cut is a condition on the
position, and the functions here return nothing where it fails.
-/

set_option autoImplicit false
namespace TypeReveal

/-- The characters in the first `n` bytes of a text, if the text is that long and no character is
cut. -/
def takeBytes? : Nat → List Char → Option (List Char)
  | 0, _ => some []
  | _ + 1, [] => none
  | n + 1, c :: rest =>
    if c.utf8Size ≤ n + 1 then (takeBytes? (n + 1 - c.utf8Size) rest).map (c :: ·) else none

theorem utf8Length_of_takeBytes? {n : Nat} {source before : List Char}
    (h : takeBytes? n source = some before) : utf8Length before = n := by
  induction source generalizing n before with
  | nil => cases n <;> simp_all [takeBytes?]
  | cons c rest ih =>
    cases n with
    | zero => simp_all [takeBytes?]
    | succ n =>
      rw [takeBytes?] at h
      split at h
      · obtain ⟨tail, htail, rfl⟩ := Option.map_eq_some_iff.1 h
        have := ih htail
        simp only [utf8Length_cons]
        omega
      · contradiction

theorem takeBytes?_append (before after : List Char) :
    takeBytes? (utf8Length before) (before ++ after) = some before := by
  induction before with
  | nil => simp [takeBytes?]
  | cons c before ih =>
    have := c.utf8Size_pos
    obtain ⟨n, hn⟩ : ∃ n, c.utf8Size + utf8Length before = n + 1 :=
      ⟨c.utf8Size + utf8Length before - 1, by omega⟩
    have hle : c.utf8Size ≤ n + 1 := by omega
    have hsub : n + 1 - c.utf8Size = utf8Length before := by omega
    simp [hn, takeBytes?, hle, hsub, ih]

theorem prefix_of_takeBytes? {n : Nat} {source before : List Char}
    (h : takeBytes? n source = some before) : before <+: source := by
  induction source generalizing n before with
  | nil => cases n <;> simp_all [takeBytes?]
  | cons c rest ih =>
    cases n with
    | zero => simp_all [takeBytes?]
    | succ n =>
      rw [takeBytes?] at h
      split at h
      · obtain ⟨tail, htail, rfl⟩ := Option.map_eq_some_iff.1 h
        exact (List.prefix_cons_inj c).2 (ih htail)
      · cases h

/-- The line and the column of a position.  Positions behind the end count as the end. -/
def lineColumn? (source : List Char) (offset : Nat) : Option (Nat × Nat) :=
  (takeBytes? (min offset (utf8Length source)) source).map fun before =>
    (before.count '\n' + 1, utf8Length (before.reverse.takeWhile (· != '\n')) + 1)

/-- The text of a range of bytes. -/
def byteSlice? (source : List Char) (start stop : Nat) : Option (List Char) := do
  let before ← takeBytes? start source
  let through ← takeBytes? stop source
  return through.drop before.length

theorem byteSlice?_append (before part after : List Char) :
    byteSlice? (before ++ (part ++ after)) (utf8Length before)
      (utf8Length before + utf8Length part) = some part := by
  have hthrough := takeBytes?_append (before ++ part) after
  rw [utf8Length_append, List.append_assoc] at hthrough
  simp [byteSlice?, takeBytes?_append, hthrough]

end TypeReveal
