import TypeReveal.Proofs.Layout.Sealed
import TypeReveal.Syntax.Token

/-!
# Escaped texts in quotes

What `escapeAscii` writes of a text that can be typed, in single quotes, is a string of that text:
the quote after it is the first that ends the string, and `unescape` undoes the escapes.  A line
feed, a tab and the characters with a backslash of their own are the escapes that both know.
-/

set_option autoImplicit false
namespace TypeReveal

/-- A character of printable ASCII, a tab or a line feed. -/
def isTyped (c : Char) : Bool := (0x20 ≤ c.toNat && c.toNat ≤ 0x7e) || c == '\t' || c == '\n'

/-- The character after the backslash of an escape, and the character that the escape stands for. -/
inductive EscapedAs : Char → Char → Prop
  | tab : EscapedAs 't' '\t'
  | lineFeed : EscapedAs 'n' '\n'
  | quote : EscapedAs '\'' '\''
  | double : EscapedAs '"' '"'
  | slash : EscapedAs '\\' '\\'

/-- **A typed character is escaped or stands for itself.** -/
theorem escapeAsciiChar_of_isTyped {c : Char} (h : isTyped c = true) :
    (∃ d, EscapedAs d c ∧ escapeAsciiChar c = ['\\', d]) ∨
      (escapeAsciiChar c = [c] ∧ c ≠ '\'' ∧ c ≠ '\\' ∧ c ≠ '\n') := by
  rw [escapeAsciiChar.eq_def]
  split
  · exact .inl ⟨_, .tab, rfl⟩
  · exact absurd h (by decide)
  · exact .inl ⟨_, .lineFeed, rfl⟩
  · exact .inl ⟨_, .quote, rfl⟩
  · exact .inl ⟨_, .double, rfl⟩
  · exact .inl ⟨_, .slash, rfl⟩
  · next htab _ hbreak hquote _ hslash =>
    rw [isTyped, beq_false_of_ne htab, beq_false_of_ne hbreak, Bool.or_false, Bool.or_false] at h
    exact .inr ⟨if_pos h, hquote, hslash, hbreak⟩

section Char

variable {c : Char} (h : isTyped c = true)

include h

/-- An escaped character is read as the character. -/
theorem unescape_escapeAsciiChar (rest : List Char) :
    unescape (escapeAsciiChar c ++ rest) = c :: unescape rest := by
  rcases escapeAsciiChar_of_isTyped h with ⟨d, hescape, heq⟩ | ⟨heq, -, hslash, -⟩
  · rw [heq]
    cases hescape <;> rfl
  · rw [heq, List.singleton_append, unescape.eq_def]
    split <;> simp_all

/-- An escaped character does not end the string. -/
theorem stringBody?_escapeAsciiChar (rest : List Char) :
    stringBody? '\'' (escapeAsciiChar c ++ rest) =
      (stringBody? '\'' rest).map (escapeAsciiChar c ++ ·) := by
  rcases escapeAsciiChar_of_isTyped h with ⟨d, hescape, heq⟩ | ⟨heq, hquote, hslash, hbreak⟩
  · rw [heq]
    rfl
  · rw [heq, List.singleton_append, stringBody?.eq_def]
    split <;> simp_all

/-- An escaped character leaves a scan in the string. -/
theorem quotable_escapeAsciiChar : Quotable '\'' (escapeAsciiChar c) := by
  intro depth
  rcases escapeAsciiChar_of_isTyped h with ⟨d, hescape, heq⟩ | ⟨heq, hquote, hslash, hbreak⟩
  · simp [heq, Scan.label, Scan.step]
  · simp [heq, Scan.label, Scan.step, hquote, hslash, hbreak]

end Char

section Text

variable {cs : List Char} (h : ∀ c ∈ cs, isTyped c = true)

include h

/-- **Reading an escaped text gives back the text.** -/
theorem unescape_escapeAscii : unescape (escapeAscii cs) = cs := by
  induction cs with
  | nil => rfl
  | cons c cs ih =>
    have hcs := ih fun d hd => h d (List.mem_cons_of_mem _ hd)
    rw [escapeAscii] at hcs
    rw [escapeAscii, List.flatMap_cons, unescape_escapeAsciiChar (h c List.mem_cons_self), hcs]

/-- **An escaped text in quotes ends at the second quote.** -/
theorem stringBody?_escapeAscii (rest : List Char) :
    stringBody? '\'' (escapeAscii cs ++ '\'' :: rest) = some (escapeAscii cs) := by
  induction cs with
  | nil => rfl
  | cons c cs ih =>
    have hcs := ih fun d hd => h d (List.mem_cons_of_mem _ hd)
    rw [escapeAscii] at hcs
    rw [escapeAscii, List.flatMap_cons, List.append_assoc,
      stringBody?_escapeAsciiChar (h c List.mem_cons_self), hcs, Option.map_some]

/-- **An escaped text in single quotes** is a token, the string of that text. -/
theorem token?_escapeAscii (rest : List Char) :
    token? '\'' (escapeAscii cs ++ '\'' :: rest) =
      some (.str (String.ofList cs), (escapeAscii cs).length + 1) := by
  simp only [token?, stringBody?_escapeAscii h, Option.map_some, unescape_escapeAscii h]

theorem quotable_escapeAscii : Quotable '\'' (escapeAscii cs) :=
  .flatMap fun c hc => quotable_escapeAsciiChar (h c hc)

end Text

end TypeReveal
