import TypeReveal.Careful.ParseTree
import TypeReveal.Proofs.Expr.Pieces

/-!
# What readers of a grammar read

`r.Reads ls rest ps pos` says that `r`, in front of the tokens `ls` and then `rest`, reads just `ls`
and leaves the pairs `ps` behind, the cursor at `pos`.  What a rule reads follows from what its
parts read and from where they stop; a repetition stops where its part fits no more
(`Repeats.reads_many`).

Readers are functions on cursors, and a cursor has a position and the tokens ahead.  Where blanks
are skipped the position moves to the start of the next token, so a reader that stands in front of
tokens stands at the start of the first of them, or at the end of the text (`Cursor.ahead`).

A rule with an alternative tries the first part before the second, and nothing that has been read is
given back once a part fits.  So it does not suffice to say that a part can read some tokens.  That
other parts fail there, and that a repetition can not go on, has to be known as well, and it is for
this that `Fails` is defined.
-/

set_option autoImplicit false
namespace TypeReveal

/-- A cursor in front of some tokens of a text that ends at `stop`. -/
def Cursor.ahead (ls : List Lexeme) (stop : Nat) : Cursor := ⟨startOf ls stop, ls, stop⟩

@[simp] theorem Cursor.skip_mk (pos : Nat) (ls : List Lexeme) (stop : Nat) :
    Cursor.skip ⟨pos, ls, stop⟩ = .ahead ls stop := rfl

namespace Reader

section Reads

variable (stop : Nat)

/-- Reading the tokens `ls` of a text where `rest` comes after them. -/
def Reads (r : Reader) (ls rest : List Lexeme) (ps : List Pair) (pos : Nat) : Prop :=
  r (.ahead (ls ++ rest) stop) = some (ps, ⟨pos, rest, stop⟩)

/-- Fitting nowhere in front of some tokens. -/
def Fails (r : Reader) (ls : List Lexeme) : Prop := r (.ahead ls stop) = none

/-- Reading some tokens by a part of a rule again and again. -/
inductive Repeats (p : Reader) (rest : List Lexeme) : List Lexeme → List Pair → Prop
  | nil : Repeats p rest [] []
  | cons {ls ms : List Lexeme} {ps qs : List Pair} {pos : Nat} (hne : ls ≠ [])
    (h : p.Reads stop ls (ms ++ rest) ps pos) (hms : Repeats p rest ms qs) :
    Repeats p rest (ls ++ ms) (ps ++ qs)

variable {stop} {p q : Reader} {l : Lexeme} {ls ms rest : List Lexeme} {ps qs : List Pair}
  {pos pos' n : Nat} {r : Rule} {t : Token}

/-! ## Parts that fit

What a sequence, a rule, an option and an alternative read, from what their parts read. -/

/-- A token that is expected is read, and no pair is left. -/
theorem reads_mark (h : l.token = t) : (mark t).Reads stop [l] rest [] l.span.stop := by
  simp [Reads, mark, Cursor.ahead, Cursor.behind, h]

/-- **A sequence** reads what its parts read, one after the other. -/
theorem Reads.seq (hp : p.Reads stop ls (ms ++ rest) ps pos) (hq : q.Reads stop ms rest qs pos') :
    (seq p q).Reads stop (ls ++ ms) rest (ps ++ qs) pos' := by
  rw [Reads] at hp hq ⊢
  simp [Reader.seq, hp, hq]

/-- **A rule** leaves a pair around those of its parts, from the start of the first token to where
the reading has ended. -/
theorem Reads.rule (h : p.Reads stop ls rest ps pos) (r : Rule) :
    (rule r p).Reads stop ls rest [⟨r, ⟨startOf (ls ++ rest) stop, pos⟩, [], ps⟩] pos := by
  rw [Reads] at h ⊢
  rw [Reader.rule, h]
  rfl

theorem Reads.opt (h : p.Reads stop ls rest ps pos) : (opt p).Reads stop ls rest ps pos := by
  rw [Reads] at h ⊢
  rw [Reader.opt, h]
  rfl

theorem Reads.left (h : p.Reads stop ls rest ps pos) (q : Reader) :
    (alt p q).Reads stop ls rest ps pos := by
  rw [Reads] at h ⊢
  rw [alt, h]
  rfl

/-- The second alternative is read where the first one fails. -/
theorem Reads.right (h : q.Reads stop ls rest ps pos) (hp : p.Fails stop (ls ++ rest)) :
    (alt p q).Reads stop ls rest ps pos := by
  rw [Reads] at h ⊢
  rw [alt, show p _ = none from hp, h]
  rfl

/-! ## Parts that do not

An option whose part fails reads nothing, and a sequence fails if its second part does, whatever the
first part has read. -/

/-- An option whose part fails reads nothing. -/
theorem Fails.opt (h : p.Fails stop rest) :
    (opt p).Reads stop [] rest [] (startOf rest stop) := by
  rw [Fails] at h
  rw [Reads, List.nil_append, Reader.opt, h]
  rfl

theorem Fails.seq (h : p.Fails stop ls) (q : Reader) : (seq p q).Fails stop ls := by
  rw [Fails] at h ⊢
  rw [Reader.seq, h]
  rfl

/-- A sequence fails where its second part does, and nothing is left of the first. -/
theorem Reads.seq_fails (h : p.Reads stop ls rest ps pos) (hq : q.Fails stop rest) :
    (Reader.seq p q).Fails stop (ls ++ rest) := by
  rw [Reads] at h
  rw [Fails] at hq ⊢
  simp [Reader.seq, h, hq]

theorem Fails.rule (h : p.Fails stop ls) (r : Rule) : (rule r p).Fails stop ls := by
  rw [Fails] at h ⊢
  rw [Reader.rule, h]
  rfl

theorem Fails.alt (hp : p.Fails stop ls) (hq : q.Fails stop ls) : (alt p q).Fails stop ls := by
  rw [Fails] at hp hq ⊢
  rw [Reader.alt, hp, hq]
  rfl

theorem fails_mark (h : ∀ l ∈ ls.head?, l.token ≠ t) : (mark t).Fails stop ls := by
  cases ls with
  | nil => rfl
  | cons l ls => simp [Fails, mark, Cursor.ahead, h l rfl]

/-! ## Repetitions

A repetition is defined by recursion on a bound, which the number of tokens is enough for, since
each turn takes up one at least. -/

/-- **One more time** at the end. -/
theorem Repeats.snoc (h : Repeats stop p (ms ++ rest) ls ps) (hne : ms ≠ [])
    (hp : p.Reads stop ms rest qs pos) : Repeats stop p rest (ls ++ ms) (ps ++ qs) := by
  induction h with
  | nil =>
    have hlast : Repeats stop p rest (ms ++ []) (qs ++ []) :=
      .cons hne (by rwa [List.nil_append]) .nil
    rwa [List.append_nil, List.append_nil] at hlast
  | @cons ls' ms' ps' qs' pos' hne' h _ ih =>
    rw [List.append_assoc, List.append_assoc]
    rw [← List.append_assoc] at h
    exact .cons hne' h ih

/-- A repetition goes on for as many turns as its bound allows.  Each turn takes up a token, so the
number of tokens is enough. -/
theorem Repeats.again (h : Repeats stop p rest ls ps) (hfails : p.Fails stop rest)
    (hn : ls.length ≤ n) (pos : Nat) :
    ∃ pos', again p n ⟨pos, ls ++ rest, stop⟩ = (ps, ⟨pos', rest, stop⟩) := by
  induction h generalizing n pos with
  | nil =>
    cases n with
    | zero => exact ⟨pos, rfl⟩
    | succ n =>
      rw [Fails] at hfails
      exact ⟨pos, by simp [Reader.again, hfails]⟩
  | @cons ls ms ps qs pos₁ hne h _ ih =>
    have hpos := List.length_pos_iff.2 hne
    rw [List.length_append] at hn
    obtain ⟨n, rfl⟩ : ∃ m, n = m + 1 := ⟨n - 1, by omega⟩
    obtain ⟨pos', hrest⟩ := ih (n := n) (by omega) pos₁
    rw [Reads] at h
    exact ⟨pos', by simp [Reader.again, h, hrest]⟩

/-- **A repetition** reads as long as its part fits. -/
theorem Repeats.reads_many (h : Repeats stop p rest ls ps) (hfails : p.Fails stop rest) :
    ∃ pos, (many p).Reads stop ls rest ps pos := by
  cases h with
  | nil =>
    rw [Fails] at hfails
    refine ⟨startOf rest stop, ?_⟩
    rw [Reads, List.nil_append, many, hfails]
    rfl
  | @cons ls ms ps qs pos hne h hms =>
    obtain ⟨pos', hrest⟩ := hms.again (n := (ms ++ rest).length) hfails (by simp) pos
    rw [Reads, ← List.append_assoc] at h
    refine ⟨pos', ?_⟩
    rw [Reads, many, h]
    simp only [hrest]

end Reads

end Reader
end TypeReveal
