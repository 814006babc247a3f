import TypeReveal.Layout.Line
import TypeReveal.Proofs.Text.Class

/-!
# Sealed texts

Statements are taken apart at separators that are found by scanning their text anew.  What stands
between two separators must not hide one of them, nor look like one: it must be **sealed**.

* A scan that enters a sealed text in code leaves it in code, as deep in brackets as before.
* No character of it belongs to a comment, and outside of the brackets and strings in it none is one
  of some given separators.

Sealed texts are put together from characters that a scan passes over (`isPlain`), brackets and
strings.  Brackets seal whatever is in them: `Sealed.bracket` asks for no separators inside.

All of it is asked at every depth, since a text may stand in the brackets of another.  It is enough
to ask at depth zero for the separators, as a separator in brackets is none.
-/

set_option autoImplicit false
namespace TypeReveal

/-! ## Scanning on

A scan is a fold of one step, so what it does with two texts is what it does with the one and then
with the other (`label_append`).  In code a plain character changes nothing, an opening bracket goes
one deeper, and a closing bracket comes back from there.  All that a step can do is said once
(`Scan.Reads`), so that no later proof has to open the scan. -/

namespace Scan

/-- What a scan knows after a text. -/
def after (scan : Scan) (text : List Char) : Scan := text.foldl (fun scan c => (scan.step c).2) scan

/-- A scan of nothing knows what it knew. -/
@[simp] theorem after_nil (scan : Scan) : scan.after [] = scan := rfl

/-- A scan goes on after one step. -/
@[simp] theorem after_cons (scan : Scan) (c : Char) (text : List Char) :
    scan.after (c :: text) = (scan.step c).2.after text := rfl

/-- A scan of two texts is a scan of the second after the first. -/
theorem after_append (scan : Scan) (s t : List Char) :
    scan.after (s ++ t) = (scan.after s).after t :=
  List.foldl_append

/-- The labels of the second text are those after the first. -/
theorem label_append (scan : Scan) (s t : List Char) :
    scan.label (s ++ t) = scan.label s ++ (scan.after s).label t := by
  induction s generalizing scan with
  | nil => rfl
  | cons c s ih => rw [List.cons_append, label, ih, label, List.cons_append, after_cons]

end Scan

/-- A character that a scan of code passes over. -/
def isPlain (c : Char) : Bool :=
  !isOpening c && !isClosing c && c != '"' && c != '\'' && c != '#'

/-- The region of the characters in code that belong to nothing else, `depth` brackets deep. -/
def codeRegion (depth : Nat) : Region := if depth = 0 then .top else .inside

/-- The region of a bracket that closes the outermost of `depth + 1` groups. -/
def closeRegion (depth : Nat) : Region := if depth = 0 then .close else .inside

/-- A plain character leaves a scan as it was. -/
theorem Scan.step_plain {c : Char} (h : isPlain c = true) (depth : Nat) :
    Scan.step ⟨depth, .code⟩ c = (codeRegion depth, ⟨depth, .code⟩) := by
  simp only [isPlain, Bool.and_eq_true, Bool.not_eq_true', bne_iff_ne, ne_eq] at h
  obtain ⟨⟨⟨⟨hopen, hclose⟩, hdouble⟩, hsingle⟩, hhash⟩ := h
  simp [Scan.step, Scan.code, hopen, hclose, hdouble, hsingle, hhash, codeRegion]

/-- An opening bracket is one deeper. -/
theorem Scan.step_opening {c : Char} (h : isOpening c = true) (depth : Nat) :
    Scan.step ⟨depth, .code⟩ c = (.inside, ⟨depth + 1, .code⟩) := by
  simp [Scan.step, Scan.code, h]

/-- A bracket does not both open and close. -/
theorem isOpening_of_isClosing {c : Char} (h : isClosing c = true) : isOpening c = false := by
  simp only [isClosing, Bool.or_eq_true, beq_iff_eq] at h
  rcases h with (rfl | rfl) | rfl <;> rfl

/-- A closing bracket is one less deep. -/
theorem Scan.step_closing {c : Char} (h : isClosing c = true) (depth : Nat) :
    Scan.step ⟨depth + 1, .code⟩ c = (closeRegion depth, ⟨depth, .code⟩) := by
  cases depth <;> simp [Scan.step, Scan.code, h, isOpening_of_isClosing h, closeRegion]

/-- **What a scan does at a character**, by what the text before it belongs to.  In each case it
does so however deep it is in brackets. -/
inductive Scan.Reads (mode : Mode) (c : Char) : Prop
  /-- The character opens a bracket. -/
  | opening (hmode : mode = .code) (hc : isOpening c = true)
    (h : ∀ depth, step ⟨depth, mode⟩ c = (.inside, ⟨depth + 1, .code⟩))
  /-- The character closes a bracket, if there is one to close. -/
  | closing (hmode : mode = .code) (hc : isClosing c = true)
    (hzero : step ⟨0, mode⟩ c = (.top, ⟨0, .code⟩))
    (h : ∀ depth, step ⟨depth + 1, mode⟩ c = (closeRegion depth, ⟨depth, .code⟩))
  /-- The character is passed over.  A line break is, also at the end of a comment. -/
  | plain (hmode : mode = .code ∨ c = '\n')
    (h : ∀ depth, step ⟨depth, mode⟩ c = (codeRegion depth, ⟨depth, .code⟩))
  /-- The character starts a string, or belongs to one. -/
  | quoted (mode' : Mode) (hmode : mode ≠ .comment) (hmode' : mode' ≠ .comment)
    (h : ∀ depth, step ⟨depth, mode⟩ c = (.inside, ⟨depth, mode'⟩))
  /-- The character starts a comment, or belongs to one. -/
  | comment (hmode : mode = .code ∨ mode = .comment) (hc : c ≠ '\n')
    (h : ∀ depth, step ⟨depth, mode⟩ c = (.comment, ⟨depth, .comment⟩))

/-- Each character is read in one of these ways. -/
theorem Scan.reads (mode : Mode) (c : Char) : Reads mode c := by
  have hbreak : ∀ depth, code depth '\n' = (codeRegion depth, ⟨depth, .code⟩) :=
    step_plain (by decide)
  cases mode with
  | code =>
    by_cases hopening : isOpening c = true
    · exact .opening rfl hopening (step_opening hopening)
    by_cases hclosing : isClosing c = true
    · refine .closing rfl hclosing ?_ (step_closing hclosing)
      simp [step, code, hclosing, isOpening_of_isClosing hclosing]
    by_cases hplain : isPlain c = true
    · exact .plain (.inl rfl) (step_plain hplain)
    · have hmark : c = '"' ∨ c = '\'' ∨ c = '#' := by
        simp only [isPlain, hopening, hclosing, Bool.not_false, Bool.true_and, Bool.and_eq_true,
          bne_iff_ne] at hplain
        grind
      rcases hmark with rfl | rfl | rfl
      · exact .quoted (.str '"') (by simp) (by simp) fun _ => rfl
      · exact .quoted (.str '\'') (by simp) (by simp) fun _ => rfl
      · exact .comment (.inl rfl) (by decide) fun _ => rfl
  | str quote =>
    by_cases hslash : c = '\\'
    · exact .quoted (.escape quote) (by simp) (by simp) fun _ => by simp [step, hslash]
    by_cases hquote : c = quote
    · subst hquote
      exact .quoted .code (by simp) (by simp) fun _ => by simp [step, hslash]
    by_cases hend : c = '\n'
    · subst hend
      exact .plain (.inr rfl) fun depth => by simpa [step, hquote] using hbreak depth
    · exact .quoted (.str quote) (by simp) (by simp) fun _ => by simp [step, hslash, hquote, hend]
  | escape quote => exact .quoted (.str quote) (by simp) (by simp) fun _ => rfl
  | comment =>
    by_cases hend : c = '\n'
    · exact .plain (.inr hend) fun depth => by simpa [step, hend] using hbreak depth
    · exact .comment (.inr rfl) hend fun _ => by simp [step, hend]

/-- The end of an outermost group is a closing bracket, and code follows it. -/
theorem Scan.closing_of_step_close {scan : Scan} {c : Char} (h : (scan.step c).1 = .close) :
    isClosing c = true ∧ (scan.step c).2.mode = .code := by
  obtain ⟨depth, mode⟩ := scan
  cases reads mode c with
  | closing _ hc hzero hclose =>
    refine ⟨hc, ?_⟩
    cases depth <;> simp [hzero, hclose]
  | plain _ hplain =>
    rw [hplain, codeRegion] at h
    split at h <;> cases h
  | opening _ _ hstep | quoted _ _ _ hstep | comment _ _ hstep => simp [hstep] at h

/-! ## Sealed texts

The lemmas build sealed texts as the printer builds texts: the empty one, one text after another, a
plain character in front, brackets around. -/

/-- A text that does not change a scan, hides nothing after it, and has none of the characters
`seps` outside of its brackets and strings. -/
structure Sealed (seps s : List Char) : Prop where
  after : ∀ depth, Scan.after ⟨depth, .code⟩ s = ⟨depth, .code⟩
  not_comment : ∀ depth, ∀ x ∈ Scan.label ⟨depth, .code⟩ s, x.2 ≠ .comment
  not_outside : ∀ depth, ∀ x ∈ Scan.label ⟨depth + 1, .code⟩ s, x.2 = .inside
  not_sep : ∀ x ∈ Scan.label ⟨0, .code⟩ s, x.2 = .top → x.1 ∉ seps

namespace Sealed

variable {seps s t : List Char} {c : Char}

/-- The empty text is sealed. -/
theorem nil : Sealed seps [] :=
  ⟨fun _ => rfl, by simp [Scan.label], by simp [Scan.label], by simp [Scan.label]⟩

/-- A sealed text is sealed against fewer separators. -/
theorem mono {seps' : List Char} (h : Sealed seps s) (hseps : seps' ⊆ seps) : Sealed seps' s :=
  { h with not_sep := fun x hx htop hsep => h.not_sep x hx htop (hseps hsep) }

theorem label_append (h : Sealed seps s) (depth : Nat) (t : List Char) :
    Scan.label ⟨depth, .code⟩ (s ++ t) =
      Scan.label ⟨depth, .code⟩ s ++ Scan.label ⟨depth, .code⟩ t := by
  rw [Scan.label_append, h.after]

/-- Sealed texts are sealed one after the other. -/
theorem append (hs : Sealed seps s) (ht : Sealed seps t) : Sealed seps (s ++ t) where
  after depth := by rw [Scan.after_append, hs.after, ht.after]
  not_comment depth x hx := by
    rw [hs.label_append, List.mem_append] at hx
    exact hx.elim (hs.not_comment depth x) (ht.not_comment depth x)
  not_outside depth x hx := by
    rw [hs.label_append, List.mem_append] at hx
    exact hx.elim (hs.not_outside depth x) (ht.not_outside depth x)
  not_sep x hx := by
    rw [hs.label_append, List.mem_append] at hx
    exact hx.elim (hs.not_sep x) (ht.not_sep x)

/-- A plain character that is no separator is sealed. -/
theorem plain (hc : isPlain c = true) (hsep : c ∉ seps) : Sealed seps [c] := by
  refine ⟨fun depth => ?_, fun depth x hx => ?_, fun depth x hx => ?_, fun x hx _ => ?_⟩ <;>
    simp only [Scan.label, Scan.after_cons, Scan.after_nil, Scan.step_plain hc,
      List.mem_singleton] at *
  · rw [hx, codeRegion]
    split <;> simp
  · rw [hx, codeRegion, if_neg (Nat.succ_ne_zero depth)]
  · rw [hx]
    exact hsep

/-- A plain character may be put in front. -/
theorem cons (hc : isPlain c = true) (hsep : c ∉ seps) (h : Sealed seps s) :
    Sealed seps (c :: s) :=
  (plain hc hsep).append h

/-- A plain character may be taken off the front. -/
theorem tail (hc : isPlain c = true) (h : Sealed seps (c :: s)) : Sealed seps s := by
  have hlabel : ∀ depth, Scan.label ⟨depth, .code⟩ (c :: s) =
      (c, codeRegion depth) :: Scan.label ⟨depth, .code⟩ s := by
    intro depth
    rw [Scan.label, Scan.step_plain hc]
  refine ⟨fun depth => ?_, fun depth x hx => ?_, fun depth x hx => ?_, fun x hx => ?_⟩
  · have hafter := h.after depth
    rwa [Scan.after_cons, Scan.step_plain hc] at hafter
  · exact h.not_comment depth x (hlabel depth ▸ List.mem_cons_of_mem _ hx)
  · exact h.not_outside depth x (hlabel _ ▸ List.mem_cons_of_mem _ hx)
  · exact h.not_sep x (hlabel _ ▸ List.mem_cons_of_mem _ hx)

/-- A text of plain characters that are no separators is sealed. -/
theorem of_forall (h : ∀ c ∈ s, isPlain c = true ∧ c ∉ seps) : Sealed seps s := by
  induction s with
  | nil => exact nil
  | cons c s ih =>
    obtain ⟨hc, hsep⟩ := h c List.mem_cons_self
    exact cons hc hsep (ih fun d hd => h d (List.mem_cons_of_mem _ hd))

/-- The regions of a bracket with its content. -/
theorem label_bracket {o : Char} (ho : isOpening o = true) (hc : isClosing c = true)
    (h : Sealed [] s) (depth : Nat) (t : List Char) :
    Scan.label ⟨depth, .code⟩ (o :: (s ++ c :: t)) =
      (o, .inside) :: (Scan.label ⟨depth + 1, .code⟩ s ++
        (c, closeRegion depth) :: Scan.label ⟨depth, .code⟩ t) := by
  rw [Scan.label, Scan.step_opening ho, h.label_append, Scan.label, Scan.step_closing hc]

/-- **Brackets seal what is in them**, separators or not. -/
theorem bracket {o : Char} (ho : isOpening o = true) (hc : isClosing c = true)
    (h : Sealed [] s) : Sealed seps (o :: (s ++ [c])) := by
  refine ⟨fun depth => ?_, fun depth x hx => ?_, fun depth x hx => ?_, fun x hx htop => ?_⟩
  · rw [Scan.after_cons, Scan.step_opening ho, Scan.after_append, h.after, Scan.after_cons,
      Scan.step_closing hc, Scan.after_nil]
  all_goals
    rw [label_bracket ho hc h, Scan.label, List.mem_cons, List.mem_append, List.mem_singleton] at hx
    rcases hx with rfl | hx | rfl
  · simp
  · exact h.not_comment _ x hx
  · simp only [closeRegion]
    split <;> simp
  · rfl
  · exact h.not_outside _ x hx
  · rfl
  · cases htop
  · rw [h.not_outside _ x hx] at htop
    cases htop
  · cases htop

end Sealed

/-! ## Strings

In a string a scan looks for the closing quote and nothing else, with the character after a
backslash passed over.  What is escaped between two quotes never leaves the string. -/

/-- A text that a string goes on with: a scan that enters it in the string leaves it in the
string. -/
def Quotable (quote : Char) (s : List Char) : Prop :=
  ∀ depth, Scan.after ⟨depth, .str quote⟩ s = ⟨depth, .str quote⟩ ∧
    ∀ x ∈ Scan.label ⟨depth, .str quote⟩ s, x.2 = .inside

/-- A string of spelled characters goes on if the spelling of each does. -/
theorem Quotable.flatMap {quote : Char} {spell : Char → List Char} {cs : List Char}
    (h : ∀ c ∈ cs, Quotable quote (spell c)) : Quotable quote (cs.flatMap spell) := by
  intro depth
  induction cs with
  | nil => exact ⟨rfl, by simp [Scan.label]⟩
  | cons c cs ih =>
    obtain ⟨hafter, hinside⟩ := h c List.mem_cons_self depth
    obtain ⟨hafter', hinside'⟩ := ih fun d hd => h d (List.mem_cons_of_mem _ hd)
    rw [List.flatMap_cons, Scan.after_append, Scan.label_append, hafter]
    refine ⟨hafter', fun x hx => ?_⟩
    exact (List.mem_append.1 hx).elim (hinside x) (hinside' x)

/-- **A string is sealed.** -/
theorem Quotable.sealed {quote : Char} (hquote : quote = '"' ∨ quote = '\'') {s : List Char}
    (h : Quotable quote s) {seps : List Char} : Sealed seps (quote :: (s ++ [quote])) := by
  have hopen : ∀ depth, Scan.step ⟨depth, .code⟩ quote = (.inside, ⟨depth, .str quote⟩) := by
    intro depth
    rcases hquote with rfl | rfl <;> rfl
  have hclose : ∀ depth, Scan.step ⟨depth, .str quote⟩ quote = (.inside, ⟨depth, .code⟩) := by
    intro depth
    rcases hquote with rfl | rfl <;> rfl
  have hregion : ∀ depth, ∀ x ∈ Scan.label ⟨depth, .code⟩ (quote :: (s ++ [quote])),
      x.2 = .inside := by
    intro depth x hx
    obtain ⟨hafter, hinside⟩ := h depth
    rw [Scan.label, hopen, Scan.label_append, hafter, List.mem_cons, List.mem_append, Scan.label,
      hclose] at hx
    rcases hx with rfl | hx | hx
    · rfl
    · exact hinside x hx
    · rw [List.mem_singleton.1 hx]
  refine ⟨fun depth => ?_, fun depth x hx => ?_, fun depth => hregion _, fun x hx htop => ?_⟩
  · rw [Scan.after_cons, hopen, Scan.after_append, (h depth).1, Scan.after_cons, hclose,
      Scan.after_nil]
  · rw [hregion depth x hx]
    decide
  · rw [hregion 0 x hx] at htop
    cases htop

end TypeReveal
