import TypeReveal.Proofs.Layout.Separator

/-!
# Texts that are alike to a scan

What a text is taken for does not depend on how deep it stands in brackets, so that code is found
again in any part of a text (`Codes`).  Two texts that differ in nothing but a sealed piece in code
are alike (`Swap`): the separators and the ends of groups around them are found in the same places.

A scan carries two things along, how deep it is in brackets and what it is in: code, a string or a
comment.  The second is its mode, and no step lets the first decide on the second
(`Scan.mode_step`).  So a text that leaves a scan in code does so at every depth, and a text behind
it is labelled as if it stood at some other depth.

What is used of two texts that are alike are three facts, that the one takes a scan where the other
takes it (`Swap.after`), that the one has a separator outside of everything if the other has, and
that the one ends a group if the other does.  The searches of segments ask for nothing else, so each
of them has a lemma here for when it finds something and a lemma for when it does not.
-/

set_option autoImplicit false
namespace TypeReveal

/-! ## Code

What is known of the scan at a character that was found.  A character outside of everything was met
in code and at depth zero, with one exception: a line break ends a comment, and a scan that met it
may have been in the comment. -/

namespace Scan

/-- What a scan takes a text for does not depend on the number of open brackets. -/
theorem mode_step {scan scan' : Scan} (h : scan.mode = scan'.mode) (c : Char) :
    (scan.step c).2.mode = (scan'.step c).2.mode := by
  obtain ⟨depth, mode⟩ := scan
  obtain ⟨depth', mode'⟩ := scan'
  obtain rfl : mode = mode' := h
  cases reads mode c with
  | closing _ _ hzero hclose => cases depth <;> cases depth' <;> simp [hzero, hclose]
  | opening _ _ h | plain _ h | quoted _ _ _ h | comment _ _ h => rw [h, h]

theorem mode_after {scan scan' : Scan} (h : scan.mode = scan'.mode) (text : List Char) :
    (scan.after text).mode = (scan'.after text).mode := by
  induction text generalizing scan scan' with
  | nil => exact h
  | cons c text ih => exact ih (mode_step h c)

/-- The label of a character is decided by what a scan knows after the text before it. -/
theorem label_append_cons (scan : Scan) (s : List Char) (c : Char) (r : List Char) :
    scan.label (s ++ c :: r) = scan.label s ++
      (c, ((scan.after s).step c).1) :: ((scan.after s).step c).2.label r := by
  rw [label_append, label]

/-- A character outside of everything is met in code, but for line breaks. -/
theorem eq_of_step_top {scan : Scan} {c : Char} (h : (scan.step c).1 = .top) (hc : c ≠ '\n') :
    scan = ⟨0, .code⟩ := by
  obtain ⟨depth, mode⟩ := scan
  cases reads mode c with
  | closing hmode _ _ hclose =>
    subst hmode
    cases depth with
    | zero => rfl
    | succ depth =>
      rw [hclose, closeRegion] at h
      split at h <;> cases h
  | plain hmode hplain =>
    obtain rfl := hmode.resolve_right hc
    rw [hplain, codeRegion] at h
    split at h
    · next hdepth => rw [hdepth]
    · cases h
  | opening _ _ hstep | quoted _ _ _ hstep | comment _ _ hstep => simp [hstep] at h

end Scan

/-- A text that a scan leaves in code. -/
def Codes (u : List Char) : Prop := (Scan.after {} u).mode = .code

variable {u v w text : List Char} {c : Char}

/-- A text that leaves a scan in code does so from every depth. -/
theorem Codes.exists_after (h : Codes u) (depth : Nat) :
    ∃ d, Scan.after ⟨depth, .code⟩ u = ⟨d, .code⟩ := by
  have hmode : (Scan.after ⟨depth, .code⟩ u).mode = .code :=
    (@Scan.mode_after ⟨depth, .code⟩ {} rfl u).trans h
  generalize Scan.after ⟨depth, .code⟩ u = scan at hmode
  obtain ⟨d, mode⟩ := scan
  exact ⟨d, congrArg (Scan.mk d) hmode⟩

/-- Code goes on after code. -/
theorem Codes.append (hu : Codes u) (hv : Codes v) : Codes (u ++ v) := by
  obtain ⟨depth, hafter⟩ := hu.exists_after 0
  obtain ⟨depth', hafter'⟩ := hv.exists_after depth
  rw [Codes, Scan.after_append, hafter, hafter']

/-- A sealed text leaves a scan in code. -/
theorem Sealed.codes {seps : List Char} (h : Sealed seps u) : Codes u :=
  congrArg Scan.mode (h.after 0)

/-- So does a text without brackets, quotes and comments. -/
theorem codes_of_isPlain (h : ∀ c ∈ u, isPlain c = true) : Codes u :=
  (@Sealed.of_forall [] u fun c hc => ⟨h c hc, List.not_mem_nil⟩).codes

/-! ## Texts that are alike

Only the piece differs, and it is sealed on both sides, so that no separator and no bracket that
closes a group is seen in it at any depth. -/

/-- The same text but for a sealed piece in code. -/
def Swap (s t : List Char) : Prop :=
  ∃ u w w' v, s = u ++ (w ++ v) ∧ t = u ++ (w' ++ v) ∧ Codes u ∧
    Sealed [',', ':', '='] w ∧ Sealed [',', ':', '='] w'

/-- A character outside of everything. -/
def isTop (c : Char) (x : Char × Region) : Bool := x.2 = .top && x.1 == c

/-- A sealed text has none of its separators outside of everything. -/
theorem Sealed.isTop_eq_false {seps s : List Char} (h : Sealed seps s) (hc : c ∈ seps)
    (depth : Nat) :
    ∀ x ∈ Scan.label ⟨depth, .code⟩ s, isTop c x = false := by
  intro x hx
  rw [isTop, Bool.and_eq_false_iff, decide_eq_false_iff_not, beq_eq_false_iff_ne]
  cases depth with
  | zero => exact (em (x.2 = .top)).symm.imp_right fun htop heq => h.not_sep x hx htop (heq ▸ hc)
  | succ depth => exact .inl (by rw [h.not_outside depth x hx]; decide)

/-- In a group no bracket closes an outermost group before the group ends. -/
theorem Scan.depth_step_ne {scan : Scan} {c : Char} (h : scan.depth ≠ 0)
    (hclose : (scan.step c).1 ≠ .close) : (scan.step c).2.depth ≠ 0 := by
  obtain ⟨depth, mode⟩ := scan
  cases reads mode c with
  | opening _ _ hstep => simp [hstep]
  | closing _ _ _ hstep =>
    obtain ⟨depth, rfl⟩ := Nat.exists_eq_succ_of_ne_zero h
    rw [hstep, closeRegion] at hclose
    rw [hstep]
    exact fun hzero => hclose (if_pos hzero)
  | plain _ hstep | quoted _ _ _ hstep | comment _ _ hstep => simpa [hstep] using h

theorem Scan.depth_after_ne {scan : Scan} {text : List Char} (h : scan.depth ≠ 0)
    (hclose : ∀ x ∈ scan.label text, x.2 ≠ .close) : (scan.after text).depth ≠ 0 := by
  induction text generalizing scan with
  | nil => exact h
  | cons c text ih =>
    rw [label] at hclose
    obtain ⟨hc, hclose⟩ := List.forall_mem_cons.1 hclose
    exact ih (depth_step_ne h hc) hclose

namespace Swap

variable {s t : List Char} (h : Swap s t)

include h

/-- Texts that are alike leave a scan with the same knowledge. -/
theorem after (depth : Nat) :
    Scan.after ⟨depth, .code⟩ s = Scan.after ⟨depth, .code⟩ t := by
  obtain ⟨u, w, w', v, rfl, rfl, hu, hw, hw'⟩ := h
  obtain ⟨d, hd⟩ := hu.exists_after depth
  simp only [Scan.after_append, hd, hw.after, hw'.after]

/-- No separator is added. -/
theorem isTop_eq_false (hc : c ∈ [',', ':', '=']) {depth : Nat}
    (hs : ∀ x ∈ Scan.label ⟨depth, .code⟩ s, isTop c x = false) :
    ∀ x ∈ Scan.label ⟨depth, .code⟩ t, isTop c x = false := by
  obtain ⟨u, w, w', v, rfl, rfl, hu, hw, hw'⟩ := h
  obtain ⟨d, hd⟩ := hu.exists_after depth
  rw [Scan.label_append, hd, hw.label_append] at hs
  rw [Scan.label_append, hd, hw'.label_append]
  obtain ⟨hsu, hrest⟩ := List.forall_mem_append.1 hs
  exact List.forall_mem_append.2 ⟨hsu, List.forall_mem_append.2
    ⟨hw'.isTop_eq_false hc d, (List.forall_mem_append.1 hrest).2⟩⟩

/-- In a group no end of it is added. -/
theorem not_close {depth : Nat} (hs : ∀ x ∈ Scan.label ⟨depth + 1, .code⟩ s, x.2 ≠ .close) :
    ∀ x ∈ Scan.label ⟨depth + 1, .code⟩ t, x.2 ≠ .close := by
  obtain ⟨u, w, w', v, rfl, rfl, hu, hw, hw'⟩ := h
  obtain ⟨d, hd⟩ := hu.exists_after (depth + 1)
  rw [Scan.label_append] at hs
  obtain ⟨hsu, hrest⟩ := List.forall_mem_append.1 hs
  have hdepth := Scan.depth_after_ne (Nat.succ_ne_zero depth) hsu
  rw [hd] at hdepth hrest
  obtain ⟨d, rfl⟩ := Nat.exists_eq_succ_of_ne_zero hdepth
  rw [hw.label_append] at hrest
  rw [Scan.label_append, hd, hw'.label_append]
  refine List.forall_mem_append.2 ⟨hsu, List.forall_mem_append.2
    ⟨fun x hx => ?_, (List.forall_mem_append.1 hrest).2⟩⟩
  rw [hw'.not_outside d x hx]
  decide

end Swap

/-! ## Places of separators

A comma or a colon counts wherever it stands outside of everything, but an equals sign counts only
if the characters around it do not make it a comparison.  So the search for commas and colons is
`List.findIdx?` of a test of the character alone (`indexIn?_eq_findIdx?`), where the search for an
equals sign is only known to find a character that the test holds for. -/

/-- What is found at the end of a list is found there behind any list that has none of it. -/
theorem findIdx?_append_cons_of_eq {α : Type} {p : α → Bool} {l m : List α} {a : α}
    (h : (l ++ a :: m).findIdx? p = some l.length) (l' m' : List α)
    (hl' : ∀ b ∈ l', p b = false) : (l' ++ a :: m').findIdx? p = some l'.length := by
  obtain ⟨hlt, ha, -⟩ := List.findIdx?_eq_some_iff_getElem.1 h
  have ha' : p a = true := by simpa using ha
  rw [List.findIdx?_append, List.findIdx?_eq_none_iff.2 hl', List.findIdx?_cons, ha']
  simp

/-- In front of what is found there is none of it. -/
theorem forall_of_findIdx? {α : Type} {p : α → Bool} {l m : List α} {a : α}
    (h : (l ++ a :: m).findIdx? p = some l.length) : ∀ b ∈ l, p b = false := by
  intro b hb
  obtain ⟨i, hi, rfl⟩ := List.getElem_of_mem hb
  obtain ⟨hlt, ha, hbefore⟩ := List.findIdx?_eq_some_iff_getElem.1 h
  have hnot := hbefore i hi
  rw [List.getElem_append_left hi] at hnot
  exact Bool.eq_false_iff.2 hnot

namespace Segment

/-- Whether a comma is a separator is up to the character alone. -/
theorem comma_exact (before : Option Char) (d : Char) (after : Option Char) :
    comma before d after = (d == ',') := rfl

/-- Whether a colon is one is up to the character alone, too. -/
theorem colon_exact (before : Option Char) (d : Char) (after : Option Char) :
    colon before d after = (d == ':') := rfl

/-- A comma or a colon is a separator wherever it stands outside of everything. -/
theorem indexIn?_eq_findIdx? {sep : Separator}
    (hsep : ∀ before d after, sep before d after = (d == c))
    (before : Option Char) (u : List (Char × Region)) :
    indexIn? sep before u = u.findIdx? (isTop c) := by
  induction u generalizing before with
  | nil => rfl
  | cons x u ih =>
    obtain ⟨d, region⟩ := x
    rw [indexIn?, hsep, List.findIdx?_cons, ih]
    rfl

variable {seg seg' : Segment} {sep : Separator} {s t r r' : List Char} {d : Char}

/-- The place of a separator in a segment is the place of the first such character outside of
everything. -/
theorem index?_eq_findIdx? (hsep : ∀ before d after, sep before d after = (d == c))
    (seg : Segment) :
    seg.index? sep = (regions seg.text).findIdx? (isTop c) :=
  indexIn?_eq_findIdx? hsep none _

/-- A separator is found in code. -/
theorem after_take_of_index? (hmark : IsMark sep c) (hc : c ≠ '\n') {n : Nat}
    (h : seg.index? sep = some n) : Scan.after {} (seg.text.take n) = ⟨0, .code⟩ := by
  obtain ⟨front, d, rest, before?, after?, hsplit, rfl, hd⟩ := exists_of_indexIn? h
  have htext : seg.text = front.map Prod.fst ++ d :: rest.map Prod.fst := by
    have hmap := congrArg (List.map Prod.fst) hsplit
    simpa [regions] using hmap
  have htake : seg.text.take front.length = front.map Prod.fst := by
    rw [htext, List.take_left' (List.length_map _)]
  rw [htake]
  rw [regions, htext, Scan.label_append] at hsplit
  obtain ⟨-, hrest⟩ := List.append_inj hsplit (by simp)
  refine Scan.eq_of_step_top (c := d) (congrArg Prod.snd (List.cons.inj hrest).1) ?_
  rw [hmark _ _ _ hd]
  exact hc

section

variable (hsep : ∀ before d after, sep before d after = (d == c))

include hsep

/-- What follows a separator does not matter to its place. -/
theorem index?_of_behind (h : seg.index? sep = some s.length) (htext : seg.text = s ++ d :: r)
    (htext' : seg'.text = s ++ d :: r') : seg'.index? sep = some s.length := by
  rw [index?_eq_findIdx? hsep, regions, htext, Scan.label_append_cons] at h
  rw [index?_eq_findIdx? hsep, regions, htext', Scan.label_append_cons]
  rw [← Scan.length_label {} s] at h ⊢
  exact findIdx?_append_cons_of_eq h _ _ (forall_of_findIdx? h)

/-- **The first separator behind texts that are alike.** -/
theorem index?_of_swap (hst : Swap s t) (hc : c ∈ [',', ':', '='])
    (h : seg.index? sep = some s.length)
    (htext : seg.text = s ++ d :: r) (htext' : seg'.text = t ++ d :: r) :
    seg'.index? sep = some t.length := by
  rw [index?_eq_findIdx? hsep, regions, htext, Scan.label_append_cons,
    ← Scan.length_label {} s] at h
  rw [index?_eq_findIdx? hsep, regions, htext', Scan.label_append_cons, ← Scan.length_label {} t,
    ← hst.after]
  exact findIdx?_append_cons_of_eq h _ _ (hst.isTop_eq_false hc (forall_of_findIdx? h))

/-- Where one of two alike texts has no separator, the other has none. -/
theorem index?_eq_none_of_swap (hst : Swap seg.text seg'.text) (hc : c ∈ [',', ':', '='])
    (h : seg.index? sep = none) : seg'.index? sep = none := by
  rw [index?_eq_findIdx? hsep, List.findIdx?_eq_none_iff] at h ⊢
  exact hst.isTop_eq_false hc h

end

/-! ## The end of a group

A group starts with its bracket, so the scan that looks for its end is one deep from the first
character on.  The text that is alike to another stands behind that bracket. -/

/-- What follows the end of a group does not matter to its place. -/
theorem closing?_of_behind (h : seg.closing? = some s.length) (htext : seg.text = s ++ d :: r)
    (htext' : seg'.text = s ++ d :: r') : seg'.closing? = some s.length := by
  rw [closing?, regions, htext, Scan.label_append_cons, ← Scan.length_label {} s] at h
  rw [closing?, regions, htext', Scan.label_append_cons, ← Scan.length_label {} s]
  exact findIdx?_append_cons_of_eq h _ _ (forall_of_findIdx? h)

/-- **The end of a group around texts that are alike.** -/
theorem closing?_of_swap (hst : Swap s t) {o : Char} (ho : isOpening o = true)
    (h : seg.closing? = some (s.length + 1)) (htext : seg.text = o :: (s ++ d :: r))
    (htext' : seg'.text = o :: (t ++ d :: r)) : seg'.closing? = some (t.length + 1) := by
  have hlabel (text : List Char) : Scan.label {} (o :: (text ++ d :: r)) =
      ((o, .inside) :: Scan.label ⟨1, .code⟩ text) ++
        (d, ((Scan.after ⟨1, .code⟩ text).step d).1) ::
          ((Scan.after ⟨1, .code⟩ text).step d).2.label r := by
    rw [Scan.label, Scan.step_opening ho, Scan.label_append_cons, List.cons_append]
  have hlength (text : List Char) : text.length + 1 =
      ((o, Region.inside) :: Scan.label ⟨1, .code⟩ text).length := by simp
  rw [closing?, regions, htext, hlabel, hlength] at h
  rw [closing?, regions, htext', hlabel, hlength, ← hst.after]
  refine findIdx?_append_cons_of_eq h _ _ ?_
  obtain ⟨ho, hs⟩ := List.forall_mem_cons.1 (forall_of_findIdx? h)
  refine List.forall_mem_cons.2 ⟨ho, fun x hx => decide_eq_false ?_⟩
  exact hst.not_close (fun y hy => of_decide_eq_false (hs y hy)) x hx

/-- A group ends with a closing bracket, and code follows it. -/
theorem closing_of_closing? (h : seg.closing? = some s.length) (htext : seg.text = s ++ d :: r) :
    isClosing d = true ∧ Codes (s ++ [d]) := by
  obtain ⟨hn, hclose, -⟩ := List.findIdx?_eq_some_iff_getElem.1 h
  have hget : (regions seg.text)[s.length]? = some (d, ((Scan.after {} s).step d).1) := by
    rw [regions, htext, Scan.label_append_cons, List.getElem?_append_right (by simp)]
    simp
  rw [List.getElem?_eq_getElem hn] at hget
  rw [Option.some_inj.1 hget] at hclose
  obtain ⟨hclosing, hmode⟩ := Scan.closing_of_step_close (of_decide_eq_true hclose)
  refine ⟨hclosing, ?_⟩
  rw [Codes, Scan.after_append]
  exact hmode

/-- A group takes up text. -/
theorem closing?_ne_zero {o : Char} (ho : isOpening o = true) (htext : seg.text = o :: r) :
    seg.closing? ≠ some 0 := by
  intro h
  obtain ⟨hn, hclose, -⟩ := List.findIdx?_eq_some_iff_getElem.1 h
  simp only [regions, htext, Scan.label, Scan.step_opening ho, List.getElem_cons_zero] at hclose
  cases hclose

end Segment
end TypeReveal
