import Mathlib.Data.List.Induction
import TypeReveal.Proofs.Text.Class

/-!
# Trimming

A text is **sharp** if neither of its ends is blank.  Sharp texts are what trimming yields and what
it keeps: `trim_append` removes any blank characters around a sharp text and no others, and any text
that is not blank is such a text (`blank_or_exists_sharp`).  Where a sharp text stands in another,
it stands in what trimming leaves of that (`Sharp.infix_trim_iff`).

The program trims pieces at every step: a line, what stands behind a keyword, a part between commas,
a signature in a string.  Which characters are blank is decided by `isBlank`, and nothing else about
them matters here.
-/

set_option autoImplicit false
namespace TypeReveal

/-- A text with a character that is not blank at either end. -/
structure Sharp (s : List Char) : Prop where
  head : ∃ c rest, s = c :: rest ∧ isBlank c = false
  last : ∃ front c, s = front ++ [c] ∧ isBlank c = false

namespace Sharp

variable {s t : List Char}

theorem ne_nil (h : Sharp s) : s ≠ [] := by
  obtain ⟨c, rest, rfl, -⟩ := h.head
  exact List.cons_ne_nil c rest

/-- Whatever stands between two sharp texts, the whole is sharp. -/
theorem join (hs : Sharp s) (mid : List Char) (ht : Sharp t) : Sharp (s ++ (mid ++ t)) := by
  obtain ⟨c, rest, rfl, hc⟩ := hs.head
  obtain ⟨front, d, rfl, hd⟩ := ht.last
  exact ⟨⟨c, rest ++ (mid ++ (front ++ [d])), rfl, hc⟩,
    ⟨c :: rest ++ (mid ++ front), d, by simp, hd⟩⟩

theorem append (hs : Sharp s) (ht : Sharp t) : Sharp (s ++ t) := hs.join [] ht

theorem singleton {c : Char} (hc : isBlank c = false) : Sharp [c] :=
  ⟨⟨c, [], rfl, hc⟩, ⟨[], c, rfl, hc⟩⟩

/-- A text without blank characters is sharp, unless it is empty. -/
theorem of_forall (hne : s ≠ []) (h : ∀ c ∈ s, isBlank c = false) : Sharp s := by
  refine ⟨?_, s.dropLast, s.getLast hne, (List.dropLast_concat_getLast hne).symm,
    h _ (List.getLast_mem hne)⟩
  obtain ⟨c, rest, rfl⟩ := List.exists_cons_of_ne_nil hne
  exact ⟨c, rest, rfl, h c List.mem_cons_self⟩

theorem of_isName (h : isName s = true) : Sharp s := by
  obtain ⟨hne, hpart⟩ := isNamePart_of_isName h
  exact of_forall hne fun c hc => isBlank_of_isNamePart (hpart c hc)

end Sharp

variable {s u v : List Char}

theorem takeWhile_isBlank_append (hu : ∀ c ∈ u, isBlank c = true) (hs : Sharp s) :
    (u ++ s).takeWhile isBlank = u := by
  obtain ⟨c, rest, rfl, hc⟩ := hs.head
  rw [List.takeWhile_append_of_pos hu, List.takeWhile_cons_of_neg (by simp [hc]), List.append_nil]

theorem trimStart_append (hu : ∀ c ∈ u, isBlank c = true) (hs : Sharp s) (t : List Char) :
    trimStart (u ++ (s ++ t)) = s ++ t := by
  obtain ⟨c, rest, rfl, hc⟩ := hs.head
  rw [trimStart, List.dropWhile_append_of_pos hu, List.cons_append,
    List.dropWhile_cons_of_neg (by simp [hc])]

/-- What stands before a sharp text stays. -/
theorem trimEnd_append_append (u : List Char) (hs : Sharp s) (hv : ∀ c ∈ v, isBlank c = true) :
    trimEnd (u ++ (s ++ v)) = u ++ s := by
  obtain ⟨front, c, rfl, hc⟩ := hs.last
  have hv' : ∀ c ∈ v.reverse, isBlank c = true := fun c hc => hv c (List.mem_reverse.1 hc)
  rw [← List.append_assoc, trimEnd, List.reverse_append, List.dropWhile_append_of_pos hv',
    ← List.append_assoc, List.reverse_concat, List.dropWhile_cons_of_neg (by simp [hc]),
    List.reverse_cons, List.reverse_reverse]

theorem trimEnd_append (hs : Sharp s) (hv : ∀ c ∈ v, isBlank c = true) : trimEnd (s ++ v) = s :=
  trimEnd_append_append [] hs hv

/-- Nothing is left of a blank text. -/
theorem trim_eq_nil (hu : ∀ c ∈ u, isBlank c = true) : trim u = [] := by
  have hstart := @List.dropWhile_append_of_pos _ _ _ [] hu
  rw [List.append_nil, List.dropWhile_nil] at hstart
  rw [trim, trimStart, hstart]
  rfl

/-- **Trimming removes the blank characters around a sharp text.** -/
theorem trim_append (hu : ∀ c ∈ u, isBlank c = true) (hs : Sharp s)
    (hv : ∀ c ∈ v, isBlank c = true) : trim (u ++ (s ++ v)) = s := by
  rw [trim, trimStart_append hu hs, trimEnd_append hs hv]

theorem trim_append_left (hu : ∀ c ∈ u, isBlank c = true) (hs : Sharp s) : trim (u ++ s) = s := by
  simpa using trim_append (v := []) hu hs (by simp)

theorem trim_eq_self (hs : Sharp s) : trim s = s := trim_append_left (u := []) (by simp) hs

theorem trim_space_cons (hs : Sharp s) : trim (' ' :: s) = s :=
  trim_append_left (u := [' ']) (by decide) hs

theorem trim_append_space (hs : Sharp s) : trim (s ++ [' ']) = s :=
  trim_append (u := []) (by simp) hs (by decide)

/-- A text that starts with a character that is not blank has a sharp text at its start, with
nothing but blank characters after it. -/
theorem exists_sharp_of_head {c : Char} (hc : isBlank c = false) (rest : List Char) :
    ∃ mid v, c :: rest = mid ++ v ∧ Sharp mid ∧ ∀ d ∈ v, isBlank d = true := by
  induction rest using List.reverseRecOn with
  | nil => exact ⟨[c], [], rfl, .singleton hc, by simp⟩
  | append_singleton rest d ih =>
    cases hd : isBlank d with
    | false =>
      exact ⟨c :: (rest ++ [d]), [], by simp, ⟨⟨c, _, rfl, hc⟩, ⟨c :: rest, d, rfl, hd⟩⟩, by simp⟩
    | true =>
      obtain ⟨mid, v, hsplit, hmid, hv⟩ := ih
      refine ⟨mid, v ++ [d], ?_, hmid, ?_⟩
      · rw [← List.cons_append, hsplit, List.append_assoc]
      · simpa [or_imp, forall_and, hd] using hv

/-- **Every text is blank, or has a sharp text in it** with nothing but blank characters around. -/
theorem blank_or_exists_sharp (s : List Char) :
    (∀ c ∈ s, isBlank c = true) ∨ ∃ u mid v, s = u ++ (mid ++ v) ∧ (∀ c ∈ u, isBlank c = true) ∧
      Sharp mid ∧ ∀ c ∈ v, isBlank c = true := by
  induction s with
  | nil => exact .inl (by simp)
  | cons c s ih =>
    cases hc : isBlank c with
    | false =>
      obtain ⟨mid, v, hsplit, hmid, hv⟩ := exists_sharp_of_head hc s
      exact .inr ⟨[], mid, v, hsplit, by simp, hmid, hv⟩
    | true =>
      rcases ih with hall | ⟨u, mid, v, rfl, hu, hmid, hv⟩
      · exact .inl (List.forall_mem_cons.2 ⟨hc, hall⟩)
      · exact .inr ⟨c :: u, mid, v, rfl, List.forall_mem_cons.2 ⟨hc, hu⟩, hmid, hv⟩

/-- What trimming removes is blank. -/
theorem exists_trim (s : List Char) : ∃ u v, s = u ++ (trim s ++ v) ∧
    (∀ c ∈ u, isBlank c = true) ∧ ∀ c ∈ v, isBlank c = true := by
  rcases blank_or_exists_sharp s with hall | ⟨u, mid, v, rfl, hu, hmid, hv⟩
  · exact ⟨s, [], by simp [trim_eq_nil hall], hall, by simp⟩
  · exact ⟨u, v, by rw [trim_append hu hmid hv], hu, hv⟩

theorem trim_trim (s : List Char) : trim (trim s) = trim s := by
  rcases blank_or_exists_sharp s with hall | ⟨u, mid, v, rfl, hu, hmid, hv⟩
  · rw [trim_eq_nil hall]
    rfl
  · rw [trim_append hu hmid hv, trim_eq_self hmid]

/-- A text that is not blank, trimmed at its end only. -/
theorem trimEnd_eq (h : trim s ≠ []) : trimEnd s = s.takeWhile isBlank ++ trim s := by
  rcases blank_or_exists_sharp s with hall | ⟨u, mid, v, rfl, hu, hmid, hv⟩
  · exact absurd (trim_eq_nil hall) h
  · rw [trimEnd_append_append u hmid hv, trim_append hu hmid hv]
    obtain ⟨c, rest, rfl, hc⟩ := hmid.head
    rw [List.takeWhile_append_of_pos hu, List.cons_append,
      List.takeWhile_cons_of_neg (by simp [hc]), List.append_nil]

/-- What is left of a text that is not blank is sharp. -/
theorem sharp_trim (h : trim s ≠ []) : Sharp (trim s) := by
  rcases blank_or_exists_sharp s with hall | ⟨u, mid, v, rfl, hu, hmid, hv⟩
  · exact absurd (trim_eq_nil hall) h
  · rwa [trim_append hu hmid hv]

/-- **The order in which the ends are trimmed** does not matter. -/
theorem trimStart_trimEnd (s : List Char) : trimStart (trimEnd s) = trim s := by
  rcases blank_or_exists_sharp s with hall | ⟨u, mid, v, rfl, hu, hmid, hv⟩
  · have hblank : ∀ c ∈ s.reverse, isBlank c = true := fun c hc => hall c (List.mem_reverse.1 hc)
    have hend := @List.dropWhile_append_of_pos _ _ _ [] hblank
    rw [List.append_nil, List.dropWhile_nil] at hend
    rw [trimEnd, hend, trim_eq_nil hall]
    rfl
  · have hstart := trimStart_append hu hmid []
    rw [List.append_nil] at hstart
    rw [trimEnd_append_append u hmid hv, trim_append hu hmid hv, hstart]

/-! ## Finding sharp texts

An arrow, for instance, is sharp.  Whether one stands in a text is the same question before and
after trimming. -/

namespace Sharp

variable {t : List Char}

/-- A sharp text has no blank characters at its end. -/
theorem eq_nil_of_append (h : Sharp (s ++ v)) (hv : ∀ c ∈ v, isBlank c = true) : v = [] := by
  cases v using List.reverseRecOn with
  | nil => rfl
  | append_singleton v c =>
    obtain ⟨front, d, hlast, hd⟩ := h.last
    rw [← List.append_assoc] at hlast
    obtain rfl : c = d := (List.append_inj_right' hlast rfl |> List.cons.inj).1
    rw [hv c (by simp)] at hd
    cases hd

/-- A sharp text does not start in blank characters. -/
theorem infix_of_blank_append (hs : Sharp s) (hu : ∀ c ∈ u, isBlank c = true)
    (h : s <:+: u ++ t) : s <:+: t := by
  induction u with
  | nil => exact h
  | cons c u ih =>
    obtain ⟨hc, hu⟩ := List.forall_mem_cons.1 hu
    rcases List.infix_cons_iff.1 h with ⟨rest, hrest⟩ | h
    · obtain ⟨d, tail, rfl, hd⟩ := hs.head
      rw [(List.cons.inj hrest).1, hc] at hd
      cases hd
    · exact ih hu h

/-- A sharp text does not end in blank characters. -/
theorem infix_of_append_blank (hs : Sharp s) (hv : ∀ c ∈ v, isBlank c = true)
    (h : s <:+: t ++ v) : s <:+: t := by
  induction v using List.reverseRecOn with
  | nil => rwa [List.append_nil] at h
  | append_singleton v c ih =>
    obtain ⟨hv, hc⟩ := List.forall_mem_append.1 hv
    rw [← List.append_assoc, List.infix_concat_iff] at h
    rcases h with ⟨front, hfront⟩ | h
    · obtain ⟨front', d, rfl, hd⟩ := hs.last
      rw [← List.append_assoc] at hfront
      rw [(List.append_inj_right' hfront rfl |> List.cons.inj).1, hc c List.mem_cons_self] at hd
      cases hd
    · exact ih hv h

/-- **A sharp text stands in another** if it does so once that one is trimmed. -/
theorem infix_trim_iff (hs : Sharp s) : s <:+: trim t ↔ s <:+: t := by
  obtain ⟨u, v, htrim, hu, hv⟩ := exists_trim t
  constructor
  · intro h
    rw [htrim]
    exact h.trans ⟨u, v, by rw [List.append_assoc]⟩
  · intro h
    rw [htrim] at h
    exact hs.infix_of_append_blank hv (hs.infix_of_blank_append hu h)

end Sharp
end TypeReveal
