import TypeReveal.Proofs.Layout.Swap
import TypeReveal.Proofs.Statement.Pieces

/-!
# A file cut at one of its lines

A line of a file is what a piece of it becomes when its comments are blank.  The piece stands
between two line breaks, and another piece may take its place: if it does not break either, and
leaves a scan where the piece left it, then the lines around it are the same, but for their places
(`exists_cut`).

A line is found in two steps.  The file is scanned for comments, which are blanked, and then it is
split where a line break stands outside of brackets and strings.  Both scans go through the file
from its start, so that a change in the middle could change everything after it.  It does not if the
scan leaves the new piece in the state in which it left the old one, and this is how the pieces are
compared.

The pieces that are compared differ in a sealed text in code.  Such a text is met in code, has no
comments in it and is left in code, at the same depth.
-/

set_option autoImplicit false
namespace TypeReveal

variable {text rest p b : List Char}

/-! ## Comments in a part of a file

`Scan.clean` blanks comments from any state on, which is what a part of a file needs: it may start
in a string, a bracket or a comment.  The blanked text is again scanned from the state at its start,
with `settled` in the place of a comment. -/

namespace Scan

/-- A text with its comments blanked out, the scan going on from `scan`. -/
def clean (scan : Scan) (text : List Char) : List Char :=
  ((scan.label text).flatMap blankComment).map Prod.fst

/-- A text is blanked part by part. -/
theorem clean_append (scan : Scan) (s t : List Char) :
    scan.clean (s ++ t) = scan.clean s ++ (scan.after s).clean t := by
  rw [clean, label_append, List.flatMap_append, List.map_append]
  rfl

/-- It keeps its length. -/
theorem utf8Length_clean (scan : Scan) (text : List Char) :
    utf8Length (scan.clean text) = utf8Length text := by
  rw [clean, utf8Length_flatMap_blankComment, map_fst_label]

/-- Blanks in code lead nowhere. -/
theorem after_replicate_space (depth n : Nat) :
    Scan.after ⟨depth, .code⟩ (List.replicate n ' ') = ⟨depth, .code⟩ := by
  induction n with
  | zero => rfl
  | succ n ih => rw [List.replicate_succ, after_cons, step_plain (by decide), ih]

/-- **What a scan knows after a text** it knows after the text without comments. -/
theorem settled_after (scan : Scan) (text : List Char) :
    (scan.after text).settled = scan.settled.after (scan.clean text) := by
  induction text generalizing scan with
  | nil => rfl
  | cons c text ih =>
    have hclean : scan.clean (c :: text) =
        (blankComment (c, (scan.step c).1)).map Prod.fst ++ (scan.step c).2.clean text := by
      rw [clean, label, List.flatMap_cons, List.map_append]
      rfl
    rw [after_cons, ih, hclean, after_append]
    rcases scan.step_cases c with ⟨-, hsettled, hstep⟩ | ⟨hregion, hmode, hstep⟩
    · rw [hstep, hsettled, blankComment, List.map_replicate, after_replicate_space]
      rfl
    · have hkept : (blankComment (c, (scan.step c).1)).map Prod.fst = [c] := by
        have hone := flatMap_blankComment (List.forall_mem_singleton.2 hregion : ∀ x ∈
          [(c, (scan.step c).1)], x.2 ≠ .comment)
        rw [List.flatMap_singleton] at hone
        rw [hone]
        rfl
      rw [hkept, after_cons, after_nil, hstep, settled_of_ne hmode]

/-- In a comment there are blanks up to its end. -/
theorem clean_of_comment {scan : Scan} (hscan : scan.mode = .comment) (htext : '\n' ∉ text) :
    (scan.after text).mode = .comment ∧ ∀ c ∈ scan.clean text, c = ' ' := by
  induction text generalizing scan with
  | nil => exact ⟨hscan, fun c hc => absurd hc List.not_mem_nil⟩
  | cons c text ih =>
    obtain ⟨hc, htext⟩ := List.forall_mem_cons.1 fun d hd (hbreak : d = '\n') =>
      htext (hbreak ▸ hd)
    have hstep : scan.step c = (.comment, scan) := by
      rw [step, hscan]
      exact if_neg (by simpa using hc)
    obtain ⟨hmode, hrest⟩ := ih hscan fun hd => htext _ hd rfl
    refine ⟨by rw [after_cons, hstep]; exact hmode, fun d hd => ?_⟩
    rw [clean, label, hstep, List.flatMap_cons, List.map_append, List.mem_append] at hd
    rcases hd with hd | hd
    · rw [blankComment, List.map_replicate] at hd
      exact List.eq_of_mem_replicate hd
    · exact hrest d hd

/-- What is left are blanks and characters of the text. -/
theorem mem_clean {scan : Scan} {c : Char} (h : c ∈ scan.clean text) : c = ' ' ∨ c ∈ text := by
  obtain ⟨x, hx, rfl⟩ := List.mem_map.1 h
  obtain ⟨⟨d, region⟩, hd, hx⟩ := List.mem_flatMap.1 hx
  have hmem : d ∈ text := by
    rw [← Scan.map_fst_label scan text]
    exact List.mem_map_of_mem hd
  cases region with
  | comment => exact .inl (congrArg Prod.fst (List.eq_of_mem_replicate hx))
  | top | close | inside => exact .inr (List.mem_singleton.1 hx ▸ hmem)

/-- Only blanks are left of what stands in a comment. -/
theorem mode_ne_comment {scan : Scan} {c : Char} (hc : c ∈ scan.clean text)
    (hblank : isBlank c = false) (htext : '\n' ∉ text) : scan.mode ≠ .comment := by
  intro hcomment
  rw [(clean_of_comment hcomment htext).2 c hc] at hblank
  cases hblank

end Scan

/-- Nothing of a sealed text is blanked. -/
theorem Sealed.clean_eq {seps s : List Char} (h : Sealed seps s) (depth : Nat) :
    Scan.clean ⟨depth, .code⟩ s = s := by
  rw [Scan.clean, flatMap_blankComment (h.not_comment depth), Scan.map_fst_label]

/-! ## The first line

A line break ends the line only at depth zero and outside of strings.  The lines behind it do not
depend on what the line was, only on where it stopped. -/

/-- A text that a line does not break in. -/
def Unbroken (text : List Char) : Prop := ∀ x ∈ regions text, x.2 = .top → x.1 ≠ '\n'

/-- Behind a text comes the end of the file or a line break. -/
def Breaks (text rest : List Char) : Prop :=
  rest = [] ∨ ∃ more, rest = '\n' :: more ∧ ((Scan.after {} text).step '\n').1 = .top

/-- The lines behind one that stops at `stop`, in what follows it. -/
def laterLines (stop : Nat) : List Char → List Segment
  | [] => []
  | _ :: text => splitLines (stop + 1) (cleanRegions text)

/-- Nor does it break when comments are blanked. -/
theorem Unbroken.cleanRegions (h : Unbroken text) :
    ∀ x ∈ cleanRegions text, x.2 = .top → x.1 ≠ '\n' := by
  intro x hx htop
  obtain ⟨⟨c, region⟩, hy, hx⟩ := List.mem_flatMap.1 hx
  cases region with
  | comment =>
    obtain rfl := List.eq_of_mem_replicate hx
    cases htop
  | top | close | inside =>
    obtain rfl := List.mem_singleton.1 hx
    exact h _ hy htop

/-- **The first line** and those behind it. -/
theorem splitLines_first (n : Nat) (hp : Unbroken p) (hb : Breaks p b) :
    splitLines n (cleanRegions (p ++ b)) =
      ⟨n, clean p⟩ :: laterLines (n + utf8Length p) b := by
  rcases hb with rfl | ⟨more, rfl, htop⟩
  · rw [List.append_nil, splitLines_eq_singleton hp.cleanRegions]
    rfl
  · have hlabel : cleanRegions (p ++ '\n' :: more) =
        cleanRegions p ++ ('\n', .top) :: cleanRegions more := by
      rw [cleanRegions, regions, Scan.label_append_cons, htop, Scan.eq_of_step_break htop,
        List.flatMap_append, List.flatMap_cons]
      rfl
    have hlength : utf8Length ((cleanRegions p).map Prod.fst) = utf8Length p := utf8Length_clean p
    rw [hlabel, splitLines_append hp.cleanRegions, hlength]
    rfl

/-- The first line of any text. -/
theorem exists_first (scan : Scan) (text : List Char) : ∃ p b, text = p ++ b ∧
    (∀ x ∈ scan.label p, x.2 = .top → x.1 ≠ '\n') ∧
      (b = [] ∨ ∃ more, b = '\n' :: more ∧ ((scan.after p).step '\n').1 = .top) := by
  induction text generalizing scan with
  | nil => exact ⟨[], [], rfl, fun x hx => absurd hx List.not_mem_nil, .inl rfl⟩
  | cons c text ih =>
    by_cases hbreak : (scan.step c).1 = .top ∧ c = '\n'
    · obtain ⟨htop, rfl⟩ := hbreak
      exact ⟨[], _, rfl, fun x hx => absurd hx List.not_mem_nil, .inr ⟨text, rfl, htop⟩⟩
    · obtain ⟨p, b, rfl, hp, hb⟩ := ih (scan.step c).2
      refine ⟨c :: p, b, rfl, ?_, hb⟩
      rw [Scan.label]
      exact List.forall_mem_cons.2 ⟨fun htop hc => hbreak ⟨htop, hc⟩, hp⟩

/-- The lines behind a line start behind it. -/
theorem le_of_mem_laterLines {stop : Nat} {seg : Segment} (h : seg ∈ laterLines stop rest) :
    stop < seg.start := by
  cases rest with
  | nil => cases h
  | cons c text => exact ((laid_splitLines _ _).1.mem (List.mem_map_of_mem h)).1

/-! ## Another piece

A text in code may be exchanged for another.  Regions before it stay, it has its own, and those
behind it stay since the scan goes on as before. -/

section

variable {p₁ p₂ s t : List Char} (hscan : (Scan.after {} p₁).mode = .code) (hs : Sealed [] s)
  (ht : Sealed ['\n'] t)

include hscan

/-- The regions of a file with a sealed text in code. -/
theorem label_of_code (hs : Sealed [] s) : regions (p₁ ++ (s ++ p₂)) = regions p₁ ++
    ((Scan.after {} p₁).label s ++ (Scan.after {} p₁).label p₂) := by
  rw [regions, Scan.label_append]
  generalize Scan.after {} p₁ = scan at hscan
  obtain ⟨depth, mode⟩ := scan
  obtain rfl : mode = .code := hscan
  rw [hs.label_append]
  rfl

/-- The file without comments has the sealed text as it is. -/
theorem clean_of_code (hs : Sealed [] s) :
    clean (p₁ ++ (s ++ p₂)) = clean p₁ ++ (s ++ (Scan.after {} p₁).clean p₂) := by
  show Scan.clean {} _ = _
  rw [Scan.clean_append, Scan.clean_append]
  generalize Scan.after {} p₁ = scan at hscan
  obtain ⟨depth, mode⟩ := scan
  obtain rfl : mode = .code := hscan
  rw [hs.clean_eq, hs.after]
  rfl

/-- What a scan knows behind the text does not depend on the text. -/
theorem after_of_code (hs : Sealed [] s) (ht : Sealed [] t) :
    Scan.after {} (p₁ ++ (t ++ p₂)) = Scan.after {} (p₁ ++ (s ++ p₂)) := by
  simp only [Scan.after_append]
  generalize Scan.after {} p₁ = scan at hscan
  obtain ⟨depth, mode⟩ := scan
  obtain rfl : mode = .code := hscan
  rw [hs.after, ht.after]

include hs ht

/-- **Another text in code** does not break a piece, if it does not break itself. -/
theorem Unbroken.replace (h : Unbroken (p₁ ++ (s ++ p₂))) : Unbroken (p₁ ++ (t ++ p₂)) := by
  rw [Unbroken, label_of_code hscan hs] at h
  rw [Unbroken, label_of_code hscan (ht.mono (List.nil_subset _))]
  obtain ⟨hp₁, hrest⟩ := List.forall_mem_append.1 h
  refine List.forall_mem_append.2 ⟨hp₁, List.forall_mem_append.2
    ⟨fun x hx htop => ?_, (List.forall_mem_append.1 hrest).2⟩⟩
  generalize Scan.after {} p₁ = scan at hscan hx
  obtain ⟨depth, mode⟩ := scan
  obtain rfl : mode = .code := hscan
  cases depth with
  | zero => simpa using ht.not_sep x hx htop
  | succ depth =>
    rw [ht.not_outside depth x hx] at htop
    cases htop

end

/-! ## Any line

By induction on the lines before it every line is the first of what is left of the file. -/

/-- **A line of a file** is what a piece of it becomes, and stays a line when another piece takes
its place. -/
theorem exists_cut {n : Nat} {source : List Char} {seg : Segment}
    (h : seg ∈ splitLines n (cleanRegions source)) :
    ∃ a p b segs, source = a ++ (p ++ b) ∧ seg = ⟨n + utf8Length a, clean p⟩ ∧
      (a = [] ∨ a.getLast? = some '\n') ∧ Unbroken p ∧ Breaks p b ∧
      (∀ other ∈ segs, other.span.stop ≤ n + utf8Length a) ∧
      ∀ p', Unbroken p' → Scan.after {} p' = Scan.after {} p →
        splitLines n (cleanRegions (a ++ (p' ++ b))) =
          segs ++ ⟨n + utf8Length a, clean p'⟩ ::
            laterLines (n + utf8Length a + utf8Length p') b := by
  obtain ⟨p, b, rfl, hp, hb⟩ := exists_first {} source
  rw [splitLines_first n hp hb] at h
  rcases List.mem_cons.1 h with rfl | h
  · refine ⟨[], p, b, [], rfl, rfl, .inl rfl, hp, hb, List.forall_mem_nil _,
      fun p' hp' hafter => ?_⟩
    exact splitLines_first n hp' (by rw [Breaks, hafter]; exact hb)
  -- The line is one of the later ones: cut those, and put the first line in front again.
  · rcases hb with rfl | ⟨more, rfl, htop⟩
    · cases h
    · rw [laterLines] at h
      obtain ⟨a, q, b, segs, rfl, rfl, hlast, hq, hb, hsegs, hall⟩ := exists_cut h
      have hlength : n + utf8Length (p ++ '\n' :: a) = n + utf8Length p + 1 + utf8Length a := by
        rw [utf8Length_append, utf8Length_cons, show '\n'.utf8Size = 1 from rfl]
        omega
      refine ⟨p ++ '\n' :: a, q, b, ⟨n, clean p⟩ :: segs, by simp, by rw [hlength], ?_, hq, hb,
        ?_, fun p' hp' hafter => ?_⟩
      · rcases hlast with rfl | hlast
        · exact .inr List.getLast?_concat
        · refine .inr ?_
          rw [List.getLast?_append, List.getLast?_cons, hlast]
          rfl
      · rw [hlength]
        refine List.forall_mem_cons.2 ⟨?_, hsegs⟩
        simp only [Segment.span, utf8Length_clean]
        omega
      · have hfirst := splitLines_first n hp (b := '\n' :: (a ++ (p' ++ b))) (.inr ⟨_, rfl, htop⟩)
        rw [hlength, List.append_assoc, List.cons_append, hfirst, laterLines, hall p' hp' hafter]
        rfl
termination_by source.length
decreasing_by simp_all; omega

/-- The lines behind a line, when it is longer. -/
theorem laterLines_add (stop k : Nat) (text : List Char) :
    laterLines (stop + k) text =
      (laterLines stop text).map fun seg => ⟨seg.start + k, seg.text⟩ := by
  have hsplit (start : Nat) (u : List (Char × Region)) : splitLines (start + k) u =
      (splitLines start u).map fun seg => ⟨seg.start + k, seg.text⟩ := by
    induction u generalizing start with
    | nil => rfl
    | cons x u ih =>
      obtain ⟨c, region⟩ := x
      obtain ⟨first, segs, hfirst⟩ := exists_splitLines (start + c.utf8Size) u
      rw [splitLines, splitLines, Nat.add_right_comm, ih, hfirst]
      split <;> rfl
  cases text with
  | nil => rfl
  | cons c text =>
    rw [laterLines, laterLines, Nat.add_right_comm, hsplit]

end TypeReveal
