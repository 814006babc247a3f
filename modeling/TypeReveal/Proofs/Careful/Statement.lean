import TypeReveal.Careful.Statement
import TypeReveal.Proofs.Careful.Lowering
import TypeReveal.Proofs.Statement.Readers
import TypeReveal.Proofs.Text.Search
import TypeReveal.Proofs.Text.Trim

/-!
# Statements are cut in range

Places in bytes are the places of characters that the readers of statements find, so each careful
reader agrees with the one without care.  Two cuts are between places that are found apart from each
other, and so may be the wrong way around: the annotation of a parameter, from its colon to its
equals sign (`Fault.CrossesParam`), and the base classes of a class, from the first opening
parenthesis to the last closing one (`Fault.CrossesBases`).

A careful reader works as the program does, with places in bytes, and a cut that is out of range or
inside a character is a fault.  It agrees with a reader if it ends in the same way, or with a fault
that is known (`Agrees`).  Cuts at a place that a search has found are in range, and right behind it
too if what stands there is one byte long, as all separators and brackets are.

In both of the known faults the code takes a first place for what comes first.  A parameter such as
`a = b : c` has its equals sign before its colon, and a class header may have a closing parenthesis
in front of every opening one.
-/

set_option autoImplicit false
namespace TypeReveal

variable {known : Fault → Prop} {seg rest line head group : Segment} {m n : Nat}

/-! ## Places

The place of a character in bytes is monotone in its number, so places that are found in order are
cut in order. -/

/-- Later characters start no earlier. -/
theorem Segment.offset_mono (seg : Segment) (h : m ≤ n) : seg.offset m ≤ seg.offset n :=
  utf8Length_le (List.take_prefix_take_left h)

/-- Each character takes up a byte at least. -/
theorem Segment.offset_lt (h : m < n) (hm : m < seg.text.length) : seg.offset m < seg.offset n := by
  have hsucc : seg.offset m < seg.offset (m + 1) := by
    have hpos := seg.text[m].utf8Size_pos
    rw [offset, offset, List.take_succ_eq_append_getElem hm, utf8Length_append, utf8Length_cons]
    omega
  exact Nat.lt_of_lt_of_le hsucc (seg.offset_mono h)

theorem Segment.offset_length (seg : Segment) :
    seg.offset seg.text.length = utf8Length seg.text := by
  rw [offset, List.take_length]

namespace Careful

/-- Which of two separators comes first is the same for bytes as for characters. -/
theorem first?_map_offset (seg : Segment) (m? n? : Option Nat) :
    first? (m?.map seg.offset) (n?.map seg.offset) = (first? m? n?).map seg.offset := by
  cases m? with
  | none => rfl
  | some m =>
    cases n? with
    | none => rfl
    | some n =>
      refine congrArg some ?_
      rcases Nat.le_total m n with h | h
      · rw [Nat.min_eq_left h, Nat.min_eq_left (seg.offset_mono h)]
      · rw [Nat.min_eq_right h, Nat.min_eq_right (seg.offset_mono h)]

theorem getD_map_offset (seg : Segment) (n? : Option Nat) :
    (n?.map seg.offset).getD (utf8Length seg.text) = seg.offset (n?.getD seg.text.length) := by
  cases n? with
  | none => exact seg.offset_length.symm
  | some n => rfl

/-- **What stands behind a character of one byte** can be cut off. -/
theorem after_succ {c : Char} (h : seg.text[n]? = some c) (hc : c.utf8Size = 1) :
    after seg (seg.offset n + 1) = .ok (seg.drop (n + 1)) := by
  rw [← offset_succ h hc, after_offset]

/-- **What stands between a character of one byte and a place behind it** can be cut out. -/
theorem cut_succ {c : Char} (h : seg.text[m]? = some c) (hc : c.utf8Size = 1) (hlt : m < n) :
    cut seg (seg.offset m + 1) (seg.offset n) = .ok (seg.slice (m + 1) n) := by
  rw [← offset_succ h hc, cut_offset seg hlt]

/-- The first colon is found at its place in bytes. -/
theorem index?_colon (seg : Segment) :
    index? seg colon = .ok ((seg.index? Segment.colon).map seg.offset) :=
  index?_eq colon_finds seg

/-- The first equals sign is found at its place in bytes. -/
theorem index?_equals (seg : Segment) :
    index? seg equals = .ok ((seg.index? Segment.equals).map seg.offset) :=
  index?_eq equals_finds seg

end Careful

open Careful (ok_bind map_ok pure_eq_ok upTo_offset after_offset trim_eq afterKeyword?_eq parts_eq
  index?_colon index?_equals after_succ cut_succ)

open Segment (getElem?_of_colon getElem?_of_equals)

/-! ## Simple statements

Every cut is behind a keyword, at a separator or behind one, and whatever the statement turns out to
be nothing else is cut. -/

/-- The word in the middle of an import is found as a text, and what stands behind it is cut off at
its end. -/
theorem readFrom_agrees (seg rest : Segment) :
    Agrees known (Careful.readFrom seg.span rest) (readFrom seg.span rest) := by
  rw [Careful.readFrom, readFrom, splitAt?]
  cases h : indexOf? " import ".toList rest.text with
  | none => exact malformed_agrees .importStatement seg
  | some n =>
    obtain ⟨before, after, hsplit, rfl⟩ := exists_of_indexOf? h
    simp only [Option.map_some, upTo_offset, ok_bind, ← Careful.offset_append hsplit, after_offset,
      trim_eq]
    exact .ok _

/-- An annotation and a value are cut out behind their separators; here it is known which of the two
comes first. -/
theorem readBinding_agrees (seg : Segment) :
    Agrees known
      (Careful.readBinding seg ((seg.index? Segment.colon).map seg.offset)
        ((seg.index? Segment.equals).map seg.offset))
      (readBinding seg (seg.index? Segment.colon) (seg.index? Segment.equals)) := by
  cases hc : seg.index? Segment.colon with
  | none =>
    cases ha : seg.index? Segment.equals with
    | none => exact .ok _
    | some a =>
      simp only [Option.map_none, Option.map_some, Careful.readBinding, readBinding,
        after_succ (getElem?_of_equals ha) rfl, ok_bind]
      exact (expr_agrees _).bind fun value _ => .ok _
  | some c =>
    cases ha : seg.index? Segment.equals with
    | none =>
      simp only [Option.map_none, Option.map_some, Careful.readBinding, readBinding,
        after_succ (getElem?_of_colon hc) rfl, ok_bind]
      exact (expr_agrees _).bind fun annotation _ => .ok _
    | some a =>
      simp only [Option.map_some, Careful.readBinding, readBinding,
        after_succ (getElem?_of_equals ha) rfl, ok_bind]
      rcases Nat.lt_or_ge c a with hlt | hge
      · rw [if_pos hlt, if_pos (Segment.offset_lt hlt (Segment.lt_of_index? hc)),
          cut_succ (getElem?_of_colon hc) rfl hlt, ok_bind]
        exact (expr_agrees _).bind fun annotation _ => (expr_agrees _).bind fun value _ => .ok _
      · rw [if_neg (Nat.not_lt.2 hge), if_neg (Nat.not_lt.2 (seg.offset_mono hge))]
        exact (expr_agrees _).bind fun value _ => .ok _

theorem boundName?_eq (seg : Segment) :
    Careful.boundName? seg
        ((first? (seg.index? Segment.colon) (seg.index? Segment.equals)).map seg.offset) =
      .ok (boundName? seg) := by
  rw [boundName?]
  cases first? (seg.index? Segment.colon) (seg.index? Segment.equals) with
  | none => rfl
  | some stop =>
    simp only [Option.map_some, Careful.boundName?, upTo_offset, trim_eq, ok_bind, Segment.trim,
      Segment.take]
    by_cases hname : isName (trim (seg.text.take stop)) = true
    · simp [hname]
    · simp [hname]

/-- A line without a keyword: what it binds and what it binds it to are cut out at the same two
places. -/
theorem readPlain_agrees (seg : Segment) :
    Agrees known (Careful.readPlain seg) (readPlain seg) := by
  rw [Careful.readPlain, readPlain]
  simp only [index?_colon, index?_equals, ok_bind, Careful.first?_map_offset, boundName?_eq]
  cases boundName? seg with
  | some name => exact (readBinding_agrees seg).bind fun bound _ => .ok _
  | none => exact (expr_agrees seg).bind fun value _ => .ok _

theorem readResult_agrees (span : Span) (rest : Segment) :
    Agrees known (Careful.readResult span rest) (readResult span rest) := by
  rw [Careful.readResult, readResult]
  split
  · exact .ok _
  · exact (expr_agrees rest).bind fun value _ => .ok _

/-- **A statement without a block** is read without a fault. -/
theorem readSimple_agrees (seg : Segment) :
    Agrees known (Careful.readSimple seg) (Stmt.readSimple seg) := by
  simp only [Careful.readSimple, Stmt.readSimple, afterKeyword?_eq, ok_bind]
  split
  · exact .ok _
  · cases seg.afterKeyword? "return" with
    | some rest => exact readResult_agrees seg.span rest
    | none =>
      cases seg.afterKeyword? "import" with
      | some rest =>
        simp only [parts_eq, ok_bind]
        exact .ok _
      | none =>
        cases seg.afterKeyword? "from" with
        | some rest => exact readFrom_agrees seg rest
        | none => exact readPlain_agrees seg

/-! ## Brackets

The search for the end of a group yields the place of a bracket, which is one byte long. -/

/-- Only closing brackets close a group. -/
theorem Scan.isClosing_of_mem_label {scan : Scan} {text : List Char} :
    ∀ x ∈ scan.label text, x.2 = .close → isClosing x.1 = true := by
  induction text generalizing scan with
  | nil =>
    intro x hx
    cases hx
  | cons c text ih =>
    intro x hx hclose
    rcases List.mem_cons.1 hx with rfl | hx
    · exact (closing_of_step_close hclose).1
    · exact ih x hx hclose

/-- **The bracket that closes a group** stands where it is found. -/
theorem Segment.exists_of_closing? (h : seg.closing? = some n) :
    ∃ c, seg.text[n]? = some c ∧ isClosing c = true := by
  obtain ⟨hn, hclose, -⟩ := List.findIdx?_eq_some_iff_getElem.1 h
  have hmap : (regions seg.text).map Prod.fst = seg.text := Scan.map_fst_label {} seg.text
  have hchar : ((regions seg.text).map Prod.fst)[n]? = some (regions seg.text)[n].1 := by
    rw [List.getElem?_map, List.getElem?_eq_getElem hn]
    rfl
  rw [hmap] at hchar
  exact ⟨_, hchar, Scan.isClosing_of_mem_label _ (List.getElem_mem hn) (of_decide_eq_true hclose)⟩

/-- Closing brackets are one byte long. -/
theorem utf8Size_of_isClosing {c : Char} (h : isClosing c = true) : c.utf8Size = 1 := by
  simp only [isClosing, Bool.or_eq_true, beq_iff_eq] at h
  rcases h with (rfl | rfl) | rfl <;> rfl

/-! ## Parameters

Up to three pieces of a parameter are cut out: the name up to the first separator, the annotation
behind the colon, and the default behind the equals sign.  Only the annotation lies between two
places. -/

/-- **The first known fault**: the annotation of a parameter cannot be cut out because the equals
sign before its default comes before the colon before its annotation.  The cut would start behind
where it ends. -/
def Fault.CrossesParam (f : Fault) (named : Segment) : Prop :=
  ∃ c a, named.index? Segment.colon = some c ∧ named.index? Segment.equals = some a ∧ a < c ∧
    isName (trim (named.text.take a)) = true ∧
    f = .slice named (named.offset c + 1) (named.offset a)

theorem defaultAt_eq (ha : seg.index? Segment.equals = some n) :
    Careful.defaultAt seg (seg.offset n) = Careful.expr (seg.drop (n + 1)) := by
  rw [Careful.defaultAt, after_succ (getElem?_of_equals ha) rfl, ok_bind]

/-- **An annotation with nothing after it** can be cut out. -/
theorem annotationAt_none (hc : seg.index? Segment.colon = some m) :
    Careful.annotationAt seg none (seg.offset m) = Careful.expr (seg.drop (m + 1)) := by
  have hafter := after_succ (getElem?_of_colon hc) rfl
  rw [Careful.after] at hafter
  rw [Careful.annotationAt, Option.getD_none, hafter, ok_bind]

/-- **An annotation before a default** can be cut out. -/
theorem annotationAt_some (hc : seg.index? Segment.colon = some m) (h : m < n) :
    Careful.annotationAt seg (some (seg.offset n)) (seg.offset m) =
      Careful.expr (seg.slice (m + 1) n) := by
  rw [Careful.annotationAt, Option.getD_some, cut_succ (getElem?_of_colon hc) rfl h, ok_bind]

/-- **An annotation behind a default** cannot be cut out. -/
theorem annotationAt_crossed (h : n < m) :
    Careful.annotationAt seg (some (seg.offset n)) (seg.offset m) =
      .error (.fault (.slice seg (seg.offset m + 1) (seg.offset n))) := by
  have hlt : ¬ seg.offset m + 1 ≤ seg.offset n := by
    have := seg.offset_mono (Nat.le_of_lt h)
    omega
  rw [Careful.annotationAt, Option.getD_some, Careful.cut, if_neg hlt]
  rfl

/-- **A parameter** is read without a fault, unless its separators are crossed. -/
theorem readNamedParam_agrees (seg : Segment) (hknown : ∀ f : Fault, f.CrossesParam seg → known f) :
    Agrees known (Careful.readNamedParam seg) (readNamedParam seg) := by
  have htext (n : Nat) : trim (seg.text.take n) = (seg.take n).trim.text := rfl
  rw [Careful.readNamedParam, readNamedParam]
  simp only [index?_colon, index?_equals, ok_bind, Careful.first?_map_offset,
    Careful.getD_map_offset, upTo_offset, trim_eq, htext]
  split
  · exact malformed_agrees .parameter seg
  · next hname =>
    cases hc : seg.index? Segment.colon with
    | none =>
      cases ha : seg.index? Segment.equals with
      | none => exact .ok _
      | some a =>
        simp only [Option.map_none, Option.map_some, Option.mapM_none, Option.mapM_some,
          defaultAt_eq ha, pure_bind, bind_map_left]
        exact (expr_agrees _).bind fun default _ => .ok _
    | some c =>
      cases ha : seg.index? Segment.equals with
      | none =>
        simp only [Option.map_none, Option.map_some, Option.mapM_none, Option.mapM_some,
          annotationAt_none hc, pure_bind, bind_map_left]
        exact (expr_agrees _).bind fun annotation _ => .ok _
      | some a =>
        simp only [Option.map_some, Option.mapM_some, defaultAt_eq ha, bind_map_left]
        rcases Nat.lt_trichotomy c a with hlt | rfl | hlt
        · rw [if_neg (Nat.lt_asymm hlt), annotationAt_some hc hlt]
          exact (expr_agrees _).bind fun annotation _ => (expr_agrees _).bind fun default _ => .ok _
        · -- One character is not both separators.
          have hboth := (getElem?_of_colon hc).symm.trans (getElem?_of_equals ha)
          exact absurd hboth (by decide)
        -- The equals sign comes first: the slice of the annotation would end before it starts.
        · rw [if_pos hlt, annotationAt_crossed hlt]
          rw [hc, ha] at hname
          have hvalid : isName (seg.take a).trim.text = true := by
            simpa [first?, Nat.min_eq_right (Nat.le_of_lt hlt)] using hname
          exact .fault (hknown _ ⟨c, a, hc, ha, hlt, hvalid, rfl⟩) _ _

/-- **The stars of a parameter** can be cut off. -/
theorem minus_stars (seg : Segment) :
    Careful.minus (utf8Length seg.text) (utf8Length (seg.text.dropWhile (· == '*'))) =
      .ok (seg.offset (seg.text.takeWhile (· == '*')).length) := by
  have hsplit := List.takeWhile_append_dropWhile (p := (· == '*')) (l := seg.text)
  have hlength := utf8Length_append (seg.text.takeWhile (· == '*')) (seg.text.dropWhile (· == '*'))
  have htake : seg.text.take (seg.text.takeWhile (· == '*')).length =
      seg.text.takeWhile (· == '*') := (List.prefix_iff_eq_take.1 (List.takeWhile_prefix _)).symm
  rw [hsplit] at hlength
  rw [Careful.minus_of_le (by omega), Segment.offset, htake, hlength, Nat.add_sub_cancel]

/-- **A part of a parameter list** is read without a fault, unless it is a parameter whose
separators are crossed. -/
theorem readParam?_agrees (seg : Segment)
    (hknown : ∀ f : Fault, seg.text ≠ ['*'] → seg.text ≠ ['/'] →
      f.CrossesParam (seg.drop (seg.text.takeWhile (· == '*')).length) → known f) :
    Agrees known (Careful.readParam? seg) (readParam? seg) := by
  rw [Careful.readParam?, readParam?]
  split
  · exact .ok none
  · next hmark =>
    rw [Bool.or_eq_true, decide_eq_true_eq, decide_eq_true_eq, not_or] at hmark
    simp only [minus_stars, ok_bind, after_offset]
    exact (readNamedParam_agrees _ fun f => hknown f hmark.1 hmark.2).map some

/-! ## Functions

The name ends at the first opening parenthesis, and the list of parameters at the bracket that
closes the group there.  Both are found, so that they are in order. -/

/-- A header is cut at its colon and behind it. -/
theorem splitHeader_agrees (seg : Segment) (what : Construct) :
    Agrees known (Careful.splitHeader seg what) (splitHeader seg what) := by
  rw [Careful.splitHeader, splitHeader, index?_colon, ok_bind]
  cases hc : seg.index? Segment.colon with
  | none => exact malformed_agrees what seg
  | some c =>
    simp only [Option.map_some, upTo_offset, trim_eq, after_succ (getElem?_of_colon hc) rfl,
      ok_bind]
    exact .ok _

/-- The arrow of a result takes up two bytes. -/
theorem readResultType_agrees (line head : Segment) :
    Agrees known (Careful.readResultType line head) (readResultType line head) := by
  rw [Careful.readResultType, readResultType]
  split
  · next harrow =>
    obtain ⟨rest, hrest⟩ := List.isPrefixOf_iff_prefix.1 harrow
    have hsplit : head.text = [] ++ (['-', '>'] ++ rest) := hrest.symm
    have hoffset := Careful.offset_append hsplit
    have hafter := after_offset head 2
    rw [show head.offset 2 = 2 from hoffset] at hafter
    rw [hafter, ok_bind]
    exact (expr_agrees _).map some
  · split
    · exact .ok none
    · exact malformed_agrees .functionDefinition line

/-- **The fault of a function**: that of a parameter in its list. -/
def Fault.InParams (f : Fault) (params : Segment) : Prop :=
  ∃ part ∈ params.parts, part.text ≠ ['*'] ∧ part.text ≠ ['/'] ∧
    f.CrossesParam (part.drop (part.text.takeWhile (· == '*')).length)

theorem readParams_agrees (params : Segment)
    (hknown : ∀ f : Fault, f.InParams params → known f) :
    Agrees known (Careful.readParams params) (readParams params) := by
  rw [Careful.readParams, readParams, parts_eq, ok_bind]
  refine (Agrees.mapM fun part hpart => readParam?_agrees part ?_).bind fun ps _ => .ok _
  exact fun f hstar hslash hf => hknown f ⟨part, hpart, hstar, hslash, hf⟩

/-- **A group in parentheses** can be cut into what stands in it and what stands behind it. -/
theorem cut_group (hopen : group.text[0]? = some '(') (hclose : group.closing? = some n) :
    Careful.cut group 1 (group.offset n) = .ok (group.slice 1 n) ∧
      Careful.after group (group.offset n + 1) = .ok (group.drop (n + 1)) := by
  obtain ⟨c, hc, hclosing⟩ := Segment.exists_of_closing? hclose
  have hpos : 0 < n := by
    refine Nat.pos_of_ne_zero fun hzero => ?_
    rw [hzero, hopen] at hc
    cases hc
    cases hclosing
  exact ⟨cut_succ hopen rfl hpos, after_succ hc (utf8Size_of_isClosing hclosing)⟩

/-- **The header of a function** is read without a fault, unless the fault is that of a parameter.
The group of parameters starts at a parenthesis and ends at the bracket that closes it. -/
theorem readFunction_agrees (line rest : Segment)
    (hknown : ∀ n close, rest.text.findIdx? (· == '(') = some n →
      (rest.drop n).closing? = some close → ∀ f : Fault,
        f.InParams ((rest.drop n).slice 1 close) → known f) :
    Agrees known (Careful.readFunction line rest) (readFunction line rest) := by
  have htext (n : Nat) : trim (rest.text.take n) = (rest.take n).trim.text := rfl
  rw [Careful.readFunction, readFunction]
  cases hopen : rest.text.findIdx? (· == '(') with
  | none => exact malformed_agrees .functionDefinition line
  | some n =>
    have hfirst : (rest.drop n).text[0]? = some '(' := by
      rw [Segment.drop, List.getElem?_drop, Nat.add_zero]
      exact getElem?_of_findIdx? hopen
    simp only [Option.map_some, upTo_offset, after_offset, trim_eq, ok_bind, htext,
      Careful.closing?]
    cases hname : isName (rest.take n).trim.text with
    | false => exact malformed_agrees .functionDefinition line
    | true =>
      cases hclose : (rest.drop n).closing? with
      | none => exact malformed_agrees .functionDefinition line
      | some close =>
        obtain ⟨hparams, hsignature⟩ := cut_group hfirst hclose
        simp only [Option.map_some, hparams, hsignature, ok_bind, Bool.not_true,
          Bool.false_eq_true, if_false]
        refine (splitHeader_agrees _ _).bind fun parts _ => ?_
        refine (readResultType_agrees _ _).bind fun result? _ => ?_
        exact (readParams_agrees _ (hknown n close hopen hclose)).bind fun params _ => .ok _

/-! ## Classes

The base classes are not cut out as a group.  Their end is the last closing parenthesis of the
header, which need not close the first opening one. -/

/-- **The second known fault**: the base classes of a class cannot be cut out because the last
closing parenthesis comes before the first opening one. -/
def Fault.CrossesBases (f : Fault) (head : Segment) : Prop :=
  ∃ n m, head.text.findIdx? (· == '(') = some n ∧ lastIndexOf? ')' head.text = some m ∧ m < n ∧
    f = .slice head (head.offset n + 1) (head.offset m)

/-- **Base classes** are cut out without a fault, unless the parentheses around them are crossed. -/
theorem readBases_agrees (line head : Segment) (hopen : head.text.findIdx? (· == '(') = some n)
    (hknown : ∀ f : Fault, f.CrossesBases head → known f) :
    Agrees known (Careful.readBases line head (head.offset n)) (readBases line head n) := by
  rw [Careful.readBases, readBases]
  cases hclose : lastIndexOf? ')' head.text with
  | none => exact malformed_agrees .classDefinition line
  | some m =>
    simp only [Option.map_some]
    rcases Nat.lt_trichotomy m n with hlt | rfl | hlt
    · have hcut : Careful.cut head (head.offset n + 1) (head.offset m) =
          .error (.fault (.slice head (head.offset n + 1) (head.offset m))) := by
        have hle : ¬ head.offset n + 1 ≤ head.offset m := by
          have := head.offset_mono (Nat.le_of_lt hlt)
          omega
        rw [Careful.cut, if_neg hle]
      rw [if_pos hlt, hcut]
      exact .fault (hknown _ ⟨n, m, hopen, hclose, hlt, rfl⟩) _ _
    · -- One character is not both parentheses.
      have hboth := (getElem?_of_findIdx? hopen).symm.trans (getElem?_of_lastIndexOf? hclose)
      exact absurd hboth (by decide)
    · rw [if_neg (Nat.lt_asymm hlt), cut_succ (getElem?_of_findIdx? hopen) rfl hlt, ok_bind,
        parts_eq, ok_bind]
      exact Agrees.mapM fun base _ => expr_agrees base

/-- **The header of a class** is read without a fault, unless the fault is that of its base classes.
-/
theorem readClass_agrees (line rest : Segment)
    (hknown : ∀ n, rest.index? Segment.colon = some n → ∀ f : Fault,
      f.CrossesBases (rest.take n).trim → known f) :
    Agrees known (Careful.readClass line rest) (readClass line rest) := by
  have hclass (name : List Char) (bases : List Expr) (inline : Segment) : Agrees known
      (if isName name then .ok (.classDef (String.ofList name) bases, inline)
        else Careful.report (.malformed .classDefinition line.span))
      (if isName name then .ok (Header.classDef (String.ofList name) bases, inline)
        else .error (.malformed .classDefinition line.span)) := by
    split
    · exact .ok _
    · exact malformed_agrees .classDefinition line
  rw [Careful.readClass, readClass]
  refine (splitHeader_agrees rest _).bind fun parts hsplit => ?_
  obtain ⟨head, inline⟩ := parts
  obtain ⟨c, hc, rfl, -⟩ := splitHeader_eq_ok.1 hsplit
  simp only [Careful.readClassHead]
  generalize hhead : (rest.take c).trim = head
  have htrim : trim head.text = head.text := by
    rw [← hhead]
    exact trim_trim _
  have hbases : ∀ f : Fault, f.CrossesBases head → known f := hhead ▸ hknown c hc
  cases hopen : head.text.findIdx? (· == '(') with
  | none =>
    simp only [Option.map_none, Option.getD_none, List.take_length, htrim]
    exact hclass head.text [] _
  | some n =>
    simp only [Option.map_some, Option.getD_some, upTo_offset, trim_eq, ok_bind, bind_assoc,
      pure_bind]
    exact (readBases_agrees line head hopen hbases).bind fun bases _ => hclass _ bases _

/-! ## Headers

The kind of a header is decided by its keyword, and with it the faults that can occur. -/

theorem readCondition_agrees (rest : Segment) :
    Agrees known (Careful.readCondition rest) (readCondition rest) :=
  (splitHeader_agrees rest _).bind fun _ _ => (expr_agrees _).bind fun _ _ => .ok _

/-- **The known faults of a line**: a parameter in the list of a function, or the base classes of a
class. -/
inductive Fault.Known (line : Segment) (f : Fault) : Prop
  | param {rest : Segment} {n close : Nat} (hdef : line.afterKeyword? "def" = some rest)
    (hopen : rest.text.findIdx? (· == '(') = some n) (hclose : (rest.drop n).closing? = some close)
    (h : f.InParams ((rest.drop n).slice 1 close))
  | bases {rest : Segment} {n : Nat} (hclass : line.afterKeyword? "class" = some rest)
    (hcolon : rest.index? Segment.colon = some n) (h : f.CrossesBases (rest.take n).trim)

/-- The outcome of a reading, if there is one. -/
def outcome {α : Type} (x? : Option (Except ParseError α)) : Except ParseError (Option α) :=
  (x?.map fun x => some <$> x).getD (.ok none)

theorem Agrees.outcome_some {α β : Type} {x : Careful α} {y : Except ParseError α}
    (h : Agrees known x y) (f : α → β) :
    Agrees known (do let a ← x; return some (f a))
      (outcome (some (do let a ← y; return f a))) := by
  cases h with
  | ok a => exact .ok _
  | error he => exact .error he
  | fault hf what span => exact .fault hf what span

/-- **A header** is read without a fault, unless the fault is known.  The keywords are tried in
turn, and the line of the header is cut behind the one that is found. -/
theorem readHeader?_agrees (chained : Bool) (line : Segment)
    (hknown : ∀ f : Fault, f.Known line → known f) :
    Agrees known (Careful.readHeader? chained line) (outcome (readHeader? chained line)) := by
  rw [Careful.readHeader?, readHeader?]
  simp only [afterKeyword?_eq, ok_bind]
  cases hdef : line.afterKeyword? "def" with
  | some rest =>
    exact (readFunction_agrees line rest fun n close hopen hclose f hf =>
      hknown f (.param hdef hopen hclose hf)).map some
  | none =>
    cases hclass : line.afterKeyword? "class" with
    | some rest =>
      exact (readClass_agrees line rest fun n hcolon f hf =>
        hknown f (.bases hclass hcolon hf)).map some
    | none =>
      cases line.afterKeyword? "if" with
      | some rest =>
        exact (readCondition_agrees rest).outcome_some fun parts =>
          (Header.conditional parts.1, parts.2)
      | none =>
        cases chained with
        | false => exact .ok none
        | true =>
          simp only [if_true, Careful.readBranch?, afterKeyword?_eq, ok_bind]
          cases line.afterKeyword? "elif" with
          | some rest =>
            exact (readCondition_agrees rest).outcome_some fun parts =>
              (Header.alternative parts.1, parts.2)
          | none =>
            cases line.afterKeyword? "else" with
            | some rest =>
              exact (splitHeader_agrees rest .elseClause).outcome_some fun parts =>
                (Header.otherwise, parts.2)
            | none => exact .ok none

end TypeReveal
