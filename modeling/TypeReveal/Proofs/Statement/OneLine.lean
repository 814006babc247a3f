import TypeReveal.Proofs.Expr.Shift
import TypeReveal.Proofs.Statement.RoundTrip
import TypeReveal.Proofs.Syntax.Equality

/-!
# Files of one line

A line is cut into a name and a text by a scan that knows brackets, strings and comments only
roughly; the text is then read by the grammar of expressions.  Where the scan finds nothing to cut
in a text (`OneLine`), the two agree: the file `name: text` is read as the binding of the name with
the expression that the text alone is read as, and where reading the text alone fails, reading the
file fails in the same way at the same place of the text.  The same holds of `name = text`
(`Node.read_oneLine`).

* `OneLine.ofFile_append` — after a name and its mark the line goes on to the end of the file.
* `OneLine.index?_append` — nothing is cut in the text, whatever stands before it.
* `Node.read_of_plain` — a file of one line is read as this line is.

The scan and the grammar differ about strings that are not closed, about brackets of different
kinds, and about line breaks in brackets.  None of this matters where the scan finds nothing to cut,
for then the text is handed to the grammar as it is.
-/

set_option autoImplicit false
namespace TypeReveal

/-! ## Files of one plain line

A file of one line has an outline of one line, which no other line belongs to. -/

theorem Outline.clauses_plain {seg : Segment} (hat : seg.text.head? ≠ some '@')
    (hheader : readHeader? false seg = none) :
    (cons ⟨0, seg⟩ nil nil).clauses 0 [] false = (Stmt.readSimple seg).map fun s => [.stmt s] := by
  rw [clauses, if_neg (fun h => h rfl), if_neg hat, hheader]
  simp only [readUndecorated, List.isEmpty_nil, if_true]
  cases Stmt.readSimple seg <;> rfl

/-- **A file of one line** that starts with no keyword is read as this line is. -/
theorem Node.read_of_plain {text : List Char} (hline : Line.ofFile text = [⟨0, ⟨0, text⟩⟩])
    (hat : text.head? ≠ some '@')
    (hword : ∀ k ∈ keywords, Segment.firstWord text ≠ k.toList) :
    Node.read text =
      (readPlain ⟨0, text⟩).map fun s => .file ⟨0, utf8Length text⟩ [s] := by
  have hheader : readHeader? false ⟨0, text⟩ = none :=
    Stmt.readHeader?_of_plain (fun k hk => hword k
      ((by decide : ["def", "class", "if", "elif", "else"] ⊆ keywords) hk)) false
  have hclauses : (Outline.cons ⟨0, ⟨0, text⟩⟩ .nil .nil).clauses 0 [] false = _ :=
    Outline.clauses_plain hat hheader
  rw [Stmt.readSimple_of_plain hword] at hclauses
  rw [Node.read, hline, show Outline.ofLines [_] = .cons _ .nil .nil from rfl, hclauses]
  cases readPlain ⟨0, text⟩ <;> rfl

/-! ## Texts of one line

The condition is one of the scan alone: what it labels as outside of everything has no break, no
colon and no equals sign in it, and nothing is labelled a comment. -/

/-- Whether a line breaks at a character. -/
def isBreak (x : Char × Region) : Bool := x.1 == '\n' && x.2 = .top

theorem length_splitLines (start : Nat) (u : List (Char × Region)) :
    (splitLines start u).length = u.countP isBreak + 1 := by
  induction u generalizing start with
  | nil => rfl
  | cons x u ih =>
    obtain ⟨c, region⟩ := x
    have hrest := ih (start + c.utf8Size)
    rw [splitLines]
    split
    · next hbreak =>
      have hbreak : isBreak (c, region) = true := hbreak
      rw [List.length_cons, hrest, List.countP_cons_of_pos hbreak]
    · next hbreak =>
      have hbreak : ¬ isBreak (c, region) = true := hbreak
      rw [List.countP_cons_of_neg hbreak, ← hrest]
      split
      · next hnil => simp [hnil] at hrest
      · next hcons => rw [hcons]; rfl

/-- A text that is one line of code, in which a scan finds no comment and nothing that takes a
binding apart. -/
structure OneLine (text : List Char) : Prop where
  sharp : Sharp text
  line : (splitLines 0 (cleanRegions text)).length = 1
  comment : ∀ x ∈ regions text, x.2 ≠ .comment
  colon : Segment.index? ⟨0, text⟩ Segment.colon = none
  equals : Segment.index? ⟨0, text⟩ Segment.equals = none

namespace OneLine

variable {text pre seps : List Char} {sep : Segment.Separator} {c : Char}

/-- The line does not break. -/
theorem not_break (h : OneLine text) : ∀ x ∈ regions text, x.2 = .top → x.1 ≠ '\n' := by
  have hline := h.line
  have hclean : cleanRegions text = regions text := flatMap_blankComment h.comment
  rw [length_splitLines, hclean, Nat.add_eq_right, List.countP_eq_zero] at hline
  intro x hx htop hbreak
  exact hline x hx (by simp [isBreak, hbreak, htop])

/-- A text in which separators stand only in brackets and strings. -/
theorem of_sealed (h : Sealed [':', '=', '\n'] text) (hsharp : Sharp text) : OneLine text where
  sharp := hsharp
  line := by
    have hclean : cleanRegions text = regions text := flatMap_blankComment (h.not_comment 0)
    rw [length_splitLines, hclean, Nat.add_eq_right, List.countP_eq_zero]
    intro x hx hbreak
    rw [isBreak, Bool.and_eq_true, beq_iff_eq, decide_eq_true_eq] at hbreak
    exact h.not_sep x hx hbreak.2 (by simp [hbreak.1])
  comment := h.not_comment 0
  colon := Segment.index?_eq_none Segment.colon_isMark (by decide) h
  equals := Segment.index?_eq_none Segment.equals_isMark (by decide) h

theorem regions_append (hpre : Sealed seps pre) :
    regions (pre ++ text) = Scan.label ⟨0, .code⟩ pre ++ regions text :=
  hpre.label_append 0 text

/-- **After what does not break the line goes on** to the end of the file. -/
theorem ofFile_append (h : OneLine text) (hpre : Sealed ['\n'] pre) (hsharp : Sharp (pre ++ text)) :
    Line.ofFile (pre ++ text) = [⟨0, ⟨0, pre ++ text⟩⟩] := by
  refine Line.ofFile_singleton (fun x hx => ?_) (fun x hx htop => ?_) hsharp
  all_goals
    rw [regions_append hpre, List.mem_append] at hx
  · exact hx.elim (hpre.not_comment 0 x) (h.comment x)
  · exact hx.elim (fun hx => by simpa using hpre.not_sep x hx htop) fun hx => h.not_break x hx htop

/-- **Nothing is cut in a text**, whatever stands before it, if what stands right before it makes
no difference. -/
theorem index?_append (hmark : Segment.IsMark sep c) (hmem : c ∈ seps) (hpre : Sealed seps pre)
    (hlast : ∀ d after, sep pre.getLast? d after = sep none d after)
    (htext : Segment.index? ⟨0, text⟩ sep = none) : Segment.index? ⟨0, pre ++ text⟩ sep = none := by
  have hfirst : Segment.indexIn? sep pre.getLast? (regions text) =
      Segment.indexIn? sep none (regions text) := by
    cases regions text with
    | nil => rfl
    | cons x rest => rw [Segment.indexIn?, Segment.indexIn?, hlast]
  rw [Segment.index?] at htext ⊢
  rw [regions_append hpre, Segment.indexIn?_append (Segment.not_sep_of_sealed hmark hmem hpre),
    Scan.map_fst_label, Option.or_none, hfirst, htext, Option.map_none]

end OneLine

/-! ## Bindings of one line

Two forms, with a colon and with an equals sign.  In both the text is cut out behind the mark and
the space, and moved by as much. -/

/-- The file that declares `name` with the annotation `text`. -/
def annotated (name : String) (text : List Char) : List Char :=
  name.toList ++ ':' :: ' ' :: text

/-- The file that binds `name` to the value `text`. -/
def assigned (name : String) (text : List Char) : List Char :=
  name.toList ++ ' ' :: '=' :: ' ' :: text

/-- What is read as an expression after a space is the text behind it. -/
theorem Segment.expr_after (line front : List Char) {text : List Char} {n : Nat}
    (hline : line = front ++ ' ' :: text) (hfront : front.length = n) (hsharp : Sharp text) :
    (Segment.drop ⟨0, line⟩ n).expr =
      (Expr.read text (utf8Length front + 1)).mapError .invalidSyntax := by
  have htrim : (Segment.drop ⟨0, line⟩ n).trim = ⟨utf8Length front + 1, text⟩ := by
    have htake := takeWhile_isBlank_append (u := [' ']) (by decide) hsharp
    rw [List.singleton_append] at htake
    simp [hline, ← hfront, Segment.drop, Segment.trim, htake, trim_space_cons hsharp,
      show ' '.utf8Size = 1 from rfl]
  rw [Segment.expr, htrim]

section

variable {name : String} {text : List Char} (hname : isName name.toList = true)
  (htext : OneLine text)

include hname

/-- Neither file starts with a keyword, if the name is none. -/
theorem firstWord_ne_of_name (hkeyword : name ∉ keywords) {rest : List Char}
    (hrest : rest.head?.any isNamePart = false) :
    ∀ k ∈ keywords, Segment.firstWord (name.toList ++ rest) ≠ k.toList := by
  intro k hk hfirst
  rw [Segment.firstWord_append (isNamePart_of_isName hname).2 hrest, String.toList_inj] at hfirst
  exact hkeyword (hfirst ▸ hk)

include htext

theorem readPlain_annotated :
    readPlain ⟨0, annotated name text⟩ =
      ((Expr.read text (utf8Length name.toList + 2)).mapError .invalidSyntax).map fun e =>
          .binding ⟨0, utf8Length (annotated name text)⟩ name (some e) none := by
  have hpre : Sealed ['='] (name.toList ++ [':', ' ']) :=
    (sealed_name hname (by decide)).append (.of_forall (by decide))
  have hsplit : annotated name text = (name.toList ++ [':', ' ']) ++ text := by simp [annotated]
  have hcolon : Segment.index? ⟨0, annotated name text⟩ Segment.colon = some name.toList.length :=
    Segment.index?_of_sealed Segment.colon_isMark (by decide) (by decide)
      (sealed_name hname (by decide) : Sealed [':'] name.toList) rfl rfl
  have hequals : Segment.index? ⟨0, annotated name text⟩ Segment.equals = none := by
    rw [hsplit]
    exact OneLine.index?_append Segment.equals_isMark (by decide) hpre
      (fun d after => by simp [Segment.equals]) htext.equals
  have hbound : boundName? ⟨0, annotated name text⟩ = some name.toList := by
    refine Stmt.boundName?_eq hname (by rw [hcolon, hequals]; rfl) ?_
    rw [annotated, List.take_left, trim_eq_self (Sharp.of_isName hname)]
  have hexpr := Segment.expr_after (annotated name text) (name.toList ++ [':'])
    (by simp [annotated]) List.length_append htext.sharp
  rw [utf8Length_append, List.length_singleton] at hexpr
  rw [readPlain, hbound]
  simp only [hcolon, hequals, readBinding, hexpr, show utf8Length [':'] = 1 from rfl]
  cases Expr.read text (utf8Length name.toList + 1 + 1) <;>
    simp [Except.map, Except.mapError, bind, Except.bind, pure, Except.pure, Segment.span]

theorem readPlain_assigned :
    readPlain ⟨0, assigned name text⟩ =
      ((Expr.read text (utf8Length name.toList + 3)).mapError .invalidSyntax).map fun e =>
          .binding ⟨0, utf8Length (assigned name text)⟩ name none (some e) := by
  have hpre : Sealed [':'] (name.toList ++ [' ', '=', ' ']) :=
    (sealed_name hname (by decide)).append (.of_forall (by decide))
  have hsplit : assigned name text = (name.toList ++ [' ', '=', ' ']) ++ text := by simp [assigned]
  have hmark : assigned name text = (name.toList ++ [' ']) ++ '=' :: ' ' :: text := by
    simp [assigned]
  have hcolon : Segment.index? ⟨0, assigned name text⟩ Segment.colon = none := by
    rw [hsplit]
    exact OneLine.index?_append Segment.colon_isMark (by decide) hpre (fun d after => rfl)
      htext.colon
  have hequals : Segment.index? ⟨0, assigned name text⟩ Segment.equals =
      some (name.toList ++ [' ']).length := by
    have hsealed : Sealed ['='] (name.toList ++ [' ']) :=
      (sealed_name hname (by decide)).append (.of_forall (by decide))
    exact Segment.index?_of_sealed Segment.equals_isMark (by decide) (by decide) hsealed hmark
      (by simp [Segment.equals])
  have hbound : boundName? ⟨0, assigned name text⟩ = some name.toList := by
    refine Stmt.boundName?_eq hname (by rw [hcolon, hequals]; rfl) ?_
    rw [hmark, List.take_left]
    exact trim_append (u := []) (v := [' ']) (by simp) (Sharp.of_isName hname) (by decide)
  have hexpr := Segment.expr_after (assigned name text) (name.toList ++ [' ', '='])
    (n := (name.toList ++ [' ']).length + 1) (by simp [assigned]) (by simp) htext.sharp
  rw [utf8Length_append] at hexpr
  rw [readPlain, hbound]
  simp only [hcolon, hequals, readBinding, hexpr, show utf8Length [' ', '='] = 2 from rfl]
  cases Expr.read text (utf8Length name.toList + 2 + 1) <;>
    simp [Except.map, Except.mapError, bind, Except.bind, pure, Except.pure, Segment.span]

theorem Node.read_annotated_oneLine (hkeyword : name ∉ keywords) :
    Node.read (annotated name text) =
      ((Expr.read text (utf8Length name.toList + 2)).mapError .invalidSyntax).map fun e =>
          .file ⟨0, utf8Length (annotated name text)⟩
            [.binding ⟨0, utf8Length (annotated name text)⟩ name (some e) none] := by
  have hline : Line.ofFile (annotated name text) = [⟨0, ⟨0, annotated name text⟩⟩] := by
    have hsplit : annotated name text = (name.toList ++ [':', ' ']) ++ text := by simp [annotated]
    rw [hsplit]
    refine htext.ofFile_append ((sealed_name hname (by decide)).append (.of_forall (by decide))) ?_
    rw [List.append_assoc]
    exact (Sharp.of_isName hname).join _ htext.sharp
  rw [Node.read_of_plain hline (head?_append_of_isName hname)
    (firstWord_ne_of_name hname hkeyword rfl), readPlain_annotated hname htext]
  cases Expr.read text (utf8Length name.toList + 2) <;> rfl

theorem Node.read_assigned_oneLine (hkeyword : name ∉ keywords) :
    Node.read (assigned name text) =
      ((Expr.read text (utf8Length name.toList + 3)).mapError .invalidSyntax).map fun e =>
          .file ⟨0, utf8Length (assigned name text)⟩
            [.binding ⟨0, utf8Length (assigned name text)⟩ name none (some e)] := by
  have hline : Line.ofFile (assigned name text) = [⟨0, ⟨0, assigned name text⟩⟩] := by
    have hsplit : assigned name text = (name.toList ++ [' ', '=', ' ']) ++ text := by
      simp [assigned]
    rw [hsplit]
    refine htext.ofFile_append ((sealed_name hname (by decide)).append (.of_forall (by decide))) ?_
    rw [List.append_assoc]
    exact (Sharp.of_isName hname).join _ htext.sharp
  rw [Node.read_of_plain hline (head?_append_of_isName hname)
    (firstWord_ne_of_name hname hkeyword rfl), readPlain_assigned hname htext]
  cases Expr.read text (utf8Length name.toList + 3) <;> rfl

/-- **A binding of one line is read as its text is.**  The expression of the annotation or the value
is the one that the text alone is, moved behind the name and its mark; an error of the text alone is
the error of the file, with the same message, at the same place of the text. -/
theorem Node.read_oneLine (hkeyword : name ∉ keywords) :
    (∀ e, Expr.read text 0 = .ok e →
      (let span : Span := ⟨0, utf8Length (annotated name text)⟩
       Node.read (annotated name text) = .ok (.file span
        [.binding span name (some (e.shift (utf8Length (name.toList ++ [':', ' '])))) none])) ∧
      (let span : Span := ⟨0, utf8Length (assigned name text)⟩
       Node.read (assigned name text) = .ok (.file span
        [.binding span name none
          (some (e.shift (utf8Length (name.toList ++ [' ', '=', ' ']))))]))) ∧
    ∀ error, Expr.read text 0 = .error error →
      (∃ moved, Node.read (annotated name text) = .error (.invalidSyntax moved) ∧
        moved.message = error.message ∧
        moved.offset = error.offset + utf8Length (name.toList ++ [':', ' '])) ∧
      ∃ moved, Node.read (assigned name text) = .error (.invalidSyntax moved) ∧
        moved.message = error.message ∧
        moved.offset = error.offset + utf8Length (name.toList ++ [' ', '=', ' ']) := by
  have hcolon : utf8Length (name.toList ++ [':', ' ']) = utf8Length name.toList + 2 :=
    utf8Length_append _ _
  have hequals : utf8Length (name.toList ++ [' ', '=', ' ']) = utf8Length name.toList + 3 :=
    utf8Length_append _ _
  have hmove (n : Nat) : Expr.read text n = shiftOutcome n Expr.shift (Expr.read text 0) := by
    rw [← Expr.read_shift, Nat.zero_add]
  rw [hcolon, hequals, Node.read_annotated_oneLine hname htext hkeyword,
    Node.read_assigned_oneLine hname htext hkeyword, hmove (_ + 2), hmove (_ + 3)]
  refine ⟨fun e he => ?_, fun error herror => ?_⟩
  · rw [he]
    exact ⟨rfl, rfl⟩
  · rw [herror]
    exact ⟨⟨_, rfl, error.message_shift _, rfl⟩, ⟨_, rfl, error.message_shift _, rfl⟩⟩

end

/-- Breaks, marks and comment signs in brackets and strings are not cut, also where the bracket and
the string are never closed. -/
theorem Node.read_oneLine_brackets :
    (OneLine "f(\n'#=\\':', )".toList ∧
      Expr.read "f(\n'#=\\':', )".toList 0 =
        .ok (.call ⟨0, 13⟩ (.name ⟨0, 1⟩ "f") [.str ⟨3, 10⟩ "#=':"]) ∧
      Node.read (assigned "x" "f(\n'#=\\':', )".toList) = .ok (.file ⟨0, 17⟩
        [.binding ⟨0, 17⟩ "x" none
          (some (.call ⟨4, 17⟩ (.name ⟨4, 5⟩ "f") [.str ⟨7, 14⟩ "#=':"]))])) ∧
    OneLine "[1,\n\":=".toList ∧ Expr.read "[1,\n\":=".toList 0 = .error ⟨4, [.operand]⟩ ∧
      ∃ moved, Node.read (annotated "x" "[1,\n\":=".toList) = .error (.invalidSyntax moved) ∧
        moved.message = "expected primary" ∧ moved.offset = 7 := by
  have hname : isName "x".toList = true := by decide
  have hcall : OneLine "f(\n'#=\\':', )".toList :=
    ⟨⟨⟨'f', _, rfl, by decide⟩, ⟨"f(\n'#=\\':', ".toList, ')', rfl, by decide⟩⟩, by decide,
      by decide, by decide, by decide⟩
  have hunclosed : OneLine "[1,\n\":=".toList :=
    ⟨⟨⟨'[', _, rfl, by decide⟩, ⟨"[1,\n\":".toList, '=', rfl, by decide⟩⟩, by decide, by decide,
      by decide, by decide⟩
  have hread : Expr.read "f(\n'#=\\':', )".toList 0 =
      .ok (.call ⟨0, 13⟩ (.name ⟨0, 1⟩ "f") [.str ⟨3, 10⟩ "#=':"]) := by decide +kernel
  have herror : Expr.read "[1,\n\":=".toList 0 = .error ⟨4, [.operand]⟩ := by decide +kernel
  exact ⟨⟨hcall, hread, ((read_oneLine hname hcall (by decide)).1 _ hread).2⟩, hunclosed, herror,
    ((read_oneLine hname hunclosed (by decide)).2 _ herror).1⟩

/-- **A file of one annotation** is read as the binding. -/
theorem Node.read_annotated {name : String} {text : List Char} {e : Expr}
    (hname : isName name.toList = true) (hsealed : Sealed Stratum.whole.separators text)
    (hsharp : Sharp text) (hkeyword : name ∉ keywords)
    (he : Expr.read text (utf8Length name.toList + 2) = .ok e) :
    Node.read (annotated name text) = .ok (.file ⟨0, utf8Length (annotated name text)⟩
      [.binding ⟨0, utf8Length (annotated name text)⟩ name (some e) none]) := by
  rw [read_annotated_oneLine hname (OneLine.of_sealed (hsealed.mono (by decide)) hsharp) hkeyword,
    he]
  rfl

end TypeReveal
