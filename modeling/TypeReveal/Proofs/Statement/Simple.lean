import TypeReveal.Proofs.Statement.Parts
import TypeReveal.Proofs.Text.Search

/-!
# Reading simple statements

The line of a statement without a block is read as that statement: `Stmt.readSimple_headLine`.  It
is not mistaken for the header of a block because its first word is none of their keywords:
`Stmt.readHeader?_headLine`.

* A line with a keyword is told by `Segment.afterKeyword?_of_append`.
* Any other is a binding or an expression (`Stmt.readSimple_of_plain`); it is a binding if there is
  a colon or an equals sign outside of brackets and strings, and an expression has none.
-/

set_option autoImplicit false
namespace TypeReveal

/-! ## First words

The keyword is the first word of its line, and a word ends where no character of a name follows. -/

theorem isNamePart_of_mem_keyword {keyword : String} (h : keyword ∈ keywords) :
    ∀ c ∈ keyword.toList, isNamePart c = true :=
  (by decide : ∀ k ∈ keywords, ∀ c ∈ k.toList, isNamePart c = true) keyword h

namespace Segment

variable {seg : Segment} {keyword : String} {rest : List Char}

/-- A line does not start with a keyword that is not its first word. -/
theorem afterKeyword?_eq_none (hk : keyword ∈ keywords)
    (h : firstWord seg.text ≠ keyword.toList) : seg.afterKeyword? keyword = none := by
  rw [afterKeyword?_eq seg (isNamePart_of_mem_keyword hk), if_neg h]

/-- A keyword is the first word if no character of a name follows it. -/
theorem firstWord_of_append (hk : keyword ∈ keywords) (htext : seg.text = keyword.toList ++ rest)
    (hrest : rest.head?.any isNamePart = false) : firstWord seg.text = keyword.toList := by
  rw [htext, firstWord_append (isNamePart_of_mem_keyword hk) hrest]

/-- **What stands after a keyword.** -/
theorem afterKeyword?_of_append (hk : keyword ∈ keywords)
    (htext : seg.text = keyword.toList ++ rest) (hrest : rest.head?.any isNamePart = false) :
    ∃ after, seg.afterKeyword? keyword = some after ∧ after.text = TypeReveal.trim rest := by
  refine ⟨(seg.drop keyword.length).trim, ?_, ?_⟩
  · rw [afterKeyword?_eq seg (isNamePart_of_mem_keyword hk),
      if_pos (firstWord_of_append hk htext hrest)]
  · rw [trim_text, ← String.length_toList, text_drop htext]

/-- A line starts with one keyword at most. -/
theorem afterKeyword?_eq_none_of_append {other : String} (hk : keyword ∈ keywords)
    (ho : other ∈ keywords) (hne : keyword ≠ other) (htext : seg.text = keyword.toList ++ rest)
    (hrest : rest.head?.any isNamePart = false) : seg.afterKeyword? other = none := by
  refine afterKeyword?_eq_none ho ?_
  rw [firstWord_of_append hk htext hrest]
  exact fun h => hne (String.toList_inj.1 h)

end Segment

/-- A declaration starts with its name. -/
theorem firstWord_declaration {name : String} {annotation? value? : Option Expr}
    (hname : isName name.toList = true) :
    Segment.firstWord (declaration name annotation? value?) = name.toList := by
  refine Segment.firstWord_append (isNamePart_of_isName hname).2 ?_
  cases annotation? <;> cases value? <;> rfl

theorem head?_marked {e? : Option Expr} : (marked [] e?).head?.any isNamePart = false := by
  cases e? with
  | none => rfl
  | some e => rw [marked, List.nil_append, e.spaced_eq]; rfl

/-! ## Imports

The names of an import are cut at commas, not at those outside of brackets but at all of them, as
there are no brackets in a list of names. -/

/-- An item that is a name binds that name. -/
theorem importedName_of_isName {name : List Char} (h : isName name = true) (plain : Bool) :
    importedName plain name = String.ofList name := by
  have hspace : ' ' ∉ name := not_mem_of_isName h (by decide)
  have hpoint : ∀ c ∈ name, (c != '.') = true := by
    intro c hc
    rw [bne_iff_ne]
    rintro rfl
    exact not_mem_of_isName h (by decide) hc
  have htake : name.takeWhile (· != '.') = name := by
    have happend := @List.takeWhile_append_of_pos _ _ _ [] hpoint
    rwa [List.append_nil, List.takeWhile_nil, List.append_nil] at happend
  have hsplit : splitAt? " as ".toList name = none := by
    rw [splitAt?, indexOf?_eq_none (by decide : ' ' ∈ " as ".toList) hspace, Option.map_none]
  rw [importedName, trim_eq_self (.of_isName h), hsplit]
  cases plain <;> simp [htake]

/-- The characters of a dotted name. -/
theorem mem_of_isDotted {text : List Char} (h : isDotted text = true) :
    text ≠ [] ∧ ∀ c ∈ text, isNamePart c = true ∨ c = '.' := by
  rw [isDotted, List.all_eq_true, splitOn_eq_splitOn] at h
  refine ⟨?_, fun c hc => ?_⟩
  · rintro rfl
    exact absurd (h [] List.mem_cons_self) (by decide)
  · rcases (exists_mem_splitOn hc : c = '.' ∨ _) with rfl | ⟨part, hpart, hc⟩
    · exact .inr rfl
    · exact .inl ((isNamePart_of_isName (h part hpart)).2 c hc)

theorem sharp_of_isDotted {text : List Char} (h : isDotted text = true) : Sharp text := by
  obtain ⟨hne, hmem⟩ := mem_of_isDotted h
  refine .of_forall hne fun c hc => ?_
  rcases hmem c hc with hpart | rfl
  · exact isBlank_of_isNamePart hpart
  · decide

section names

variable {names : List (List Char)} (hnames : ∀ name ∈ names, isName name = true)

include hnames

/-- The names of a list are found between its commas. -/
theorem trim_splitOn_listed (pre : List Char) (hpre : ∀ c ∈ pre, c = ' ') (hne : names ≠ []) :
    (splitOn ',' (pre ++ listed names)).map trim = names := by
  have hcomma : ',' ∉ pre := fun hc => absurd (hpre ',' hc) (by decide)
  have hblank := isBlank_of_spaces hpre
  induction names generalizing pre with
  | nil => exact absurd rfl hne
  | cons name more ih =>
    have hname := hnames name List.mem_cons_self
    have hcomma' : ',' ∉ pre ++ name := by
      rw [List.mem_append, not_or]
      exact ⟨hcomma, not_mem_of_isName hname (by decide)⟩
    have htrim := trim_append_left hblank (.of_isName hname)
    cases more with
    | nil =>
      rw [listed, splitOn_eq_splitOn, List.splitOn_eq_singleton hcomma', List.map_singleton, htrim]
    | cons next more =>
      rw [listed_cons_cons, ← List.append_assoc, splitOn_eq_splitOn,
        List.splitOn_append_cons_self_of_not_mem hcomma', List.map_cons, htrim,
        ← splitOn_eq_splitOn]
      exact congrArg _ (ih (fun n hn => hnames n (List.mem_cons_of_mem _ hn)) [' ']
        (by simp) (List.cons_ne_nil _ _) (by decide) (by decide))

theorem not_mem_listed {c : Char} (hc : c ∈ punctuation) (hsep : c ∉ [',', ' ']) :
    c ∉ listed names := by
  rw [List.mem_cons, List.mem_singleton, not_or] at hsep
  induction names with
  | nil => simp [listed]
  | cons name more ih =>
    have hname := not_mem_of_isName (hnames name List.mem_cons_self) hc
    cases more with
    | nil => exact hname
    | cons next more =>
      have hmore := ih fun n hn => hnames n (List.mem_cons_of_mem _ hn)
      rw [listed_cons_cons, List.mem_append, List.mem_cons, List.mem_cons]
      exact fun h => h.elim hname fun h => h.elim hsep.1 fun h => h.elim hsep.2 hmore

theorem sealed_listed_names : ∀ text ∈ names, Sealed [','] text ∧ Sharp text :=
  fun text htext => ⟨sealed_name (hnames text htext) (by decide), .of_isName (hnames text htext)⟩

/-- **A written import binds the names that it lists.** -/
theorem importedNames_listed (hne : names ≠ []) :
    importedNames (listed names) = names.map String.ofList := by
  have hself : ∀ {text : List Char} {c : Char}, c ∉ text → text.dropWhile (· == c) = text := by
    intro text c hc
    cases text with
    | nil => rfl
    | cons d text =>
      rw [List.mem_cons, not_or] at hc
      exact List.dropWhile_cons_of_neg (by simpa using Ne.symm hc.1)
  have hopen : '(' ∉ listed names := not_mem_listed hnames (by decide) (by decide)
  have hclose : ')' ∉ (listed names).reverse := by
    rw [List.mem_reverse]
    exact not_mem_listed hnames (by decide) (by decide)
  have hitems : (splitOn ',' (listed names)).map trim = names :=
    trim_splitOn_listed hnames [] (by simp) hne
  have hfilter : names.filter (!·.isEmpty) = names := by
    rw [List.filter_eq_self]
    intro name hname
    simpa using (isNamePart_of_isName (hnames name hname)).1
  rw [importedNames, hself hopen, hself hclose, List.reverse_reverse]
  simp only [hitems, hfilter]
  exact List.map_congr_left fun name hname => importedName_of_isName (hnames name hname) false

end names

/-! ## Simple statements

One lemma for each kind of statement, from the text of its line to the statement. -/

namespace Stmt

/-- Whether a statement has no block. -/
def isSimple : Stmt → Bool
  | function .. | classDef .. | conditional .. => false
  | _ => true

variable {seg : Segment}

theorem readSimple_pass (htext : seg.text = "pass".toList) :
    readSimple seg = .ok (.pass seg.span) := by
  have hnil : seg.text = "pass".toList ++ [] := by rw [htext, List.append_nil]
  obtain ⟨after, hafter, hempty⟩ := Segment.afterKeyword?_of_append (by decide) hnil rfl
  rw [readSimple, hafter, Option.any_some, Segment.isEmpty, hempty, if_pos]
  rfl

/-- **A `return`**, with a value or without. -/
theorem readSimple_result {value? : Option Expr} (h : value?.all (Expr.fits .whole) = true)
    (htext : seg.text = "return".toList ++ marked [] value?) :
    ∃ s', readSimple seg = .ok s' ∧ s'.bare = (result default value?).bare := by
  obtain ⟨after, hafter, hrest⟩ :=
    Segment.afterKeyword?_of_append (by decide) htext head?_marked
  have hpass : seg.afterKeyword? "pass" = none :=
    Segment.afterKeyword?_eq_none_of_append (by decide) (by decide) (by decide) htext head?_marked
  rw [readSimple, hpass, hafter, Option.any_none, if_neg Bool.false_ne_true]
  simp only [readResult]
  cases value? with
  | none =>
    have hempty : after.isEmpty = true := by
      rw [Segment.isEmpty, hrest]
      rfl
    exact ⟨_, if_pos hempty, rfl⟩
  | some e =>
    replace hrest : after.text = e.written := by
      rw [hrest, marked, List.nil_append, trim_spaced h]
    have hempty : ¬ after.isEmpty = true := by
      rw [Segment.isEmpty, hrest]
      simpa using (Expr.sharp_written h).ne_nil
    obtain ⟨e', hread, hbare⟩ := Segment.expr_of_trim h
      (by rw [hrest, trim_eq_self (Expr.sharp_written h)])
    rw [if_neg hempty, hread]
    exact ⟨_, rfl, by simp [bare, hbare]⟩

/-- **An `import`** of some names. -/
theorem readSimple_imports {names : List String} (hne : names ≠ [])
    (hnames : ∀ name ∈ names.map String.toList, isName name = true)
    (htext : seg.text = "import".toList ++ ' ' :: listed (names.map String.toList)) :
    readSimple seg = .ok (imports seg.span none names) := by
  have hsealed := sealed_listed_names hnames
  have hsharp := sharp_listed (by simpa using hne) fun text htext => (hsealed text htext).2
  obtain ⟨after, hafter, hrest⟩ := Segment.afterKeyword?_of_append (by decide) htext rfl
  have hnone := fun k (hk : k ∈ keywords) hne =>
    Segment.afterKeyword?_eq_none_of_append (by decide) hk hne htext rfl
  rw [trim_space_cons hsharp] at hrest
  have hparts := Segment.text_parts_of_listed [] (by simp) hsealed hrest
  have hbound : after.parts.map (fun part => importedName true part.text) = names := by
    calc after.parts.map (fun part => importedName true part.text)
      _ = (after.parts.map Segment.text).map (importedName true) := by rw [List.map_map]; rfl
      _ = (names.map String.toList).map (importedName true) := by rw [hparts]
      _ = (names.map String.toList).map String.ofList :=
        List.map_congr_left fun name hname => importedName_of_isName (hnames name hname) true
      _ = names := map_ofList_toList names
  rw [readSimple, hnone "pass" (by decide) (by decide), hnone "return" (by decide) (by decide),
    hafter, Option.any_none, if_neg Bool.false_ne_true]
  simp only [hbound]

/-- **An `import`** of some names from a module.  The word in the middle is found as a text, and a
dotted name has none like it. -/
theorem readSimple_from {module : String} {names : List String}
    (hmodule : isDotted module.toList = true) (hne : names ≠ [])
    (hnames : ∀ name ∈ names.map String.toList, isName name = true)
    (htext : seg.text = "from".toList ++ ' ' ::
      (module.toList ++ (" import ".toList ++ listed (names.map String.toList)))) :
    readSimple seg = .ok (imports seg.span (some module) names) := by
  have hsharp := sharp_listed (by simpa using hne) fun text htext =>
    (sealed_listed_names hnames text htext).2
  have hsharp' := sharp_of_isDotted hmodule
  obtain ⟨after, hafter, hrest⟩ := Segment.afterKeyword?_of_append (by decide) htext rfl
  have hnone := fun k (hk : k ∈ keywords) hne =>
    Segment.afterKeyword?_eq_none_of_append (by decide) hk hne htext rfl
  rw [trim_space_cons (hsharp'.join _ hsharp)] at hrest
  -- The module holds no blank, so the first separator is the one that was printed.
  have hspace : ' ' ∉ module.toList := by
    intro hc
    rcases (mem_of_isDotted hmodule).2 ' ' hc with h | h
    · rw [isNamePart_of_mem_punctuation (by decide)] at h
      cases h
    · exact absurd h (by decide)
  have hindex : indexOf? " import ".toList after.text = some module.toList.length := by
    rw [hrest]
    exact indexOf?_append hspace
  have hsplit : splitAt? " import ".toList after.text =
      some (module.toList, listed (names.map String.toList)) := by
    rw [splitAt?, hindex, Option.map_some, hrest, List.take_left, ← List.drop_drop, List.drop_left,
      List.drop_left]
  rw [readSimple, hnone "pass" (by decide) (by decide), hnone "return" (by decide) (by decide),
    hnone "import" (by decide) (by decide), hafter, Option.any_none, if_neg Bool.false_ne_true]
  simp only [readFrom, hsplit]
  rw [trim_eq_self hsharp', trim_eq_self hsharp, importedNames_listed hnames (by simpa using hne),
    map_ofList_toList, String.ofList_toList]

/-- A line that starts with no keyword is a binding or an expression. -/
theorem readSimple_of_plain (h : ∀ k ∈ keywords, Segment.firstWord seg.text ≠ k.toList) :
    readSimple seg = readPlain seg := by
  have hnone := fun k hk => Segment.afterKeyword?_eq_none hk (h k hk)
  rw [readSimple, hnone "pass" (by decide), hnone "return" (by decide),
    hnone "import" (by decide), hnone "from" (by decide)]
  rfl

/-- The name that a segment binds stands before its first separator. -/
theorem boundName?_eq {name : List Char} {stop : Nat} (hname : isName name = true)
    (hstop : first? (seg.index? Segment.colon) (seg.index? Segment.equals) = some stop)
    (htrim : trim (seg.text.take stop) = name) : boundName? seg = some name := by
  have hguard : (guard (isName name = true) : Option Unit) = some () := if_pos hname
  rw [boundName?, hstop, Option.bind_eq_bind, Option.bind_some, htrim]
  exact congrArg (Option.bind · fun _ => some name) hguard

/-- A line with a colon or an equals sign outside of everything is read as a binding. -/
theorem readPlain_declaration {name : String} {annotation? value? : Option Expr}
    (hname : isName name.toList = true) (hsome : annotation?.isSome = true ∨ value?.isSome = true)
    (ha : annotation?.all (Expr.fits .whole) = true) (hv : value?.all (Expr.fits .whole) = true)
    (htext : seg.text = declaration name annotation? value?) :
    ∃ s', readPlain seg = .ok s' ∧ s'.bare = (binding default name annotation? value?).bare := by
  have htrim := trim_take_declaration hname ha hv htext
  obtain ⟨annotation', value', hread, ha', hv'⟩ := readBinding_declaration hname ha hv htext
  have hbound : boundName? seg = some name.toList := by
    obtain ⟨stop, hstop⟩ : ∃ stop,
        first? (seg.index? Segment.colon) (seg.index? Segment.equals) = some stop := by
      rw [index?_colon_declaration hname ha hv htext, index?_equals_declaration hname ha hv htext]
      cases annotation? <;> cases value? <;> simp [first?] at hsome ⊢
    rw [hstop, Option.getD_some] at htrim
    exact boundName?_eq hname hstop htrim
  rw [readPlain, hbound]
  simp only [hread]
  exact ⟨_, rfl, by simp [bare, ha', hv']⟩

/-- A line without them is read as an expression. -/
theorem readPlain_expr {e : Expr} (h : e.fits .whole = true) (htext : seg.text = e.written) :
    ∃ s', readPlain seg = .ok s' ∧ s'.bare = (expr default e).bare := by
  have hsealed : Sealed Stratum.whole.separators seg.text := htext ▸ Expr.sealed_written h
  have hbound : boundName? seg = none := by
    rw [boundName?, Segment.index?_eq_none Segment.colon_isMark (by decide) hsealed,
      Segment.index?_eq_none Segment.equals_isMark (by decide) hsealed]
    rfl
  obtain ⟨e', hread, hbare⟩ := Segment.expr_of_trim h
    (by rw [htext, trim_eq_self (Expr.sharp_written h)])
  rw [readPlain, hbound]
  simp only [hread]
  exact ⟨_, rfl, by simp [bare, hbare]⟩

/-! ## The lines of simple statements

A name may be the same as the start of a keyword, but not be a keyword; an expression may start with
one in brackets only. -/

theorem firstWord_binding {name : String} {annotation? value? : Option Expr}
    (hname : isName name.toList = true) (hkeyword : keywords.contains name = false) :
    ∀ k ∈ keywords, Segment.firstWord (declaration name annotation? value?) ≠ k.toList := by
  intro k hk hword
  rw [firstWord_declaration hname, String.toList_inj] at hword
  rw [hword, List.contains_eq_mem, decide_eq_false_iff_not] at hkeyword
  exact hkeyword hk

/-- An expression whose first token is no keyword starts with none. -/
theorem firstWord_expr {e : Expr} (h : e.fits .whole = true)
    (hkeyword : (keywords.any fun k => e.tokens.head? == some (.word k)) = false) :
    ∀ k ∈ keywords, Segment.firstWord e.written ≠ k.toList := by
  intro k hk
  refine Expr.firstWord_written h hk fun hhead => ?_
  have := List.any_eq_false.1 hkeyword k hk
  rw [hhead, beq_self_eq_true] at this
  exact this rfl

/-- **The line of a simple statement** is read as the statement. -/
theorem readSimple_headLine {s : Stmt} (hsimple : s.isSimple = true) (h : s.fits = true)
    (htext : seg.text = s.headLine) : ∃ s', readSimple seg = .ok s' ∧ s'.bare = s.bare := by
  cases s with
  | function | classDef | conditional => cases hsimple
  | binding span name annotation? value? =>
    simp only [fits, Bool.and_eq_true, Bool.not_eq_true', Bool.or_eq_true] at h
    obtain ⟨⟨⟨⟨hname, hkeyword⟩, hsome⟩, ha⟩, hv⟩ := h
    rw [readSimple_of_plain (htext ▸ firstWord_binding hname hkeyword)]
    exact readPlain_declaration hname hsome ha hv htext
  | result span value? => exact readSimple_result h htext
  | imports span module? names =>
    simp only [fits, Bool.and_eq_true, Bool.not_eq_true', List.isEmpty_eq_false_iff] at h
    obtain ⟨⟨hmodule, hne⟩, hnames⟩ := h
    have hnames' : ∀ name ∈ names.map String.toList, isName name = true := by simpa using hnames
    cases module? with
    | none => exact ⟨_, readSimple_imports hne hnames' htext, rfl⟩
    | some module => exact ⟨_, readSimple_from hmodule hne hnames' htext, rfl⟩
  | expr span value =>
    simp only [fits, Bool.and_eq_true, Bool.not_eq_true'] at h
    rw [readSimple_of_plain (htext ▸ firstWord_expr h.1 h.2)]
    exact readPlain_expr h.1 htext
  | pass span => exact ⟨_, readSimple_pass htext, rfl⟩

/-- The first word of the line of a simple statement is no keyword of a block. -/
theorem firstWord_headLine {s : Stmt} (hsimple : s.isSimple = true) (h : s.fits = true)
    {k : String} (hk : k ∈ ["def", "class", "if", "elif", "else"]) :
    Segment.firstWord s.headLine ≠ k.toList := by
  have hkeyword : k ∈ keywords :=
    (by decide : ["def", "class", "if", "elif", "else"] ⊆ keywords) hk
  -- A line that starts with its own keyword does not start with another one.
  have hword : ∀ {o : String} {rest : List Char},
      o ∈ ["pass", "return", "import", "from"] → rest.head?.any isNamePart = false →
      Segment.firstWord (o.toList ++ rest) ≠ k.toList := by
    intro o rest hother hrest heq
    have ho : o ∈ keywords :=
      (by decide : ["pass", "return", "import", "from"] ⊆ keywords) hother
    rw [Segment.firstWord_append (isNamePart_of_mem_keyword ho) hrest, String.toList_inj] at heq
    subst heq
    revert hk
    revert hother
    exact (by decide : ∀ o ∈ keywords, o ∈ ["pass", "return", "import", "from"] →
      o ∉ ["def", "class", "if", "elif", "else"]) o ho
  cases s with
  | function | classDef | conditional => cases hsimple
  | binding span name annotation? value? =>
    simp only [fits, Bool.and_eq_true, Bool.not_eq_true'] at h
    obtain ⟨⟨⟨⟨hname, hkeywords⟩, -⟩, -⟩, -⟩ := h
    exact firstWord_binding hname hkeywords k hkeyword
  | result span value? => exact hword (by decide) head?_marked
  | imports span module? names =>
    cases module? with
    | none => exact hword (by decide) rfl
    | some module => exact hword (by decide) rfl
  | expr span value =>
    simp only [fits, Bool.and_eq_true, Bool.not_eq_true'] at h
    exact firstWord_expr h.1 h.2 k hkeyword
  | pass span => exact hword (o := "pass") (by decide) rfl

/-- A line that starts with no keyword of a block is not the header of one. -/
theorem readHeader?_of_plain
    (h : ∀ k ∈ ["def", "class", "if", "elif", "else"], Segment.firstWord seg.text ≠ k.toList)
    (chained : Bool) : readHeader? chained seg = none := by
  have hnone : ∀ k ∈ ["def", "class", "if", "elif", "else"], seg.afterKeyword? k = none :=
    fun k hk => Segment.afterKeyword?_eq_none
      ((by decide : ["def", "class", "if", "elif", "else"] ⊆ keywords) hk) (h k hk)
  rw [readHeader?, hnone "def" (by decide), hnone "class" (by decide), hnone "if" (by decide)]
  cases chained with
  | false => rfl
  | true =>
    simp only [if_true, hnone "elif" (by decide), hnone "else" (by decide)]

/-- **The line of a simple statement** is not the header of a block. -/
theorem readHeader?_headLine {s : Stmt} (hsimple : s.isSimple = true) (h : s.fits = true)
    (htext : seg.text = s.headLine) (chained : Bool) : readHeader? chained seg = none :=
  readHeader?_of_plain (fun _ hk => htext ▸ firstWord_headLine hsimple h hk) chained

end Stmt

end TypeReveal
