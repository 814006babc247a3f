import TypeReveal.Proofs.Statement.Nesting
import TypeReveal.Proofs.Statement.Simple

/-!
# Header text that is not read

Which text of the lines of a file is read, and which is passed over (`Node.accepted_of_read`).

* The header of a function has no text that is not read: after its parameters comes its result type
  or its colon.
* The header of a class is read up to the last closing parenthesis before its colon, and of an
  `else` nothing is read between the word and the colon.
* Decorators are followed by a function, by a class or by an `if`; those before a class or an `if`
  are passed over.
-/

set_option autoImplicit false
namespace TypeReveal

variable {line rest inline : Segment} {chained : Bool} {header : Header}

/-! ## Keywords

The keywords are tried in a fixed order, so a header is read by its keyword because the ones before
do not fit. -/

namespace Segment

variable {keyword other : String}

theorem firstWord_of_afterKeyword? (hk : keyword ∈ keywords)
    (h : line.afterKeyword? keyword = some rest) : firstWord line.text = keyword.toList := by
  rw [afterKeyword?_eq line (isNamePart_of_mem_keyword hk)] at h
  split at h
  · assumption
  · cases h

/-- A line starts with one keyword only. -/
theorem afterKeyword?_eq_none_of_ne (hk : keyword ∈ keywords) (ho : other ∈ keywords)
    (h : line.afterKeyword? keyword = some rest) (hne : keyword ≠ other) :
    line.afterKeyword? other = none := by
  refine afterKeyword?_eq_none ho fun hword => hne (String.toList_inj.1 ?_)
  rw [← firstWord_of_afterKeyword? hk h, hword]

/-- A decorator starts with no keyword. -/
theorem afterKeyword?_of_head?_at (hk : keyword ∈ keywords) (h : line.text.head? = some '@') :
    line.afterKeyword? keyword = none := by
  obtain ⟨tail, htail⟩ := List.head?_eq_some_iff.1 h
  refine afterKeyword?_eq_none hk ?_
  rw [htail]
  exact (by decide : ∀ k ∈ keywords, [] ≠ k.toList) keyword hk

end Segment

theorem readHeader?_def (h : line.afterKeyword? "def" = some rest) :
    readHeader? chained line = some (readFunction line rest) := by
  rw [readHeader?]
  simp only [h]

theorem readHeader?_class (h : line.afterKeyword? "class" = some rest) :
    readHeader? chained line = some (readClass line rest) := by
  rw [readHeader?]
  simp only [h, Segment.afterKeyword?_eq_none_of_ne (by decide) (by decide : "def" ∈ keywords) h
    (by decide)]

theorem readHeader?_else (h : line.afterKeyword? "else" = some rest) :
    readHeader? true line = some (do
      let (_, inline) ← splitHeader rest .elseClause
      return (.otherwise, inline)) := by
  rw [readHeader?]
  simp only [h, if_true,
    Segment.afterKeyword?_eq_none_of_ne (by decide) (by decide : "def" ∈ keywords) h (by decide),
    Segment.afterKeyword?_eq_none_of_ne (by decide) (by decide : "class" ∈ keywords) h (by decide),
    Segment.afterKeyword?_eq_none_of_ne (by decide) (by decide : "if" ∈ keywords) h (by decide),
    Segment.afterKeyword?_eq_none_of_ne (by decide) (by decide : "elif" ∈ keywords) h (by decide)]

/-- Whether an `elif` or `else` may follow the block of a line. -/
def Line.isOpen (chained : Bool) (line : Line) : Bool :=
  (line.text.afterKeyword? "if").isSome ||
    chained && (line.text.afterKeyword? "elif").isSome

/-! ## The text of headers

The text behind the keyword is described from left to right, with a name for each piece that is not
looked at. -/

/-- A text is what stands before one of its characters, that, and what stands after it. -/
theorem eq_append_cons_of_getElem? {text : List Char} {n : Nat} {c : Char}
    (h : text[n]? = some c) : text = text.take n ++ c :: text.drop (n + 1) := by
  obtain ⟨hn, rfl⟩ := List.getElem?_eq_some_iff.1 h
  rw [List.getElem_cons_drop, List.take_append_drop]

theorem text_of_splitHeader {seg head : Segment} {what : Construct}
    (h : splitHeader seg what = .ok (head, inline)) :
    ∃ before after, seg.text = before ++ ':' :: after ∧ head.text = trim before ∧
      inline.text = trim after := by
  obtain ⟨n, hcolon, rfl, rfl⟩ := splitHeader_eq_ok.1 h
  exact ⟨_, _, eq_append_cons_of_getElem? (Segment.getElem?_of_colon hcolon), rfl, rfl⟩

/-- What follows `def`: a name, a group, and its result type or nothing up to the colon. -/
def IsFunctionText (rest : Segment) : Prop :=
  ∃ n close result after, rest.text.findIdx? (· == '(') = some n ∧
    isName (trim (rest.text.take n)) = true ∧ (rest.drop n).closing? = some close ∧
    trim ((rest.drop n).drop (close + 1)).text = result ++ ':' :: after ∧
    (trim result = [] ∨ ['-', '>'] <+: trim result)

theorem isFunctionText_of_readFunction (h : readFunction line rest = .ok (header, inline)) :
    (∃ name params result?, header = .function name params result?) ∧ IsFunctionText rest := by
  obtain ⟨n, close, hopen, hname, hclose, head, params, result?, hsplit, hresult, -, rfl⟩ :=
    readFunction_eq_ok.1 h
  obtain ⟨before, after, htext, hhead, -⟩ := text_of_splitHeader hsplit
  refine ⟨⟨_, params, result?, rfl⟩, n, close, before, after, hopen, hname, hclose, htext, ?_⟩
  rw [← hhead]
  rcases readResultType_cases hresult with ⟨harrow, -⟩ | ⟨hempty, -⟩
  · exact .inr harrow
  · exact .inl hempty

/-- What follows `class`: a name alone, or a name, the bases in parentheses, and text that is not
read. -/
def IsClassText (rest : Segment) (bases : List Expr) : Prop :=
  ∃ before after, rest.text = before ++ ':' :: after ∧
    ((bases = [] ∧ isName (trim before) = true) ∨
      ∃ (name : List Char) (group : Segment) (unread : List Char),
        trim before = name ++ '(' :: group.text ++ ')' :: unread ∧ isName (trim name) = true ∧
        '(' ∉ name ∧ ')' ∉ unread ∧ group.parts.mapM Segment.expr = .ok bases)

theorem not_mem_take_of_findIdx? {c : Char} {text : List Char} {n : Nat}
    (h : text.findIdx? (· == c) = some n) : c ∉ text.take n := by
  obtain ⟨_, -, hbefore⟩ := List.findIdx?_eq_some_iff_getElem.1 h
  intro hmem
  obtain ⟨i, hi, hget⟩ := List.mem_take_iff_getElem.1 hmem
  exact hbefore i (by omega) (beq_iff_eq.2 hget)

theorem not_mem_drop_of_lastIndexOf? {c : Char} {text : List Char} {n : Nat}
    (h : lastIndexOf? c text = some n) : c ∉ text.drop (n + 1) := by
  obtain ⟨i, hi, rfl⟩ := Option.map_eq_some_iff.1 h
  have hlt : i < text.length := by
    obtain ⟨hlt, -⟩ := List.findIdx?_eq_some_iff_getElem.1 hi
    rwa [List.length_reverse] at hlt
  have hdrop : text.length - 1 - i + 1 = text.length - i := by omega
  intro hmem
  rw [hdrop, ← List.mem_reverse, ← List.take_reverse] at hmem
  exact not_mem_take_of_findIdx? hi hmem

theorem text_of_readBases {head : Segment} {n : Nat} {bases : List Expr}
    (hopen : head.text.findIdx? (· == '(') = some n) (h : readBases line head n = .ok bases) :
    ∃ (group : Segment) (unread : List Char),
      head.text = head.text.take n ++ '(' :: group.text ++ ')' :: unread ∧ ')' ∉ unread ∧
      group.parts.mapM Segment.expr = .ok bases := by
  obtain ⟨m, hclose, hle, hparts⟩ := exists_of_readBases h
  have hopen := getElem?_of_findIdx? hopen
  have hclosed := getElem?_of_lastIndexOf? hclose
  have hne : n ≠ m := by
    rintro rfl
    cases hopen.symm.trans hclosed
  have hlt : n < m := Nat.lt_of_le_of_ne hle hne
  have hinner : (head.text.take m)[n]? = some '(' := by
    rw [List.getElem?_take_of_lt hlt, hopen]
  have hfront := eq_append_cons_of_getElem? hinner
  rw [List.take_take, Nat.min_eq_left (Nat.le_of_lt hlt)] at hfront
  refine ⟨head.slice (n + 1) m, head.text.drop (m + 1), ?_,
    not_mem_drop_of_lastIndexOf? hclose, hparts⟩
  show head.text = head.text.take n ++ '(' :: (head.text.take m).drop (n + 1) ++ _
  rw [← hfront]
  exact eq_append_cons_of_getElem? hclosed

theorem isClassText_of_readClass (h : readClass line rest = .ok (header, inline)) :
    ∃ name bases, header = .classDef name bases ∧ IsClassText rest bases := by
  obtain ⟨head, name, bases, hsplit, rfl, hname, hbases⟩ := readClass_eq_ok.1 h
  obtain ⟨before, after, htext, hhead, -⟩ := text_of_splitHeader hsplit
  refine ⟨_, bases, rfl, before, after, htext, ?_⟩
  rw [← hhead]
  rcases hbases with ⟨-, rfl, rfl⟩ | ⟨n, hopen, rfl, hbases⟩
  · rw [hhead, trim_trim, ← hhead] at hname
    exact .inl ⟨rfl, hname⟩
  · obtain ⟨group, unread, hgroup, hunread, hparts⟩ := text_of_readBases hopen hbases
    exact .inr ⟨_, group, unread, hgroup, hname, not_mem_take_of_findIdx? hopen, hunread, hparts⟩

/-! ## Lines

What a line has to be depends on the lines around it: a decorator needs a line behind it, and an
`else` an `if` in front. -/

/-- What is required of a line of a block, with the lines below it and those after it, where
`chained` tells whether an `if` or `elif` is before it. -/
structure Line.Accepted (chained : Bool) (line : Line) (below after : Outline) : Prop where
  /-- A decorator is followed by another, by a function, by a class or by an `if`. -/
  decorator : line.text.text.head? = some '@' → below = .nil ∧ ∃ next nested rest,
    after = .cons next nested rest ∧ next.indent = line.indent ∧
      (next.text.text.head? = some '@' ∨
        ∃ keyword ∈ ["def", "class", "if"], (next.text.afterKeyword? keyword).isSome = true)
  function : ∀ rest, line.text.afterKeyword? "def" = some rest → IsFunctionText rest
  classDef : ∀ rest, line.text.afterKeyword? "class" = some rest → ∃ name bases inline,
    readHeader? chained line.text = some (.ok (.classDef name bases, inline)) ∧
      IsClassText rest bases
  /-- Between `else` and its colon nothing is read. -/
  otherwise : chained = true → ∀ rest, line.text.afterKeyword? "else" = some rest →
    ∃ (unread after : List Char) (inline : Segment), rest.text = unread ++ ':' :: after ∧
      inline.text = trim after ∧ readHeader? chained line.text = some (.ok (.otherwise, inline))

/-- `P` holds of all lines of a forest, before the first of which an `if` or `elif` stands if it is
`chained`. -/
def Outline.Every (P : Bool → Line → Outline → Outline → Prop) (chained : Bool) : Outline → Prop
  | nil => True
  | cons line below after =>
    P chained line below after ∧ below.Every P false ∧ after.Every P (line.isOpen chained)

/-! ## Blocks

By induction on the outline, in the order in which it is read. -/

theorem Line.isOpen_of_head?_at {line : Line} (hat : line.text.text.head? = some '@') :
    line.isOpen chained = false := by
  have hkeyword {keyword : String} (hk : keyword ∈ keywords) :
      line.text.afterKeyword? keyword = none := Segment.afterKeyword?_of_head?_at hk hat
  rw [isOpen, hkeyword (by decide), hkeyword (by decide), Option.isSome_none, Bool.and_false,
    Bool.or_false]

theorem Line.isOpen_of_readHeader?_eq_none {line : Line}
    (h : readHeader? chained line.text = none) : line.isOpen chained = false := by
  rw [readHeader?] at h
  simp only at h
  split at h
  case h_6 hif helif _ =>
    rw [isOpen, hif]
    cases chained with
    | false => rfl
    | true => simpa using helif
  all_goals cases h

theorem Line.isOpen_ofHeader {line : Line}
    (h : readHeader? chained line.text = some (.ok (header, inline))) (span : Span)
    (decorators : List Expr) (body : List Stmt) :
    (Clause.ofHeader span decorators header body).isOpen = line.isOpen chained := by
  have hother {keyword : String} {rest : Segment} (hk : keyword ∈ ["def", "class", "else"])
      (hrest : line.text.afterKeyword? keyword = some rest) : line.isOpen chained = false := by
    have hkeyword : keyword ∈ keywords := (by decide : ["def", "class", "else"] ⊆ keywords) hk
    have hne := (by decide : ∀ k ∈ ["def", "class", "else"], k ≠ "if" ∧ k ≠ "elif") keyword hk
    rw [isOpen, Segment.afterKeyword?_eq_none_of_ne hkeyword (by decide) hrest hne.1,
      Segment.afterKeyword?_eq_none_of_ne hkeyword (by decide) hrest hne.2, Option.isSome_none,
      Bool.and_false, Bool.or_false]
  rcases readHeader?_cases h with ⟨rest, hrest, hread⟩ | ⟨rest, hrest, hread⟩ |
    ⟨rest, cond, hrest, -, rfl⟩ | ⟨hchained, rest, cond, hrest, -, rfl⟩ |
    ⟨-, rest, _, hrest, -, rfl⟩
  · obtain ⟨⟨name, params, result?, rfl⟩, -⟩ := isFunctionText_of_readFunction hread
    exact (hother (by decide) hrest).symm
  · obtain ⟨name, bases, rfl, -⟩ := isClassText_of_readClass hread
    exact (hother (by decide) hrest).symm
  · rw [isOpen, hrest]
    rfl
  · rw [isOpen, hrest, hchained, Option.isSome_some, Bool.and_true, Bool.or_true]
    rfl
  · exact (hother (by decide) hrest).symm

namespace Outline

variable {top : Line} {nested after : Outline} {indent : Nat} {decorators : List Expr}
  {clauses : List Clause}

/-- After decorators a line must stand that takes them, or one more decorator. -/
theorem exists_next_of_clauses {o : Outline} (h : o.clauses indent decorators false = .ok clauses)
    (hne : decorators ≠ []) : ∃ next nested rest, o = cons next nested rest ∧
      next.indent = indent ∧ (next.text.text.head? = some '@' ∨
        ∃ keyword ∈ ["def", "class", "if"], (next.text.afterKeyword? keyword).isSome = true) := by
  cases o with
  | nil =>
    exact absurd (clauses_nil_eq_ok.1 h).1 hne
  | cons next nested rest =>
    obtain ⟨hindent, hcases⟩ := clauses_cases h
    refine ⟨next, nested, rest, rfl, hindent, ?_⟩
    rcases hcases with ⟨hat, -⟩ |
      ⟨-, clause, more, -, -, ⟨_, -, hnil, -⟩ | ⟨header, inline, _, -, hread, -⟩⟩
    · exact .inl hat
    · exact absurd hnil hne
    · refine .inr ?_
      rcases readHeader?_cases hread with ⟨_, hrest, -⟩ | ⟨_, hrest, -⟩ | ⟨_, _, hrest, -⟩ |
        ⟨hchained, -⟩ | ⟨hchained, -⟩
      · exact ⟨"def", by decide, by rw [hrest]; rfl⟩
      · exact ⟨"class", by decide, by rw [hrest]; rfl⟩
      · exact ⟨"if", by decide, by rw [hrest]; rfl⟩
      · cases hchained
      · cases hchained

/-- A line that starts with no decorator, and whose header is read if it has one. -/
theorem accepted_of_readHeader? (hat : top.text.text.head? ≠ some '@')
    (hread : ∀ r, readHeader? chained top.text = some r →
      ∃ header inline, r = .ok (header, inline)) :
    top.Accepted chained nested after where
  decorator h := absurd h hat
  function rest hrest := by
    obtain ⟨header, inline, hfunction⟩ := hread _ (readHeader?_def hrest)
    exact (isFunctionText_of_readFunction hfunction).2
  classDef rest hrest := by
    obtain ⟨header, inline, hclass⟩ := hread _ (readHeader?_class hrest)
    obtain ⟨name, bases, rfl, htext⟩ := isClassText_of_readClass hclass
    exact ⟨name, bases, inline, by rw [readHeader?_class hrest, hclass], htext⟩
  otherwise hchained rest hrest := by
    subst hchained
    obtain ⟨header, inline, helse⟩ := hread _ (readHeader?_else hrest)
    obtain ⟨⟨head, inline'⟩, hsplit, heq⟩ := bind_eq_ok.1 helse
    obtain ⟨before, after, htext, -, hinline⟩ := text_of_splitHeader hsplit
    cases heq
    exact ⟨before, after, inline, htext, hinline, by rw [readHeader?_else hrest, helse]⟩

/-- **The lines of a block that is read** are accepted, and so are those below them. -/
theorem every_of_clauses {o : Outline} (h : o.clauses indent decorators chained = .ok clauses) :
    o.Every Line.Accepted chained := by
  induction o generalizing indent decorators chained clauses with
  | nil => trivial
  | cons top nested after ihnested ihafter =>
    obtain ⟨hindent, ⟨hat, d, hd, rfl, hclauses⟩ | ⟨hat, clause, more, rfl, hmore, hcases⟩⟩ :=
      clauses_cases h
    · have hkeyword {keyword : String} (hk : keyword ∈ keywords) :
          top.text.afterKeyword? keyword = none := Segment.afterKeyword?_of_head?_at hk hat
      refine ⟨?_, trivial, Line.isOpen_of_head?_at hat ▸ ihafter hclauses⟩
      have hnext := exists_next_of_clauses hclauses (List.append_ne_nil_of_right_ne_nil _
        (List.cons_ne_nil d []))
      rw [← hindent] at hnext
      exact {
        decorator := fun _ => ⟨rfl, hnext⟩
        function := fun rest hrest => by cases (hkeyword (by decide)).symm.trans hrest
        classDef := fun rest hrest => by cases (hkeyword (by decide)).symm.trans hrest
        otherwise := fun _ rest hrest => by cases (hkeyword (by decide)).symm.trans hrest }
    · rcases hcases with ⟨s, rfl, rfl, hnone, -, rfl⟩ | ⟨header, inline, body, rfl, hheader, hblock⟩
      · refine ⟨accepted_of_readHeader? hat fun r hr => ?_, trivial, ?_⟩
        · cases hnone.symm.trans hr
        · exact Line.isOpen_of_readHeader?_eq_none hnone ▸ ihafter hmore
      · refine ⟨accepted_of_readHeader? hat fun r hr => ?_, ?_, ?_⟩
        · exact ⟨header, inline, (Option.some_inj.1 (hheader.symm.trans hr)).symm⟩
        · rcases hblock with ⟨-, rfl, -⟩ | ⟨-, _, _, -, hnested, -⟩
          · trivial
          · exact ihnested hnested
        · exact Line.isOpen_ofHeader hheader _ _ _ ▸ ihafter hmore

end Outline

/-- **Which text of a file is read**: every line of a file that is read is accepted, with the lines
below it and behind it.  What is said of the header of a function leaves no text out; in the header
of a class and before the colon of an `else` there may be more, of which nothing is required. -/
theorem Node.accepted_of_read {source : List Char} {node : Node} (h : Node.read source = .ok node) :
    (Outline.ofLines (Line.ofFile source)).Every Line.Accepted false := by
  obtain ⟨clauses, hclauses, -⟩ := Node.read_eq_ok.1 h
  exact Outline.every_of_clauses hclauses

/-- A class in the block of a decorated `if`, and an `else`. -/
theorem Node.accepted_of_read_chained :
    let file := Node.file ⟨0, 31⟩ [.conditional ⟨3, 31⟩ (.name ⟨6, 7⟩ "a")
      [.classDef ⟨10, 23⟩ "A" [.name ⟨18, 19⟩ "b"] [.expr ⟨22, 23⟩ (.name ⟨22, 23⟩ "c")]]
      [.expr ⟨30, 31⟩ (.name ⟨30, 31⟩ "d")]]
    Node.read "@d\nif a:\n class A(b)!:c\nelse!:d".toList = .ok file ∧
      (Outline.ofLines (Line.ofFile "@d\nif a:\n class A(b)!:c\nelse!:d".toList)).Every
        Line.Accepted false := by
  intro file
  have hread : Node.read "@d\nif a:\n class A(b)!:c\nelse!:d".toList = .ok file := by decide +kernel
  exact ⟨hread, accepted_of_read hread⟩

/-- The text behind the bases of a class and behind `else` might as well be blank, and a decorator
before an `if` leaves no trace, where the header of a function and a statement without a block are
refused. -/
theorem Node.read_unread :
    let name (start : Nat) (text : String) := Expr.name ⟨start, start + 1⟩ text
    let classFile := Node.file ⟨0, 17⟩
      [.classDef ⟨0, 17⟩ "A" [name 8 "b"] [.expr ⟨16, 17⟩ (name 16 "c")]]
    let elseFile := Node.file ⟨0, 18⟩
      [.conditional ⟨0, 18⟩ (name 3 "a") [.expr ⟨5, 6⟩ (name 5 "b")] [.expr ⟨17, 18⟩ (name 17 "c")]]
    (Node.read "class A(b) junk:c".toList = .ok classFile ∧
        Node.read "class A(b)     :c".toList = .ok classFile ∧
        Node.read "def f(b) junk:c".toList = .error (.malformed .functionDefinition ⟨0, 15⟩)) ∧
      (Node.read "if a:b\nelse junk:c".toList = .ok elseFile ∧
        Node.read "if a:b\nelse     :c".toList = .ok elseFile) ∧
      Node.read "@d\nif a:b".toList =
        .ok (.file ⟨0, 9⟩ [.conditional ⟨3, 9⟩ (name 6 "a") [.expr ⟨8, 9⟩ (name 8 "b")] []]) ∧
      Node.read "@d\nb".toList = .error (.malformed .decorator ⟨3, 4⟩) := by
  refine ⟨⟨?_, ?_, ?_⟩, ⟨?_, ?_⟩, ?_, ?_⟩ <;> decide +kernel

end TypeReveal
