import TypeReveal.Proofs.Annotation.Forms
import TypeReveal.Proofs.Expr.Composed
import TypeReveal.Proofs.Ty.Alternatives
import TypeReveal.Proofs.Ty.Operands
import TypeReveal.Proofs.Ty.Spelling

/-!
# Unions of atoms

An **atom** is an integer in decimal digits, a truth value, `None` or the name of a class that needs
no declaration.  Its text denotes a value, and atoms with bars between them denote the union of
their values.

* `AtomValue.unionOf_types` — the members of such a union are the different values, and
  `AtomValue.text_of_ofMembers` is how it is shown.
* `Atom.Spells text values` — a text is an annotation that denotes some values where no name is
  bound; the literals among them have no standard meaning.  `Atom.spells_barred` is the case of
  atoms with bars between them.

The values are what makes the right side of a statement about annotations short: a list of values
has no expressions, tokens or types in it, and what is to be shown for it is a function of the list.
Between the two stand the expression that an atom is, the type that it denotes, and the members of
the union of these types, one section for each step.
-/

set_option autoImplicit false
namespace TypeReveal

/-! ## Lists

Dropping repetitions commutes with an injective map and with a filter. -/

section Lists

variable {α β : Type} [BEq α]

theorem eraseDups_map [BEq β] {f : α → β} (hf : ∀ a b, (f a == f b) = (a == b)) :
    ∀ l : List α, (l.map f).eraseDups = l.eraseDups.map f
  | [] => rfl
  | a :: l => by
    have hrest : (l.map f).filter (fun b => !b == f a) = (l.filter fun b => !b == a).map f := by
      rw [List.filter_map]
      refine congrArg (List.map f) (List.filter_congr fun b _ => ?_)
      rw [Function.comp_apply, hf]
    rw [List.map_cons, List.eraseDups_cons, hrest, eraseDups_map hf, List.eraseDups_cons,
      List.map_cons]
termination_by l => l.length
decreasing_by exact Nat.lt_succ_of_le (List.length_filter_le _ _)

theorem eraseDups_filter [LawfulBEq α] (p : α → Bool) :
    ∀ l : List α, (l.filter p).eraseDups = l.eraseDups.filter p
  | [] => rfl
  | a :: l => by
    have hrest := eraseDups_filter p (l.filter fun b => !b == a)
    rw [List.filter_filter] at hrest
    cases hp : p a with
    | true =>
      rw [List.filter_cons_of_pos hp, List.eraseDups_cons, List.eraseDups_cons,
        List.filter_cons_of_pos hp, ← hrest, List.filter_filter]
      simp only [Bool.and_comm]
    | false =>
      have hother : l.filter (fun b => p b && !b == a) = l.filter p := by
        refine List.filter_congr fun b _ => ?_
        cases hb : b == a with
        | true => rw [eq_of_beq hb, hp, Bool.false_and]
        | false => rw [Bool.not_false, Bool.and_true]
      have hp : ¬ p a = true := by rw [hp]; exact Bool.false_ne_true
      rw [List.filter_cons_of_neg hp, List.eraseDups_cons, List.filter_cons_of_neg hp, ← hrest,
        hother]
termination_by l => l.length
decreasing_by exact Nat.lt_succ_of_le (List.length_filter_le _ _)

end Lists

/-! ## Values

Types of values are equal just if the values are, so the union of their types has the different
values as members. -/

/-- What an atom denotes. -/
inductive AtomValue where
  | literal (value : Literal)
  /-- `None` or a class. -/
  | named (name : String)
deriving DecidableEq, Repr

namespace AtomValue

/-- The literal that a value is, if it is one. -/
def literal? : AtomValue → Option Literal
  | literal value => some value
  | named _ => none

/-- The name that a value is shown as, if it is no literal. -/
def name? : AtomValue → Option String
  | literal _ => none
  | named name => some name

/-- Whether a value is shown as a name. -/
def isNamed (value : AtomValue) : Bool := value.name?.isSome

/-- The type of a value. -/
def type : AtomValue → Ty
  | literal value => .literal value
  | named name => .ofClass name

/-- The names among some values, as they are shown. -/
def names (values : List AtomValue) : List (List Char) :=
  (values.filterMap name?).map String.toList

/-- **The parts that some values are shown as**: all literals in one `Literal[...]` where the first
of them stands, and the names around it in their order. -/
def parts (values : List AtomValue) : List (List Char) :=
  let literals := values.filterMap literal?
  names (values.takeWhile isNamed) ++
    ((if literals.isEmpty then [] else [literalText literals]) ++
      names (values.dropWhile isNamed))

variable {values : List AtomValue} {ty : Ty}

/-- Values are equal if their types are. -/
theorem type_beq (a b : AtomValue) : (a.type == b.type) = (a == b) := by
  rw [Bool.eq_iff_iff, Ty.beq_iff_key_eq, beq_iff_eq]
  refine ⟨fun h => ?_, fun h => h ▸ rfl⟩
  cases a with
  | literal v =>
    cases b with
    | named => cases h
    | literal w =>
      have hkey : v.key = w.key := (List.cons.inj h).2
      have hcompare := (Literal.decides v w).compare_eq
      rw [hkey] at hcompare
      rw [Literal.eq_of_compareParts (hcompare.symm.trans Std.ReflCmp.compare_self)]
  | named n =>
    cases b with
    | literal => cases h
    | named m =>
      have hkey : textKey n = textKey m := List.append_cancel_right (List.cons.inj h).2
      have hcompare := (decides_textKey n m).compare_eq
      rw [hkey] at hcompare
      rw [Std.LawfulEqOrd.eq_of_compare (hcompare.symm.trans Std.ReflCmp.compare_self)]

/-- **The union of values** has the different ones as its members, of equal ones the first. -/
theorem unionOf_types (values : List AtomValue) :
    Ty.unionOf (values.map type) = Ty.ofMembers (values.eraseDups.map type) := by
  have halternatives : Ty.alternativesAll (values.map type) = values.map type := by
    rw [Ty.alternativesAll_eq_flatMap, List.flatMap_map, List.map_eq_flatMap]
    refine List.flatMap_congr fun value _ => ?_
    cases value <;> rfl
  rw [Ty.unionOf, Ty.unionMembers_eq_eraseDups, halternatives, eraseDups_map type_beq]

/-! ## How values are shown

The literals of a union are shown at the place of the first one.  Going through the values, the
first literal is replaced by all of them, and the rest are names. -/

theorem literals_types (values : List AtomValue) :
    Ty.literals (values.map type) = values.filterMap literal? := by
  rw [Ty.literals, List.filterMap_map]
  refine List.filterMap_congr fun value _ => ?_
  cases value <;> rfl

/-- Behind the literals there are only names. -/
theorem memberTexts_false (merged : List Char) (values : List AtomValue) :
    Ty.memberTexts merged false (values.map type) = names values := by
  induction values with
  | nil => rfl
  | cons value values ih =>
    cases value with
    | literal v => exact ih
    | named name => exact congrArg (name.toList :: ·) ih

theorem memberTexts_true (merged : List Char) (values : List AtomValue) :
    Ty.memberTexts merged true (values.map type) = names (values.takeWhile isNamed) ++
      ((if (values.filterMap literal?).isEmpty then [] else [merged]) ++
        names (values.dropWhile isNamed)) := by
  induction values with
  | nil => rfl
  | cons value values ih =>
    cases value with
    | literal v => exact congrArg (merged :: ·) (memberTexts_false merged values)
    | named name => exact congrArg (name.toList :: ·) ih

/-- **A union of values is shown as its parts.** -/
theorem text_of_ofMembers (h : Ty.ofMembers (values.map type) = some ty) :
    ty.text = List.intercalate " | ".toList (parts values) := by
  match values, h with
  | [.literal v], h =>
    obtain rfl := Option.some.inj h
    exact List.intercalate_singleton.symm
  | [.named name], h =>
    obtain rfl := Option.some.inj h
    exact List.intercalate_singleton.symm
  | first :: second :: rest, h =>
    obtain rfl := Option.some.inj h
    have hparts := memberTexts_true
      (literalText ((first :: second :: rest).filterMap literal?)) (first :: second :: rest)
    rw [← literals_types] at hparts
    exact congrArg (List.intercalate " | ".toList) (hparts.trans (by rw [parts, literals_types]))

example : parts [.named "int", .literal (.int 7), .named "None", .literal (.bool true)] =
    ["int".toList, "Literal[7, True]".toList, "None".toList] := by decide

/-- Values have a union, if there are any. -/
theorem exists_ofMembers (hne : values ≠ []) :
    ∃ ty, Ty.ofMembers (values.map type) = some ty ∧
      ty.text = List.intercalate " | ".toList (parts values) := by
  cases h : Ty.ofMembers (values.map type) with
  | none => exact absurd (List.map_eq_nil_iff.1 (Ty.eq_nil_of_ofMembers h)) hne
  | some ty => exact ⟨ty, rfl, text_of_ofMembers h⟩

/-- Without the literals there are the names. -/
theorem parts_filter (values : List AtomValue) :
    parts (values.filter isNamed) = names values := by
  have hliterals : (values.filter isNamed).filterMap literal? = [] := by
    rw [List.filterMap_filter, List.filterMap_eq_nil_iff]
    intro value _
    cases value <;> rfl
  have hnames : names (values.filter isNamed) = names values := by
    rw [names, List.filterMap_filter, names]
    refine congrArg (List.map String.toList) (List.filterMap_congr fun value _ => ?_)
    cases value <;> rfl
  have hall : ∀ value ∈ values.filter isNamed, isNamed value = true :=
    fun value hvalue => (List.mem_filter.1 hvalue).2
  rw [parts, hliterals, List.takeWhile_eq_self_iff.2 hall, List.dropWhile_eq_nil_iff.2 hall, hnames]
  exact List.append_nil _

end AtomValue

/-! ## Atoms

A numeral is any spelling of an integer in digits, with zeros in front and a minus perhaps.  It is
one token, of which the value is read from the digits. -/

/-- An integer in decimal digits, zeros in front included. -/
structure Numeral where
  /-- Whether a minus stands in front. -/
  negative : Bool
  digits : List Char
  ne_nil : digits ≠ []
  isDigit : ∀ c ∈ digits, c.isDigit = true

namespace Numeral

variable (n : Numeral)

/-- The minus, if there is one. -/
def sign : List Char := if n.negative then ['-'] else []

/-- The text of a numeral. -/
def text : List Char := n.sign ++ n.digits

/-- The integer that a numeral denotes. -/
def value : Int :=
  let magnitude : Int := Nat.ofDigitChars 10 n.digits 0
  if n.negative then -magnitude else magnitude

theorem number?_eq {rest : List Char} (hrest : Apart rest) :
    number? n.sign (n.digits ++ rest) = some (.int n.value, n.digits.length) := by
  rw [number?_int n.sign n.ne_nil n.isDigit hrest, digitsValue, ← Nat.ofDigitChars_eq_foldl, sign,
    value]
  cases n.negative <;> rfl

/-- **A numeral is one token.** -/
theorem exists_token : ∃ c cs, n.text = c :: cs ∧
    ∀ rest, Apart rest → token? c (cs ++ rest) = some (.int n.value, cs.length) := by
  have hnumber (rest : List Char) (hrest : Apart rest) := n.number?_eq hrest
  cases hsign : n.negative with
  | true =>
    rw [sign, hsign, if_pos rfl] at hnumber
    exact ⟨'-', n.digits, by rw [text, sign, hsign]; rfl, hnumber⟩
  | false =>
    obtain ⟨c, cs, hdigits⟩ := List.exists_cons_of_ne_nil n.ne_nil
    have hc : c.isDigit = true := n.isDigit c (hdigits ▸ List.mem_cons_self)
    rw [sign, hsign, if_neg Bool.false_ne_true, hdigits] at hnumber
    exact ⟨c, cs, by rw [text, sign, hsign, hdigits]; rfl,
      fun rest hrest => token?_unsigned hc (hnumber rest hrest)⟩

end Numeral

/-- A part of an annotation that is made of nothing else. -/
inductive Atom where
  | int (numeral : Numeral)
  | bool (value : Bool)
  | none
  | known (name : String) (h : name ∈ knownClasses)

namespace Atom

/-- The text of an atom. -/
def text : Atom → List Char
  | int numeral => numeral.text
  | bool true => "True".toList
  | bool false => "False".toList
  | none => "None".toList
  | known name _ => name.toList

/-- What an atom denotes. -/
def value : Atom → AtomValue
  | int numeral => .literal (.int numeral.value)
  | bool value => .literal (.bool value)
  | none => .named "None"
  | known name _ => .named name

/-- The expression that an atom is, spans aside. -/
def expr : Atom → Expr
  | int numeral => .int default numeral.value
  | bool value => .bool default value
  | none => .none default
  | known name _ => .name default name

/-- Atoms with bars between them. -/
def barred (atoms : List Atom) : List Char :=
  List.intercalate " | ".toList (atoms.map text)

/-! ## Texts of atoms

An atom is one token, whatever stands apart behind it, and its text is sealed and sharp as a part of
a statement. -/

/-- Whether an atom is written in digits. -/
def isNumeral : Atom → Bool
  | int _ => true
  | _ => false

/-- An atom is a numeral or a word. -/
theorem isWord_text (a : Atom) (h : a.isNumeral = false) : isWord a.text = true := by
  cases a with
  | int => cases h
  | bool value => cases value <;> decide
  | none => decide
  | known name hname => exact (by decide : ∀ w ∈ knownClasses, isWord w.toList = true) name hname

theorem exists_of_isNumeral {a : Atom} (h : a.isNumeral = true) : ∃ n, a = int n := by
  cases a with
  | int n => exact ⟨n, rfl⟩
  | _ => cases h

theorem mem_text (a : Atom) {c : Char} (hc : c ∈ a.text) : isNamePart c = true ∨ c = '-' := by
  cases hnumeral : a.isNumeral with
  | false => exact .inl ((isNamePart_of_isWord (a.isWord_text hnumeral)).2 c hc)
  | true =>
    obtain ⟨n, rfl⟩ := exists_of_isNumeral hnumeral
    rcases List.mem_append.1 hc with hc | hc
    · rw [Numeral.sign] at hc
      split at hc
      · exact .inr (List.mem_singleton.1 hc)
      · cases hc
    · exact .inl (isNamePart_of_isDigit (n.isDigit c hc))

theorem text_ne_nil (a : Atom) : a.text ≠ [] := by
  cases hnumeral : a.isNumeral with
  | false => exact (isNamePart_of_isWord (a.isWord_text hnumeral)).1
  | true =>
    obtain ⟨n, rfl⟩ := exists_of_isNumeral hnumeral
    exact List.append_ne_nil_of_right_ne_nil _ n.ne_nil

theorem sharp_text (a : Atom) : Sharp a.text := by
  refine .of_forall a.text_ne_nil fun c hc => ?_
  rcases a.mem_text hc with hpart | rfl
  · exact isBlank_of_isNamePart hpart
  · rfl

theorem sealed_text (a : Atom) : Sealed separators a.text := by
  refine Sealed.of_forall fun c hc => ?_
  rcases a.mem_text hc with hpart | rfl
  · exact ⟨isPlain_of_not_mem (not_mem_punctuation_of_isNamePart hpart),
      not_mem_of_isNamePart hpart (by decide)⟩
  · exact ⟨rfl, by decide⟩

/-- What stands for one operand whatever follows it holds the operand. -/
theorem holds_of_token {c : Char} {cs : List Char} {t : Token} {e : Expr}
    (htoken : ∀ rest, Apart rest → token? c (cs ++ rest) = some (t, cs.length))
    (he : ∀ span, ∃ e', t.operand? span = some e' ∧ e'.bare = e.bare) :
    Expr.Holds .primary e (c :: cs) := by
  intro pos rest hrest
  obtain ⟨e', he', hbare⟩ := he ⟨pos, pos + utf8Length (c :: cs)⟩
  exact ⟨[_], e', lexemes_of_token? (htoken rest hrest) pos, .operand he', hbare⟩

/-- The operand that the word of an atom is. -/
theorem operand?_word (a : Atom) (h : a.isNumeral = false) (span : Span) :
    ∃ e, (Token.word (String.ofList a.text)).operand? span = some e ∧ e.bare = a.expr.bare := by
  cases a with
  | int => cases h
  | bool value => exact ⟨.bool span value, by cases value <;> rfl, rfl⟩
  | none => exact ⟨.none span, rfl, rfl⟩
  | known name hname =>
    have hoperand : ∀ w ∈ knownClasses, (Token.word w).operand? span = some (.name span w) := by
      simp [knownClasses, Token.operand?]
    refine ⟨.name span name, ?_, rfl⟩
    rw [text, String.ofList_toList]
    exact hoperand name hname

/-- **An atom is read as its expression.** -/
theorem holds (a : Atom) : Expr.Holds .primary a.expr a.text := by
  cases hnumeral : a.isNumeral with
  | false =>
    obtain ⟨c, cs, htext⟩ := List.exists_cons_of_ne_nil a.text_ne_nil
    have hword := a.isWord_text hnumeral
    have hoperand := a.operand?_word hnumeral
    rw [htext] at hword hoperand ⊢
    exact holds_of_token (fun rest hrest => token?_word hword hrest) hoperand
  | true =>
    obtain ⟨n, rfl⟩ := exists_of_isNumeral hnumeral
    obtain ⟨c, cs, htext, htoken⟩ := n.exists_token
    rw [text, htext]
    exact holds_of_token htoken fun span => ⟨.int span n.value, rfl, rfl⟩

/-! ## What atoms denote

The standard meaning leaves literals out, and the extended one has them; of both the union of some
values is said at once. -/

/-- **An expression denotes values** where nothing is bound, wherever it stands: their union, of
which the standard meaning has the names alone. -/
def Denotes (e : Expr) (values : List AtomValue) : Prop :=
  ∀ site : Site, site.BindsNothing → ∀ e' : Expr, e'.bare = e.bare →
    extended site e' = Ty.unionOf (values.map AtomValue.type) ∧
      standard site e' = Ty.unionOf ((values.filter AtomValue.isNamed).map AtomValue.type)

theorem denotes (a : Atom) : Denotes a.expr [a.value] := by
  intro site hsite e' he
  cases a with
  | int n => cases e' with
    | int span value =>
      obtain rfl := (Expr.int.inj he).2
      exact ⟨rfl, rfl⟩
    | _ => cases he
  | bool value => cases e' with
    | bool span value' =>
      obtain rfl := (Expr.bool.inj he).2
      exact ⟨rfl, rfl⟩
    | _ => cases he
  | none => cases e' with
    | none span => exact ⟨rfl, rfl⟩
    | _ => cases he
  | known name h =>
    obtain ⟨span, rfl⟩ := Expr.exists_of_bare_eq_name he
    have hstandard : standard site (.name span name) = some (Ty.ofClass name) := by
      rw [standard, readWithin, readWith, readNameWith, hsite]
      exact namedType?_of_mem_knownClasses h
    exact ⟨(extended_of_isStandard rfl).trans hstandard, hstandard⟩

/-- A bar joins what stands on its sides. -/
theorem Denotes.bar {lhs rhs : Expr} {values more : List AtomValue} (hlhs : Denotes lhs values)
    (hrhs : Denotes rhs more) : Denotes (.binary default .bar lhs rhs) (values ++ more) := by
  intro site hsite e' he
  obtain ⟨span, lhs', rhs', rfl, hlhs', hrhs'⟩ := Expr.exists_of_bare_eq_binary he
  obtain ⟨hextended, hstandard⟩ := hlhs site hsite lhs' hlhs'
  obtain ⟨hextended', hstandard'⟩ := hrhs site hsite rhs' hrhs'
  constructor
  · rw [extended_bar, hextended, hextended', Ty.union?_unionOf, List.map_append]
  · rw [standard_binary, hstandard, hstandard', Ty.union?_unionOf, List.filter_append,
      List.map_append]

/-! ## Bars between atoms

By induction from the left, one more bar and one more atom at each step. -/

/-- A text is an annotation that denotes some values. -/
structure Spells (text : List Char) (values : List AtomValue) : Prop where
  holds : ∃ e, Expr.Holds .bar e text ∧ Denotes e values
  sealed : Sealed separators text
  sharp : Sharp text

theorem spells (a : Atom) : Spells a.text [a.value] :=
  ⟨⟨a.expr, a.holds.toAmp.toBar, a.denotes⟩, a.sealed_text, a.sharp_text⟩

/-- One more atom behind a bar. -/
theorem Spells.bar {text : List Char} {values : List AtomValue} (h : Spells text values)
    (a : Atom) : Spells (text ++ (" | ".toList ++ a.text)) (values ++ [a.value]) where
  holds := by
    obtain ⟨e, hholds, hdenotes⟩ := h.holds
    exact ⟨_, @Expr.Holds.binary _ _ _ _ .bar hholds a.holds.toAmp, hdenotes.bar a.denotes⟩
  sealed := h.sealed.append ((Sealed.of_forall (by decide)).append a.sealed_text)
  sharp := h.sharp.join _ a.sharp_text

/-- **Atoms with bars between them** denote the values of the atoms. -/
theorem spells_barred (first : Atom) (rest : List Atom) :
    Spells (barred (first :: rest)) ((first :: rest).map value) := by
  have hmore (text : List Char) (values : List AtomValue) (h : Spells text values) :
      Spells (text ++ rest.flatMap fun a => " | ".toList ++ a.text) (values ++ rest.map value) := by
    induction rest generalizing text values with
    | nil => simpa using h
    | cons a rest ih =>
      have hstep := ih _ _ (h.bar a)
      rw [List.flatMap_cons, List.map_cons]
      simpa using hstep
  have htext : ∀ (first : Atom) (rest : List Atom), barred (first :: rest) =
      first.text ++ rest.flatMap fun a => " | ".toList ++ a.text := by
    intro first rest
    induction rest generalizing first with
    | nil => simp [barred]
    | cons a rest ih =>
      have hrest := ih a
      rw [barred, List.map_cons] at hrest
      rw [barred, List.map_cons, List.map_cons, List.intercalate_cons_cons, hrest,
        List.flatMap_cons, List.append_assoc, List.append_assoc]
  rw [htext]
  exact hmore _ _ first.spells

end Atom

end TypeReveal
