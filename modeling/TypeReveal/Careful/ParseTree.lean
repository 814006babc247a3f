import TypeReveal.Careful.Segment
import TypeReveal.Syntax.Draft

/-!
# Parse trees

The grammar of expressions as a grammar that is read from left to right, with an ordered choice and
greedy repetitions, and with spaces skipped between the parts of a rule.  It is read over the tokens
of a text, which have no spaces between them; where spaces have been skipped shows in the position
of the cursor only.  A rule leaves a pair behind, with the pairs of its parts inside; signs, and the
rules for what an atom or a trailer is, leave none.

`Careful.parse` gives the pairs of a text.  Whether a text has any is known from reading it
(`Expr.read`), which also knows what to report.

Readers are put together from a few combinators, for a token, a sequence, an alternative, an option,
a repetition and a rule.  A reader returns the cursor behind what it has read, or nothing if it does
not fit.  Brackets make the grammar recursive, and the recursion is bounded by a depth, for which
the number of tokens is enough.
-/

set_option autoImplicit false
namespace TypeReveal

/-- A part of a parse tree. -/
inductive Pair where
  /-- The text is kept only where there are no pairs inside. -/
  | mk (rule : Rule) (span : Span) (text : List Char) (inner : List Pair)
deriving Repr

namespace Pair

def rule : Pair → Rule
  | mk rule .. => rule

def text : Pair → List Char
  | mk _ _ text _ => text

def inner : Pair → List Pair
  | mk _ _ _ inner => inner

end Pair

/-- A place in a text: a position, the tokens behind it, and where the text ends. -/
structure Cursor where
  pos : Nat
  rest : List Lexeme
  stop : Nat

/-- A cursor with the spaces before the next token skipped. -/
def Cursor.skip (c : Cursor) : Cursor :=
  { c with pos := (c.rest.head?.map (·.span.start)).getD c.stop }

/-- A cursor behind a token, before which it was, with `rest` to follow. -/
def Cursor.behind (c : Cursor) (l : Lexeme) (rest : List Lexeme) : Cursor :=
  { c with pos := l.span.stop, rest }

/-- A rule of a grammar, or a part of one: it reads some tokens and leaves pairs behind, or fits
nowhere here. -/
abbrev Reader := Cursor → Option (List Pair × Cursor)

namespace Reader

/-! ## Parts of rules -/

/-- A sign. -/
def mark (token : Token) : Reader := fun c =>
  match c.rest with
  | [] => none
  | l :: rest => if l.token = token then some ([], c.behind l rest) else none

/-- One part and then another. -/
def seq (p q : Reader) : Reader := fun c => do
  let (ps, c) ← p c
  let (qs, c) ← q c.skip
  return (ps ++ qs, c)

/-- The first part that fits. -/
def alt (p q : Reader) : Reader := fun c => p c <|> q c

/-- A part that may be missing. -/
def opt (p : Reader) : Reader := fun c => some ((p c).getD ([], c))

/-- A part as often as it fits, `n` times at most, with spaces before it. -/
def again (p : Reader) : Nat → Cursor → List Pair × Cursor
  | 0, c => ([], c)
  | n + 1, c =>
    match p c.skip with
    | none => ([], c)
    | some (ps, c) =>
      let (qs, c) := again p n c
      (ps ++ qs, c)

/-- A part as often as it fits. -/
def many (p : Reader) : Reader := fun c =>
  match p c with
  | none => some ([], c)
  | some (ps, c) =>
    let (qs, c) := again p c.rest.length c
    some (ps ++ qs, c)

/-- A rule that leaves a pair behind. -/
def rule (r : Rule) (p : Reader) : Reader := fun c =>
  (p c).map fun (inner, c') => ([⟨r, ⟨c.pos, c'.pos⟩, [], inner⟩], c')

/-- A part in parentheses. -/
def round (p : Reader) : Reader := seq (mark (.opening .round)) (seq p (mark (.closing .round)))

/-- A part in square brackets. -/
def square (p : Reader) : Reader := seq (mark (.opening .square)) (seq p (mark (.closing .square)))

/-- The start of a text. -/
def startOfText : Reader := fun c => some ([], c)

/-- The end of a text. -/
def endOfText : Reader := fun c =>
  if c.rest.isEmpty then some ([⟨.endOfText, ⟨c.pos, c.pos⟩, [], []⟩], c) else none

/-! ## Atoms -/

/-- The text of a segment at a span. -/
def textAt (seg : Segment) (span : Span) : List Char :=
  (byteSlice? seg.text (span.start - seg.start) (span.stop - seg.start)).getD []

/-- The pair of a string: quotes, and the text between them. -/
def stringPair (seg : Segment) (span : Span) : Pair :=
  let text := textAt seg span
  let body := text.tail.dropLast
  let inside : Span := ⟨span.start + 1, span.stop - 1⟩
  if text.head? = some '"' then
    ⟨.string, span, [], [⟨.doubleQuoted, span, [], [⟨.doubleQuotedBody, inside, body, []⟩]⟩]⟩
  else ⟨.string, span, [], [⟨.singleQuoted, span, [], [⟨.singleQuotedBody, inside, body, []⟩]⟩]⟩

/-- The pair of an atom that is a single token. -/
def tokenPair? (seg : Segment) (l : Lexeme) : Option Pair :=
  let pair (r : Rule) : Pair := ⟨r, l.span, textAt seg l.span, []⟩
  match l.token with
  | .word "True" => some (pair .trueLiteral)
  | .word "False" => some (pair .falseLiteral)
  | .word "None" => some (pair .noneLiteral)
  | .word _ => some (pair .name)
  | .int _ | .float _ => some (pair .number)
  | .str _ => some (stringPair seg l.span)
  | .ellipsis => some (pair .ellipsis)
  | _ => none

/-- An atom that is a single token. -/
def token (seg : Segment) : Reader := fun c =>
  match c.rest with
  | [] => none
  | l :: rest => (tokenPair? seg l).map fun pair => ([pair], c.behind l rest)

/-- A word of any kind. -/
def word (seg : Segment) : Reader := fun c =>
  match c.rest with
  | ⟨.word text, span⟩ :: rest =>
    some ([⟨.word, span, textAt seg span, []⟩], c.behind ⟨.word text, span⟩ rest)
  | _ => none

/-! ## Rules -/

section

-- `union` reads a union inside of brackets.
variable (seg : Segment) (union : Reader)

/-- Unions with commas between them and maybe one at the end. -/
def row (comma : Reader) : Reader := seq union (seq (many (seq comma union)) (opt comma))

/-- An expression: a union, or a tuple without parentheses. -/
def expression : Reader := rule .expression (row union (rule .comma (mark .comma)))

/-- What stands in a list and in a call. -/
def items : Reader := opt (row union (mark .comma))

/-- What an operator can stand between, if it has no operators itself. -/
def atom : Reader :=
  alt (rule .paren (round (opt (expression union)))) <|
    alt (rule .list (square (items union))) (token seg)

/-- What can follow an atom. -/
def trailer : Reader :=
  alt (rule .call (round (items union))) <|
    alt (rule .subscript (square (expression union)))
      (rule .attribute (seq (mark .dot) (word seg)))

/-- An atom and all that follows it. -/
def primary : Reader := rule .primary (seq (atom seg union) (many (trailer seg union)))

end

/-- The rule of an operator. -/
def signRule : Operator → Rule
  | .bar => .bar
  | .amp => .amp

/-- The rule of operands with an operator between them. -/
def chainRule : Operator → Rule
  | .bar => .union
  | .amp => .intersection

/-- Operands with an operator between them; any but the first may be missing. -/
def chain (op : Operator) (operand : Reader) : Reader :=
  rule (chainRule op) <| seq operand <|
    many (seq (rule (signRule op) (mark (.operator op))) (opt operand))

/-- A union with less than `depth` brackets around any part of it. -/
def union (seg : Segment) : Nat → Reader
  | 0 => fun _ => none
  | depth + 1 => chain .bar (chain .amp (primary seg (union seg depth)))

/-- A whole text. -/
def fragment (seg : Segment) (depth : Nat) : Reader :=
  rule .fragment (seq startOfText (seq (expression (union seg depth)) endOfText))

end Reader

/-- The pairs of a text, or why it has none. -/
def Careful.parse (seg : Segment) : Except Unexpected (List Pair) := do
  let _ ← Expr.read seg.text seg.start
  let ls := lexemes seg.start seg.text
  return ((Reader.fragment seg (ls.length + 1) ⟨seg.start, ls, seg.span.stop⟩).map Prod.fst).getD []

end TypeReveal
