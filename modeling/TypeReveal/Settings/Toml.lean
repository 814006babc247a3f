import TypeReveal.Settings.Basic
import TypeReveal.Text.Basic

/-!
# Settings in flat TOML documents

A reader of settings (`Settings.ofFlat?`) for the part of TOML that settings are commonly written
in: lines `key = value` whose values are strings or truth values, blank lines and comments.  A key
is bare or quoted; a string stands in one or in three quotes, with or without escapes.  Whatever
else TOML has, tables and numbers for instance, is refused together with what is no TOML.

Nothing about settings depends on this reader.  It is the one that the program runs with, and what
is known of settings and of the command holds with any other in its place.
-/

set_option autoImplicit false
namespace TypeReveal
namespace Toml

/-- A value of a setting. -/
inductive Value where
  | str (text : String)
  | bool (value : Bool)
deriving DecidableEq, Repr

/-! ## Characters -/

/-- A space or a tab. -/
def isGap (c : Char) : Bool := c == ' ' || c == '\t'

/-- A character that may stand in a comment or a string: no control character but the tab. -/
def isPlain (c : Char) : Bool := c == '\t' || (0x20 ≤ c.toNat && c.toNat != 0x7f)

/-- A character of a bare key. -/
def isBare (c : Char) : Bool := c.isAlphanum || c == '_' || c == '-'

/-- The value of a hexadecimal digit. -/
def hexDigit? (c : Char) : Option Nat :=
  if c.isDigit then some (c.toNat - '0'.toNat)
  else if 'a' ≤ c && c ≤ 'f' then some (c.toNat - 'a'.toNat + 10)
  else if 'A' ≤ c && c ≤ 'F' then some (c.toNat - 'A'.toNat + 10)
  else none

/-- The character with the code point that hexadecimal digits write. -/
def codePoint? (digits : List Char) : Option Char := do
  let n ← digits.foldlM (fun n c => (hexDigit? c).map (16 * n + ·)) 0
  if h : n.isValidChar then some (Char.ofNatAux n h) else none

/-- The character that a backslash and a letter stand for. -/
def escape? (c : Char) : Option Char :=
  match c with
  | 'b' => some '\x08'
  | 't' => some '\t'
  | 'n' => some '\n'
  | 'f' => some '\x0c'
  | 'r' => some '\r'
  | '"' => some '"'
  | '\\' => some '\\'
  | _ => none

/-- The character that an escape after its backslash stands for, and what follows the escape. -/
def escaped? : List Char → Option (Char × Nat)
  | 'u' :: rest => (codePoint? (rest.take 4)).bind fun c =>
    if 4 ≤ rest.length then some (c, 5) else none
  | 'U' :: rest => (codePoint? (rest.take 8)).bind fun c =>
    if 8 ≤ rest.length then some (c, 9) else none
  | c :: _ => (escape? c).map fun c => (c, 1)
  | [] => none

/-! ## Strings

Each reader takes the text after the opening quotes and gives the string and the text after the
closing ones. -/

/-- Puts a character in front of a string that was read. -/
def prepend (c : Char) (read? : Option (List Char × List Char)) : Option (List Char × List Char) :=
  read?.map fun (body, rest) => (c :: body, rest)

/-- A string in double quotes.  `skip` characters belong to the escape before them. -/
def basic? (skip : Nat) : List Char → Option (List Char × List Char)
  | [] => none
  | c :: rest =>
    match skip with
    | skip + 1 => basic? skip rest
    | 0 =>
      if c == '"' then some ([], rest)
      else if c == '\\' then
        (escaped? rest).bind fun (e, length) => prepend e (basic? length rest)
      else if isPlain c then prepend c (basic? 0 rest)
      else none

/-- A string in single quotes. -/
def literal? : List Char → Option (List Char × List Char)
  | [] => none
  | c :: rest =>
    if c == '\'' then some ([], rest)
    else if isPlain c then prepend c (literal? rest)
    else none

/-- Whether a text starts with a line break. -/
def startsLine (text : List Char) : Bool :=
  ['\n'].isPrefixOf text || ['\r', '\n'].isPrefixOf text

/-- Where a string in three double quotes stands. -/
inductive Folding where
  | none
  /-- After a backslash that folds lines, in its own line. -/
  | line
  /-- After a folded line break, up to the next character that is not blank. -/
  | gap
deriving DecidableEq, Repr

/-- A string in three double quotes.  A backslash at the end of a line folds the line break and all
blank characters after it. -/
def basicBlock? (folding : Folding) (skip : Nat) : List Char → Option (List Char × List Char)
  | [] => none
  | c :: rest =>
    match skip with
    | skip + 1 => basicBlock? folding skip rest
    | 0 =>
      if folding ≠ .none && isGap c then basicBlock? folding 0 rest
      else if folding ≠ .none && startsLine (c :: rest) then
        basicBlock? .gap (if c == '\r' then 1 else 0) rest
      else if folding = .line then none
      else if ['"', '"', '"'].isPrefixOf (c :: rest) then some ([], rest.drop 2)
      else if c == '\\' then
        if startsLine (rest.dropWhile isGap) then basicBlock? .line 0 rest
        else (escaped? rest).bind fun (e, length) => prepend e (basicBlock? .none length rest)
      else if isPlain c || startsLine (c :: rest) || c == '\n' then
        prepend c (basicBlock? .none 0 rest)
      else none

/-- A string in three single quotes. -/
def literalBlock? : List Char → Option (List Char × List Char)
  | [] => none
  | c :: rest =>
    if ['\'', '\'', '\''].isPrefixOf (c :: rest) then some ([], rest.drop 2)
    else if isPlain c || startsLine (c :: rest) then prepend c (literalBlock? rest)
    else none

/-- A text without the line break at its start. -/
def dropLineBreak : List Char → List Char
  | '\n' :: rest => rest
  | '\r' :: '\n' :: rest => rest
  | text => text

/-! ## Lines -/

/-- The value at the start of a text, and what follows it. -/
def value? (text : List Char) : Option (Value × List Char) :=
  let str (read? : Option (List Char × List Char)) : Option (Value × List Char) :=
    read?.map fun (body, rest) => (.str (String.ofList body), rest)
  match text with
  | '"' :: '"' :: '"' :: rest => str (basicBlock? .none 0 (dropLineBreak rest))
  | '"' :: rest => str (basic? 0 rest)
  | '\'' :: '\'' :: '\'' :: rest => str (literalBlock? (dropLineBreak rest))
  | '\'' :: rest => str (literal? rest)
  | 't' :: 'r' :: 'u' :: 'e' :: rest => some (.bool true, rest)
  | 'f' :: 'a' :: 'l' :: 's' :: 'e' :: rest => some (.bool false, rest)
  | _ => none

/-- The key at the start of a text, and what follows it. -/
def key? (text : List Char) : Option (String × List Char) :=
  let read? :=
    match text with
    | '"' :: rest => basic? 0 rest
    | '\'' :: rest => literal? rest
    | _ =>
      let bare := text.takeWhile isBare
      if bare.isEmpty then none else some (bare, text.drop bare.length)
  read?.map fun (body, rest) => (String.ofList body, rest)

/-- What follows a line of which only gaps and a comment are left. -/
def endLine? (text : List Char) : Option (List Char) :=
  let text := text.dropWhile isGap
  let text := if text.head? == some '#' then text.dropWhile isPlain else text
  if text.isEmpty then some []
  else if startsLine text then some (dropLineBreak text)
  else none

/-- The key and the value at the start of a text, and what follows their line. -/
def keyValue? (text : List Char) : Option ((String × Value) × List Char) := do
  let (key, rest) ← key? (text.dropWhile isGap)
  let rest ← dropStart? ['='] (rest.dropWhile isGap)
  let (value, rest) ← value? (rest.dropWhile isGap)
  return ((key, value), ← endLine? rest)

/-! ## Documents -/

/-- The entries of a document, in order. -/
def entries? (text : List Char) : Option (List (String × Value)) :=
  if text.isEmpty then some []
  else
    match endLine? text with
    | some rest => if _ : rest.length < text.length then entries? rest else none
    | none =>
      (keyValue? text).bind fun (entry, rest) =>
        if _ : rest.length < text.length then (entries? rest).map (entry :: ·) else none
termination_by text.length

/-- The entries of a document, in order; a byte order mark at its start does not count. -/
def document? (text : List Char) : Option (List (String × Value)) :=
  entries? ((dropStart? ['\ufeff'] text).getD text)

end Toml

/-! ## Settings

A document may set `mode` and `extension`, each at most once and nothing else; what it does not set
keeps its default. -/

namespace Settings

/-- Settings with one entry more. -/
def set? (settings : Settings) (key : String) (value : Toml.Value) : Option Settings :=
  match key, value with
  | "mode", .str name => (AnalysisMode.ofName? name).map fun mode => { settings with mode }
  | "extension", .bool extension => some { settings with extension }
  | _, _ => none

/-- The settings that a flat document makes. -/
def ofFlat? (text : List Char) : Option Settings := do
  let entries ← Toml.document? text
  guard (entries.map Prod.fst).Nodup
  entries.foldlM (fun settings (key, value) => settings.set? key value) {}

end Settings
end TypeReveal
