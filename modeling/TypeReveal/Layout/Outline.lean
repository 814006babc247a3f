import TypeReveal.Layout.Line

/-!
# Outlines

The outline of a file is the forest of its lines by indentation: below a line stand the lines after
it that are indented deeper, up to the first that is not.  The tops of a forest are therefore
indented less and less, or alike.

Nothing is required of the indentation.  A line that is less deep than the ones before it ends as
many of the trees as are deeper, and need not be as deep as any line that came before; whether it is
in its place is for the readers of blocks to say.
-/

set_option autoImplicit false
namespace TypeReveal

/-- A forest of lines. -/
inductive Outline where
  | nil
  /-- A line, the lines below it, and the lines after those. -/
  | cons (line : Line) (nested rest : Outline)
deriving Repr

namespace Outline

/-- The trees at the start of a forest whose tops are indented deeper than `indent`, and the other
trees. -/
def span (indent : Nat) : Outline → Outline × Outline
  | nil => (nil, nil)
  | cons line nested rest =>
    if indent < line.indent then
      let (deeper, others) := span indent rest
      (cons line nested deeper, others)
    else (nil, cons line nested rest)

/-- A forest with one more line in front. -/
def push (line : Line) (outline : Outline) : Outline :=
  let (deeper, others) := outline.span line.indent
  cons line deeper others

/-- The outline of a list of lines. -/
def ofLines (lines : List Line) : Outline := lines.foldr push nil

/-- The first line of a forest. -/
def head? : Outline → Option Line
  | nil => none
  | cons line _ _ => some line

/-- The lines of a forest, in order. -/
def toLines : Outline → List Line
  | nil => []
  | cons line nested rest => line :: (nested.toLines ++ rest.toLines)

theorem toLines_span (indent : Nat) (outline : Outline) :
    (outline.span indent).1.toLines ++ (outline.span indent).2.toLines = outline.toLines := by
  induction outline with
  | nil => rfl
  | cons line nested rest _ ih =>
    simp only [span]
    split
    · simp [toLines, ih]
    · simp [toLines]

@[simp] theorem toLines_push (line : Line) (outline : Outline) :
    (outline.push line).toLines = line :: outline.toLines := by
  simp [push, toLines, toLines_span]

/-- An outline keeps the lines and their order. -/
@[simp] theorem toLines_ofLines (lines : List Line) : (ofLines lines).toLines = lines := by
  induction lines with
  | nil => rfl
  | cons line lines ih => simpa [ofLines] using ih

end Outline
end TypeReveal
