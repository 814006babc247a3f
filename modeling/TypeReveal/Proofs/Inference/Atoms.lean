import TypeReveal.Proofs.Annotation.Atoms
import TypeReveal.Proofs.Inference.Annotated
import TypeReveal.Proofs.Reveal

/-!
# What is revealed for a union of atoms

What is revealed for `x: a | b | ...` depends on the values of the atoms alone: of equal ones the
first counts, all literals stand together where the first of them does, and without the extension
they are left out (`reveal_atoms`).

The file has one declaration, and what is shown is its type: the extended meaning of the annotation,
or else the standard one (`Context.typeAt_annotated`).

The right side of the statement is computed from the list of atoms without any types: equal values
are dropped, the texts of the literals are put in one pair of brackets, and the others are shown by
name.  So the theorem says of the whole way, from the text of a file through its tree, the
denotation of its annotation and the union to the line that is shown, what comes out at the end.
-/

set_option autoImplicit false
namespace TypeReveal

/-- A binding is the only declaration of a file that has nothing else in it. -/
theorem Place.declarations_of_sole {fileSpan span : Span} {name : String} {e : Expr}
    {value? : Option Expr} :
    (root (.file fileSpan [.binding span name (some e) value?])).declarations =
      [sole fileSpan (.binding span name (some e) value?)] := by
  rw [declarations, preorder_of_sole, preorder_eq, List.filter_cons_of_neg Bool.false_ne_true,
    List.filter_cons_of_pos rfl]
  refine congrArg (_ :: ·) (List.filter_eq_nil_iff.2 fun below hbelow hdeclaration => ?_)
  obtain ⟨child, hchild, hbelow⟩ := List.mem_flatMap.1 hbelow
  exact absurd (isFunction_of_declaration_below rfl hchild hbelow hdeclaration) Bool.false_ne_true

/-- The line for a file that declares `x` without a value and does nothing else. -/
theorem reveal_of_sole {source : List Char} {stop : Nat} {e : Expr}
    (hread : Node.read source = .ok (.file ⟨0, stop⟩ [.binding ⟨0, stop⟩ "x" (some e) none]))
    (mode : AnalysisMode) (extension : Bool) :
    let site := (Place.sole ⟨0, stop⟩ (.binding ⟨0, stop⟩ "x" (some e) none)).interior
    reveal source ⟨[], mode, extension⟩ = .ok ["1:1 x: " ++
      ((if extension then extended site e else none).getD
        ((standard site e).getD .unknown)).display] := by
  intro site
  have hposition : lineColumn? source 0 = some (1, 1) := by
    rw [lineColumn?, Nat.zero_min, takeBytes?]
    rfl
  have hshown (place : Place) : Inquiry.shows ⟨[], mode, extension⟩ place = true := rfl
  refine (reveal_eq_ok hread).2 ?_
  rw [List.filter_eq_self.2 fun place _ => hshown place, Place.declarations_of_sole]
  refine ⟨List.forall_mem_singleton.2 ?_, ?_⟩
  · rw [show (Place.sole ⟨0, stop⟩ _).span.start = 0 from rfl, hposition]
    rfl
  · have htext : toString 1 ++ ":" ++ toString 1 ++ " " ++ "x" ++ ": " = "1:1 x: " := by decide
    rw [List.map_singleton, Entry.text, Context.entry,
      Context.typeAt_annotated Place.sole_mem_declarations rfl,
      show (Place.sole ⟨0, stop⟩ _).span.start = 0 from rfl, hposition, ← htext]
    rfl

/-- **What is revealed for a union of atoms** is one line.  Equal atoms count once, in the place of
the first; all literals are gathered in one `Literal[...]` where the first of them stands.  Without
the extension only the other atoms are shown, and `Any` if there are none. -/
theorem reveal_atoms (mode : AnalysisMode) (first : Atom) (rest : List Atom) :
    let source := "x: ".toList ++ Atom.barred (first :: rest)
    let values := ((first :: rest).map Atom.value).eraseDups
    reveal source ⟨[], mode, true⟩ = .ok ["1:1 x: " ++
        String.ofList (List.intercalate " | ".toList (AtomValue.parts values))] ∧
      reveal source ⟨[], mode, false⟩ = .ok ["1:1 x: " ++
        if values.any AtomValue.isNamed then
          String.ofList (List.intercalate " | ".toList (AtomValue.names values))
        else "Any"] := by
  intro source values
  have hspells := Atom.spells_barred first rest
  obtain ⟨e, hholds, hdenotes⟩ := hspells.holds
  obtain ⟨whole, hwhole, hbare⟩ := hholds.ofText?
  have hname : isName "x".toList = true := by decide
  have hfile : Node.read source = _ := Node.read_annotated hname
    (hspells.sealed.mono (by decide)) hspells.sharp (by decide) (Expr.read_of_ofText? hwhole 3)
  have hline := reveal_of_sole hfile mode
  obtain ⟨hextended, hstandard⟩ := hdenotes _
    (@Place.bindsNothing_sole _ _ "x" (whole.shift 3) none) (whole.shift 3)
    ((Expr.bare_shift 3 whole).trans hbare)
  rw [AtomValue.unionOf_types] at hextended hstandard
  rw [eraseDups_filter] at hstandard
  have hne : values ≠ [] := by
    rw [show values = _ from List.eraseDups_cons]
    exact List.cons_ne_nil _ _
  constructor
  · obtain ⟨ty, hty, htext⟩ := AtomValue.exists_ofMembers hne
    rw [hline true, if_pos rfl, hextended, hty, Option.getD_some, Ty.display, htext]
  · rw [hline false, hstandard]
    -- Without the extension the literals are dropped, so there may be nothing left to join.
    cases hnamed : values.any AtomValue.isNamed with
    | true =>
      obtain ⟨value, hvalue, hname⟩ := List.any_eq_true.1 hnamed
      obtain ⟨ty, hty, htext⟩ := AtomValue.exists_ofMembers
        (List.ne_nil_of_mem (List.mem_filter.2 ⟨hvalue, hname⟩))
      rw [AtomValue.parts_filter] at htext
      rw [if_pos rfl, hty]
      exact congrArg (fun text => Except.ok ["1:1 x: " ++ String.ofList text]) htext
    | false =>
      have hnone : values.filter AtomValue.isNamed = [] :=
        List.filter_eq_nil_iff.2 fun value hvalue => List.any_eq_false.1 hnamed value hvalue
      rw [hnone]
      rfl

end TypeReveal
