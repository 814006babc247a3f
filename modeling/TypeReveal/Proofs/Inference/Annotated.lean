import TypeReveal.Proofs.Inference.Context
import TypeReveal.Proofs.Statement.OneLine
import TypeReveal.Proofs.Ty.Spelling

/-!
# Annotated bindings

A binding with a standard annotation has the type that the annotation denotes, with the extension
as without it (`Context.typeAt_of_standard`).

Where the binding is the only statement of its file, no name is bound in its annotation
(`Place.bindsNothing_sole`).  So the file `x: type`, for a type that is shown as an annotation,
gives `x` that type again (`Ty.typeAt_display`).
-/

set_option autoImplicit false
namespace TypeReveal

variable {node : Node} {place : Place} {span fileSpan : Span} {name : String} {e : Expr}
  {value? : Option Expr} {ty : Ty}

/-! ## The type of an annotated binding

A binding is asked for in three steps, an opinion of the extension, the annotation, and the value.
A standard annotation means the same to the first two of them. -/

/-- A binding that has the type `ty` without the extension, whatever the declarations mean, has it
with the extension too, unless its annotation has an extended meaning. -/
theorem Context.typeAt_of_bindingFromValue (hmem : place ∈ (Place.root node).declarations)
    (hnode : place.node = .stmt (.binding span name (some e) value?))
    (hvalue : ∀ d, bindingFromValue d place = ty) (mode : AnalysisMode) (extension : Bool) :
    (Context.ofFile (.root node) mode extension).typeAt place =
      (if extension then extended place.interior e else none).getD ty := by
  have hopen : place.index ∈ (Place.root node).declarations.map Place.index :=
    List.mem_map_of_mem hmem
  have hinferred : (Context.ofFile (.root node) mode extension).inferred.binding place = ty := by
    rw [Context.inferred, Context.binding_inferredFrom, hvalue]
    exact if_pos hopen
  have hopinion : Provider.extendedBinding place = extended place.interior e := by
    simp only [Provider.extendedBinding, hnode]
  simp only [Context.typeAt, hnode]
  rw [Context.bindingType, Context.bindingWith, hinferred, Context.ask_ofFile, ← hopinion]
  rfl

/-- **A binding has the type of its annotation.** -/
theorem Context.typeAt_of_standard (hmem : place ∈ (Place.root node).declarations)
    (hnode : place.node = .stmt (.binding span name (some e) value?))
    (he : e.isStandard = true) (hty : standard place.interior e = some ty) (mode : AnalysisMode)
    (extension : Bool) :
    (Context.ofFile (.root node) mode extension).typeAt place = ty := by
  have hvalue : ∀ d, bindingFromValue d place = ty := by
    intro d
    simp only [bindingFromValue, hnode, settledType?, hty, Option.getD_some]
  rw [typeAt_of_bindingFromValue hmem hnode hvalue, extended_of_isStandard he, hty]
  cases extension <;> rfl

/-- **A binding without a value** has the extended type of its annotation, if the extension is there
and gives one, or else the standard one. -/
theorem Context.typeAt_annotated (hmem : place ∈ (Place.root node).declarations)
    (hnode : place.node = .stmt (.binding span name (some e) none)) (mode : AnalysisMode)
    (extension : Bool) :
    (Context.ofFile (.root node) mode extension).typeAt place =
      (if extension then extended place.interior e else none).getD
        ((standard place.interior e).getD .unknown) := by
  refine typeAt_of_bindingFromValue hmem hnode (fun d => ?_) mode extension
  simp only [bindingFromValue, hnode, settledType?]
  cases standard place.interior e with
  | some => rfl
  | none => cases isFinalAlone e <;> rfl

/-! ## Files of one statement

In a file with nothing but one binding every lookup can be carried out.  The scope of the file has a
single binding in it; it encloses its own annotation, and therefore does not count there. -/

namespace Place

/-- The place of the only statement of a file. -/
def sole (fileSpan : Span) (stmt : Stmt) : Place :=
  .child (.root (.file fileSpan [stmt])) 1 (.stmt stmt)

theorem preorder_of_sole (fileSpan : Span) (stmt : Stmt) :
    (root (.file fileSpan [stmt])).preorder =
      .root (.file fileSpan [stmt]) :: (sole fileSpan stmt).preorder := by
  rw [preorder_eq]
  exact congrArg (_ :: ·) (List.append_nil _)

theorem sole_mem_declarations :
    sole fileSpan (.binding span name (some e) value?) ∈
      (root (.file fileSpan [.binding span name (some e) value?])).declarations := by
  rw [declarations, preorder_of_sole]
  exact List.mem_filter.2 ⟨List.mem_cons_of_mem _ (self_mem_preorder _), rfl⟩

theorem declarationOf?_of_sole :
    (root (.file fileSpan [.binding span name (some e) value?])).declarationOf? name =
      some (sole fileSpan (.binding span name (some e) value?)) := by
  rw [declarationOf?, preorder_of_sole, List.find?_cons_of_neg Bool.false_ne_true, preorder_eq]
  exact List.find?_cons_of_pos (beq_self_eq_true (some name))

theorem flatStmts_of_sole :
    (root (.file fileSpan [.binding span name (some e) value?])).flatStmts =
      [sole fileSpan (.binding span name (some e) value?)] := by
  have hstmts : (root (.file fileSpan [.binding span name (some e) value?])).stmts =
      [sole fileSpan (.binding span name (some e) value?)] := rfl
  rw [flatStmts, hstmts, List.flatMap_singleton, flatten_eq]
  rfl

end Place

namespace Site

variable {site : Site} {other : String}

theorem pick?_eq_none {bs : List Binding} (h : ∀ b ∈ bs, site.inside.any (· == b.place) = true)
    (position : Nat) : site.pick? position bs = none := by
  have husable : bs.filter (fun b => !site.inside.any (· == b.place)) = [] := by simpa using h
  simp [pick?, husable]

/-- A name of which all bindings enclose the site is not bound there. -/
theorem lookupIn_eq_none {scopes : List Place}
    (h : ∀ scope ∈ scopes, ∀ classOpen, ∀ b ∈ scope.scopeBindings other classOpen,
      site.inside.any (· == b.place) = true) (position : Nat) (classOpen : Bool) :
    site.lookupIn position other classOpen scopes = none := by
  induction scopes generalizing classOpen with
  | nil => rfl
  | cons scope scopes ih =>
    rw [lookupIn, pick?_eq_none (h scope List.mem_cons_self classOpen),
      ih fun s hs => h s (List.mem_cons_of_mem _ hs)]
    rfl

end Site

/-- **The only binding of a file** sees no binding: it does not see itself. -/
theorem Place.bindsNothing_sole :
    (sole fileSpan (.binding span name (some e) value?)).interior.BindsNothing := by
  intro start other
  refine Site.lookupIn_eq_none (fun scope hscope classOpen b hb => ?_) _ _
  have hself : b = .declaration (sole fileSpan (.binding span name (some e) value?)) := by
    rcases List.mem_cons.1 hscope with rfl | hscope
    · cases hb
    · rw [List.mem_singleton.1 hscope] at hb
      simp only [scopeBindings, node] at hb
      rw [flatStmts_of_sole, List.flatMap_singleton] at hb
      simp only [bindings, sole, node] at hb
      split at hb
      · exact List.mem_singleton.1 hb
      · cases hb
  subst hself
  exact List.any_eq_true.2 ⟨_, List.mem_cons_self, beq_self_eq_true (1 : Nat)⟩

/-! ## Types that are shown

Showing a type, reading the text as a file and asking for the type of the binding are put together.
What comes back is equal by `==`, as the literals of a union have been gathered. -/

/-- **A shown type is an annotation for it**: the file `x: type` is read, declares `x`, and gives it
a type that equals the one that was shown, in both modes and with or without the extension. -/
theorem Ty.typeAt_display (h : ty.Spellable) : ∃ file x,
    Node.read ("x: " ++ ty.display).toList = .ok file ∧
      (Place.root file).declarationOf? "x" = some x ∧
      ∀ mode extension,
        ((Context.ofFile (.root file) mode extension).typeAt x == ty) = true := by
  obtain ⟨e, he⟩ := h.exists_hint
  obtain ⟨hint, hread, hbare⟩ := he.compact.read 3
  have htext : ("x: " ++ ty.display).toList = annotated "x" ty.text := by
    rw [String.toList_append, display, String.toList_ofList]
    simp [annotated]
  have hhint : hint.isHint = true := by
    rw [← Expr.isHint_bare, hbare, Expr.isHint_bare, he.isHint]
  have hname : isName "x".toList = true := by decide
  have hsealed := he.compact.sealed.mono (Stratum.separators_subset .whole)
  have hfile := Node.read_annotated hname hsealed he.compact.sharp (by decide) hread
  refine ⟨_, _, htext ▸ hfile, Place.declarationOf?_of_sole, fun mode extension => ?_⟩
  obtain ⟨t, hstandard, hkey⟩ := he.denotes (readWithin annotationDepth) _
    Place.bindsNothing_sole hint hbare
  rw [Context.typeAt_of_standard Place.sole_mem_declarations rfl
    (Expr.isStandard_of_isHint hhint) hstandard, beq_def, hkey]
  exact beq_self_eq_true ty.key

/-- A text with a quote and a line feed, between other members of a union. -/
theorem Ty.typeAt_display_tuple :
    let shown := tuple
      [union [.literal (.str "it's\n"), noneType, .literal (.int (-3))], classValue (ofClass "int")]
    shown.display = "tuple[Literal['it\\'s\\n', -3] | None, type[int]]" ∧ shown.Spellable ∧
      ∃ file x, Node.read ("x: " ++ shown.display).toList = .ok file ∧
        (Place.root file).declarationOf? "x" = some x ∧
        ∀ mode extension,
          ((Context.ofFile (.root file) mode extension).typeAt x == shown) = true := by
  have hmembers : ∀ ty ∈ [Ty.literal (.str "it's\n"), noneType, .literal (.int (-3))],
      ty.Spellable := by
    simp only [List.forall_mem_cons, List.not_mem_nil, false_imp_iff, implies_true, and_true]
    exact ⟨.literal (by decide), .noneType, .literal (by decide)⟩
  have hunion : (union [.literal (.str "it's\n"), noneType, .literal (.int (-3))]).Spellable :=
    .union (by decide) (by decide) hmembers
  have hclass : (classValue (ofClass "int")).Spellable := .classValue (.ofClass (by decide))
  have hshown := Spellable.tuple (List.forall_mem_cons.2
    ⟨hunion, List.forall_mem_cons.2 ⟨hclass, fun _ h => absurd h List.not_mem_nil⟩⟩)
  exact ⟨by decide, hshown, typeAt_display hshown⟩

end TypeReveal
