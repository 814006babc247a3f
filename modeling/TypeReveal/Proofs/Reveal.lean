import TypeReveal.Proofs.Inference.Queries
import TypeReveal.Proofs.Statement.Extent
import TypeReveal.Proofs.Text.Position
import TypeReveal.Reveal

/-!
# What is revealed

The lines that are revealed for a file are entries for its declarations (`reveal_eq_ok`).

* No declaration is passed over or listed twice, and each starts after the one before it
  (`Place.pairwise_declarations`), so that lines and columns increase.
* With names, the lines are those of the same entries whose names are asked for: a session keeps
  nothing of the types it has been asked for, so it does not matter which ones those were.

`reveal_entries` is both of these.

A declaration may contain others, as a function does with the bindings in its body, so declarations
are not apart.  They still start one after another, because what contains another starts before it:
a binding and a function start with text of their own.
-/

set_option autoImplicit false
namespace TypeReveal

/-! ## The order of declarations

The places of a file are listed from the outside in and from left to right.  Of two declarations the
second stands below the first, or behind everything below it. -/

namespace Place

variable {root place below : Place} {length : Nat}

theorem isDeclaration_iff :
    place.isDeclaration = true ↔
      (∃ span name annotation? value?,
        place.node = .stmt (.binding span name annotation? value?)) ∨
      place.node.isFunction = true := by
  constructor
  · intro h
    rw [isDeclaration] at h
    split at h
    · next hnode => exact .inl ⟨_, _, _, _, hnode⟩
    · next hnode => exact .inr (by rw [hnode]; rfl)
    · cases h
  · rintro (⟨_, _, _, _, hnode⟩ | h)
    · rw [isDeclaration, hnode]
    · rw [Node.isFunction.eq_def] at h
      split at h
      · next hnode => rw [isDeclaration, hnode]
      · cases h

theorem isStmt_of_isDeclaration (h : place.isDeclaration = true) : place.node.isStmt = true := by
  rw [isDeclaration] at h
  split at h
  · next hnode => rw [hnode]; rfl
  · next hnode => rw [hnode]; rfl
  · cases h

theorem exists_declared?_of_isDeclaration (h : place.isDeclaration = true) :
    ∃ name, place.declared? = some name := by
  rw [isDeclaration] at h
  split at h
  · next hnode => exact ⟨_, by rw [declared?, hnode]; rfl⟩
  · next hnode => exact ⟨_, by rw [declared?, hnode]; rfl⟩
  · cases h

/-- Below an expression there are only expressions. -/
theorem exists_expr_of_mem_preorder {e : Expr} (hnode : place.node = .expr e)
    (hbelow : below ∈ place.preorder) : ∃ f, below.node = .expr f := by
  induction mem_preorder_iff.1 hbelow with
  | refl => exact ⟨e, hnode⟩
  | tail hparent hchild ih =>
    obtain ⟨f, hf⟩ := ih (mem_preorder_iff.2 hparent)
    have hmem := node_of_mem_placeAll hchild
    rw [hf] at hmem
    obtain ⟨g, -, hg⟩ := List.mem_map.1 hmem
    exact ⟨g, hg.symm⟩

/-- Below a binding there are only expressions. -/
theorem isFunction_of_declaration_below {child : Place} (h : place.isDeclaration = true)
    (hchild : child ∈ place.children) (hbelow : below ∈ child.preorder)
    (hdeclaration : below.isDeclaration = true) : place.node.isFunction = true := by
  refine (isDeclaration_iff.1 h).resolve_left ?_
  rintro ⟨span, name, annotation?, value?, hnode⟩
  have hmem := node_of_mem_placeAll hchild
  rw [hnode] at hmem
  obtain ⟨e, -, he⟩ := List.mem_map.1 hmem
  obtain ⟨f, hf⟩ := exists_expr_of_mem_preorder he.symm hbelow
  rw [isDeclaration, hf] at hdeclaration
  cases hdeclaration

section

variable (htree : root.IsTreeOver length)

include htree

/-- What is below a place stands inside it. -/
theorem inside_of_mem_preorder (hplace : place ∈ root.preorder) (hbelow : below ∈ place.preorder) :
    place.span.start ≤ below.span.start ∧ below.span.stop ≤ place.span.stop := by
  induction mem_preorder_iff.1 hbelow with
  | refl => exact ⟨Nat.le_refl _, Nat.le_refl _⟩
  | tail hparent hchild ih =>
    have hparent := mem_preorder_iff.2 hparent
    obtain ⟨hstart, hstop⟩ := ih hparent
    obtain ⟨hstart', hstop'⟩ := htree.inside _ (mem_preorder_trans hplace hparent) _ hchild
    exact ⟨Nat.le_trans hstart hstart', Nat.le_trans hstop' hstop⟩

/-- **Each declaration starts after the one before it.** -/
theorem pairwise_declarations (hext : root.IsExtended) {place : Place}
    (hplace : place ∈ root.preorder) :
    place.declarations.Pairwise fun a b => a.span.start < b.span.start := by
  have hchildren (child : Place) (hchild : child ∈ place.children) : child ∈ root.preorder :=
    mem_preorder_of_mem_children hplace hchild
  have hbelow : ((place.children.flatMap preorder).filter isDeclaration).Pairwise
      fun a b => a.span.start < b.span.start := by
    rw [List.filter_flatMap, List.pairwise_flatMap]
    refine ⟨fun child hchild => ?_, ?_⟩
    · have hlt := size_lt_of_mem_children hchild
      exact pairwise_declarations hext (hchildren child hchild)
    -- Two declarations below different children are kept apart by the children themselves.
    · refine (htree.apart place hplace).imp_of_mem fun {a b} ha hb hab p hp q hq => ?_
      obtain ⟨hp, hdeclaration⟩ := List.mem_filter.1 hp
      have hpa := inside_of_mem_preorder htree (hchildren a ha) hp
      have hqb := inside_of_mem_preorder htree (hchildren b hb) (List.mem_filter.1 hq).1
      calc p.span.start
        _ < p.span.stop := hext.stmt p (mem_preorder_trans (hchildren a ha) hp)
          (isStmt_of_isDeclaration hdeclaration)
        _ ≤ a.span.stop := hpa.2
        _ ≤ b.span.start := hab
        _ ≤ q.span.start := hqb.1
  rw [declarations, preorder_eq, List.filter_cons]
  split
  · next hdeclaration =>
    refine List.pairwise_cons.2 ⟨fun q hq => ?_, hbelow⟩
    obtain ⟨hq, hqdeclaration⟩ := List.mem_filter.1 hq
    obtain ⟨child, hchild, hq⟩ := List.mem_flatMap.1 hq
    have hfunction := isFunction_of_declaration_below hdeclaration hchild hq hqdeclaration
    exact Nat.lt_of_lt_of_le (hext.function place hplace hfunction child hchild)
      (inside_of_mem_preorder htree (hchildren child hchild) hq).1
  · exact hbelow
termination_by place.node.size

end

end Place

/-! ## Entries

The session is asked for the declarations that are shown, one after another, and each answer is that
of a fresh session.  So an entry is a function of the file and the declaration, and listing entries
commutes with leaving some of them out. -/

/-- What is revealed about a declaration. -/
structure Entry where
  /-- The line and the column. -/
  position : Nat × Nat
  name : String
  type : Ty

namespace Entry

/-- The line that is shown. -/
def text (entry : Entry) : String :=
  toString entry.position.1 ++ ":" ++ toString entry.position.2 ++ " " ++ entry.name ++ ": " ++
    entry.type.display

/-- Whether an entry stands before another in the text. -/
def Precedes (a b : Entry) : Prop :=
  a.position.1 < b.position.1 ∨ a.position.1 = b.position.1 ∧ a.position.2 < b.position.2

/-- An entry says where a declaration is, what it declares, and what type a new session, in which
nothing has been asked for, gives it. -/
structure Describes (entry : Entry) (source : List Char) (session : Session) (place : Place) :
    Prop where
  position : lineColumn? source place.span.start = some entry.position
  name : place.declared? = some entry.name
  type : ∀ depth, (session.file.declarations.length + 2) * (session.file.node.size + 2) ≤ depth →
    session.typeAt depth place [] = some (entry.type, [])

end Entry

/-- The entry of a declaration. -/
def Context.entry (ctx : Context) (source : List Char) (place : Place) : Entry where
  position := (lineColumn? source place.span.start).getD (1, 1)
  name := place.declared?.getD ""
  type := ctx.typeAt place

variable {source : List Char} {node : Node} {inquiry : Inquiry} {lines : List String}

theorem lineColumn?_eq_position {place : Place} (ctx : Context)
    (h : (lineColumn? source place.span.start).isSome = true) :
    lineColumn? source place.span.start = some (ctx.entry source place).position := by
  obtain ⟨position, hposition⟩ := Option.isSome_iff_exists.1 h
  rw [Context.entry, hposition]
  rfl

theorem revealLine_eq_ok (ctx : Context) (place : Place) (line : String) :
    revealLine ctx source place = .ok line ↔
      (lineColumn? source place.span.start).isSome = true ∧
        line = (ctx.entry source place).text := by
  rw [revealLine, Context.entry]
  cases lineColumn? source place.span.start with
  | none => exact ⟨fun h => (nomatch h), fun h => (nomatch h.1)⟩
  | some position =>
    exact ⟨fun h => ⟨rfl, (Except.ok.inj h).symm⟩, fun h => congrArg Except.ok h.2.symm⟩

/-- **What is revealed** are the entries of the declarations that are shown, if each of these has a
line and a column. -/
theorem reveal_eq_ok (hread : Node.read source = .ok node) :
    let shown := (Place.root node).declarations.filter inquiry.shows
    reveal source inquiry = .ok lines ↔
      (∀ place ∈ shown, (lineColumn? source place.span.start).isSome = true) ∧
        lines = shown.map fun place => ((Context.ofFile (.root node) inquiry.mode
          inquiry.extension).entry source place).text := by
  intro shown
  rw [reveal, hread]
  exact mapM_eq_ok (revealLine_eq_ok (.ofFile (.root node) inquiry.mode inquiry.extension))

/-- With names, the entries of what is shown are those whose names are asked for. -/
theorem map_entry_filter_shows (file : Place) (ctx : Context) {names : List String}
    (hnames : names ≠ []) {mode : AnalysisMode} {extension : Bool} :
    (file.declarations.filter (Inquiry.shows ⟨names, mode, extension⟩)).map (ctx.entry source) =
      (file.declarations.map (ctx.entry source)).filter (·.name ∈ names) := by
  rw [List.filter_map]
  congr 1
  refine List.filter_congr fun place hplace => ?_
  obtain ⟨name, hname⟩ := place.exists_declared?_of_isDeclaration (List.mem_filter.1 hplace).2
  rw [Inquiry.shows, Function.comp_apply, Context.entry, hname, List.isEmpty_eq_false_iff.2 hnames]
  exact List.contains_eq_mem name names

/-- The session in which a file is revealed. -/
def Session.ofFile (file : Place) (mode : AnalysisMode) (extension : Bool) : Session :=
  ⟨file, mode, if extension then [.extension] else []⟩

theorem Session.context_ofFile (file : Place) (mode : AnalysisMode) (extension : Bool) :
    (Session.ofFile file mode extension).context = .ofFile file mode extension := by
  cases extension <;> rfl

/-- The entries of the declarations of a file stand in the order of the text. -/
theorem pairwise_entries (hread : Node.read source = .ok node) {ctx : Context}
    (hposition : ∀ place ∈ (Place.root node).declarations,
      (lineColumn? source place.span.start).isSome = true) :
    ((Place.root node).declarations.map (ctx.entry source)).Pairwise Entry.Precedes := by
  have htree := Node.isTreeOver_file hread
  have hsorted := Place.pairwise_declarations htree (Node.isExtended_of_read hread)
    (Place.root node).self_mem_preorder
  refine List.pairwise_map.2 (hsorted.imp_of_mem fun {p q} hp hq hlt => ?_)
  obtain ⟨hle, hlength⟩ := htree.bounds q (List.mem_filter.1 hq).1
  exact lineColumn?_lt hlt (Nat.le_trans hle hlength) (lineColumn?_eq_position ctx (hposition p hp))
    (lineColumn?_eq_position ctx (hposition q hq))

/-- **Every declaration is revealed once, in the order of the text.**  The lines are texts of
entries, one for each binding and each function of the file; lines and columns increase.  If names
are given, what is shown are the entries whose names are among them; the types are those that a
single session gives when it is asked for the declarations that are shown, and for no others. -/
theorem reveal_entries (hread : Node.read source = .ok node)
    (hdefaults : ∀ place ∈ (Place.root node).preorder, ∀ e ∈ place.default?, e.isNameFree = true)
    {mode : AnalysisMode} {extension : Bool}
    (hlines : reveal source ⟨[], mode, extension⟩ = .ok lines) :
    let file := Place.root node
    let session := Session.ofFile file mode extension
    (file.declarations.Nodup ∧ ∀ place, place ∈ file.declarations ↔ place ∈ file.preorder ∧
        ((∃ span name annotation? value?,
          place.node = .stmt (.binding span name annotation? value?)) ∨
        place.node.isFunction = true)) ∧
      ∃ entries : List Entry,
        List.Forall₂ (fun entry place => entry.Describes source session place) entries
          file.declarations ∧
        lines = entries.map Entry.text ∧ entries.Pairwise Entry.Precedes ∧
        (∀ names : List String, names ≠ [] → reveal source ⟨names, mode, extension⟩ =
          .ok ((entries.filter (·.name ∈ names)).map Entry.text)) ∧
        ∀ depth, (file.declarations.length + 2) * (file.node.size + 2) ≤ depth →
          file.declarations.mapM (session.typeAt depth) [] = some (entries.map Entry.type, []) ∧
          ∀ names : List String, names ≠ [] →
            (file.declarations.filter (Inquiry.shows ⟨names, mode, extension⟩)).mapM
                (session.typeAt depth) [] =
              some ((entries.filter (·.name ∈ names)).map Entry.type, []) := by
  intro file session
  have hshows : file.declarations.filter (Inquiry.shows ⟨[], mode, extension⟩) =
      file.declarations := List.filter_eq_self.2 fun _ _ => rfl
  obtain ⟨hposition, hlines⟩ := (reveal_eq_ok hread).1 hlines
  rw [hshows] at hposition hlines
  -- Each answer leaves nothing busy behind, so any run of them is a run of fresh queries.
  have htype (depth : Nat) (hdepth : (file.declarations.length + 2) * (file.node.size + 2) ≤ depth)
      (place : Place) (hplace : place ∈ file.declarations) :
      Returns (session.typeAt depth place) []
        ((Context.ofFile file mode extension).typeAt place) := by
    rw [← Session.context_ofFile]
    exact (Session.returns_type (s := session) rfl hdefaults hdepth (List.mem_filter.1 hplace).1).1
  refine ⟨⟨?_, fun place => ?_⟩, file.declarations.map
    ((Context.ofFile file mode extension).entry source), ?_, ?_, pairwise_entries hread hposition,
    fun names hnames => ?_, fun depth hdepth => ⟨?_, fun names hnames => ?_⟩⟩
  · exact (List.Nodup.of_map _ file.nodup_index_preorder).filter _
  · rw [Place.declarations, List.mem_filter, Place.isDeclaration_iff]
  · refine List.forall₂_map_left_iff.2 (List.forall₂_same.2 fun place hplace => ?_)
    obtain ⟨name, hname⟩ := place.exists_declared?_of_isDeclaration (List.mem_filter.1 hplace).2
    exact {
      position := lineColumn?_eq_position _ (hposition place hplace)
      name := by rw [Context.entry, hname]; rfl
      type := fun depth hdepth => htype depth hdepth place hplace }
  · rw [hlines, List.map_map]
    rfl
  · rw [← map_entry_filter_shows file _ hnames, List.map_map]
    refine (reveal_eq_ok hread).2 ⟨fun place hplace => ?_, rfl⟩
    exact hposition place (List.mem_filter.1 hplace).1
  · rw [List.map_map]
    exact Returns.mapM (htype depth hdepth)
  · rw [← map_entry_filter_shows file _ hnames, List.map_map]
    exact Returns.mapM fun place hplace => htype depth hdepth place (List.mem_filter.1 hplace).1

/-- A decorated function with a binding in it, and a binding of the function. -/
theorem reveal_entries_nested :
    let source := "@d\ndef f(a=1):\n x=a\ny=f".toList
    ∃ entries : List Entry, entries.length = 3 ∧ entries.Pairwise Entry.Precedes ∧
      reveal source ⟨[], .codeAnalysis, true⟩ = .ok (entries.map Entry.text) ∧
      reveal source ⟨["y", "f"], .codeAnalysis, true⟩ =
        .ok ((entries.filter (·.name ∈ ["y", "f"])).map Entry.text) := by
  intro source
  let file := Node.file ⟨0, 23⟩ [
    .function ⟨0, 19⟩ "f" [.name ⟨1, 2⟩ "d"] [⟨⟨9, 12⟩, "a", none, some (.int ⟨11, 12⟩ 1)⟩] none
      [.binding ⟨16, 19⟩ "x" none (some (.name ⟨18, 19⟩ "a"))],
    .binding ⟨20, 23⟩ "y" none (some (.name ⟨22, 23⟩ "f"))]
  have hread : Node.read "@d\ndef f(a=1):\n x=a\ny=f".toList = .ok file := by decide +kernel
  have hdefaults : ∀ place ∈ (Place.root file).preorder, ∀ e ∈ place.default?,
      e.isNameFree = true := by decide
  have hposition : ∀ place ∈ (Place.root file).declarations,
      (lineColumn? source place.span.start).isSome = true := by decide
  have hlines := (@reveal_eq_ok source file ⟨[], .codeAnalysis, true⟩ _ hread).2
    ⟨fun place hplace => hposition place (List.mem_filter.1 hplace).1, rfl⟩
  obtain ⟨-, entries, hdescribes, htext, hsorted, hnames, -⟩ :=
    reveal_entries hread hdefaults hlines
  exact ⟨entries, hdescribes.length_eq, hsorted, htext ▸ hlines, hnames _ (List.cons_ne_nil _ _)⟩

end TypeReveal
