import TypeReveal.Proofs.Annotation.Budget
import TypeReveal.Proofs.Inference.Session

/-!
# Queries end and leave nothing behind

In a file in which no default of a parameter contains a name, every query to a session ends, and
afterwards the same declarations are busy as before.

* `Session.typeAt_ends` bounds how deep demands are nested by the declarations that are not busy
  and the size of what is asked about.  The annotations that are read on the way ask for nothing:
  the standard meaning bounds its own steps, and the budget of the extended one is never used up.
* `Session.answers_eq` says that a session which is asked one query after another answers each of
  them as a fresh one does.

The depth that a query needs is given by its subject, the busy declarations and the file, and is not
an assumption about the query.  A query in the middle of others has only fewer declarations to go
through, so that it needs less.
-/

set_option autoImplicit false
namespace TypeReveal

/-! ## The type at a place

The context has one function more for queries in the middle of others, in which only some
declarations are open.  With all of them open it is the function that is asked from outside. -/

namespace Context

variable (ctx : Context) (unclosed : List Nat) (place : Place)

/-- The type of the expression at a place, while only the declarations in `unclosed` are open. -/
def exprTypeFrom : Ty :=
  match place.node with
  | .expr e => valueWith (ctx.declaredFrom unclosed) place.site e
  | _ => .unknown

/-- The type of whatever is at a place, while only the declarations in `unclosed` are open. -/
def typeAtFrom : Ty :=
  match place.node with
  | .stmt (.binding ..) | .stmt (.function ..) | .stmt (.classDef ..) | .param _ =>
    (ctx.declaredFrom unclosed).declaration place
  | _ => ctx.exprTypeFrom unclosed place

theorem typeAtFrom_all :
    ctx.typeAtFrom (ctx.file.declarations.map Place.index) place = ctx.typeAt place := by
  rw [typeAtFrom, typeAt, Declared.declaration.eq_def]
  cases hnode : place.node with
  | file | expr => rfl
  | stmt stmt => cases stmt <;> rfl
  | param p => cases place.function? <;> rfl

end Context

/-- The declarations of a file that are not busy. -/
def Place.unclosed (file : Place) (busy : List Nat) : List Nat :=
  (file.declarations.filter (·.index ∉ busy)).map Place.index

theorem Place.unclosed_nil (file : Place) :
    file.unclosed [] = file.declarations.map Place.index := by
  simp [unclosed]

theorem Unclosed.of_busy (file : Place) (busy : List Nat) :
    Unclosed file busy (file.unclosed busy) where
  nodup := (Unclosed.all file).nodup.sublist (List.filter_sublist.map _)
  mem_iff place hplace := by
    rw [Place.unclosed, List.mem_map]
    constructor
    · rintro ⟨other, hother, hindex⟩
      exact hindex ▸ of_decide_eq_true (List.mem_filter.1 hother).2
    · intro hbusy
      exact ⟨place, List.mem_filter.2 ⟨hplace, decide_eq_true hbusy⟩, rfl⟩

/-! ## Queries

A query about an annotation or about overloads is answered from the tree alone.  All others go
through the step of the session. -/

/-- A query about places of a file. -/
def Query.IsIn (file : Place) : Query → Prop
  | .typeAt place | .binding place | .result place | .call place _ | .expr place
  | .function place | .standard place | .extended place _ => place ∈ file.preorder
  | .param p f => p ∈ file.preorder ∧ f ∈ file.preorder
  | .overloadedParam overloads _ | .overloadedResult overloads =>
    ∀ place ∈ overloads, place ∈ file.preorder

namespace Session

/-- Answers a query by demands that are nested less than `depth` deep.  Queries about annotations
and overloads lead to no demands. -/
def answer (s : Session) (depth : Nat) : Query → Run (Option Ty)
  | .typeAt place => return some (← s.typeAt depth place)
  | .binding binding => return some (← s.eval depth (.binding binding))
  | .param param function => return some (← s.eval depth (.param param function))
  | .result function => return some (← s.eval depth (.result function))
  | .call function call => return some (← s.eval depth (.call function call))
  | .expr place => return some (← s.exprType depth place)
  | .function function => return some (← s.eval depth (.function function))
  | .standard place => return place.standardType?
  | .extended place strict => return place.extendedType? strict
  | .overloadedParam overloads name => return TypeReveal.overloadedParam overloads name
  | .overloadedResult overloads => return TypeReveal.overloadedResult overloads

/-- Answers queries one after another; each answer comes with the declarations that are busy
afterwards. -/
def answers (s : Session) (depth : Nat) (queries : List Query) :
    Run (List (Option Ty × List Nat)) :=
  queries.mapM fun query => return (← s.answer depth query, ← get)

variable {s : Session} {node : Node} {depth : Nat} {place : Place}

section

variable (hroot : s.file = .root node) (h : s.Answers (s.eval depth) depth)
  {busy unclosed : List Nat} (hopen : Unclosed s.file busy unclosed)
  (hplace : place ∈ s.file.preorder)
  (hdepth : place.node.size + (unclosed.length + 1) * (s.file.node.size + 2) ≤ depth)

include hroot h hopen hplace hdepth

theorem returns_exprType :
    Returns (s.exprType depth place) busy (s.context.exprTypeFrom unclosed place) := by
  have hsize := Place.size_le_of_mem_preorder hplace
  rw [exprType, Context.exprTypeFrom]
  cases hnode : place.node with
  | file | stmt | param => exact .pure _
  | expr e =>
    have hvalue := Demand.depth_value_le s.file.node.size unclosed.length place.site e
    rw [hnode] at hsize hdepth
    rw [Nat.add_one_mul] at hdepth
    have hexpr : (Node.expr e).size = e.size := rfl
    refine h busy unclosed hopen (.value place.site e) ⟨?_, hsize⟩ (by omega)
    rw [hroot] at hplace ⊢
    exact Site.isIn_site hplace

theorem returns_typeAt :
    Returns (s.typeAt depth place) busy (s.context.typeAtFrom unclosed place) := by
  have hexpr := returns_exprType hroot h hopen hplace hdepth
  rw [Nat.add_one_mul] at hdepth
  have hdeclaration := h.declaration hopen (by omega) hroot hplace
  rw [typeAt, Context.typeAtFrom]
  cases hnode : place.node with
  | file | expr => exact hexpr
  | param => exact hdeclaration
  | stmt stmt =>
    cases stmt with
    | binding | function | classDef => exact hdeclaration
    | conditional | result | imports | expr | pass => exact hexpr

end

/-- **Every query for the type at a place ends**, whatever declarations are busy, and leaves them as
they are.  Demands are nested no deeper than the size of what is asked about and, for each
declaration that is not busy, as many levels as the file has nodes.  The extended meaning of an
annotation asks for nothing that lies deeper than its longest string has characters. -/
theorem typeAt_ends (hroot : s.file = .root node)
    (hdefaults : ∀ place ∈ s.file.preorder, ∀ e ∈ place.default?, e.isNameFree = true)
    (hplace : place ∈ s.file.preorder) {busy : List Nat}
    (hdepth : place.node.size + ((s.file.unclosed busy).length + 1) * (s.file.node.size + 2) ≤
      depth) :
    (∃ ty, s.typeAt depth place busy = some (ty, busy) ∧
        (busy = [] → ty = s.context.typeAt place)) ∧
      ∀ last e budget, e.longestString ≤ budget → ∀ site strict,
        extended site e strict = extendWith (extendFrom last budget) site strict e := by
  have hreturns := returns_typeAt hroot (answers_eval hroot hdefaults depth)
    (Unclosed.of_busy s.file busy) hplace hdepth
  refine ⟨⟨_, hreturns, ?_⟩, fun last e budget => extended_eq_extendWith last⟩
  rintro rfl
  rw [Place.unclosed_nil]
  exact s.context.typeAtFrom_all place

/-- Two functions that call each other, of which one returns itself, and two bindings that are
aliases of each other and the annotation of a parameter. -/
theorem typeAt_ends_recursive :
    let file := Place.root (.file ⟨0, 77⟩ [
      .function ⟨0, 38⟩ "f" [] [⟨⟨6, 10⟩, "x", some (.name ⟨9, 10⟩ "a"), none⟩,
          ⟨⟨12, 15⟩, "y", none, some (.int ⟨14, 15⟩ 1)⟩] none
        [.result ⟨22, 38⟩ (some (.tuple ⟨29, 38⟩
          [.call ⟨30, 34⟩ (.name ⟨30, 31⟩ "g") [.name ⟨32, 33⟩ "x"], .name ⟨36, 37⟩ "f"]))],
      .function ⟨39, 64⟩ "g" [] [⟨⟨45, 46⟩, "n", none, none⟩] none
        [.result ⟨53, 64⟩ (some (.call ⟨60, 64⟩ (.name ⟨60, 61⟩ "f") [.name ⟨62, 63⟩ "n"]))],
      .binding ⟨65, 70⟩ "a" none (some (.name ⟨69, 70⟩ "b")),
      .binding ⟨71, 76⟩ "b" none (some (.name ⟨75, 76⟩ "a"))])
    let session : Session := ⟨file, .codeAnalysis, [.extension]⟩
    ∀ place ∈ file.preorder, ∃ ty, session.typeAt 200 place [] = some (ty, []) := by
  intro file session place hplace
  have hdefaults : ∀ place ∈ file.preorder, ∀ e ∈ place.default?, e.isNameFree = true := by
    decide
  have hsize : file.node.size = 22 := by rfl
  have hunclosed : (file.unclosed []).length = 4 := by decide
  have hle := Place.size_le_of_mem_preorder hplace
  rw [hsize] at hle
  have hdepth : place.node.size + ((file.unclosed []).length + 1) * (file.node.size + 2) ≤ 200 := by
    rw [hunclosed, hsize]
    omega
  obtain ⟨ty, hty, -⟩ := (@typeAt_ends session _ 200 place rfl hdefaults hplace [] hdepth).1
  exact ⟨ty, hty⟩

section

variable (hroot : s.file = .root node)
  (hdefaults : ∀ place ∈ s.file.preorder, ∀ e ∈ place.default?, e.isNameFree = true)
  (hdepth : (s.file.declarations.length + 2) * (s.file.node.size + 2) ≤ depth)

include hroot hdefaults hdepth

/-- The type at a place in a session in which nothing is busy is the one in the context, and so is
that of an expression. -/
theorem returns_type (hplace : place ∈ s.file.preorder) :
    Returns (s.typeAt depth place) [] (s.context.typeAt place) ∧
      Returns (s.exprType depth place) [] (s.context.exprType place) := by
  have hopen := Unclosed.all s.file
  have h := answers_eval hroot hdefaults depth
  have hle : place.node.size + ((s.file.declarations.map Place.index).length + 1) *
      (s.file.node.size + 2) ≤ depth := by
    have hsize := Place.size_le_of_mem_preorder hplace
    rw [Nat.add_mul, Nat.two_mul] at hdepth
    rw [List.length_map, Nat.add_one_mul]
    omega
  have hall : s.context.typeAtFrom (s.file.declarations.map Place.index) place =
      s.context.typeAt place := s.context.typeAtFrom_all place
  exact ⟨hall ▸ returns_typeAt hroot h hopen hplace hle, returns_exprType hroot h hopen hplace hle⟩

/-- A query to a session in which nothing is busy has the answer of the context. -/
theorem returns_answer {query : Query} (hquery : query.IsIn s.file) :
    Returns (s.answer depth query) [] (s.context.answer? query) := by
  have hdemand (demand : Demand) (hin : demand.IsIn s.file)
      (hle : demand.depth s.file.node.size s.file.declarations.length ≤ depth) :
      Returns (s.eval depth demand) []
        (s.context.reply (s.file.declarations.map Place.index) demand) := by
    refine answers_eval hroot hdefaults depth [] _ (Unclosed.all s.file) demand hin ?_
    rwa [List.length_map]
  have htype {place : Place} (hplace : place ∈ s.file.preorder) :=
    returns_type hroot hdefaults hdepth hplace
  rw [Nat.add_mul, Nat.two_mul] at hdepth
  cases query with
  | typeAt place => exact (htype hquery).1.bind_pure
  | expr place => exact (htype hquery).2.bind_pure
  | binding place =>
    exact (hdemand (.binding place) hquery (by rw [Demand.depth]; omega)).bind_pure
  | param p f => exact (hdemand (.param p f) hquery (by rw [Demand.depth]; omega)).bind_pure
  | result place =>
    exact (hdemand (.result place) hquery (by rw [Demand.depth]; omega)).bind_pure
  | call place call =>
    exact (hdemand (.call place call) hquery (by rw [Demand.depth]; omega)).bind_pure
  | function place =>
    exact (hdemand (.function place) hquery (by rw [Demand.depth]; omega)).bind_pure
  | standard | extended | overloadedParam | overloadedResult => exact .pure _

end

/-- **A session remembers nothing between queries**: it answers all of a list of queries, after each
one no declaration is busy, and each answer is the one that a fresh session gives, and that the
context gives.  One depth is enough for every list, since a query starts with all declarations open,
as the first one did. -/
theorem answers_eq (hroot : s.file = .root node)
    (hdefaults : ∀ place ∈ s.file.preorder, ∀ e ∈ place.default?, e.isNameFree = true)
    (hdepth : (s.file.declarations.length + 2) * (s.file.node.size + 2) ≤ depth)
    {queries : List Query} (hqueries : ∀ query ∈ queries, query.IsIn s.file) :
    s.answers depth queries [] =
        some (queries.map fun query => (s.context.answer? query, []), []) ∧
      ∀ query ∈ queries, s.answer depth query [] = some (s.context.answer? query, []) := by
  have hquery : ∀ query ∈ queries, Returns (s.answer depth query) [] (s.context.answer? query) :=
    fun query hmem => returns_answer hroot hdefaults hdepth (hqueries query hmem)
  have hget : Returns get [] [] := rfl
  exact ⟨Returns.mapM fun query hmem => (hquery query hmem).bind hget.bind_pure, hquery⟩

/-- An overloaded function that calls itself and a binding of it: the same answers come twice. -/
theorem answers_eq_overloaded :
    let file := Place.root (.file ⟨0, 71⟩ [
      .function ⟨0, 35⟩ "f" [.name ⟨1, 9⟩ "overload"]
        [⟨⟨16, 22⟩, "a", some (.name ⟨19, 22⟩ "int"), none⟩] (some (.name ⟨27, 30⟩ "str"))
        [.expr ⟨32, 35⟩ (.ellipsis ⟨32, 35⟩)],
      .function ⟨36, 61⟩ "f" [] [⟨⟨42, 43⟩, "a", none, none⟩] none
        [.result ⟨50, 61⟩ (some (.call ⟨57, 61⟩ (.name ⟨57, 58⟩ "f") [.name ⟨59, 60⟩ "a"]))],
      .binding ⟨62, 70⟩ "expr" none (some (.name ⟨69, 70⟩ "f"))])
    let session : Session := ⟨file, .codeAnalysis, [.silent, .extension]⟩
    let queries := (file.preorder ++ file.preorder).map Query.typeAt
    session.answers 100 queries [] =
        some (queries.map fun query => (session.context.answer? query, []), []) ∧
      ∀ query ∈ queries,
        session.answer 100 query [] = some (session.context.answer? query, []) := by
  intro file session queries
  have hdefaults : ∀ place ∈ file.preorder, ∀ e ∈ place.default?, e.isNameFree = true := by
    decide
  refine @answers_eq session _ 100 rfl hdefaults (by decide) queries fun query hquery => ?_
  obtain ⟨place, hplace, rfl⟩ := List.mem_map.1 hquery
  exact (List.mem_append.1 hplace).elim id id

end Session
end TypeReveal
