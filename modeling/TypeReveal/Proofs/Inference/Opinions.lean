import TypeReveal.Proofs.Inference.Queries
import TypeReveal.Reveal

/-!
# What queries see of providers

A context sees of its mode and its providers nothing but the first opinion of the chain: two
contexts of one file that are `Alike` in this answer every query alike (`Context.Alike.answer?`).
The argument runs along the way in which contexts infer, from what is asked with given inferences
(`Context.Alike.declared`) to the inferences themselves (`Context.Alike.inferredWithin`, by
induction on the declarations that may still be closed).

Two changes leave the first opinions as they are.

* A provider without opinions may stand anywhere in the chain (`Context.alike_insert`).
* The mode may be another one, if no provider looks at it (`Context.alike_mode`).  The extension
  does not, nor does a provider whose answers are fixed; of `Provider.fixed`, it is the one without
  a class of its own that tells the mode.

Sessions follow their contexts, and so do the lines that are revealed
(`Session.answer_unaffected`).
-/

set_option autoImplicit false
namespace TypeReveal

/-! ## Providers

A provider is steady in the sense of functions: its opinions with one mode are those with any other.
Constant answers are, and so is what is read from annotations. -/

namespace Provider

/-- A provider whose opinions are the same in every mode. -/
structure IsSteady (p : Provider) : Prop where
  binding (mode mode' : AnalysisMode) : p.binding mode = p.binding mode'
  parameter (mode mode' : AnalysisMode) : p.parameter mode = p.parameter mode'
  result (mode mode' : AnalysisMode) : p.result mode = p.result mode'
  call (mode mode' : AnalysisMode) : p.call mode = p.call mode'
  reference (mode mode' : AnalysisMode) : p.reference mode = p.reference mode'
  function (mode mode' : AnalysisMode) : p.function mode = p.function mode'

theorem isSteady_constant (answer : Hook → Option Ty) : (constant answer).IsSteady := by
  constructor <;> exact fun _ _ => rfl

theorem isSteady_extension : extension.IsSteady := by
  constructor <;> exact fun _ _ => rfl

theorem isSteady_silent : silent.IsSteady := isSteady_constant fun _ => none

theorem isSteady_fixed (name : String) (hooks : List Hook) :
    (fixed (some name) hooks).IsSteady :=
  isSteady_constant fun hook => if hooks.contains hook then some (Ty.ofClass name) else none

end Provider

/-- No adviser looks at the mode but the one that tells it. -/
theorem Adviser.isSteady_provider {adviser : Adviser}
    (h : ∀ hooks, adviser ≠ .fixed none hooks) : adviser.provider.IsSteady := by
  cases adviser with
  | extension => exact Provider.isSteady_extension
  | silent => exact Provider.isSteady_silent
  | constant answer => exact Provider.isSteady_constant answer
  | fixed name? hooks =>
    cases name? with
    | none => exact absurd rfl (h hooks)
    | some name => exact Provider.isSteady_fixed name hooks

/-! ## Contexts with the same opinions

The chain is asked in order and the first opinion counts.  A provider that never has one is passed
over, wherever it stands. -/

/-- Two contexts of one file in which providers have the same first opinion on everything. -/
structure Context.Alike (c d : Context) : Prop where
  file : c.file = d.file
  binding (place : Place) :
    (c.ask fun p => p.binding c.mode place) = d.ask fun p => p.binding d.mode place
  parameter (param function : Place) :
    (c.ask fun p => p.parameter c.mode param function) =
      d.ask fun p => p.parameter d.mode param function
  result (function : Place) :
    (c.ask fun p => p.result c.mode function) = d.ask fun p => p.result d.mode function
  call (function : Place) (call : Node) :
    (c.ask fun p => p.call c.mode function call) = d.ask fun p => p.call d.mode function call
  reference (site : Site) (e : Expr) :
    (c.ask fun p => p.reference c.mode site e) = d.ask fun p => p.reference d.mode site e
  function (answers : Answers) (function : Place) :
    (c.ask fun p => p.function c.mode answers function) =
      d.ask fun p => p.function d.mode answers function

namespace Context

section

variable (file : Place) (mode mode' : AnalysisMode)

theorem ask_insert {before after : List Provider} {query : Provider → Option Ty}
    (h : query .silent = none) :
    Context.ask ⟨file, mode, before ++ .silent :: after⟩ query =
      Context.ask ⟨file, mode, before ++ after⟩ query := by
  simp only [ask, List.findSome?_append, List.findSome?_cons, h]

/-- **A provider without opinions** may stand anywhere in the chain. -/
theorem alike_insert (before after : List Provider) :
    Alike ⟨file, mode, before ++ .silent :: after⟩ ⟨file, mode, before ++ after⟩ where
  file := rfl
  binding _ := ask_insert file mode rfl
  parameter _ _ := ask_insert file mode rfl
  result _ := ask_insert file mode rfl
  call _ _ := ask_insert file mode rfl
  reference _ _ := ask_insert file mode rfl
  function _ _ := ask_insert file mode rfl

theorem ask_congr {providers : List Provider} {query query' : Provider → Option Ty}
    (h : ∀ p ∈ providers, query p = query' p) :
    Context.ask ⟨file, mode, providers⟩ query = Context.ask ⟨file, mode', providers⟩ query' := by
  induction providers with
  | nil => rfl
  | cons p providers ih =>
    have hrest := ih fun q hq => h q (List.mem_cons_of_mem p hq)
    simp only [ask, List.findSome?_cons] at hrest ⊢
    rw [h p List.mem_cons_self, hrest]

/-- **The mode may be another one**, if no provider looks at it. -/
theorem alike_mode {providers : List Provider} (h : ∀ p ∈ providers, p.IsSteady) :
    Alike ⟨file, mode, providers⟩ ⟨file, mode', providers⟩ where
  file := rfl
  binding place := ask_congr file mode mode' fun p hp =>
    congrFun ((h p hp).binding mode mode') place
  parameter param function := ask_congr file mode mode' fun p hp =>
    congrFun (congrFun ((h p hp).parameter mode mode') param) function
  result function := ask_congr file mode mode' fun p hp =>
    congrFun ((h p hp).result mode mode') function
  call function call := ask_congr file mode mode' fun p hp =>
    congrFun (congrFun ((h p hp).call mode mode') function) call
  reference site e := ask_congr file mode mode' fun p hp =>
    congrFun (congrFun ((h p hp).reference mode mode') site) e
  function answers function := ask_congr file mode mode' fun p hp =>
    congrFun (congrFun ((h p hp).function mode mode') answers) function

end

/-! ## The same answers

Contexts compute by functions that take what is inferred as an argument, and each of these looks at
the chain only by asking it.  So they are equal as functions, and what is inferred is equal by
induction on the budget. -/

namespace Alike

variable {c d : Context} (h : c.Alike d)

include h

theorem bindingWith : c.bindingWith = d.bindingWith := by
  funext inferred place
  rw [Context.bindingWith, h.binding, Context.bindingWith]

theorem resultWith : c.resultWith = d.resultWith := by
  funext inferred function
  rw [Context.resultWith, h.result, Context.resultWith]

theorem callWith : c.callWith = d.callWith := by
  funext inferred function call
  rw [Context.callWith, h.call, h.resultWith, Context.callWith]

theorem functionWith : c.functionWith = d.functionWith := by
  funext inferred parameter function
  simp only [Context.functionWith, Context.inferFunctionWith, h.function, h.resultWith]

/-- Declarations mean the same, given what is inferred. -/
theorem declaredWith : c.declaredWith = d.declaredWith := by
  funext inferred parameter
  simp only [Context.declaredWith, h.bindingWith, h.functionWith, h.callWith, h.reference]

theorem paramWithin (inferred : Inferred) (budget : Nat) :
    c.paramWithin inferred budget = d.paramWithin inferred budget := by
  induction budget with
  | zero => rfl
  | succ budget ih =>
    funext param function
    rw [Context.paramWithin, h.parameter, h.declaredWith, ih, Context.paramWithin]

theorem paramWith : c.paramWith = d.paramWith := by
  funext inferred param function
  rw [Context.paramWith, h.paramWithin, paramCount, h.file, Context.paramWith, paramCount]

theorem declared : c.declared = d.declared := by
  funext inferred
  rw [Context.declared, h.declaredWith, h.paramWith, Context.declared]

/-- The same is inferred, however many declarations are closed on the way.  The induction is on the
budget, as the definition is; the step uses that declarations mean the same if the same is inferred.
-/
theorem inferredWithin (budget : Nat) (unclosed : List Nat) :
    c.inferredWithin budget unclosed = d.inferredWithin budget unclosed := by
  induction budget generalizing unclosed with
  | zero => rfl
  | succ budget ih => simp only [Context.inferredWithin, h.declared, ih]

theorem inferred : c.inferred = d.inferred := by
  rw [Context.inferred, inferredFrom, h.inferredWithin, h.file, Context.inferred, inferredFrom]

theorem exprType : c.exprType = d.exprType := by
  funext place
  simp only [Context.exprType, valueType, h.declared, h.inferred]

theorem paramType : c.paramType = d.paramType := by
  funext param function
  simp only [Context.paramType, h.paramWith, h.inferred]

theorem functionType : c.functionType = d.functionType := by
  funext function
  simp only [Context.functionType, h.functionWith, h.paramWith, h.inferred]

theorem bindingType : c.bindingType = d.bindingType := by
  funext binding
  simp only [Context.bindingType, h.bindingWith, h.inferred]

theorem typeAt : c.typeAt = d.typeAt := by
  funext place
  simp only [Context.typeAt, h.bindingType, h.functionType, h.paramType, h.exprType]

/-- **Contexts with the same opinions** answer every query alike. -/
theorem answer? : c.answer? = d.answer? := by
  funext query
  cases query with
  | typeAt | expr | binding | param | function =>
    simp only [Context.answer?, h.typeAt, h.exprType, h.bindingType, h.paramType, h.functionType]
  | result => simp only [Context.answer?, resultType, h.resultWith, h.inferred]
  | call => simp only [Context.answer?, typeOfCall, h.callWith, h.inferred]
  | standard | extended | overloadedParam | overloadedResult => rfl

theorem revealLine : TypeReveal.revealLine c = TypeReveal.revealLine d := by
  funext source place
  simp only [TypeReveal.revealLine, h.typeAt]

end Alike

theorem alike_ofFile (file : Place) (mode mode' : AnalysisMode) (extension : Bool) :
    Alike (.ofFile file mode extension) (.ofFile file mode' extension) := by
  refine alike_mode file mode mode' fun p hp => ?_
  cases extension with
  | false => cases hp
  | true =>
    cases List.mem_singleton.1 hp
    exact Provider.isSteady_extension

end Context

/-- The same lines are revealed in every mode. -/
theorem reveal_mode (source : List Char) (names : List String) (mode mode' : AnalysisMode)
    (extension : Bool) :
    reveal source ⟨names, mode, extension⟩ = reveal source ⟨names, mode', extension⟩ := by
  rw [reveal, reveal]
  congr 1
  funext node
  simp only [(Context.alike_ofFile (.root node) mode mode' extension).revealLine]
  rfl

namespace Session

variable {s t : Session} {node : Node} {depth : Nat} {query : Query}

/-- **Sessions whose contexts have the same opinions** answer a query alike, and do answer it. -/
theorem exists_answer_of_alike (h : s.context.Alike t.context) (hroot : s.file = .root node)
    (hdefaults : ∀ place ∈ s.file.preorder, ∀ e ∈ place.default?, e.isNameFree = true)
    (hdepth : (s.file.declarations.length + 2) * (s.file.node.size + 2) ≤ depth)
    (hquery : query.IsIn s.file) :
    ∃ ty?, s.answer depth query [] = some (ty?, []) ∧ t.answer depth query [] = some (ty?, []) := by
  have hfile : s.file = t.file := h.file
  have hs : Returns (s.answer depth query) [] (s.context.answer? query) :=
    returns_answer hroot hdefaults hdepth hquery
  have ht : Returns (t.answer depth query) [] (t.context.answer? query) := by
    rw [hfile] at hroot hdefaults hdepth hquery
    exact returns_answer hroot hdefaults hdepth hquery
  rw [← h.answer?] at ht
  exact ⟨_, hs, ht⟩

/-- **Providers without opinions and the mode do not interfere.**  An adviser without opinions may
stand anywhere in the chain of a session, and if no adviser tells the mode then the mode may be
another one: every query is answered as before.  The same holds in contexts, for providers of any
kind, and for the lines that are revealed. -/
theorem answer_unaffected {file : Place} (hroot : file = .root node)
    (hdefaults : ∀ place ∈ file.preorder, ∀ e ∈ place.default?, e.isNameFree = true)
    (hdepth : (file.declarations.length + 2) * (file.node.size + 2) ≤ depth)
    (hquery : query.IsIn file) (mode mode' : AnalysisMode) :
    (∀ (before after : List Adviser) (quiet : Adviser), quiet.provider = .silent →
      ∃ ty?, Session.answer ⟨file, mode, before ++ quiet :: after⟩ depth query [] =
          some (ty?, []) ∧
        Session.answer ⟨file, mode, before ++ after⟩ depth query [] = some (ty?, [])) ∧
    (∀ advisers : List Adviser, (∀ hooks, .fixed none hooks ∉ advisers) →
      ∃ ty?, Session.answer ⟨file, mode, advisers⟩ depth query [] = some (ty?, []) ∧
        Session.answer ⟨file, mode', advisers⟩ depth query [] = some (ty?, [])) ∧
    (∀ before after : List Provider,
      Context.answer? ⟨file, mode, before ++ .silent :: after⟩ query =
        Context.answer? ⟨file, mode, before ++ after⟩ query) ∧
    (∀ providers : List Provider, (∀ p ∈ providers, p.IsSteady) →
      Context.answer? ⟨file, mode, providers⟩ query =
        Context.answer? ⟨file, mode', providers⟩ query) ∧
    ∀ source names extension, Node.read source = .ok node →
      reveal source ⟨names, mode, extension⟩ = reveal source ⟨names, mode', extension⟩ := by
  -- The sessions are alike as contexts, and a session answers what its context does.
  refine ⟨fun before after quiet hquiet => ?_, fun advisers hsteady => ?_,
    fun before after => ?_, fun providers hsteady => ?_, fun source names extension _ => ?_⟩
  · refine exists_answer_of_alike ?_ hroot hdefaults hdepth hquery
    simp only [context, List.map_append, List.map_cons, hquiet]
    exact Context.alike_insert file mode _ _
  · refine exists_answer_of_alike (Context.alike_mode file mode mode' fun p hp => ?_) hroot
      hdefaults hdepth hquery
    obtain ⟨adviser, hadviser, rfl⟩ := List.mem_map.1 hp
    exact Adviser.isSteady_provider fun hooks heq => hsteady hooks (heq ▸ hadviser)
  · rw [(Context.alike_insert file mode before after).answer?]
  · rw [(Context.alike_mode file mode mode' hsteady).answer?]
  · exact reveal_mode source names mode mode' extension

/-- A function that calls itself, and an adviser with a fixed opinion on calls before the extension:
with a silent adviser between the two, every place has the type that it has without it in the other
mode. -/
theorem answer_unaffected_recursive :
    let file := Place.root (.file ⟨0, 50⟩ [
      .function ⟨0, 25⟩ "f" [] [⟨⟨6, 7⟩, "a", none, none⟩] none
        [.result ⟨14, 25⟩ (some (.call ⟨21, 25⟩ (.name ⟨21, 22⟩ "f") [.name ⟨23, 24⟩ "a"]))],
      .binding ⟨26, 31⟩ "x" none (some (.name ⟨30, 31⟩ "f")),
      .binding ⟨32, 49⟩ "y" (some (.binary ⟨35, 40⟩ .bar (.int ⟨35, 36⟩ 1) (.int ⟨39, 40⟩ 2)))
        (some (.name ⟨43, 44⟩ "x"))])
    let chain : List Adviser := [.fixed (some "bytes") [.call], .extension]
    ∀ place ∈ file.preorder, ∃ ty?,
      Session.answer ⟨file, .codeAnalysis, [.fixed (some "bytes") [.call], .silent, .extension]⟩
          100 (.typeAt place) [] = some (ty?, []) ∧
        Session.answer ⟨file, .userInitiated, chain⟩ 100 (.typeAt place) [] =
          some (ty?, []) := by
  intro file chain place hplace
  have hdefaults : ∀ place ∈ file.preorder, ∀ e ∈ place.default?, e.isNameFree = true := by
    decide
  obtain ⟨hquiet, hmode, -⟩ := @answer_unaffected _ 100 (.typeAt place) file rfl hdefaults
    (by decide) hplace .codeAnalysis .userInitiated
  obtain ⟨a, hinserted, ha⟩ := hquiet [.fixed (some "bytes") [.call]] [.extension] .silent rfl
  obtain ⟨b, hb, hother⟩ := hmode chain (by simp [chain])
  have hab : some (a, []) = some (b, ([] : List Nat)) := ha.symm.trans hb
  cases hab
  exact ⟨a, hinserted, hother⟩

end Session
end TypeReveal
