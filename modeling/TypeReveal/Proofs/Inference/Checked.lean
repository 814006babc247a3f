import TypeReveal.Proofs.Inference.Narrowing
import TypeReveal.Proofs.Resolution

/-!
# What a check is about

A conditional is found to narrow a name by its spelling alone.  Still the check is about the binding
that the name has (`narrowed?_checksFor`), if this binding stands before the conditional and the
name is not inside a binding of itself: the name in the check is bound by it as well, and nothing
between the start of the conditional and the place binds the name anew.

Both names look theirs up where the conditional does (`Place.Shares`): what is between opens no
scope and binds no such name, so that they see the same scopes (`Shares.sees_iff`) and the same
bindings count (`Shares.counts_iff`).  The binding that is picked at the place ends before the
conditional, hence before the check, and so it is picked there as well (`Shares.finds`).  A binding
of the scope after it would either end before the place and be picked instead, or enclose the place,
since two places of a tree stand one above the other or apart.
-/

set_option autoImplicit false
namespace TypeReveal

namespace Place

variable {u s c p parent scope : Place} {name : String} {binding? : Option Binding} {b : Binding}
  {ty : Ty} {node : Node} {length : Nat}

/-! ## Scopes that are seen

A place sees the scopes around it, where a class is seen only from directly inside.  Conditionals
are no scopes, and passing one changes nothing. -/

/-- Nothing but functions, classes and the file is a scope. -/
theorem not_isScope_of_parent? (hp : p ∈ (root node).preorder) (hparent : p.parent? = some parent)
    (hkind : p.node.isFunction = false ∧ p.node.isClass = false) {classOpen : Prop} :
    ¬ p.IsScope classOpen := by
  have hchild := mem_children_of_parent? hp hparent
  intro h
  rw [IsScope] at h
  split at h
  · next hnode => exact node_ne_file_of_mem_children hchild _ _ hnode
  · next hnode =>
    rw [hnode] at hkind
    cases hkind.1
  · next hnode =>
    rw [hnode] at hkind
    cases hkind.2
  · exact h

/-- A place sees the same scopes as the place above it, unless that is a scope. -/
theorem sees_iff_of_parent? (hparent : u.parent? = some parent)
    (hfunction : parent.node.isFunction = false)
    (hscope : ∀ classOpen, ¬ parent.IsScope classOpen) : u.Sees scope ↔ parent.Sees scope := by
  have hopen : (∀ f ∈ u.ancestors, f.node.isFunction = true → scope ∉ f.ancestors) ↔
      ∀ f ∈ parent.ancestors, f.node.isFunction = true → scope ∉ f.ancestors := by
    rw [ancestors_of_parent? hparent, chain, List.forall_mem_cons]
    exact and_iff_right fun h => absurd h (by rw [hfunction]; exact Bool.false_ne_true)
  rw [Sees, Sees, isScope_congr hopen]
  constructor
  · rintro ⟨hmem, hopen⟩
    rw [ancestors_of_parent? hparent] at hmem
    rcases List.mem_cons.1 hmem with rfl | hmem
    · exact absurd hopen (hscope _)
    · exact ⟨hmem, hopen⟩
  · rintro ⟨hmem, hopen⟩
    rw [ancestors_of_parent? hparent]
    exact ⟨List.mem_cons_of_mem _ hmem, hopen⟩

/-! ## Below a conditional

What could distinguish the two places is a scope that one of them is in and the other is not, or a
binding that encloses one and not the other.  By `Shares` there is neither for the name in question.
-/

theorem IsConditional.kind (h : c.IsConditional) :
    c.node.isFunction = false ∧ c.node.isClass = false := by
  obtain ⟨_, _, _, _, hnode⟩ := h
  rw [hnode]
  exact ⟨rfl, rfl⟩

/-- What binds a name declares or imports it. -/
theorem Binds.declared?_or (h : scope.Binds name b) : b.place.declared? = some name ∨
    ∃ span module? names, b.place.node = .stmt (.imports span module? names) := by
  cases h with
  | param _ hname => exact .inl hname
  | declaration _ hname => exact .inl hname
  | imported _ hnode => exact .inr ⟨_, _, _, hnode⟩

/-- No expression binds a name. -/
theorem Binds.ne_of_expr (h : scope.Binds name b) {e : Expr} (hexpr : u.node = .expr e) :
    b.place ≠ u := by
  intro heq
  rcases h.declared?_or with hname | ⟨_, _, _, hnode⟩
  · rw [heq, declared?, hexpr] at hname
    cases hname
  · rw [heq, hexpr] at hnode
    cases hnode

/-- **An expression below a conditional looks `name` up where the conditional does**: nothing
between opens a scope or declares the name. -/
structure Shares (u : Place) (name : String) (c : Place) : Prop where
  conditional : c.IsConditional
  above : c ∈ u.ancestors
  scope : ∀ p ∈ u.ancestors, c ∈ p.ancestors → p.node.isFunction = false ∧ p.node.isClass = false
  fresh : ∀ p ∈ u.ancestors, c ∈ p.ancestors → p.declared? ≠ some name
  expr : ∃ e, u.node = .expr e

namespace Shares

variable (h : u.Shares name c) (hu : u ∈ (root node).preorder)

include h hu

/-- The scopes that are seen are those of the conditional. -/
theorem sees_iff : u.Sees scope ↔ c.Sees scope := by
  obtain ⟨hconditional, habove, hkind, -, -⟩ := h
  induction u with
  | root => cases habove
  | child parent i n ih =>
    have hparent := mem_preorder_of_mem_ancestors hu List.mem_cons_self
    rcases List.mem_cons.1 habove with rfl | habove
    · refine sees_iff_of_parent? rfl hconditional.kind.1 fun classOpen hscope => ?_
      obtain ⟨_, _, _, _, hnode⟩ := hconditional
      rw [IsScope, hnode] at hscope
      exact hscope
    · have hkind' := hkind parent List.mem_cons_self habove
      obtain ⟨q, hq⟩ := exists_parent?_of_mem_ancestors habove
      rw [sees_iff_of_parent? rfl hkind'.1 fun _ => not_isScope_of_parent? hparent hq hkind']
      exact ih hparent habove fun p hp hc => hkind p (List.mem_cons_of_mem _ hp) hc

/-- What binds the name and encloses the place encloses the conditional as well. -/
theorem mem_ancestors_of_binds (hbinds : scope.Binds name b) (hmem : b.place ∈ u.ancestors) :
    b.place ∈ c.ancestors := by
  rcases hbinds.declared?_or with hname | ⟨_, _, _, hnode⟩
  · rcases mem_chain_or_mem_ancestors hmem h.above with hchain | hbelow
    · refine (List.mem_cons.1 hchain).resolve_left fun heq => ?_
      rw [heq, declared?_of_isConditional h.conditional] at hname
      cases hname
    · exact absurd hname (h.fresh _ hmem hbelow)
  · -- Nothing stands below an import.
    obtain ⟨child, hchild, -⟩ := exists_child_of_mem_ancestors hu hmem
    rw [children, hnode] at hchild
    cases hchild

/-- The bindings that count are those that do not enclose the conditional. -/
theorem counts_iff : u.Counts scope name b ↔ scope.Binds name b ∧ b.place ∉ c.ancestors := by
  obtain ⟨e, hexpr⟩ := h.expr
  constructor
  · rintro ⟨hbinds, -, hfresh⟩
    exact ⟨hbinds, fun hmem => hfresh (mem_ancestors_trans hmem h.above)⟩
  · rintro ⟨hbinds, hfresh⟩
    exact ⟨hbinds, hbinds.ne_of_expr hexpr,
      fun hmem => hfresh (h.mem_ancestors_of_binds hu hbinds hmem)⟩

end Shares

/-- **What is found at one place is found at another** below the same conditional that comes before
it, if it ends before the conditional. -/
theorem Shares.finds (htree : (root node).IsTreeOver length) (hu : u.Shares name c)
    (humem : u ∈ (root node).preorder) (hs : s.Shares name c) (hsmem : s ∈ (root node).preorder)
    (hle : s.span.start ≤ u.span.start) (hbefore : b.place.span.stop ≤ c.span.start)
    (h : u.Finds u.Sees name b) : s.Finds s.Sees name b := by
  have hcounts (scope : Place) (b : Binding) :
      s.Counts scope name b ↔ u.Counts scope name b := by
    rw [hs.counts_iff hsmem, hu.counts_iff humem]
  have hsees (scope : Place) : s.Sees scope ↔ u.Sees scope := by
    rw [hs.sees_iff hsmem, hu.sees_iff humem]
  have hcs := (htree.inside_of_mem_chain hsmem (List.mem_cons_of_mem _ hs.above)).1
  obtain ⟨scope, hscope, ⟨hcount, hpick⟩, hinner⟩ := h
  refine ⟨scope, (hsees scope).2 hscope, ⟨(hcounts _ _).2 hcount, .inl ⟨?_, ?_⟩⟩, ?_⟩
  · exact Nat.le_trans hbefore hcs
  · intro other hother hstop
    have hstop' := Nat.le_trans hstop hle
    rcases hpick with ⟨-, hlast⟩ | hnone
    · exact hlast other ((hcounts _ _).1 hother) hstop'
    · have hlt := (hnone other ((hcounts _ _).1 hother)).1
      exact absurd hstop' (Nat.not_le.2 hlt)
  · intro inner hmem habove other hother
    exact hinner inner ((hsees inner).1 hmem) habove other ((hcounts _ _).1 hother)

/-- **A binding of the scope that starts between the conditional and the place** encloses the
place, if what is picked ends before the conditional. -/
theorem Shares.mem_ancestors_of_picks (htree : (root node).IsTreeOver length)
    (hext : (root node).IsExtended) (h : u.Shares name c) (hu : u ∈ (root node).preorder)
    (hscope : scope ∈ (root node).preorder) (hpicks : u.Picks scope name b)
    (hbefore : b.place.span.stop ≤ c.span.start) {other : Binding}
    (hother : scope.Binds name other) (hafter : c.span.start ≤ other.place.span.start)
    (hstart : other.place.span.start < u.span.start) : other.place ∈ u.ancestors := by
  by_contra hnot
  have hcounts : u.Counts scope name other := by
    rw [h.counts_iff hu]
    exact ⟨hother, fun hmem => hnot (mem_ancestors_trans hmem h.above)⟩
  have hmem := hother.mem_preorder hscope
  rcases htree.above_or_apart hmem hu with hchain | hchain | hends | hbegins
  · rcases List.mem_cons.1 hchain with heq | habove
    · exact hcounts.2.1 heq
    · exact hnot habove
  · exact Nat.not_le.2 hstart (htree.inside_of_mem_chain hmem hchain).1
  · rcases hpicks.2 with ⟨-, hlast⟩ | hnone
    · have hlt := hpicks.1.1.start_lt_stop hext hscope
      have hle := hlast other hcounts hends
      omega
    · exact Nat.not_le.2 (hnone other hcounts).1 hends
  · have hle := (htree.bounds u hu).1
    omega

/-! ## The check of a conditional

The name in the check stands in the condition, which comes before the branches.  So it is before
everything in the first branch, and behind everything that ends before the conditional. -/

/-- The first argument of the call that is the condition of a conditional. -/
def subject? (c : Place) : Option Place := c.children.head?.bind (·.children[1]?)

/-- The first argument of a check is the name that is checked; it stands below the condition. -/
theorem Checks.exists_subject (h : c.Checks name ty) :
    ∃ s call, c.subject? = some s ∧ (∃ at', s.node = .expr (.name at' name)) ∧
      s ∈ call.children ∧ (∃ e, call.node = .expr e) ∧ c.children.head? = some call := by
  obtain ⟨_, cond, callee, subject, info, _, _, hnode, -⟩ := h
  let call := child c (c.index + 1)
    (.expr (.call cond (.name callee "isinstance") [.name subject name, info]))
  have hcall : c.children.head? = some call := by
    rw [children, hnode]
    rfl
  refine ⟨_, call, ?_, ⟨subject, rfl⟩, List.mem_of_getElem? (i := 1) rfl, ⟨_, rfl⟩, hcall⟩
  rw [subject?, hcall]
  rfl

/-- **The check of `c` is about the binding `b`** that a name has at the place `u`. -/
structure ChecksFor (u : Place) (name : String) (b : Binding) (c : Place) : Prop where
  /-- The first argument of the check has this binding. -/
  subject : ∃ s at', c.subject? = some s ∧ s.node = .expr (.name at' name) ∧
    s.site.bindingOf (.name at' name) = some b
  /-- The place is in the first branch of the conditional. -/
  branch : ∃ stmt ∈ c.thenBranch, stmt ∈ u.chain
  /-- No function and no class lies between. -/
  scope : ∀ p ∈ u.ancestors, c ∈ p.ancestors → p.node.isFunction = false ∧ p.node.isClass = false
  /-- What binds the name in the scope of `b` and starts after the conditional but before the place
  encloses the place. -/
  unbound : ∃ scope, u.Sees scope ∧ scope.Binds name b ∧ ∀ other, scope.Binds name other →
    c.span.start ≤ other.place.span.start → other.place.span.start < u.span.start →
    other.place ∈ u.ancestors

theorem NarrowedBy.isConditional (h : u.NarrowedBy name binding? c ty) : c.IsConditional := by
  obtain ⟨_, _, _, _, _, _, _, hnode, -⟩ := h.check
  exact ⟨_, _, _, _, hnode⟩

/-- A name that a conditional narrows looks its bindings up where the conditional does. -/
theorem NarrowedBy.shares (h : u.NarrowedBy name binding? c ty) (hu : u ∈ (root node).preorder)
    {e : Expr} (hexpr : u.node = .expr e)
    (hbinding : ∀ p ∈ u.ancestors, ∀ at' annotation? value?,
      p.node ≠ .stmt (.binding at' name annotation? value?)) : u.Shares name c where
  conditional := h.isConditional
  above := h.mem_ancestors
  scope := h.scope
  fresh p hp hc hname := by
    have hkind := h.scope p hp hc
    have hmem := mem_preorder_of_mem_ancestors hu hp
    rw [declared?] at hname
    cases hnode : p.node with
    | file | expr =>
      rw [hnode] at hname
      cases hname
    | param q =>
      -- The function of a parameter would stand between as well.
      obtain ⟨function, hfunction⟩ := exists_parent?_of_mem_ancestors hc
      have htrue := isFunction_of_param_mem_children (mem_children_of_parent? hmem hfunction) hnode
      rw [ancestors_of_parent? hfunction] at hc
      rcases List.mem_cons.1 hc with rfl | hc
      · rw [h.isConditional.kind.1] at htrue
        cases htrue
      · have habove : function ∈ p.ancestors := by
          rw [ancestors_of_parent? hfunction]
          exact List.mem_cons_self
        rw [(h.scope function (mem_ancestors_trans habove hp) hc).1] at htrue
        cases htrue
    | stmt st =>
      rw [hnode] at hname hkind
      cases st with
      | function => cases hkind.1
      | classDef => cases hkind.2
      | binding at' declared annotation? value? =>
        cases hname
        exact hbinding p hp _ _ _ hnode
      | _ => cases hname
  expr := ⟨e, hexpr⟩

/-- The parts of a condition look their bindings up where the conditional does. -/
theorem IsConditional.shares (h : c.IsConditional) {call : Place} (hcall : call ∈ c.children)
    (hs : s ∈ call.children) {e e' : Expr} (hcallNode : call.node = .expr e)
    (hnode : s.node = .expr e') (name : String) : s.Shares name c := by
  have hancestors : s.ancestors = call :: c.chain := by
    rw [ancestors_of_parent? (parent?_of_mem_children hs), chain,
      ancestors_of_parent? (parent?_of_mem_children hcall)]
  have hbetween : ∀ p ∈ s.ancestors, c ∈ p.ancestors → p = call := by
    intro p hp hc
    rw [hancestors] at hp
    exact (List.mem_cons.1 hp).resolve_right (not_mem_chain_of_mem_ancestors hc)
  refine ⟨h, ?_, fun p hp hc => ?_, fun p hp hc => ?_, e', hnode⟩
  · rw [hancestors]
    exact List.mem_cons_of_mem _ List.mem_cons_self
  · rw [hbetween p hp hc, hcallNode]
    exact ⟨rfl, rfl⟩
  · rw [hbetween p hp hc, declared?, hcallNode]
    exact (Option.some_ne_none name).symm

/-- The condition comes before the first branch. -/
theorem precedes_of_mem_thenBranch (htree : (root node).IsTreeOver length)
    (hc : c ∈ (root node).preorder) {call stmt : Place} (hcall : c.children.head? = some call)
    {e : Expr} (hnode : call.node = .expr e) (hstmt : stmt ∈ c.thenBranch) :
    call.Precedes stmt := by
  obtain ⟨rest, hrest⟩ : ∃ rest, c.children = call :: rest := List.head?_eq_some_iff.1 hcall
  obtain ⟨hmem, hkind⟩ := List.mem_filter.1 (mem_stmts_of_mem_thenBranch hstmt)
  have hne : stmt ≠ call := by
    rintro rfl
    rw [hnode] at hkind
    cases hkind
  have hapart := htree.apart c hc
  rw [hrest] at hmem hapart
  exact (List.pairwise_cons.1 hapart).1 stmt ((List.mem_cons.1 hmem).resolve_left hne)

/-- The name in a check looks its bindings up where the conditional does, and comes before the names
that are narrowed. -/
theorem NarrowedBy.exists_subject (h : u.NarrowedBy name binding? c ty)
    (htree : (root node).IsTreeOver length) (hu : u ∈ (root node).preorder) :
    ∃ s ∈ (root node).preorder, ∃ at', c.subject? = some s ∧ s.node = .expr (.name at' name) ∧
      s.Shares name c ∧ s.span.start ≤ u.span.start := by
  have hc := mem_preorder_of_mem_ancestors hu h.mem_ancestors
  obtain ⟨s, call, hsubject, ⟨at', hnode⟩, hs, ⟨e, hcallNode⟩, hhead⟩ := h.check.exists_subject
  have hcall : call ∈ c.children := List.mem_of_head? hhead
  have hcallIn := mem_preorder_of_mem_children hc hcall
  have hsIn := mem_preorder_of_mem_children hcallIn hs
  obtain ⟨stmt, hstmt, hchain⟩ := h.branch
  refine ⟨s, hsIn, at', hsubject, hnode, h.isConditional.shares hcall hs hcallNode hnode name, ?_⟩
  calc s.span.start
    _ ≤ s.span.stop := (htree.bounds s hsIn).1
    _ ≤ call.span.stop := (htree.inside call hcallIn s hs).2
    _ ≤ stmt.span.start := precedes_of_mem_thenBranch htree hc hhead hcallNode hstmt
    _ ≤ u.span.start := (htree.inside_of_mem_chain hu hchain).1

end Place

open Place in
/-- **A name is narrowed by a check of its own binding.** The conditional that narrows a name in a
file is the innermost of those that narrow it.  If the name is bound before this conditional, and is
not inside a binding of itself, then the check is about the binding that the name has: the first
argument of the check is a name, and looking it up finds that very binding. -/
theorem narrowed?_checksFor {source : List Char} {node : Node}
    (hread : Node.read source = .ok node) {u : Place} (hu : u ∈ (Place.root node).preorder)
    {span : Span} {name : String} (hnode : u.node = .expr (.name span name)) {ty : Ty}
    (h : narrowed? u.site (.name span name) = some ty) :
    ∃ c, u.NarrowedBy name (u.site.bindingOf (.name span name)) c ty ∧
      (∀ c' ty', u.NarrowedBy name (u.site.bindingOf (.name span name)) c' ty' → c' ∈ c.chain) ∧
      ∀ b, u.site.bindingOf (.name span name) = some b → b.place.span.stop ≤ c.span.start →
        (∀ p ∈ u.ancestors, ∀ at' annotation? value?,
          p.node ≠ .stmt (.binding at' name annotation? value?)) →
        u.ChecksFor name b c := by
  have htree := Node.isTreeOver_file hread
  have hext := Node.isExtended_of_read hread
  obtain ⟨c, hc, hinnermost⟩ := (narrowed?_eq_some_iff hu hnode).1 h
  refine ⟨c, hc, hinnermost, fun b hb hbefore hbinding => ?_⟩
  have hshares := hc.shares hu hnode hbinding
  obtain ⟨s, hs, at', hsubject, hsnode, hsshares, hle⟩ := hc.exists_subject htree hu
  have hfinds := (bindingOf_eq_some_iff hread hu hnode).1 hb
  refine ⟨⟨s, at', hsubject, hsnode, (bindingOf_eq_some_iff hread hs hsnode).2 ?_⟩, hc.branch,
    hc.scope, ?_⟩
  · exact hshares.finds htree hu hsshares hs hle hbefore hfinds
  · obtain ⟨scope, hsees, hpicks, -⟩ := hfinds
    have hscope := mem_preorder_of_mem_ancestors hu hsees.1
    exact ⟨scope, hsees, hpicks.1.1, fun other hother =>
      hshares.mem_ancestors_of_picks htree hext hu hscope hpicks hbefore hother⟩

open Place in
/-- The check is two conditionals up, and is about the binding in the first line. -/
theorem narrowed?_checksFor_nested :
    let x := Stmt.binding ⟨0, 4⟩ "x" (some (.name ⟨3, 4⟩ "a")) none
    let last := Stmt.expr ⟨37, 38⟩ (.name ⟨37, 38⟩ "x")
    let inner := Stmt.conditional ⟨29, 38⟩ (.name ⟨32, 33⟩ "c") [last] []
    let outer := Stmt.conditional ⟨5, 38⟩ (.call ⟨8, 26⟩ (.name ⟨8, 18⟩ "isinstance")
      [.name ⟨19, 20⟩ "x", .name ⟨22, 25⟩ "int"]) [inner] []
    let file := Node.file ⟨0, 38⟩ [x, outer]
    let u := child (child (child (child (root file) 3 (.stmt outer)) 8 (.stmt inner)) 10
      (.stmt last)) 11 (.expr (.name ⟨37, 38⟩ "x"))
    ∃ c, u.ChecksFor "x" (.declaration (child (root file) 1 (.stmt x))) c := by
  intro x last inner outer file u
  have hread : Node.read "x: a\nif isinstance(x, int):\n if c:\n  x".toList = .ok file := by
    decide +kernel
  have hu : u ∈ (root file).preorder :=
    List.mem_of_getLast? (show (root file).preorder.getLast? = some u from rfl)
  have hnarrowed : narrowed? u.site (.name ⟨37, 38⟩ "x") = some (Ty.ofClass "int") := by
    subst u file outer inner last x
    rfl
  have hb : u.site.bindingOf (.name ⟨37, 38⟩ "x") =
      some (.declaration (child (root file) 1 (.stmt x))) := by
    subst u file outer inner last x
    rfl
  obtain ⟨c, hc, -, hchecks⟩ := narrowed?_checksFor hread hu rfl hnarrowed
  refine ⟨c, hchecks _ hb ?_ ?_⟩
  · obtain ⟨_, _, _, _, hnode⟩ := hc.isConditional
    have habove := hc.mem_ancestors
    subst u file outer inner last x
    simp only [ancestors, List.mem_cons, List.not_mem_nil, or_false] at habove
    rcases habove with rfl | rfl | rfl | rfl
    · cases hnode
    · decide
    · decide
    · cases hnode
  · simp [u, ancestors, Place.node, last, inner, outer, file]

end TypeReveal
