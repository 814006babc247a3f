import TypeReveal.Proofs.Quoting.Twins

/-!
# Names in an annotation and in its string

An annotation and the string that it becomes are twins, and what is quoted in the string stands
where the string does.  No binding falls between the two: one that ends before a name of the
annotation ends before the string, and one that does not, does not (`Quotation.Stands.stop_le_iff`).
So a name of the annotation and the same name in the string are bound by twins, or by nothing
(`Quotation.Stands.lookup`).

Looking a name up asks two things of a binding: in which scope it is, and whether it ends before the
place of the name.  The first is a matter of places, which have twins.  The second compares
positions, and the position of a name in the string is another one than that of the name in the
annotation: names in a string have the position of the string.  All of them lie between the start of
the annotation and its end, where no statement or parameter ends, the ones around it excepted.
-/

set_option autoImplicit false
namespace TypeReveal

open List (Forall₂)

section

variable {α β : Type} {R : α → β → Prop}

/-- Related lists end alike. -/
theorem rel_getLast? {l : List α} {l' : List β} (h : Forall₂ R l l') :
    Option.Rel R l.getLast? l'.getLast? := by
  rw [List.getLast?_eq_head?_reverse, List.getLast?_eq_head?_reverse]
  have hreverse := List.rel_reverse h
  generalize l.reverse = r at hreverse ⊢
  generalize l'.reverse = r' at hreverse ⊢
  cases hreverse with
  | nil => exact .none
  | cons h => exact .some h

/-- The first that is there, on both sides. -/
theorem rel_or {a c : Option α} {b d : Option β} (h : Option.Rel R a b) (h' : Option.Rel R c d) :
    Option.Rel R (a.or c) (b.or d) := by
  cases h with
  | none => exact h'
  | some h => exact .some h

end

namespace Place

/-- Whether a place is a statement or a parameter, as all that binds names is. -/
def Declares (p : Place) : Prop := p.node.isStmt = true ∨ ∃ param, p.node = .param param

/-- It is no expression. -/
theorem Declares.ne_expr {p : Place} (h : p.Declares) : ∀ e, p.node ≠ .expr e := by
  intro e he
  rcases h with h | ⟨param, h⟩ <;> rw [he] at h <;> cases h

/-- It has a text. -/
theorem Declares.start_lt_stop {root p : Place} (h : p.Declares) (hext : root.IsExtended)
    (hp : p ∈ root.preorder) : p.span.start < p.span.stop := by
  rcases h with h | ⟨param, h⟩
  · exact hext.stmt p hp h
  · exact hext.param p hp param h

/-- What binds a name in a scope is a statement or a parameter. -/
theorem Binds.declares {scope : Place} {name : String} {b : Binding} (h : scope.Binds name b) :
    b.place.Declares := by
  cases h with
  | param h => exact .inr (exists_param_of_mem_params h)
  | declaration h => exact .inl h.isStmt
  | imported h => exact .inl h.isStmt

end Place

namespace Quotation

variable {q : Quotation} {file : Node} {e : Expr} {u u' p p' : Place} {position : Nat}
  {name : String}

/-- Positions are moved on and never back. -/
theorem le_pos (q : Quotation) (n : Nat) : n ≤ q.pos n := by
  rw [pos]
  split <;> omega

/-- A position up to the end of the piece stays before the closing quote. -/
theorem pos_le {n : Nat} (h : n ≤ q.stop) : q.pos n ≤ q.stop + 2 := by
  rw [pos]
  split <;> omega

/-- So is the twin of one. -/
theorem Twin.declares (h : q.Twin file p p') (hp : p.Declares) : p'.Declares := by
  rw [Place.Declares, h.node]
  rcases hp with hp | ⟨param, hp⟩
  · exact .inl ((q.isStmt_node _).trans hp)
  · rw [hp]
    exact .inr ⟨_, rfl⟩

/-- Nothing above a place that has a twin is an expression. -/
theorem Twin.ancestors_ne_expr (h : q.Twin file p p') :
    ∀ above ∈ p.ancestors, ∀ e, above.node ≠ .expr e := by
  cases h with
  | root => exact fun above habove => absurd habove List.not_mem_nil
  | child h hp hc =>
    rw [Place.ancestors_of_parent? (Place.parent?_of_mem_children (List.mem_of_getElem? hc))]
    exact node_ne_expr_of_mem_chain h.mem_preorder.1 hp

/-- **An expression and the string that it becomes**, in a file that is read before and after. -/
structure Stands (q : Quotation) (file : Node) (e : Expr) (u u' : Place) : Prop where
  twin : q.Twin file u u'
  node_eq : u.node = .expr e
  node_eq' : u'.node = .expr q.string
  /-- The expression stands in the piece that is put in quotes. -/
  start_le : q.start ≤ e.span.start
  le_stop : e.span.stop ≤ q.stop
  tree : ∃ length, (Place.root file).IsTreeOver length
  tree' : ∃ length, (Place.root (q.node file)).IsTreeOver length
  takesText : (Place.root file).IsExtended
  takesText' : (Place.root (q.node file)).IsExtended

namespace Stands

variable (h : q.Stands file e u u')

include h

/-- The place has the span of the expression. -/
theorem span_eq : u.span = e.span := by
  rw [Place.span, h.node_eq]
  rfl

/-- **No binding falls between** a place in the expression and the start of the string. -/
theorem stop_le_iff (htwin : q.Twin file p p') (hp : p.Declares) (hfree : p ∉ u.chain)
    (hstart : e.span.start ≤ position) (hstop : position ≤ e.span.stop) :
    p.span.stop ≤ position ↔ p'.span.stop ≤ q.start := by
  obtain ⟨hmem, hmem'⟩ := htwin.mem_preorder
  obtain ⟨hu, hu'⟩ := h.twin.mem_preorder
  obtain ⟨length, htree⟩ := h.tree
  obtain ⟨length', htree'⟩ := h.tree'
  have htext := hp.start_lt_stop h.takesText hmem
  have htext' := (htwin.declares hp).start_lt_stop h.takesText' hmem'
  -- Neither holds the other, in either file, so the two stand apart in both.
  have hbelow : u ∉ p.chain := fun hchain =>
    node_ne_expr_of_mem_chain hmem hp.ne_expr u hchain e h.node_eq
  have happart := htree.above_or_apart hmem hu
  have happart' := htree'.above_or_apart hmem' hu'
  have hspan : p'.span = q.span p.span := by
    rw [Place.span, htwin.node, q.node_span _ hp.ne_expr]
    rfl
  have hspan' : u'.span = ⟨q.start, q.stop + 2⟩ := by
    rw [Place.span, h.node_eq']
    rfl
  rw [← htwin.mem_chain_iff h.twin, ← h.twin.mem_chain_iff htwin, hspan'] at happart'
  rw [h.span_eq] at happart
  have happart := (happart.resolve_left hfree).resolve_left hbelow
  have happart' := (happart'.resolve_left hfree).resolve_left hbelow
  have hle := (htree.bounds u hu).1
  rw [h.span_eq] at hle
  have hstartle := h.start_le
  have hlestop := h.le_stop
  have hlong := q.le_pos p.span.stop
  rw [hspan] at htext' happart' ⊢
  simp only [Quotation.span] at htext' happart' ⊢
  rcases happart with hbefore | hbehind
  · have hfront := q.pos_le (n := p.span.stop) (by omega)
    omega
  · omega

/-- **The binding that counts** for a name in the expression, and for the same name in the string,
among the bindings of a scope and those of its twin. -/
theorem pick? {scope scope' : Place} (htwin : q.Twin file scope scope')
    (hscope : ∀ e, scope.node ≠ .expr e) (classOpen : Bool)
    (hstart : e.span.start ≤ position) (hstop : position ≤ e.span.stop) :
    Option.Rel (q.TwinBinding file)
      (u.site.pick? position (scope.scopeBindings name classOpen))
      ((u'.site.quote q.start).pick? q.start (scope'.scopeBindings name classOpen)) := by
  have hbindings : Forall₂ (q.TwinBinding file) (scope.scopeBindings name classOpen)
      (scope'.scopeBindings name classOpen) := htwin.scopeBindings hscope classOpen
  have hinside {b b' : Binding} (hb : q.TwinBinding file b b') :
      u.site.inside.any (· == b.place) = (u'.site.quote q.start).inside.any (· == b'.place) := by
    obtain ⟨hmem, hmem'⟩ := hb.place.mem_preorder
    obtain ⟨hu, hu'⟩ := h.twin.mem_preorder
    rw [Bool.eq_iff_iff]
    show u.chain.any (· == b.place) = true ↔ u'.chain.any (· == b'.place) = true
    rw [Place.any_beq_iff hmem fun _ hp => Place.mem_preorder_of_mem_chain hu hp,
      Place.any_beq_iff hmem' fun _ hp => Place.mem_preorder_of_mem_chain hu' hp]
    exact hb.place.mem_chain_iff h.twin
  have husable := forall₂_filter hbindings
    (f := fun b => !u.site.inside.any (· == b.place))
    (g := fun b => !(u'.site.quote q.start).inside.any (· == b.place))
    fun b _ b' hb => by rw [hinside hb]
  simp only [Site.pick?, Option.orElse_eq_orElse, Option.orElse_eq_or]
  refine rel_or (rel_getLast? (forall₂_filter husable fun b hmem b' hb => ?_))
    (rel_getLast? husable)
  obtain ⟨hmem, hfree⟩ := List.mem_filter.1 hmem
  have hdeclares := (Place.mem_scopeBindings_iff.1 hmem).2.declares
  have hfree : b.place ∉ u.chain := by
    intro hchain
    have hinside := (Place.any_beq_iff hb.place.mem_preorder.1
      fun _ hp => Place.mem_preorder_of_mem_chain h.twin.mem_preorder.1 hp).2 hchain
    rw [show u.site.inside.any (· == b.place) = true from hinside] at hfree
    cases hfree
  exact decide_eq_decide.2 (h.stop_le_iff hb.place hdeclares hfree hstart hstop)

/-- The scopes are asked from the innermost on, and the first that binds the name decides. -/
theorem lookupIn {scopes scopes' : List Place} (hscopes : Forall₂ (q.Twin file) scopes scopes')
    (hne : ∀ scope ∈ scopes, ∀ e, scope.node ≠ .expr e) (classOpen : Bool)
    (hstart : e.span.start ≤ position) (hstop : position ≤ e.span.stop) :
    Option.Rel (q.TwinBinding file) (u.site.lookupIn position name classOpen scopes)
      ((u'.site.quote q.start).lookupIn q.start name classOpen scopes') := by
  induction hscopes generalizing classOpen with
  | nil => exact .none
  | cons htwin hscopes ih =>
    obtain ⟨hhead, htail⟩ := List.forall_mem_cons.1 hne
    simp only [Site.lookupIn, Option.orElse_eq_orElse, Option.orElse_eq_or, htwin.node,
      isFunction_node]
    exact rel_or (h.pick? htwin hhead classOpen hstart hstop) (ih htail _)

/-- **A name of the expression** and the same name in the string are bound by twins, or both by
nothing. -/
theorem lookup (hstart : e.span.start ≤ position) (hstop : position ≤ e.span.stop) (start' : Nat) :
    Option.Rel (q.TwinBinding file) (u.site.lookup position name)
      ((u'.site.quote q.start).lookup start' name) :=
  h.lookupIn h.twin.ancestors h.twin.ancestors_ne_expr true hstart hstop

end Stands

end Quotation
end TypeReveal
