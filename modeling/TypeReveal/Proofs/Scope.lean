import TypeReveal.Proofs.Tree.Preorder
import TypeReveal.Scope

/-!
# Where names lead

What a name is bound by is a place of the file (`Site.isIn_lookup`), and following aliases from a
name runs through bindings of the file to a last place: `Site.Leads site e ps q` says that it runs
through `ps` to `q`.

* `Site.Leads.unique` — there is one way at most.
* `Site.Leads.not_mem_of_aliased?` — it meets no alias twice: from an alias on it, the rest of the
  way is the only way, so that the alias could not be met again.
* `Site.follow_eq_some_iff` — what `Site.follow` finds within its bound is where the way ends.
-/

set_option autoImplicit false
namespace TypeReveal

variable {node : Node} {place : Place} {site : Site}

/-! ## Bindings of a file

Everything that is found by going through the scopes of a place is below the root that the place is
below. -/

theorem Place.mem_preorder_of_mem_flatten {root place stmt : Place} (hplace : place ∈ root.preorder)
    (h : stmt ∈ place.flatten) : stmt ∈ root.preorder := by
  rw [flatten_eq] at h
  split at h
  · obtain ⟨below, hbelow, h⟩ := List.mem_flatMap.1 h
    have hchild := mem_children_of_mem_stmts hbelow
    have hlt := size_lt_of_mem_children hchild
    exact mem_preorder_of_mem_flatten (mem_preorder_of_mem_children hplace hchild) h
  · exact List.mem_singleton.1 h ▸ hplace
termination_by place.node.size

theorem Place.mem_preorder_of_mem_flatStmts {root stmt : Place} (hplace : place ∈ root.preorder)
    (h : stmt ∈ place.flatStmts) : stmt ∈ root.preorder := by
  obtain ⟨below, hbelow, h⟩ := List.mem_flatMap.1 h
  exact mem_preorder_of_mem_flatten
    (mem_preorder_of_mem_children hplace (mem_children_of_mem_stmts hbelow)) h

/-- What binds a name in a file: a place of the file, and a statement for an import. -/
def Binding.IsIn (file : Place) : Binding → Prop
  | declaration place => place ∈ file.preorder
  | imported place => place ∈ file.preorder ∧
      ∃ span module? names, place.node = .stmt (.imports span module? names)

namespace Binding

variable {file : Place} {b : Binding}

theorem IsIn.mem_preorder (h : b.IsIn file) : b.place ∈ file.preorder := by
  cases b with
  | declaration place => exact h
  | imported place => exact h.1

end Binding

theorem Place.isIn_of_mem_bindings {name : String} {file : Place} {b : Binding}
    (hplace : place ∈ file.preorder) (h : b ∈ place.bindings name) : b.IsIn file := by
  rw [bindings] at h
  split at h
  all_goals try
    split at h
    · rw [List.mem_singleton.1 h]
      exact hplace
    · cases h
  · next span m names hnode =>
    split at h
    · rw [List.mem_singleton.1 h]
      exact ⟨hplace, span, m, names, hnode⟩
    · cases h
  · cases h

theorem Place.isIn_of_mem_scopeBindings {name : String} {classOpen : Bool} {file scope : Place}
    {b : Binding} (hscope : scope ∈ file.preorder)
    (h : b ∈ scope.scopeBindings name classOpen) : b.IsIn file := by
  have hbody : ∀ b ∈ scope.flatStmts.flatMap (·.bindings name), b.IsIn file := by
    intro b hb
    obtain ⟨stmt, hstmt, hb⟩ := List.mem_flatMap.1 hb
    exact isIn_of_mem_bindings (mem_preorder_of_mem_flatStmts hscope hstmt) hb
  rw [scopeBindings] at h
  split at h
  · rcases List.mem_append.1 h with h | h
    · obtain ⟨param, hparam, rfl⟩ := List.mem_map.1 h
      have hchild := (List.mem_filter.1 (List.mem_filter.1 hparam).1).1
      exact mem_preorder_of_mem_children hscope hchild
    · exact hbody b h
  · split at h
    · exact hbody b h
    · cases h
  · exact hbody b h
  · cases h

/-! ## Sites of a file

A site has the scopes around a place, from the inside out.  Lookups go through these and never
further. -/

namespace Site

/-- A site in a file, whose scopes are places of it. -/
def IsIn (file : Place) (site : Site) : Prop := ∀ place ∈ site.above, place ∈ file.preorder

theorem isIn_site (h : place ∈ (Place.root node).preorder) : place.site.IsIn (.root node) :=
  fun _ hp => Place.mem_preorder_of_mem_ancestors h hp

theorem isIn_interior (h : place ∈ (Place.root node).preorder) :
    place.interior.IsIn (.root node) :=
  fun _ hp => Place.mem_preorder_of_mem_chain h hp

theorem mem_of_pick? {position : Nat} {bs : List Binding} {b : Binding}
    (h : site.pick? position bs = some b) : b ∈ bs := by
  rw [pick?] at h
  simp only [Option.orElse_eq_orElse, Option.orElse_eq_or, Option.or_eq_some_iff] at h
  rcases h with h | ⟨-, h⟩
  · exact (List.mem_filter.1 (List.mem_filter.1 (List.mem_of_getLast? h)).1).1
  · exact (List.mem_filter.1 (List.mem_of_getLast? h)).1

theorem isIn_lookupIn {file : Place} {position : Nat} {name : String} {classOpen : Bool}
    {scopes : List Place} {b : Binding} (hscopes : ∀ scope ∈ scopes, scope ∈ file.preorder)
    (h : site.lookupIn position name classOpen scopes = some b) : b.IsIn file := by
  induction scopes generalizing classOpen with
  | nil => cases h
  | cons scope scopes ih =>
    rw [lookupIn] at h
    simp only [Option.orElse_eq_orElse, Option.orElse_eq_or, Option.or_eq_some_iff] at h
    rcases h with h | ⟨-, h⟩
    · exact Place.isIn_of_mem_scopeBindings (hscopes scope List.mem_cons_self) (mem_of_pick? h)
    · exact ih (fun s hs => hscopes s (List.mem_cons_of_mem _ hs)) h

/-- **A name is bound by a place of the file.** -/
theorem isIn_bindingOf {file : Place} {e : Expr} {b : Binding} (hsite : site.IsIn file)
    (h : site.bindingOf e = some b) : b.IsIn file := by
  rw [bindingOf.eq_def] at h
  split at h
  · exact isIn_lookupIn hsite h
  · cases h

theorem exists_name_of_bindingOf {e : Expr} {b : Binding} (h : site.bindingOf e = some b) :
    ∃ span name, e = .name span name := by
  rw [bindingOf.eq_def] at h
  split at h
  · exact ⟨_, _, rfl⟩
  · cases h

/-! ## Aliases

A step goes from a name to the binding of it, and from the binding to its value if that is a name
again.  The relation has a rule for the last step and one for those before it. -/

/-- Following aliases from a name runs through the bindings `ps` to the place `q`. -/
inductive Leads : Site → Expr → List Place → Place → Prop
  | last {site : Site} {e : Expr} {b : Binding} (hb : site.bindingOf e = some b)
    (hend : b.place.aliased? = none) : Leads site e [] b.place
  | step {site : Site} {e e' : Expr} {b : Binding} {ps : List Place} {q : Place}
    (hb : site.bindingOf e = some b) (halias : b.place.aliased? = some e')
    (hrest : Leads b.place.interior e' ps q) : Leads site e (b.place :: ps) q

/-- **What is found within a bound** is where the way ends, if it is shorter. -/
theorem follow_eq_some_iff {steps : Nat} {e : Expr} {q : Place} :
    Site.follow steps site e = some q ↔ ∃ ps, site.Leads e ps q ∧ ps.length < steps := by
  constructor
  · intro h
    induction steps generalizing site e with
    | zero => cases h
    | succ steps ih =>
      rw [follow] at h
      obtain ⟨b, hb, h⟩ := Option.bind_eq_some_iff.1 h
      cases halias : b.place.aliased? with
      | none =>
        simp only [halias, Option.some_inj] at h
        exact ⟨[], h ▸ .last hb halias, Nat.zero_lt_succ _⟩
      | some e' =>
        simp only [halias] at h
        obtain ⟨ps, hps, hlt⟩ := ih h
        exact ⟨_, .step hb halias hps, Nat.succ_lt_succ hlt⟩
  · rintro ⟨ps, hleads, hlt⟩
    -- Along the way this time, with a step left for each place of it.
    induction hleads generalizing steps with
    | last hb hend =>
      cases steps with
      | zero => cases hlt
      | succ steps =>
        rw [follow, hb]
        simp only [Option.bind_eq_bind, Option.bind_some, hend]
    | step hb halias _ ih =>
      cases steps with
      | zero => cases hlt
      | succ steps =>
        rw [follow, hb]
        simp only [Option.bind_eq_bind, Option.bind_some, halias]
        exact ih (Nat.lt_of_succ_lt_succ hlt)

namespace Leads

variable {e : Expr} {ps ps' : List Place} {q q' : Place}

/-- **There is one way at most.** Each step is decided by the name that is looked up, and whether a
binding is an alias by the binding. -/
theorem unique (h : site.Leads e ps q) (h' : site.Leads e ps' q') : ps = ps' ∧ q = q' := by
  induction h generalizing ps' q' with
  | last hb hend =>
    cases h' with
    | last hb' hend' =>
      rw [hb] at hb'
      cases hb'
      exact ⟨rfl, rfl⟩
    | step hb' halias' =>
      rw [hb] at hb'
      cases hb'
      rw [hend] at halias'
      cases halias'
  | step hb halias _ ih =>
    cases h' with
    | last hb' hend' =>
      rw [hb] at hb'
      cases hb'
      rw [hend'] at halias
      cases halias
    | step hb' halias' hrest' =>
      rw [hb] at hb'
      cases hb'
      rw [halias] at halias'
      cases halias'
      obtain ⟨rfl, rfl⟩ := ih hrest'
      exact ⟨rfl, rfl⟩

/-- The rest of a way, from a binding on it. -/
theorem exists_of_mem (h : site.Leads e ps q) {p : Place} (hp : p ∈ ps) :
    ∃ e' tail, p.aliased? = some e' ∧ p.interior.Leads e' tail q ∧ tail.length < ps.length := by
  induction h with
  | last => cases hp
  | step hb halias hrest ih =>
    rcases List.mem_cons.1 hp with rfl | hp
    · exact ⟨_, _, halias, hrest, Nat.lt_succ_self _⟩
    · obtain ⟨e', tail, halias', hleads, hlt⟩ := ih hp
      exact ⟨e', tail, halias', hleads, Nat.lt_succ_of_lt hlt⟩

/-- An alias is not met again. -/
theorem not_mem_of_aliased? {p : Place} (halias : p.aliased? = some e)
    (h : p.interior.Leads e ps q) : p ∉ ps := by
  intro hmem
  obtain ⟨e', tail, halias', hleads, hlt⟩ := h.exists_of_mem hmem
  rw [halias] at halias'
  cases halias'
  rw [(h.unique hleads).1] at hlt
  exact Nat.lt_irrefl _ hlt

/-- The end of a way is a place of the file, and so is every binding on it. -/
theorem mem_preorder (h : site.Leads e ps q) (hsite : site.IsIn (.root node)) :
    q ∈ (Place.root node).preorder ∧ ∀ p ∈ ps, p ∈ (Place.root node).preorder := by
  induction h with
  | last hb => exact ⟨(isIn_bindingOf hsite hb).mem_preorder, by simp⟩
  | step hb _ _ ih =>
    have hb' := (isIn_bindingOf hsite hb).mem_preorder
    obtain ⟨hq, hps⟩ := ih (isIn_interior hb')
    refine ⟨hq, fun p hp => ?_⟩
    rcases List.mem_cons.1 hp with rfl | hp
    · exact hb'
    · exact hps p hp

end Leads

end Site
end TypeReveal
