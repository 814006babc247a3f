/-!
# Outcomes

Readings are put together in `Except`.  These lemmas take one apart that has come to its end.

Every reader of the project returns an expression, a statement or a segment, or ends with an error.
So most proofs about readers start from an equation between a program in this monad and a result,
and take it apart into equations about the steps.  The lemmas about lists do this for `List.mapM`
and `List.foldlM`, by which parts of a statement are read one after another.
-/

set_option autoImplicit false
namespace TypeReveal

variable {ε α β : Type}

theorem bind_eq_ok {x : Except ε α} {f : α → Except ε β} {b : β} :
    (x >>= f) = .ok b ↔ ∃ a, x = .ok a ∧ f a = .ok b := by
  constructor
  · intro h
    cases x with
    | error e => cases h
    | ok a => exact ⟨a, rfl, h⟩
  · rintro ⟨a, rfl, h⟩
    exact h

theorem map_eq_ok {x : Except ε α} {f : α → β} {b : β} :
    (f <$> x) = .ok b ↔ ∃ a, x = .ok a ∧ f a = b := by
  constructor
  · intro h
    cases x with
    | error e => cases h
    | ok a =>
      cases h
      exact ⟨a, rfl, rfl⟩
  · rintro ⟨a, rfl, rfl⟩
    rfl

/-- An outcome that is found, or else fails. -/
theorem getD_map_ok {x : Option α} {e : ε} {a : α} :
    (x.map Except.ok).getD (.error e) = .ok a ↔ x = some a := by
  cases x with
  | none => exact ⟨nofun, nofun⟩
  | some b =>
    rw [Option.map_some, Option.getD_some, Except.ok.injEq, Option.some.injEq]

theorem foldlM_cons_eq_ok {f : β → α → Except ε β} {a : α} {as : List α} {b c : β} :
    (a :: as).foldlM f b = .ok c ↔ ∃ b', f b a = .ok b' ∧ as.foldlM f b' = .ok c := by
  rw [List.foldlM_cons, bind_eq_ok]

/-- If `f` gives `g a` where `P a` holds and fails elsewhere, then `mapM` gives the map of `g` where
`P` holds of all elements. -/
theorem mapM_eq_ok {f : α → Except ε β} {g : α → β} {P : α → Prop}
    (h : ∀ a b, f a = .ok b ↔ P a ∧ b = g a) {as : List α} {bs : List β} :
    as.mapM f = .ok bs ↔ (∀ a ∈ as, P a) ∧ bs = as.map g := by
  induction as generalizing bs with
  | nil =>
    rw [List.mapM_nil, and_iff_right (List.forall_mem_nil P)]
    exact ⟨fun hbs => (Except.ok.inj hbs).symm, fun hbs => congrArg Except.ok hbs.symm⟩
  | cons a as ih =>
    rw [List.mapM_cons, bind_eq_ok, List.forall_mem_cons]
    constructor
    · rintro ⟨b, hb, hbs⟩
      obtain ⟨bs', hbs', hbs⟩ := bind_eq_ok.1 hbs
      obtain ⟨ha, rfl⟩ := (h a b).1 hb
      obtain ⟨has, rfl⟩ := ih.1 hbs'
      exact ⟨⟨ha, has⟩, (Except.ok.inj hbs).symm⟩
    · rintro ⟨⟨ha, has⟩, rfl⟩
      exact ⟨g a, (h a _).2 ⟨ha, rfl⟩, bind_eq_ok.2 ⟨_, ih.2 ⟨has, rfl⟩, rfl⟩⟩

/-- What is read from a list is read from what stands before a place, at it and after it. -/
theorem mapM_append_cons_eq_ok {f : α → Except ε β} {before after : List α} {x : α}
    {bs : List β} : (before ++ x :: after).mapM f = .ok bs ↔ ∃ cs b ds,
      before.mapM f = .ok cs ∧ f x = .ok b ∧ after.mapM f = .ok ds ∧ bs = cs ++ b :: ds := by
  rw [List.mapM_append, List.mapM_cons]
  constructor
  · intro h
    obtain ⟨cs, hcs, h⟩ := bind_eq_ok.1 h
    obtain ⟨rest, hrest, h⟩ := bind_eq_ok.1 h
    obtain ⟨b, hb, hrest⟩ := bind_eq_ok.1 hrest
    obtain ⟨ds, hds, hrest⟩ := bind_eq_ok.1 hrest
    cases hrest
    cases h
    exact ⟨cs, b, ds, hcs, hb, hds, rfl⟩
  · rintro ⟨cs, b, ds, hcs, hb, hds, rfl⟩
    rw [hcs, hb, hds]
    rfl

/-- What `mapM` lists at a place is the outcome for the element at that place. -/
theorem exists_append_of_mem_mapM {f : α → Except ε β} {as : List α} {bs : List β}
    (h : as.mapM f = .ok bs) {b : β} (hb : b ∈ bs) : ∃ before x after cs ds,
      as = before ++ x :: after ∧ bs = cs ++ b :: ds ∧ before.mapM f = .ok cs ∧ f x = .ok b ∧
        after.mapM f = .ok ds := by
  induction as generalizing bs with
  | nil =>
    cases h
    cases hb
  | cons a as ih =>
    rw [List.mapM_cons] at h
    obtain ⟨first, hfirst, h⟩ := bind_eq_ok.1 h
    obtain ⟨others, hothers, h⟩ := bind_eq_ok.1 h
    cases h
    rcases List.mem_cons.1 hb with rfl | hb
    · exact ⟨[], a, as, [], others, rfl, rfl, rfl, hfirst, hothers⟩
    · obtain ⟨before, x, after, cs, ds, rfl, rfl, hcs, hx, hds⟩ := ih hothers hb
      refine ⟨a :: before, x, after, first :: cs, ds, rfl, rfl, ?_, hx, hds⟩
      rw [List.mapM_cons, hfirst, hcs]
      rfl

/-- What `mapM` lists is the outcome for one of the elements. -/
theorem exists_of_mem_mapM {f : α → Except ε β} {as : List α} {bs : List β}
    (h : as.mapM f = .ok bs) {b : β} (hb : b ∈ bs) : ∃ a ∈ as, f a = .ok b := by
  obtain ⟨before, a, after, -, -, rfl, -, -, ha, -⟩ := exists_append_of_mem_mapM h hb
  exact ⟨a, List.mem_append_right before List.mem_cons_self, ha⟩

end TypeReveal
