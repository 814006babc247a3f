import TypeReveal.Careful.Segment
import TypeReveal.Proofs.Layout.Row

/-!
# Agreement

A careful reading agrees with one without care if both have the same result, if both end with the
same error, or if the careful one ends with a fault that is known where the other one finds two
separators in the wrong order.  Readings that agree are put together to readings that agree
(`Agrees.bind`, `Agrees.mapM`), so what has to be shown of a reading is where its cuts are.

The relation is between two monads.  A careful reading can end in a fault, for which the other kind
of reading has no result; in its place stands an error that no file ever ends with otherwise, that
of two crossed separators.  So readings agree in faults as well as in errors, and the cases where
the two differ in kind are just the known faults.
-/

set_option autoImplicit false
namespace TypeReveal

/-- Whether an error is about two separators in the wrong order. -/
def ParseError.isCrossed : ParseError → Bool
  | crossedSeparators .. => true
  | _ => false

/-- **Agreement** of a careful reading with one without care, up to faults that are `known`. -/
inductive Agrees (known : Fault → Prop) {α : Type} : Careful α → Except ParseError α → Prop
  | ok (a : α) : Agrees known (.ok a) (.ok a)
  | error {e : ParseError} (h : e.isCrossed = false) : Agrees known (.error (.error e)) (.error e)
  | fault {f : Fault} (h : known f) (what : Construct) (span : Span) :
    Agrees known (.error (.fault f)) (.error (.crossedSeparators what span))

namespace Agrees

variable {known : Fault → Prop} {α β : Type} {x : Careful α} {y : Except ParseError α}

/-- **One reading after another.** The second one has to agree only behind a result that the first
one really has. -/
theorem bind {f : α → Careful β} {g : α → Except ParseError β} (h : Agrees known x y)
    (hfg : ∀ a, y = .ok a → Agrees known (f a) (g a)) : Agrees known (x >>= f) (y >>= g) := by
  cases h with
  | ok a => exact hfg a rfl
  | error he => exact .error he
  | fault hf what span => exact .fault hf what span

/-- A result of which something is made. -/
theorem map (h : Agrees known x y) (f : α → β) : Agrees known (f <$> x) (f <$> y) := by
  cases h with
  | ok a => exact .ok (f a)
  | error he => exact .error he
  | fault hf what span => exact .fault hf what span

/-- A reading that has a result without care has it with care. -/
theorem eq_ok {a : α} (h : Agrees known x (.ok a)) : x = .ok a := by
  cases h
  rfl

/-- **A reading after one whose outcome is wrapped.** -/
theorem bind_some {x : Careful (Option α)} {f : Option α → Careful β}
    {g : α → Except ParseError β} (h : Agrees known x (some <$> y))
    (hfg : ∀ a, Agrees known (f (some a)) (g a)) : Agrees known (x >>= f) (y >>= g) := by
  cases y with
  | ok a =>
    rw [eq_ok (show Agrees known x (.ok (some a)) from h)]
    exact hfg a
  | error e =>
    replace h : Agrees known x (.error e) := h
    cases h with
    | error he => exact .error he
    | fault hf what span => exact .fault hf what span

/-- **The elements of a list**, read one after another. -/
theorem mapM {f : α → Careful β} {g : α → Except ParseError β} {as : List α}
    (h : ∀ a ∈ as, Agrees known (f a) (g a)) : Agrees known (as.mapM f) (as.mapM g) := by
  induction as with
  | nil => exact .ok []
  | cons a as ih =>
    rw [List.mapM_cons, List.mapM_cons]
    refine (h a List.mem_cons_self).bind fun b _ => ?_
    exact (ih fun c hc => h c (List.mem_cons_of_mem _ hc)).bind fun bs _ => .ok (b :: bs)

end Agrees

variable {known : Fault → Prop} {α : Type}

/-- **An error** about a place that is not turned around. -/
theorem report_agrees {e : ParseError} (h : e.span.start ≤ e.span.stop)
    (he : e.isCrossed = false) : Agrees known (Careful.report e : Careful α) (.error e) := by
  rw [Careful.report, Careful.minus, if_pos h]
  exact .error he

/-- A segment is malformed. -/
theorem malformed_agrees (what : Construct) (seg : Segment) :
    Agrees known (Careful.report (.malformed what seg.span) : Careful α)
      (.error (.malformed what seg.span)) :=
  report_agrees seg.start_le_stop rfl

end TypeReveal
