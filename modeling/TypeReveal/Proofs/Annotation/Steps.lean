import TypeReveal.Proofs.Annotation.Quoted
import TypeReveal.Proofs.Annotation.Readings

/-!
# Reading an annotation ends

A step answers a reading from the readings that it leads to (`Reading.settles_step`), and no chain
of these is endless; so every reading ends with the meaning of its annotation
(`Reading.settles_eval`), and every walk along aliases with the place that is looked for
(`Walk.settles_run`).

Attempts are put together by `Settles`: an attempt that comes to an answer as soon as readings may
be nested deep enough.

The standard rules count the aliases and strings on the way, and the extended ones count nothing.
Readings are compared by their kind first, the extended rules coming before the standard ones, then
by the longest string of the annotation or the levels that are left, and then by the size of the
annotation.  The readings that one leads to (`Reading.Next`) are smaller in this order, which is
well-founded, so the statement about all readings is an induction along it, and what remains for
this file is the single step.
-/

set_option autoImplicit false
namespace TypeReveal

/-! ## Attempts that settle

An attempt has a depth that it may go to, and it may have no answer for a depth that is too small.
To settle is to have the same answer from some depth on.  For a sequence of attempts this is the
greater one of their depths. -/

/-- Attempts that all answer `a` from some depth on. -/
def Settles {α : Type} (run : Nat → Attempt α) (a : α) : Prop :=
  ∃ depth, ∀ depth' ≥ depth, run depth' = some a

namespace Settles

variable {α β : Type} {run : Nat → Attempt α} {a : α} {b : β}

theorem pure (a : α) : Settles (fun _ => Pure.pure a) a := ⟨0, fun _ _ => rfl⟩

/-- One attempt after another settles with the second answer.  From the greater of the two depths on
both have theirs. -/
theorem bind {f : Nat → α → Attempt β} (h : Settles run a)
    (h' : Settles (fun depth => f depth a) b) :
    Settles (fun depth => run depth >>= f depth) b := by
  obtain ⟨m, hm⟩ := h
  obtain ⟨n, hn⟩ := h'
  refine ⟨max m n, fun depth hdepth => ?_⟩
  simp only [hm depth (Nat.le_trans (Nat.le_max_left m n) hdepth)]
  exact hn depth (Nat.le_trans (Nat.le_max_right m n) hdepth)

theorem bind_pure {f : α → β} (h : Settles run a) :
    Settles (fun depth => run depth >>= fun a => Pure.pure (f a)) (f a) :=
  h.bind (pure (f a))

/-- Attempts at the elements of a list, of which there are finitely many, settle together. -/
theorem mapM {f : Nat → α → Attempt β} {g : α → β} {as : List α}
    (h : ∀ a ∈ as, Settles (fun depth => f depth a) (g a)) :
    Settles (fun depth => as.mapM (f depth)) (as.map g) := by
  induction as with
  | nil => exact pure []
  | cons a as ih =>
    simp only [List.mapM_cons, List.map_cons]
    exact (h a List.mem_cons_self).bind
      ((ih fun a ha => h a (List.mem_cons_of_mem _ ha)).bind (pure _))

end Settles

namespace Reading

variable {r r' : Reading}

/-! ## One step

What a reading leads to is known from its annotation: the parts of it, what its names are aliases
of, and what its strings quote.  If all of these settle with their meanings then the step settles
with the meaning of the annotation. -/

section Step

variable {ask : Nat → Reading → Attempt (Option Ty)} {strict : Bool} {site : Site} {e : Expr}
  {depth : Nat}

theorem settles_type (h : Settles (ask · r) r.meaning) :
    Settles (fun n => type (ask n) r) (r.meaning.getD .unknown) :=
  h.bind_pure

theorem settles_any {e? : Option Expr} {reading : Expr → Reading} {answer : Expr → Option Ty}
    (h : ∀ e ∈ e?, Settles (ask · (reading e)) (answer e)) :
    Settles (fun n => any (ask n) (e?.map reading)) (e?.bind answer) := by
  cases e? with
  | none => exact .pure none
  | some e => exact h e rfl

/-- An attempt, and another one where the first has found nothing. -/
theorem settles_orElse {first second : Nat → Attempt (Option Ty)} {a? b? : Option Ty}
    (h : Settles first a?) (h' : Settles second b?) :
    Settles (fun n => orElse (first n) (second n)) (a? <|> b?) := by
  cases a? with
  | some => exact h.bind (.pure _)
  | none => exact h.bind h'

/-- The parameters of a signature are parts of its parameter list. -/
theorem hasPart_of_signatureParams? {params : List Expr} (h : signatureParams? e = some params)
    {c : Expr} (hc : c ∈ params) : e.HasPart c := by
  rw [signatureParams?.eq_def] at h
  split at h
  · cases h
    exact Expr.hasPart_of_mem (e := .tuple _ _) hc
  · cases h
    exact (Expr.hasPart_of_mem List.mem_cons_self).trans (Expr.hasPart_of_mem (e := .tuple _ _) hc)
  · cases h
    exact Expr.hasPart_of_mem hc
  · cases h

/-- The callable of a quoted signature. -/
theorem settles_signature {span : Span} {text : String}
    (hquoting : (Expr.str span text).Quoting)
    (h : ∀ r', (extended strict site (.str span text)).Next r' → Settles (ask · r') r'.meaning) :
    Settles (fun n => signature (ask n) (site.quote span.start) text.toList)
      (signature? site (.str span text)) := by
  have hread {params result source : List Char} {root c : Expr}
      (hparts : signatureParts? text.toList = some (params, result))
      (hsource : source = params ∨ source = result) (hroot : Expr.ofText? source = some root)
      (hc : c = root ∨ root.HasPart c) :
      Settles (fun n => type (ask n) (.extended false (site.quote span.start) c))
        ((TypeReveal.extended (site.quote span.start) c).getD .unknown) := by
    have hlength := Nat.lt_trans (utf8Length_signatureParts?_lt hparts) (hquoting span text rfl)
    exact settles_type (h _ (.fragment hparts hlength hsource hroot hc))
  have hnone (heq : readSignature? text = none) : signature? site (.str span text) = none := by
    rw [signature?, signatureWith, heq]
    rfl
  -- The step stops at the first thing missing (the shape, the arrow, the parameters, the result),
  -- and in the same order the pure reading is `none`.
  by_cases hshape : isSignature text.toList = true
  · cases hparts : signatureParts? text.toList with
    | none =>
      rw [hnone (by simp [readSignature?, hparts])]
      simp only [signature, hparts, if_pos hshape]
      exact .pure none
    | some parts =>
      obtain ⟨paramsText, resultText⟩ := parts
      cases hparams : (Expr.ofText? paramsText).bind signatureParams? with
      | none =>
        rw [hnone (by simp [readSignature?, hparts, ← Option.bind_assoc, hparams])]
        simp only [signature, hparts, hparams, if_pos hshape]
        exact .pure none
      | some params =>
        obtain ⟨root, hroot, hroot'⟩ := Option.bind_eq_some_iff.1 hparams
        simp only [signature, hparts, hparams, if_pos hshape, callable]
        have hall : ∀ e ∈ params, Settles _ _ := fun e he =>
          hread hparts (.inl rfl) hroot (.inr (hasPart_of_signatureParams? hroot' he))
        refine (Settles.mapM hall).bind ?_
        cases hresult : Expr.ofText? resultText with
        | none =>
          rw [hnone (by simp [readSignature?, hparts, hroot, hresult])]
          exact .pure none
        | some result =>
          have hsignature : readSignature? text = some (params, result) := by
            simp [readSignature?, hshape, hparts, hroot, hroot', hresult]
          rw [signature?, signatureWith, hsignature]
          refine (hread hparts (.inr rfl) hresult (.inl rfl)).bind ?_
          rw [List.map_map]
          exact .pure _
  · rw [hnone (by simp [readSignature?, hshape])]
    simp only [signature, if_neg hshape]
    exact .pure none

/-- What an annotation means that has no extended form of its own. -/
theorem settles_fallback (hquoting : e.Quoting)
    (h : ∀ r', (extended strict site e).Next r' → Settles (ask · r') r'.meaning) :
    Settles (fun n => fallback (ask n) strict site e)
      (fallbackWith (fun site e => TypeReveal.extended site e) site strict e) := by
  cases strict with
  | true => exact .pure none
  | false =>
    refine settles_orElse ?_ (h _ .standard)
    cases e with
    | str span text => exact settles_signature hquoting h
    | _ => exact .pure none

/-- **One step of the extended rules** ends with the meaning, if what it leads to does. -/
theorem settles_extendedStep (hquoting : e.Quoting)
    (h : ∀ r', (extended strict site e).Next r' → Settles (ask · r') r'.meaning) :
    Settles (fun n => extendedStep (ask n) strict site e) (extended strict site e).meaning := by
  have hpart {c : Expr} (hc : e.HasPart c) :
      Settles (ask · (.extended false site c)) (TypeReveal.extended site c) := h _ (.part hc)
  have htuple {elems : List Expr} (helems : ∀ c ∈ elems, e.HasPart c) :
      Settles (fun n => tuple (ask n) site elems)
        (some (.tuple (extendAllWith (fun site e => TypeReveal.extended site e) site elems))) := by
    rw [extendAllWith_eq_map]
    simp only [← extended_eq]
    exact (Settles.mapM fun c hc => settles_type (h _ (.part (helems c hc)))).bind_pure
  -- What the extended reading leaves undecided goes to the standard one.
  have hfallback := settles_fallback hquoting h
  rw [meaning, extended_eq]
  cases e with
  | int | bool => exact .pure _
  | binary span op lhs rhs =>
    have hlhs := hpart (Expr.hasPart_of_mem (e := .binary span op lhs rhs) List.mem_cons_self)
    cases op with
    | bar =>
      have hrhs := hpart (Expr.hasPart_of_mem (e := .binary span .bar lhs rhs)
        (List.mem_cons_of_mem _ List.mem_cons_self))
      rw [extendWith, ← extended_eq, ← extended_eq]
      exact settles_orElse (hlhs.bind hrhs.bind_pure) hfallback
    | amp =>
      rw [extendWith, ← extended_eq]
      exact settles_orElse hlhs hfallback
  | dangling span op lhs =>
    have hlhs := hpart (Expr.hasPart_of_mem (e := .dangling span op lhs) List.mem_cons_self)
    cases op with
    | bar => exact hfallback
    | amp =>
      rw [extendWith, ← extended_eq]
      exact settles_orElse hlhs hfallback
  | tuple span elems =>
    exact htuple fun c hc => Expr.hasPart_of_mem (e := .tuple span elems) hc
  | paren span inner =>
    have hinner := Expr.hasPart_of_mem (e := .paren span inner) List.mem_cons_self
    -- The one form that looks two levels down: a tuple in brackets is the tuple itself.
    cases inner with
    | tuple span' elems =>
      exact htuple fun c hc => hinner.trans (Expr.hasPart_of_mem (e := .tuple span' elems) hc)
    | _ =>
      rw [extendWith, ← extended_eq]
      exact settles_orElse (hpart hinner) hfallback
  | _ => exact hfallback

/-! ### The standard rules -/

theorem subscriptArguments_eq (deeper : Site → Expr → Option Ty) (index : Expr) :
    subscriptArguments deeper site index = (arguments index).map (argumentWith deeper site) := by
  cases index with
  | tuple span elems => exact argumentsWith_eq elems
  | _ => rfl

/-- The arguments of a subscript are parts of it. -/
theorem hasPart_of_mem_arguments {span : Span} {value index c : Expr} (hc : c ∈ arguments index) :
    (Expr.subscript span value index).HasPart c := by
  have hindex : (Expr.subscript span value index).HasPart index :=
    Expr.hasPart_of_mem (List.mem_cons_of_mem _ List.mem_cons_self)
  cases index with
  | tuple span' elems => exact hindex.trans (Expr.hasPart_of_mem (e := .tuple span' elems) hc)
  | _ => exact List.mem_singleton.1 hc ▸ hindex

/-- The parameters of a `Callable` are parts of its arguments. -/
theorem hasPart_of_mem_callableParams {args : List Expr} {c : Expr} (hc : c ∈ callableParams args) :
    ∃ arg ∈ args, arg.HasPart c := by
  rw [callableParams.eq_def] at hc
  split at hc
  · next span elems others =>
    exact ⟨_, List.mem_cons_self, Expr.hasPart_of_mem (e := .list span elems) hc⟩
  · cases hc

section Arguments

variable {deeper : Site → Expr → Option Ty} {args : List Expr}

theorem type?_argumentWith (c : Expr) :
    (argumentWith deeper site c).type? () = readWith deeper site c := by
  cases c <;> rfl

theorem type_argumentWith (c : Expr) :
    (argumentWith deeper site c).type = (readWith deeper site c).getD .unknown := by
  rw [Argument.type, type?_argumentWith]

theorem expr_argumentWith (c : Expr) : (argumentWith deeper site c).expr = c := by
  cases c <;> rfl

theorem elems_argumentWith (args : List Expr) :
    ((args.map (argumentWith deeper site)).head?.map fun arg => arg.elems ()).getD [] =
      (callableParams args).map fun c => (readWith deeper site c).getD .unknown := by
  cases args with
  | nil => rfl
  | cons arg args =>
    cases arg with
    | list span elems => exact readAllWith_eq elems
    | _ => rfl

/-- **What a head makes of its arguments** ends, if their readings do. -/
theorem settles_apply
    (h : ∀ c, (c ∈ args ∨ ∃ arg ∈ args, arg.HasPart c) →
      Settles (ask · (.standard depth site c)) (readWith deeper site c)) (head : Head) :
    Settles (fun n => apply (ask n) depth site args head)
      (head.apply (args.map (argumentWith deeper site))) := by
  have htype {c : Expr} (hc : c ∈ args ∨ ∃ arg ∈ args, arg.HasPart c) :
      Settles (fun n => type (ask n) (.standard depth site c))
        ((readWith deeper site c).getD .unknown) := (h c hc).bind_pure
  have htypes : Settles (fun n => args.mapM fun c => type (ask n) (.standard depth site c))
      ((args.map (argumentWith deeper site)).map Argument.type) := by
    simp only [List.map_map, Function.comp_def, type_argumentWith]
    exact Settles.mapM fun c hc => htype (.inl hc)
  have hfirst : Settles (fun n => any (ask n) (args.head?.map (.standard depth site)))
      ((args.map (argumentWith deeper site)).head?.bind fun arg => arg.type? ()) := by
    rw [List.head?_map, Option.bind_map]
    refine settles_any fun c hc => ?_
    rw [Function.comp_apply, type?_argumentWith]
    exact h c (.inl (List.mem_of_head? hc))
  -- From here each head asks for one of the three above, or for nothing.
  cases head with
  | declared name => exact htypes.bind_pure
  | special name =>
    simp only [apply, Head.apply]
    generalize canonicalName name = canonical
    split
    case h_1 | h_2 | h_3 => exact hfirst
    case h_4 =>
      cases args with
      | nil => exact .pure none
      | cons arg others =>
        show Settles _ (Ty.union? (some (argumentWith deeper site arg).type) (some Ty.noneType))
        rw [type_argumentWith]
        exact (htype (.inl List.mem_cons_self)).bind_pure
    case h_5 => exact htypes.bind_pure
    case h_6 =>
      simp only [List.filterMap_map, Function.comp_def, expr_argumentWith]
      exact .pure _
    case h_7 => exact htypes.bind_pure
    case h_8 =>
      cases args with
      | nil => exact .pure none
      | cons arg others =>
        show Settles _ (some (Ty.classValue (argumentWith deeper site arg).type))
        rw [type_argumentWith]
        exact (htype (.inl List.mem_cons_self)).bind_pure
    case h_9 =>
      simp only [elems_argumentWith]
      refine (Settles.mapM fun c hc => htype (.inr (hasPart_of_mem_callableParams hc))).bind ?_
      rw [List.getElem?_map, Option.map_map]
      cases harg : args[1]? with
      | none => exact .pure _
      | some arg =>
        simp only [Option.map_some, Function.comp_apply, Option.getD_some, type_argumentWith]
        exact (htype (.inl (List.mem_of_getElem? harg))).bind_pure
    case h_10 =>
      by_cases hknown : isKnownClass canonical = true
      · simp only [if_pos hknown]
        exact htypes.bind_pure
      · simp only [if_neg hknown]
        exact .pure none

end Arguments

/-- **One step of the standard rules** ends with the meaning, if what it leads to does. -/
theorem settles_standardStep (hdepth : depth ≤ annotationDepth)
    (h : ∀ r', (standard depth site e).Next r' → Settles (ask · r') r'.meaning) :
    Settles (fun n => standardStep (ask n) depth site e) (standard depth site e).meaning := by
  -- The depth counts up to its limit and the meaning counts down from it.
  obtain ⟨left, hleft⟩ : ∃ left, annotationDepth + 1 - depth = left + 1 :=
    ⟨annotationDepth - depth, by omega⟩
  have hdeeper : annotationDepth + 1 - (depth + 1) = left := by omega
  have hpart {c : Expr} (hc : e.HasPart c) :
      Settles (ask · (.standard depth site c)) (readWith (readWithin left) site c) := by
    have hsettles := h _ (.partOf hdepth hc)
    rwa [meaning, hleft] at hsettles
  rw [meaning, hleft, readWithin]
  cases e with
  | str span text =>
    rw [readWith, readQuotedWith]
    simp only [standardStep]
    refine settles_any fun content he => ?_
    have hsettles := h _ (.quoted hdepth he)
    rwa [meaning, hdeeper] at hsettles
  | name span name =>
    rw [readWith, readNameWith]
    simp only [standardStep]
    cases hlookup : site.lookup span.start name with
    | none => exact .pure _
    | some b =>
      cases b with
      | imported place => exact .pure _
      | declaration place =>
        -- A declaration that is no class may be an alias, whose value is read one level deeper.
        have halias : Settles
            (fun n => any (ask n) (place.aliasValue?.map (.standard (depth + 1) place.interior)))
            (place.aliasValue?.bind (readWithin left place.interior)) := by
          refine settles_any fun value hvalue => ?_
          have hsettles := h _ (.aliased hdepth hlookup hvalue)
          rwa [meaning, hdeeper] at hsettles
        simp only
        cases place.node with
        | stmt s =>
          cases s with
          | classDef => exact .pure _
          | _ => exact halias
        | _ => exact halias
  | paren span inner =>
    exact hpart (Expr.hasPart_of_mem (e := .paren span inner) List.mem_cons_self)
  | binary span op lhs rhs =>
    cases op with
    | bar =>
      have hlhs := hpart (Expr.hasPart_of_mem (e := .binary span .bar lhs rhs) List.mem_cons_self)
      have hrhs := hpart (Expr.hasPart_of_mem (e := .binary span .bar lhs rhs)
        (List.mem_cons_of_mem _ List.mem_cons_self))
      exact hlhs.bind hrhs.bind_pure
    | amp => exact .pure none
  | subscript span value index =>
    rw [readWith_subscript, subscriptArguments_eq]
    simp only [standardStep]
    cases hhead : head? site value with
    | none => exact .pure none
    | some head =>
      refine settles_apply (fun c hc => hpart ?_) head
      rcases hc with hc | ⟨arg, harg, hc⟩
      · exact hasPart_of_mem_arguments hc
      · exact (hasPart_of_mem_arguments harg).trans hc
  | _ => exact .pure _

/-- **One step** ends with the meaning, if what it leads to does. -/
theorem settles_step (hquoting : r.expr.Quoting)
    (h : ∀ r', r.Next r' → Settles (ask · r') r'.meaning) :
    Settles (fun n => step (ask n) r) r.meaning := by
  cases r with
  | extended strict site e => exact settles_extendedStep hquoting h
  | standard depth site e =>
    simp only [step]
    split
    · next hdeep =>
      rw [meaning, Nat.sub_eq_zero_of_le hdeep]
      exact .pure none
    · next hdepth => exact settles_standardStep (Nat.le_of_not_lt hdepth) h

end Step

/-! ## All steps -/

/-- **Every reading of a file ends with the meaning of its annotation.** -/
theorem settles_eval {text : List Char} {node : Node} (hread : Node.read text = .ok node)
    (hr : r.IsOf (.root node)) : Settles (eval · r) r.meaning := by
  induction r using wellFounded_next.induction with
  | _ r ih =>
    obtain ⟨depth, hdepth⟩ := settles_step (hr.quoting hread) fun r' hnext =>
      ih r' hnext (hr.next hnext)
    refine ⟨depth + 1, fun n hn => ?_⟩
    obtain ⟨n, rfl⟩ := Nat.exists_eq_add_one_of_ne_zero (Nat.ne_zero_of_lt hn)
    exact hdepth n (Nat.le_of_succ_le_succ hn)

end Reading

/-! ## Walks

A walk takes one alias at each step and stops at a fixed number of them. -/

namespace Walk

variable {walk further : Walk}

/-- **Each step of a walk** takes one more alias, up to the number of aliases that are followed. -/
theorem taken_of_step (h : walk.step = .inl further) :
    further.taken = walk.taken + 1 ∧ further.taken ≤ aliasSteps := by
  rw [step] at h
  split at h
  · next hlt =>
    split at h
    · split at h <;> cases h
      exact ⟨rfl, hlt⟩
    · cases h
  · cases h

/-- A walk ends as soon as it may take the steps that are left to it. -/
theorem run_eq {steps : Nat} (h : aliasSteps ≤ steps + walk.taken) :
    walk.run (steps + 1) =
      some (Site.follow (aliasSteps - walk.taken) walk.site walk.name) := by
  induction steps generalizing walk with
  | zero =>
    rw [Nat.zero_add] at h
    rw [run, step, if_neg (Nat.not_lt.2 h), Nat.sub_eq_zero_of_le h, Site.follow]
  | succ steps ih =>
    by_cases hlt : walk.taken < aliasSteps
    · obtain ⟨left, hleft⟩ : ∃ left, aliasSteps - walk.taken = left + 1 :=
        ⟨aliasSteps - walk.taken - 1, by omega⟩
      rw [run, step, if_pos hlt, hleft, Site.follow]
      cases hb : walk.site.bindingOf walk.name with
      | none => rfl
      | some b =>
        cases halias : b.place.aliased? with
        | none => simp [halias]
        | some name =>
          have hrest := @ih ⟨walk.taken + 1, b.place.interior, name⟩ (by simp only; omega)
          simp only [Option.bind_eq_bind, Option.bind_some, halias]
          rw [hrest]
          congr 2
          simp only
          omega
    · rw [run, step, if_neg hlt, Nat.sub_eq_zero_of_le (Nat.le_of_not_lt hlt), Site.follow]

/-- **Every walk ends** with the place that is found along it. -/
theorem settles_run (walk : Walk) :
    Settles (walk.run ·) (Site.follow (aliasSteps - walk.taken) walk.site walk.name) := by
  refine ⟨aliasSteps + 1, fun n hn => ?_⟩
  obtain ⟨n, rfl⟩ := Nat.exists_eq_add_one_of_ne_zero (Nat.ne_zero_of_lt hn)
  exact run_eq (Nat.le_trans (Nat.le_of_succ_le_succ hn) (Nat.le_add_right _ _))

end Walk

/-! ## Both -/

/-- **Reading an annotation of a file ends, and so does following aliases.**  A reading ends with
the meaning of its annotation, and it is answered from those that it leads to, whatever becomes of
all others; a walk ends with the place that is looked for, each step taking it one alias further. -/
theorem readings_end {text : List Char} {node : Node} (hread : Node.read text = .ok node) :
    (∀ r : Reading, r.IsOf (.root node) → Settles (Reading.eval · r) r.meaning ∧
      ∀ ask : Reading → Attempt (Option Ty),
        (∀ r', r.Next r' → r'.IsOf (.root node) → ask r' = some r'.meaning) →
        r.step ask = some r.meaning) ∧
    ∀ walk : Walk,
      Settles (walk.run ·) (Site.follow (aliasSteps - walk.taken) walk.site walk.name) ∧
      ∀ further, walk.step = .inl further →
        further.taken = walk.taken + 1 ∧ further.taken ≤ aliasSteps := by
  refine ⟨fun r hr => ⟨Reading.settles_eval hread hr, fun ask hask => ?_⟩,
    fun walk => ⟨walk.settles_run, fun further => Walk.taken_of_step⟩⟩
  obtain ⟨depth, hdepth⟩ := @Reading.settles_step r (fun _ => ask) (hr.quoting hread)
    fun r' hnext => ⟨0, fun _ _ => hask r' hnext (hr.next hnext)⟩
  exact hdepth depth (Nat.le_refl depth)

/-- Aliases that lead back to each other through a union and a string, and a quoted signature that
quotes another one. -/
theorem readings_end_cyclic :
    let file := Node.file ⟨0, 48⟩ [
      .binding ⟨0, 9⟩ "a" none
        (some (.binary ⟨4, 9⟩ .bar (.name ⟨4, 5⟩ "b") (.name ⟨8, 9⟩ "c"))),
      .binding ⟨10, 15⟩ "b" none (some (.name ⟨14, 15⟩ "a")),
      .binding ⟨16, 25⟩ "c" none (some (.str ⟨20, 25⟩ "'a'")),
      .binding ⟨26, 48⟩ "x" (some (.str ⟨29, 48⟩ "(a) -> '(b) -> c'")) none]
    Node.read "a = b | c\nb = a\nc = \"'a'\"\nx: \"(a) -> '(b) -> c'\"".toList = .ok file ∧
      ∀ place ∈ (Place.root file).preorder, ∀ e, place.node = .expr e →
        Settles (Reading.eval · (.extended false place.site e)) (extended place.site e) := by
  intro file
  have hread : Node.read
      "a = b | c\nb = a\nc = \"'a'\"\nx: \"(a) -> '(b) -> c'\"".toList = .ok file := by
    decide +kernel
  refine ⟨hread, fun place hplace e he => ?_⟩
  exact ((readings_end hread).1 (.extended false place.site e)
    ⟨Site.isIn_site hplace, .inl ⟨place, hplace, he⟩⟩).1

end TypeReveal
