import TypeReveal.Proofs.Quoting.Within
import TypeReveal.Proofs.Statement.Unread

/-!
# The annotation of a parameter

Where the text in the parentheses of a function is read as its parameters, the annotation of one of
them stands in one of the parts between commas.  With the piece in quotes the parts before it stay,
those behind it move on, and the text is read as what becomes of the parameters
(`rewrites_readParams`).

The parts of a segment are found one after the other: up to the first comma, and then the same for
what follows it.  The induction is on the parts before the one that changes.  A part before it is
left alone by the edit and its comma is found where it was, and the rest is a segment of its own,
with the annotation in one of its parts.
-/

set_option autoImplicit false
namespace TypeReveal

variable {a : Expr} {seg part : Segment} {K : Quotation → Segment → Prop} {s r : List Char}

/-! ## Parts

One lemma for each way in which the part that changes can stand in the segment: alone, before the
first comma, or behind it. -/

/-- What stands before the piece stays where it is. -/
theorem Quotation.segment_of_le {q : Quotation} (h : seg.start ≤ q.start) : q.segment seg = seg :=
  congrArg (Segment.mk · seg.text) (if_pos h)

/-- The only part. -/
theorem Rewrites.only_part (hcomma : seg.index? Segment.comma = none) (h : Rewrites a seg.trim K) :
    Rewrites a seg fun q seg' => ∃ part', K q part' ∧ seg'.parts = [part'] := by
  refine h.untrim.imp fun q seg' hedits ⟨htrim, hK⟩ => ?_
  have hcomma' := Segment.index?_eq_none_of_swap Segment.comma_exact hedits.swap (by decide) hcomma
  refine ⟨seg'.trim, hK, ?_⟩
  rw [Segment.parts_of_index?_eq_none hcomma', if_neg]
  simpa [Segment.isEmpty] using htrim.ne_nil

/-- The part before the first comma. -/
theorem Rewrites.first_part (hcomma : seg.index? Segment.comma = some s.length)
    (htext : seg.text = s ++ ',' :: r) (h : Rewrites a (Segment.mk seg.start s).trim K) :
    Rewrites a seg fun q seg' => ∃ part', K q part' ∧ q.Clear (seg.drop (s.length + 1)) ∧
      seg'.parts = part' :: (seg.drop (s.length + 1)).parts.map q.segment := by
  rw [Segment.drop_of_text_cons htext]
  refine (h.untrim.append htext (by decide)).imp ?_
  rintro q seg' - ⟨s', ⟨-, hK⟩, hedits, rfl, hclear, hmoved⟩
  have hcomma' : Segment.index? ⟨seg.start, s' ++ ',' :: r⟩ Segment.comma = some s'.length :=
    Segment.index?_of_swap Segment.comma_exact hedits.swap (by decide) hcomma htext rfl
  refine ⟨_, hK, hclear, ?_⟩
  rw [Segment.parts_of_index?_eq_some hcomma', Segment.take_of_text rfl,
    Segment.drop_of_text_cons rfl, ← hclear.segment_parts, hmoved]

/-- A part behind the first comma. -/
theorem Rewrites.later_part (hcomma : seg.index? Segment.comma = some s.length)
    (htext : seg.text = s ++ ',' :: r) (h : Rewrites a (seg.drop (s.length + 1)) K) :
    Rewrites a seg fun q seg' => q.Clear (seg.take s.length).trim ∧ ∃ rest', K q rest' ∧
      seg'.parts = q.segment (seg.take s.length).trim :: rest'.parts := by
  have hcodes : Codes (s ++ [',']) := by
    have hafter := Segment.after_take_of_index? Segment.comma_isMark (by decide) hcomma
    rw [htext, List.take_left] at hafter
    exact (show Codes s from congrArg Scan.mode hafter).append rfl
  rw [Segment.drop_of_text_cons htext] at h
  refine (h.prepend (by simp [htext]) hcodes).imp ?_
  rintro q seg' - ⟨r', hK, -, rfl, hle⟩
  have htext' : s ++ [','] ++ r' = s ++ ',' :: r' := by simp
  have hcomma' : Segment.index? ⟨seg.start, s ++ ',' :: r'⟩ Segment.comma = some s.length :=
    Segment.index?_of_behind Segment.comma_exact hcomma htext rfl
  have hfirst : q.Clear (seg.take s.length) := .inl <| by
    rw [Segment.take_of_text htext, Segment.span]
    rw [utf8Length_append] at hle
    simp only
    omega
  have hself : q.segment (seg.take s.length) = seg.take s.length :=
    Quotation.segment_of_le (Nat.le_trans (Nat.le_add_right _ _) hle)
  refine ⟨hfirst.trim, _, hK, ?_⟩
  rw [htext', Segment.parts_of_index?_eq_some hcomma', Segment.take_of_text rfl,
    Segment.drop_of_text_cons rfl, hfirst.segment_trim, hself, Segment.take_of_text htext]

/-- **One of the parts between commas.** -/
theorem Rewrites.parts {before after : List Segment} (hparts : seg.parts = before ++ part :: after)
    (h : Rewrites a part K) : Rewrites a seg fun q seg' => ∃ part', K q part' ∧
      (∀ p ∈ before ++ after, q.Clear p) ∧
      seg'.parts = before.map q.segment ++ part' :: after.map q.segment := by
  -- The walk over the commas is the walk over the parts before the one that is rewritten.
  induction before generalizing seg with
  | nil =>
    cases hcomma : seg.index? Segment.comma with
    | none =>
      rw [Segment.parts_of_index?_eq_none hcomma] at hparts
      split at hparts
      · cases hparts
      · obtain ⟨rfl, rfl⟩ := List.cons.inj hparts
        refine (h.only_part hcomma).imp fun q seg' _ ⟨part', hK, hparts'⟩ => ?_
        exact ⟨part', hK, List.forall_mem_nil _, hparts'⟩
    | some n =>
      rw [Segment.parts_of_index?_eq_some hcomma] at hparts
      obtain ⟨rfl, rfl⟩ := List.cons.inj hparts
      obtain ⟨s, r, htext, rfl⟩ := exists_append_of_getElem? (Segment.getElem?_of_comma hcomma)
      rw [Segment.take_of_text htext] at h
      refine (h.first_part hcomma htext).imp fun q seg' _ ⟨part', hK, hclear, hparts'⟩ => ?_
      exact ⟨part', hK, fun p hp => hclear.of_mem_parts hp, hparts'⟩
  | cons b before ih =>
    cases hcomma : seg.index? Segment.comma with
    | none =>
      rw [Segment.parts_of_index?_eq_none hcomma] at hparts
      split at hparts <;> simp at hparts
    | some n =>
      rw [Segment.parts_of_index?_eq_some hcomma] at hparts
      obtain ⟨rfl, hrest⟩ := List.cons.inj hparts
      obtain ⟨s, r, htext, rfl⟩ := exists_append_of_getElem? (Segment.getElem?_of_comma hcomma)
      refine ((ih hrest).later_part hcomma htext).imp fun q seg' _ hlater => ?_
      obtain ⟨hfirst, rest', ⟨part', hK, hclear, hparts'⟩, hseg'⟩ := hlater
      exact ⟨part', hK, List.forall_mem_cons.2 ⟨hfirst, hclear⟩, by rw [hseg', hparts']; rfl⟩

/-! ## Parameters

A parameter may have stars in front of its name.  They are dropped first, and since they stand
before the colon the annotation is as far from the end as it was. -/

/-- A parameter without its stars is read by the cuts of a binding. -/
theorem rewrites_readNamedParam {p : Param} (h : readNamedParam seg = .ok p)
    (ha : p.annotation? = some a) :
    Rewrites a seg fun q seg' => readNamedParam seg' = .ok (q.param p) := by
  obtain ⟨_, rfl, hname, horder, annotation?, default?, hread, rfl⟩ := exists_of_readNamedParam h
  obtain rfl : annotation? = some a := ha
  obtain ⟨c, hcolon, hcross⟩ := exists_colon_of_readBinding hread
  rw [hcolon] at hread
  refine (rewrites_binding hcolon hcross hread).imp fun q seg' hedits hbinding => ?_
  rw [hcolon, first?_of_lt hcross] at hname
  have hname' : trim (seg'.text.take ((first? (seg'.index? Segment.colon)
      (seg'.index? Segment.equals)).getD seg'.text.length)) = trim (seg.text.take c) := by
    rw [hbinding.colon, first?_of_lt hbinding.lt, Option.getD_some, hbinding.take]
  have horder' : ∀ c ∈ seg'.index? Segment.colon, ∀ n ∈ seg'.index? Segment.equals, c < n := by
    rw [hbinding.colon]
    rintro _ ⟨⟩
    exact hbinding.lt
  rw [readNamedParam_eq hname' hname horder', hbinding.colon]
  refine bind_eq_ok.2 ⟨_, hbinding.read, ?_⟩
  rw [Quotation.param, hedits.span_eq, ← hedits.expr_eq, hcolon, first?_of_lt hcross]
  rfl

/-- The stars of a parameter stand in front of it. -/
theorem rewrites_readParam? {p : Param} (h : readParam? seg = .ok (some p))
    (ha : p.annotation? = some a) :
    Rewrites a seg fun q seg' => readParam? seg' = .ok (some (q.param p)) := by
  rcases readParam?_cases h with hnone | ⟨_, hread, hsome⟩
  · cases hnone
  · cases hsome
    have htext : seg.text = seg.text.takeWhile (· == '*') ++ seg.text.dropWhile (· == '*') :=
      List.takeWhile_append_dropWhile.symm
    have hhead := List.head?_dropWhile_not (· == '*') seg.text
    generalize hstars : seg.text.takeWhile (· == '*') = stars at htext hread
    generalize hrest : seg.text.dropWhile (· == '*') = rest at htext hhead
    rw [Segment.drop_of_text htext] at hread
    have hall : ∀ c ∈ stars, (c == '*') = true := fun c hc =>
      List.mem_takeWhile_imp (p := (· == '*')) (hstars ▸ hc)
    have hcodes : Codes stars := codes_of_isPlain fun c hc => by
      rw [eq_of_beq (hall c hc)]
      decide
    refine ((rewrites_readNamedParam hread ha).prepend htext hcodes).imp ?_
    rintro q seg' hedits ⟨r', hread', hrest', rfl, -⟩
    -- The edited rest starts as the old one did, so the stars taken off it are the same.
    have htake : (stars ++ r').takeWhile (· == '*') = stars := by
      rw [List.takeWhile_append_of_pos hall]
      have hhead' : r'.head? = rest.head? := hrest'.head?_eq
      cases r' with
      | nil => simp
      | cons c r' =>
        rw [← hhead'] at hhead
        rw [List.takeWhile_cons_of_neg (by simpa using hhead), List.append_nil]
    rw [readParam?, if_neg, htake, Segment.drop_of_text rfl, hread']
    · rfl
    · obtain ⟨m, hm, hmark⟩ := hedits.exists_mark
      simp only [Bool.or_eq_true, decide_eq_true_eq]
      rintro (hstar | hslash)
      · rw [hstar, List.mem_singleton] at hm
        subst hm
        revert hmark
        decide
      · rw [hslash, List.mem_singleton] at hm
        subst hm
        revert hmark
        decide

/-- **The annotation of a parameter** in a list. -/
theorem rewrites_readParams {params : List Param} {p : Param} (h : readParams seg = .ok params)
    (hp : p ∈ params) (ha : p.annotation? = some a) :
    Rewrites a seg fun q seg' => readParams seg' = .ok (params.map q.param) := by
  obtain ⟨ps, hps, rfl⟩ := readParams_eq_ok.1 h
  obtain ⟨p?, hp?, rfl⟩ := List.mem_filterMap.1 hp
  obtain ⟨before, part, after, cs, ds, hparts, rfl, hcs, hpart, hds⟩ :=
    exists_append_of_mem_mapM hps hp?
  refine ((rewrites_readParam? hpart ha).parts hparts).imp ?_
  rintro q seg' - ⟨part', hpart', hclear, hparts'⟩
  obtain ⟨hbefore, hafter⟩ := List.forall_mem_append.1 hclear
  have hcarries {parts : List Segment} (hparts : ∀ part ∈ parts, q.Clear part) :
      Quotation.Carries (List.map (Option.map q.param)) (parts.mapM readParam?)
        ((parts.map q.segment).mapM readParam?) :=
    .mapM fun part hpart => (hparts part hpart).readParam?
  rw [readParams, hparts', mapM_append_cons_eq_ok.2
    ⟨_, _, _, hcarries hbefore cs hcs, hpart', hcarries hafter ds hds, rfl⟩]
  show Except.ok _ = _
  rw [List.map_filterMap]
  simp [List.filterMap_append, List.filterMap_map]

end TypeReveal
