import TypeReveal.Proofs.Quoting.Focus

/-!
# The annotation of a statement without a block

Where a line is read as a statement without a block that has an annotation, this is the annotation
of a binding (`Node.Annotated`).  It stands between the colon and the sign of equality, and with the
piece in quotes both are found where they were, so that the line is read as what becomes of the
statement (`rewrites_readSimple`).

The colon is the first in the segment, and what stands before it does not change.  So it is found
again as soon as the new text hides nothing before it, which it cannot, standing behind.  The sign
of equality is another matter: it is looked for from the start of the segment, across the
annotation, and whether a `=` is a sign depends on the character before it.  Both the text and the
string end with a character after which it is one.
-/

set_option autoImplicit false
namespace TypeReveal

/-! ## Annotated nodes

An annotation is found in the tree and not by its position.  `Node.Annotated` is what goes down a
tree with the readers: an annotation of a node, or of one of its children. -/

/-- The annotation of a binding or a parameter, or of the result of a function. -/
def Node.annotation? : Node → Option Expr
  | stmt (.binding _ _ annotation? _) => annotation?
  | stmt (.function _ _ _ _ result? _) => result?
  | param p => p.annotation?
  | _ => none

/-- `a` is the annotation of a node or of one below it. -/
inductive Node.Annotated (a : Expr) : Node → Prop
  | here {node : Node} (h : node.annotation? = some a) : Annotated a node
  | deeper {node child : Node} (hchild : child ∈ node.children) (h : Annotated a child) :
    Annotated a node

namespace Node.Annotated

variable {a : Expr}

/-- There are no annotations in expressions. -/
theorem not_expr {e : Expr} : ¬ Annotated a (.expr e) := by
  intro h
  generalize hnode : Node.expr e = node at h
  induction h generalizing e with
  | here h =>
    subst hnode
    cases h
  | deeper hchild _ ih =>
    subst hnode
    obtain ⟨child, -, rfl⟩ := List.mem_map.1 hchild
    exact ih rfl

/-- Nor in expressions that are children of a node. -/
theorem not_mem_map_expr {es : List Expr} {node : Node} (h : node.Annotated a) :
    node ∉ es.map Node.expr := by
  intro hnode
  obtain ⟨e, -, rfl⟩ := List.mem_map.1 hnode
  exact not_expr h

/-- What is annotated in a tree below a node is annotated below the root. -/
theorem of_mem_preorder {root place : Place} (hplace : place ∈ root.preorder)
    (h : place.node.Annotated a) : root.node.Annotated a := by
  induction Place.mem_preorder_iff.1 hplace with
  | refl => exact h
  | tail hparent hchild ih =>
    exact ih (Place.mem_preorder_iff.2 hparent) (.deeper (Place.node_of_mem_placeAll hchild) h)

/-- Parameters are annotated themselves. -/
theorem param {p : Param} (h : Annotated a (.param p)) : p.annotation? = some a := by
  cases h with
  | here h => exact h
  | deeper hchild h => exact absurd hchild h.not_mem_map_expr

end Node.Annotated

/-! ## Separators

Cuts at positions are rewritten here as cuts of texts: a segment whose text is `s ++ c :: r` with
the sign `c` at position `s.length` is cut into `s` and `r`.  In this form the edited segment is cut
in the same way, by writing another text in the middle. -/

/-- A list is cut at one of its positions. -/
theorem exists_append_of_getElem? {α : Type} {l : List α} {n : Nat} {a : α} (h : l[n]? = some a) :
    ∃ s t, l = s ++ a :: t ∧ s.length = n := by
  obtain ⟨hn, rfl⟩ := List.getElem?_eq_some_iff.1 h
  exact ⟨l.take n, l.drop (n + 1), by rw [List.getElem_cons_drop, List.take_append_drop],
    by simp; omega⟩

namespace Segment

variable {seg seg' : Segment} {sep : Separator} {s r w v : List Char}

/-- The first part of a segment. -/
theorem take_of_text (htext : seg.text = s ++ r) : seg.take s.length = ⟨seg.start, s⟩ := by
  rw [take, htext, List.take_left]

/-- The rest of a segment. -/
theorem drop_of_text (htext : seg.text = s ++ r) :
    seg.drop s.length = ⟨seg.start + utf8Length s, r⟩ := by
  rw [drop, htext, List.take_left, List.drop_left]

/-- The rest of a segment behind a character. -/
theorem drop_of_text_cons {c : Char} (htext : seg.text = s ++ c :: r) :
    seg.drop (s.length + 1) = ⟨seg.start + utf8Length (s ++ [c]), r⟩ := by
  have hdrop := @drop_of_text seg (s ++ [c]) r (by rw [htext, List.append_assoc]; rfl)
  rwa [List.length_append] at hdrop

/-- The piece of a segment between two of its characters. -/
theorem slice_of_text {c d : Char} (htext : seg.text = s ++ c :: (w ++ d :: r)) :
    seg.slice (s.length + 1) (s.length + 1 + w.length) =
      ⟨seg.start + utf8Length (s ++ [c]), w⟩ := by
  have hlength : s.length + 1 + w.length = (s ++ c :: w).length := by
    simp only [List.length_append, List.length_cons]
    omega
  rw [hlength, slice, @take_of_text seg (s ++ c :: w) (d :: r) (by simp [htext]),
    drop_of_text_cons rfl]

/-- What follows a piece of a segment between two of its characters. -/
theorem drop_of_text_slice {c d : Char} (htext : seg.text = s ++ c :: (w ++ d :: r)) :
    seg.drop (s.length + 1 + w.length + 1) =
      ⟨seg.start + utf8Length (s ++ c :: (w ++ [d])), r⟩ := by
  have hdrop := @drop_of_text seg (s ++ c :: (w ++ [d])) r (by simp [htext])
  rw [← hdrop]
  refine congrArg seg.drop ?_
  simp only [List.length_append, List.length_cons, List.length_nil]
  omega

/-- What follows a separator that is looked for does not matter to what stands before it. -/
theorem indexIn?_of_behind {b : Option Char} {u rest : List (Char × Region)} {x : Char × Region}
    (h : ∀ n, indexIn? sep b (u ++ x :: rest) = some n → u.length ≤ n)
    (rest' : List (Char × Region)) : indexIn? sep b (u ++ x :: rest') =
      (indexIn? sep ((u.map Prod.fst).getLast?.or b) (x :: rest')).map (· + u.length) := by
  induction u generalizing b with
  | nil => simp
  | cons y u ih =>
    obtain ⟨c, region⟩ := y
    have hhead (rest : List (Char × Region)) :
        (u ++ x :: rest).head?.map Prod.fst = (u ++ [x]).head?.map Prod.fst := by
      cases u <;> rfl
    have hno : ¬ (decide (region = .top) &&
        sep b c ((u ++ [x]).head?.map Prod.fst)) = true := by
      intro hyes
      have hzero := h 0 (by rw [List.cons_append, indexIn?, hhead, if_pos hyes])
      simp at hzero
    have hnext : ∀ n, indexIn? sep (some c) (u ++ x :: rest) = some n → u.length ≤ n := by
      intro n hn
      have hle := h (n + 1) (by rw [List.cons_append, indexIn?, hhead, if_neg hno, hn]; rfl)
      exact Nat.le_of_succ_le_succ hle
    have hbefore : ((c :: u.map Prod.fst).getLast?.or b) =
        (u.map Prod.fst).getLast?.or (some c) := by
      rw [List.getLast?_cons]
      cases (u.map Prod.fst).getLast? <;> rfl
    rw [List.cons_append, indexIn?, hhead, if_neg hno, ih hnext, List.map_cons, hbefore,
      Option.map_map]
    rfl

/-- The sign of a binding behind a colon and a sealed text. -/
theorem index?_equals_of_colon (hs : Scan.after {} s = ⟨0, .code⟩)
    (htext : seg.text = s ++ ':' :: r)
    (hlate : ∀ n ∈ seg.index? equals, s.length ≤ n) (hw : Sealed [',', ':', '='] w)
    (htext' : seg'.text = s ++ ':' :: (w ++ v)) : seg'.index? equals =
      (indexIn? equals (w.getLast?.or (some ':')) (regions v)).map
        (· + (s.length + 1 + w.length)) := by
  have hlabel (t : List Char) : regions (s ++ ':' :: t) =
      Scan.label {} s ++ (':', .top) :: Scan.label {} t := by
    rw [regions, Scan.label_append_cons, hs]
    rfl
  rw [index?, htext, hlabel] at hlate
  have hmiss : ∀ x ∈ Scan.label {} w, x.2 = .top →
      ∀ before after, equals before x.1 after = false :=
    not_sep_of_sealed equals_isMark (by decide) hw
  have hcolon (before after : Option Char) : equals before ':' after = false := by
    simp [equals]
  have hsplit : Scan.label {} (w ++ v) = Scan.label {} w ++ regions v := hw.label_append 0 v
  rw [index?, htext', hlabel, indexIn?_of_behind (by simpa using hlate), indexIn?, hcolon,
    Bool.and_false, if_neg Bool.false_ne_true, hsplit, indexIn?_append hmiss, Option.map_map,
    Option.map_map, Scan.map_fst_label]
  refine congrArg (fun f => Option.map f _) (funext fun n => ?_)
  simp only [Function.comp_apply, Scan.length_label]
  omega

/-- The sign of a binding at the start of a text, behind any other character. -/
theorem indexIn?_equals_congr {b : Option Char} {d : Char}
    (h : indexIn? equals b (regions ('=' :: r)) = some 0)
    (hd : d ∉ ['=', '<', '>', '!', ':']) :
    indexIn? equals (some d) (regions ('=' :: r)) = some 0 := by
  have hregions : regions ('=' :: r) = ('=', .top) :: Scan.label {} r := rfl
  rw [hregions, indexIn?] at h ⊢
  split at h
  · next hsign =>
    refine if_pos ?_
    simp only [equals, Bool.and_eq_true] at hsign ⊢
    exact ⟨hsign.1, hsign.2.1, by simpa using hd⟩
  · obtain ⟨n, -, hn⟩ := Option.map_eq_some_iff.1 h
    cases hn

end Segment

/-! ## Bindings

There are three forms of bindings, and an annotation stands in two of them: `name: type` and `name:
type = value`.  A parameter of a function is read by the same cuts, so the lemma is about the cuts
and serves both. -/

/-- What the colon at `c` declares in `seg`, with the value that is left, it declares in `seg'` with
the string for its annotation. -/
structure Quotation.Rebinds (q : Quotation) (c : Nat) (value? : Option Expr) (seg seg' : Segment) :
    Prop where
  colon : seg'.index? Segment.colon = some c
  lt : ∀ n ∈ seg'.index? Segment.equals, c < n
  take : seg'.text.take c = seg.text.take c
  read : readBinding seg' (some c) (seg'.index? Segment.equals) =
    .ok (some q.string, value?.map q.expr)

section

variable {a : Expr} {seg : Segment} {s t w r : List Char}

/-- The colon stands outside of everything. -/
theorem Segment.after_of_colon (hcolon : seg.index? Segment.colon = some s.length)
    (htext : seg.text = s ++ ':' :: t) : Scan.after {} s = ⟨0, .code⟩ := by
  have hafter := Segment.after_take_of_index? Segment.colon_isMark (by decide) hcolon
  rwa [htext, List.take_left] at hafter

/-- What follows the colon does not matter to where it is found. -/
theorem Segment.colon_of_behind (hcolon : seg.index? Segment.colon = some s.length)
    (htext : seg.text = s ++ ':' :: t) {start : Nat} {t' : List Char} :
    Segment.index? ⟨start, s ++ ':' :: t'⟩ Segment.colon = some s.length :=
  Segment.index?_of_behind Segment.colon_exact hcolon htext rfl

/-- An annotation that nothing follows. -/
theorem rewrites_last (htext : seg.text = s ++ ':' :: t)
    (hcolon : seg.index? Segment.colon = some s.length)
    (hequals : seg.index? Segment.equals = none)
    (ha : Segment.expr ⟨seg.start + utf8Length (s ++ [':']), t⟩ = .ok a) :
    Rewrites a seg fun q seg' => q.Rebinds s.length none seg seg' := by
  have hs := Segment.after_of_colon hcolon htext
  refine ⟨s, ':', t, [], ⟨by simp [htext], .inl rfl, congrArg Scan.mode hs, by simp, ha⟩,
    fun q w' hfits => ?_⟩
  have hequals' := @Segment.index?_equals_of_colon seg ⟨seg.start, s ++ ':' :: (w' ++ [])⟩ s t w'
    [] hs htext (by simp [hequals]) (hfits.sealed ha).2 rfl
  rw [show Segment.indexIn? _ _ (regions []) = none from rfl, Option.map_none] at hequals'
  refine ⟨Segment.colon_of_behind hcolon htext, by rw [hequals']; simp,
    by rw [htext, List.take_left, List.take_left], ?_⟩
  rw [hequals', readBinding, Segment.drop_of_text_cons rfl, List.append_nil,
    hfits.expr_string ha]
  rfl

/-- An annotation that a value follows. -/
theorem rewrites_before_value {value : Expr} (htext : seg.text = s ++ ':' :: (w ++ '=' :: r))
    (hcolon : seg.index? Segment.colon = some s.length)
    (hequals : seg.index? Segment.equals = some (s.length + 1 + w.length))
    (ha : Segment.expr ⟨seg.start + utf8Length (s ++ [':']), w⟩ = .ok a)
    (hvalue : Segment.expr ⟨seg.start + utf8Length (s ++ ':' :: (w ++ ['='])), r⟩ = .ok value) :
    Rewrites a seg fun q seg' => q.Rebinds s.length (some value) seg seg' := by
  have hs := Segment.after_of_colon hcolon htext
  refine ⟨s, ':', w, '=' :: r, ⟨htext, .inl rfl, congrArg Scan.mode hs, by simp; decide, ha⟩,
    fun q w' hfits => ?_⟩
  obtain ⟨hle, hstart, hstop, hbehind⟩ := hfits.bounds
  -- The equals sign is found again: none is in the quoted text, and the scan leaves it as before.
  have hequals' : Segment.index? ⟨seg.start, s ++ ':' :: (w' ++ '=' :: r)⟩ Segment.equals =
      some (s.length + 1 + w'.length) := by
    have hlate : ∀ n ∈ seg.index? Segment.equals, s.length ≤ n := by
      rw [hequals]
      rintro _ ⟨⟩
      omega
    obtain ⟨hsealed, hsealed'⟩ := hfits.sealed ha
    obtain ⟨d, hd, hnot⟩ := hfits.last ha
    rw [Segment.index?_equals_of_colon hs htext hlate hsealed htext, Option.map_eq_some_iff]
      at hequals
    obtain ⟨k, hk, hzero⟩ := hequals
    obtain rfl : k = 0 := by omega
    rw [Segment.index?_equals_of_colon hs htext hlate hsealed' rfl, hd, Option.some_or,
      Segment.indexIn?_equals_congr hk hnot, Option.map_some, Nat.zero_add]
  have hlt' : s.length < s.length + 1 + w'.length := by omega
  refine ⟨Segment.colon_of_behind hcolon htext, by rw [hequals']; rintro _ ⟨⟩; exact hlt',
    by rw [htext, List.take_left, List.take_left], ?_⟩
  have hplace (w : List Char) : seg.start + utf8Length (s ++ ':' :: (w ++ ['='])) =
      seg.start + utf8Length (s ++ [':']) + utf8Length w + 1 := by
    simp only [utf8Length_append, utf8Length_cons, utf8Length_nil, show '='.utf8Size = 1 from rfl]
    omega
  rw [hplace] at hvalue
  have hclear : q.Clear ⟨seg.start + utf8Length (s ++ [':']) + utf8Length w + 1, r⟩ :=
    .inr ⟨Nat.lt_succ_of_lt hstart, Nat.le_succ_of_le (hbehind (by simp))⟩
  have hmoved : Segment.mk (seg.start + utf8Length (s ++ [':']) + utf8Length w' + 1) r =
      q.segment ⟨seg.start + utf8Length (s ++ [':']) + utf8Length w + 1, r⟩ := by
    rw [Quotation.segment, Quotation.pos_add hstart (hbehind (by simp)), hstop]
  rw [hequals', readBinding, if_pos hlt', Segment.slice_of_text rfl, Segment.drop_of_text_slice rfl,
    hfits.expr_string ha, hplace, hmoved]
  exact bind_eq_ok.2 ⟨_, rfl, bind_eq_ok.2 ⟨_, hclear.expr value hvalue, rfl⟩⟩

/-- **The annotation of a binding or a parameter.** -/
theorem rewrites_binding {c : Nat} {value? : Option Expr}
    (hcolon : seg.index? Segment.colon = some c)
    (hcross : ∀ n ∈ seg.index? Segment.equals, c < n)
    (h : readBinding seg (some c) (seg.index? Segment.equals) = .ok (some a, value?)) :
    Rewrites a seg fun q seg' => q.Rebinds c value? seg seg' := by
  obtain ⟨s, t, htext, rfl⟩ := exists_append_of_getElem? (Segment.getElem?_of_colon hcolon)
  cases hequals : seg.index? Segment.equals with
  | none =>
    rw [hequals] at h
    obtain ⟨_, ha, h⟩ := bind_eq_ok.1 h
    cases h
    rw [Segment.drop_of_text_cons htext] at ha
    exact rewrites_last htext hcolon hequals ha
  | some n =>
    have hlt : s.length < n := hcross n hequals
    obtain ⟨w, r, rfl, rfl⟩ : ∃ w r, t = w ++ '=' :: r ∧ n = s.length + 1 + w.length := by
      have hget := Segment.getElem?_of_equals hequals
      rw [htext, List.getElem?_append_right (Nat.le_of_lt hlt), List.getElem?_cons,
        if_neg (by omega)] at hget
      obtain ⟨w, r, rfl, hlength⟩ := exists_append_of_getElem? hget
      exact ⟨w, r, rfl, by omega⟩
    rw [hequals, readBinding, if_pos hlt, Segment.slice_of_text htext,
      Segment.drop_of_text_slice htext] at h
    obtain ⟨_, ha, h⟩ := bind_eq_ok.1 h
    obtain ⟨value, hvalue, h⟩ := bind_eq_ok.1 h
    cases h
    exact rewrites_before_value htext hcolon hequals ha hvalue

end

/-- An annotation that was read stands behind a colon, with no sign of equality before it. -/
theorem exists_colon_of_readBinding {a : Expr} {seg : Segment} {colon? equals? : Option Nat}
    {value? : Option Expr} (h : readBinding seg colon? equals? = .ok (some a, value?)) :
    ∃ c, colon? = some c ∧ ∀ n ∈ equals?, c < n := by
  cases readBinding_eq_ok.1 h with
  | both hlt => exact ⟨_, rfl, by simpa using hlt⟩
  | hint => exact ⟨_, rfl, nofun⟩

/-- The colon is the first separator. -/
theorem first?_of_lt {c : Nat} {equals? : Option Nat} (h : ∀ n ∈ equals?, c < n) :
    first? (some c) equals? = some c := by
  cases equals? with
  | none => rfl
  | some n => exact congrArg some (Nat.min_eq_left (Nat.le_of_lt (h n rfl)))

variable {a : Expr} {seg : Segment} {s : Stmt}

/-- A statement with an annotation that starts with no keyword is a binding. -/
theorem rewrites_readPlain (h : readPlain seg = .ok s) (ha : Node.Annotated a (.stmt s)) :
    Rewrites a seg fun q seg' => readPlain seg' = .ok (q.stmt s) := by
  rw [readPlain] at h
  split at h
  · next name hname =>
    obtain ⟨⟨annotation?, value?⟩, hread, h⟩ := bind_eq_ok.1 h
    cases h
    obtain rfl : annotation? = some a := by
      cases ha with
      | here h => exact h
      | deeper hchild h => exact absurd hchild h.not_mem_map_expr
    obtain ⟨c, hcolon, hcross⟩ := exists_colon_of_readBinding hread
    rw [hcolon] at hread
    refine (rewrites_binding hcolon hcross hread).imp fun q seg' hedits hbinding => ?_
    have hname' : boundName? seg' = boundName? seg := by
      simp only [boundName?, hcolon, hbinding.colon, first?_of_lt hcross,
        first?_of_lt hbinding.lt, hbinding.take, bind, Option.bind]
    rw [readPlain, hname', hname, hbinding.colon]
    refine bind_eq_ok.2 ⟨_, hbinding.read, ?_⟩
    rw [Quotation.stmt, hedits.span_eq, ← hedits.expr_eq]
    rfl
  · obtain ⟨value, -, h⟩ := bind_eq_ok.1 h
    cases h
    cases ha with
    | here h => cases h
    | deeper hchild h => exact absurd hchild (@Node.Annotated.not_mem_map_expr a [value] _ h)

/-! ## Keywords

Whether a statement starts with a keyword is decided by its first word, which stands before the
annotation.  An annotation may stand right at the start of the rest, though, and then it matters
that the rest is not empty: `return` alone and `return x` are read in different ways. -/

namespace Quotation.Edits

variable {q : Quotation} {seg' : Segment} {keyword : String} (h : q.Edits a seg seg')

include h

/-- A line that does not start with a keyword does not do so with the piece in quotes. -/
theorem afterKeyword?_eq_none (hk : keyword ∈ keywords) (hnone : seg.afterKeyword? keyword = none) :
    seg'.afterKeyword? keyword = none := by
  rw [Segment.afterKeyword?_eq _ (isNamePart_of_mem_keyword hk)] at hnone ⊢
  rw [h.firstWord_eq]
  split at hnone
  · cases hnone
  · next hword => exact if_neg hword

/-- Something follows a keyword. -/
theorem afterKeyword?_ne_empty (hk : keyword ∈ keywords) {rest : Segment}
    (hrest : seg'.afterKeyword? keyword = some rest) : rest.isEmpty = false := by
  have hword := Segment.firstWord_of_afterKeyword? hk hrest
  rw [Segment.afterKeyword?_eq _ (isNamePart_of_mem_keyword hk), if_pos hword] at hrest
  obtain ⟨u, m, w, w', v, hfocus, -, rfl⟩ := h
  rw [firstWord_append_cons hfocus.not_namePart] at hword
  have hstart : u = Segment.firstWord u ++ u.dropWhile isNamePart :=
    List.takeWhile_append_dropWhile.symm
  obtain ⟨u', rfl⟩ : ∃ u', u = keyword.toList ++ u' := ⟨_, hword ▸ hstart⟩
  have hm : isBlank m = false := by
    rcases hfocus.mark with rfl | rfl <;> decide
  have hdrop := @Segment.drop_of_text ⟨seg.start, keyword.toList ++ u' ++ m :: (w' ++ v)⟩
    keyword.toList (u' ++ m :: (w' ++ v)) (by simp)
  rw [String.length_toList] at hdrop
  rw [← Option.some_inj.1 hrest, hdrop, Segment.isEmpty, List.isEmpty_eq_false_iff]
  intro hnil
  obtain ⟨x, y, hsplit, hx, hy⟩ := exists_trim (u' ++ m :: (w' ++ v))
  rw [Segment.trim_text] at hnil
  rw [hnil, List.nil_append] at hsplit
  have hblank := List.forall_mem_append.2 ⟨hx, hy⟩ m (hsplit ▸ by simp)
  rw [hm] at hblank
  cases hblank

end Quotation.Edits

/-- **The annotation of a statement without a block.** -/
theorem rewrites_readSimple (h : Stmt.readSimple seg = .ok s) (ha : Node.Annotated a (.stmt s)) :
    Rewrites a seg fun q seg' => Stmt.readSimple seg' = .ok (q.stmt s) := by
  rw [Stmt.readSimple] at h
  -- A statement of expressions alone has no annotation, so only the plain one is left.
  have hone {node : Node} (es : List Expr) (hnode : node.annotation? = none)
      (hes : node.children = es.map .expr) (ha : node.Annotated a) : False := by
    cases ha with
    | here h => cases hnode.symm.trans h
    | deeper hchild h => exact h.not_mem_map_expr (hes ▸ hchild)
  split at h
  · cases h
    exact (hone [] rfl rfl ha).elim
  · split at h
    · rw [readResult] at h
      split at h
      · cases h
        exact (hone [] rfl rfl ha).elim
      · obtain ⟨value, -, h⟩ := bind_eq_ok.1 h
        cases h
        exact (hone [value] rfl rfl ha).elim
    · cases h
      exact (hone [] rfl rfl ha).elim
    · rw [readFrom] at h
      split at h
      · cases h
      · cases h
        exact (hone [] rfl rfl ha).elim
    · next hreturn himport hfrom =>
      refine (rewrites_readPlain h ha).imp fun q seg' hedits hplain => ?_
      rw [Stmt.readSimple, hedits.afterKeyword?_eq_none (by decide) hreturn,
        hedits.afterKeyword?_eq_none (by decide) himport,
        hedits.afterKeyword?_eq_none (by decide) hfrom]
      refine (if_neg ?_).trans hplain
      cases hpass : seg'.afterKeyword? "pass" with
      | none => simp
      | some rest => simpa using hedits.afterKeyword?_ne_empty (by decide) hpass

end TypeReveal
