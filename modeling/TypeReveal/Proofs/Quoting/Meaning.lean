import TypeReveal.Inference.Context
import TypeReveal.Proofs.Annotation.Quoted
import TypeReveal.Proofs.Annotation.SignatureText
import TypeReveal.Proofs.Quoting.Lookup
import TypeReveal.Proofs.Quoting.Source

/-!
# Quoting an annotation

An annotation denotes the same with its text in quotes (`Place.types_quoted`), if nothing in it is
looked at in another way there: it has no strings and no `&`, it is made of no literals and tuples,
and none of its names is that of a variable, whose value would be looked up one step deeper.

The three conditions are needed.  A string in the annotation would be a string in a string.  A
literal, a tuple or an operator `&` means something by the extended rules that it does not mean by
the standard ones, and a text in quotes that is no signature is read by the standard rules alone.
An alias is followed a bounded number of steps, and the string is one step more.

Under them the proof compares two readings of one text, in three parts: the expression in the string
is the annotation but for its spans; its names are bound by twins (`Stands.lookup`), whose
declarations denote the same; and the rules of both meanings ask for nothing else
(`Expr.AtomsAgree`).
-/

set_option autoImplicit false
namespace TypeReveal

/-! ## Annotations without forms of their own

Forms of their own are what the extended meaning adds: literals for their values, tuples,
intersections and signatures.  An annotation without them has its standard meaning, and this is read
off the tokens it is derived from and the way down through operators and parentheses. -/

/-- Whether no number, truth value or tuple is met on the way down through operators and
parentheses. -/
def Expr.isLiteralFree : Expr → Bool
  | .int .. | .bool .. | .tuple .. => false
  | .binary _ _ lhs rhs => lhs.isLiteralFree && rhs.isLiteralFree
  | .dangling _ _ lhs => lhs.isLiteralFree
  | .paren _ inner => inner.isLiteralFree
  | .float .. | .none _ | .ellipsis _ | .str .. | .name .. | .list .. | .subscript .. | .member ..
  | .call .. => true

/-- Tokens that are neither strings nor operators of intersections. -/
def Lexeme.Common (ls : List Lexeme) : Prop :=
  ∀ l ∈ ls, (∀ s, l.token ≠ .str s) ∧ l.token ≠ .operator .amp

mutual

/-- What is made of such tokens has no form of its own, if it is made of no literals. -/
theorem Derives.isStandard : ∀ {s : Stratum} {ls : List Lexeme} {e : Expr}, Derives s ls e →
    Lexeme.Common ls → e.isLiteralFree = true → e.isStandard = true
  | _, _, _, .operand h, hls, hfree => by
    obtain ⟨hstr, -⟩ := hls _ List.mem_cons_self
    rw [Token.operand?.eq_def] at h
    split at h
    -- A quoted text is the one operand that the lexemes rule out.
    case h_7 => exact absurd ‹_› (hstr _)
    all_goals cases h
    all_goals first | rfl | cases hfree
  | _, _, _, .unit .., _, hfree => by cases hfree
  | _, _, _, @Derives.paren _ _ _ _ _ _ inner _ h hinner _, hls, hfree => by
    have hall := h.isStandard fun l hl =>
      hls l (List.mem_cons_of_mem _ (List.mem_append_left _ hl))
    change inner.isLiteralFree = true at hfree
    change inner.isStandard = true
    rw [wholeOf?.eq_def] at hinner
    split at hinner
    · cases hinner
    · cases hinner
      exact hall _ List.mem_cons_self hfree
    · cases hinner
      cases hfree
  | _, _, _, .list .., _, _ => rfl
  | _, _, _, .call .., _, _ => rfl
  | _, _, _, .subscript .., _, _ => rfl
  | _, _, _, .member .., _, _ => rfl
  | _, _, _, .amp h, hls, hfree => h.isStandard hls hfree
  | _, _, _, .bar h, hls, hfree => h.isStandard hls hfree
  | _, _, _, @Derives.binary op l ls ms lhs rhs hlhs hl hrhs, hls, hfree => by
    obtain ⟨hleft, hright⟩ := List.forall_mem_append.1 hls
    obtain ⟨⟨-, hop⟩, hright⟩ := List.forall_mem_cons.1 hright
    obtain ⟨hfree, hfree'⟩ := Bool.and_eq_true_iff.1 hfree
    have hstandard := hlhs.isStandard hleft hfree
    have hstandard' := hrhs.isStandard hright hfree'
    cases op with
    | amp => exact absurd hl hop
    | bar => exact Bool.and_eq_true_iff.2 ⟨hstandard, hstandard'⟩
  | _, _, _, @Derives.dangling op l ls lhs hlhs hl, hls, hfree => by
    obtain ⟨hleft, hright⟩ := List.forall_mem_append.1 hls
    have hop := (hright l (List.mem_singleton_self l)).2
    have hstandard := hlhs.isStandard hleft hfree
    cases op with
    | amp => exact absurd hl hop
    | bar => exact hstandard

theorem Fills.isStandard : ∀ {ls : List Lexeme} {es : List Expr} {comma? : Option Nat}
    {ended : Bool}, Fills ls es comma? ended → Lexeme.Common ls →
    ∀ e ∈ es, e.isLiteralFree = true → e.isStandard = true
  | _, _, _, _, .empty, _ => fun _ he => absurd he List.not_mem_nil
  | _, _, _, _, .next h he, hls =>
    have ⟨hleft, hright⟩ := List.forall_mem_append.1 hls
    List.forall_mem_append.2
      ⟨h.isStandard hleft, List.forall_mem_singleton.2 (he.isStandard hright)⟩
  | _, _, _, _, .comma h _, hls => h.isStandard (List.forall_mem_append.1 hls).1

end

/-! ## The parts of an annotation

The parts are all expressions below the annotation.  They have no strings among them, stand between
its start and its end, and are the same in the string. -/

/-- Only a string is read as a string. -/
theorem Expr.exists_str_of_operand? {t : Token} {span span' : Span} {s : String}
    (h : t.operand? span = some (.str span' s)) : ∃ s, t = .str s := by
  rw [Token.operand?.eq_def] at h
  split at h
  case h_7 => exact ⟨_, rfl⟩
  all_goals cases h

/-- A part of an expression stands in it. -/
theorem Expr.HasPart.bounds {e c : Expr} (h : e.HasPart c) (hnested : Node.Nested (.expr e)) :
    e.span.start ≤ c.span.start ∧ Node.Nested (.expr c) ∧ c.span.stop ≤ e.span.stop := by
  have hchild {e c : Expr} (hc : c ∈ e.children) (hnested : Node.Nested (.expr e)) :
      e.span.start ≤ c.span.start ∧ Node.Nested (.expr c) ∧ c.span.stop ≤ e.span.stop :=
    Node.Laid.mem hnested (List.mem_map_of_mem hc)
  induction h with
  | single hc => exact hchild hc hnested
  | tail _ hc ih =>
    obtain ⟨hstart, hnested, hstop⟩ := ih
    obtain ⟨hstart', hnested', hstop'⟩ := hchild hc hnested
    exact ⟨Nat.le_trans hstart hstart', hnested', Nat.le_trans hstop' hstop⟩

namespace Spells

variable {text : List Char} {start : Nat} {e c : Expr} (h : Spells text start e)

include h

/-- The expression has its standard meaning also by the extended rules. -/
theorem isStandard (hamp : '&' ∉ text) (hfree : e.isLiteralFree = true) : e.isStandard = true := by
  obtain ⟨ls, hlexed, hderives⟩ := h.exists_lexed
  refine hderives.isStandard (fun l hl => ?_) hfree
  obtain ⟨hstr, hop⟩ := hlexed.token_ne h.plain.stringless hl
  exact ⟨hstr, hop hamp⟩

/-- There are no strings in the expression. -/
theorem ne_str : ∀ c, c = e ∨ e.HasPart c → ∀ span s, c ≠ .str span s := by
  obtain ⟨ls, hlexed, -⟩ := h.exists_lexed
  refine Expr.forall_part_of_read ?_ ?_ h.read
  · rintro c hc span s rfl
    cases hc
  · rintro l hl c hc span s rfl
    obtain ⟨s, hs⟩ := Expr.exists_str_of_operand? hc
    rw [hlexed.lexemes_eq] at hl
    exact (hlexed.token_ne h.plain.stringless hl).1 s hs

/-- The parts of the expression stand in it. -/
theorem part_bounds (hc : c = e ∨ e.HasPart c) :
    e.span.start ≤ c.span.start ∧ c.span.start ≤ e.span.stop := by
  obtain ⟨-, hnested, -⟩ := Expr.laid_singleton.1 (Expr.laid_of_read h.read)
  rcases hc with rfl | hc
  · exact ⟨Nat.le_refl _, hnested.le⟩
  · obtain ⟨hstart, hnested, hstop⟩ := hc.bounds hnested
    exact ⟨hstart, Nat.le_trans hnested.le hstop⟩

/-- The text on its own is the same expression, elsewhere. -/
theorem exists_ofText? : ∃ e', Expr.ofText? text = some e' ∧ e'.bare = e.bare :=
  Expr.ofText?_of_derives (Expr.derives_of_read h.read)

end Spells

/-! ## Names

A name that is bound to a variable would be followed to the value of the variable.  Names of
classes, imports and functions are not followed, so the depth that is left plays no part. -/

/-- No name in an annotation stands for a variable. -/
def Expr.NamesNoVariable (site : Site) (e : Expr) : Prop :=
  ∀ c, c = e ∨ e.HasPart c → ∀ p, site.bindingOf c = some (.declaration p) →
    ∀ span name annotation? value?, p.node ≠ .stmt (.binding span name annotation? value?)

namespace Quotation

variable {q : Quotation} {file : Node} {e : Expr} {u u' p p' : Place}
  {deeper deeper' : Site → Expr → Option Ty}

/-- The value of a declaration that is no variable. -/
theorem aliasValue?_eq_none
    (h : ∀ span name annotation? value?, p.node ≠ .stmt (.binding span name annotation? value?)) :
    p.aliasValue? = none := by
  rw [Place.aliasValue?]
  split
  · exact absurd ‹_› (h _ _ _ _)
  · rfl

/-- The twin of what is no variable is none. -/
theorem Twin.ne_binding (htwin : q.Twin file p p')
    (h : ∀ span name annotation? value?, p.node ≠ .stmt (.binding span name annotation? value?)) :
    ∀ span name annotation? value?, p'.node ≠ .stmt (.binding span name annotation? value?) := by
  intro span name annotation? value? hnode
  rw [htwin.node] at hnode
  cases hp : p.node with
  | stmt s =>
    rw [hp] at hnode
    cases s with
    | binding => exact h _ _ _ _ hp
    | _ => simp [Quotation.node, stmt] at hnode
  | _ =>
    rw [hp] at hnode
    cases hnode

namespace Stands

variable (h : q.Stands file e u u')

include h

/-- **The names of the annotation** denote the same in the string. -/
theorem atomsAgree (hspells : Spells q.text q.start e) (hnames : e.NamesNoVariable u.site) :
    e.AtomsAgree deeper deeper' u.site (u'.site.quote q.start) := by
  intro c hc hatom
  cases c with
  | int | float | bool | none | ellipsis => exact ⟨rfl, rfl⟩
  | str span s => exact absurd rfl (hspells.ne_str _ hc span s)
  | name span name =>
    obtain ⟨hstart, hstop⟩ := hspells.part_bounds hc
    have hlookup : Option.Rel (q.TwinBinding file) (u.site.lookup span.start name)
        ((u'.site.quote q.start).lookup (default : Span).start name) := h.lookup hstart hstop _
    have hvariable := hnames _ hc
    rw [Site.bindingOf] at hvariable
    rw [Expr.bare, readWith, readWith, readNameWith, readNameWith, head?, head?]
    generalize u.site.lookup span.start name = b? at hlookup hvariable ⊢
    generalize (u'.site.quote q.start).lookup (default : Span).start name = b'? at hlookup ⊢
    cases hlookup with
    | none => exact ⟨rfl, rfl⟩
    | some hb =>
      cases hb with
      | imported => exact ⟨rfl, rfl⟩
      | declaration htwin =>
        have hne := hvariable _ rfl
        simp only [aliasValue?_eq_none hne, aliasValue?_eq_none (htwin.ne_binding hne),
          htwin.node]
        cases Place.node _ with
        | stmt s => cases s <;> exact ⟨rfl, rfl⟩
        | _ => exact ⟨rfl, rfl⟩
  | _ => cases hatom

/-- **The standard meaning** of the string is that of the annotation. -/
theorem standard_string (hspells : Spells q.text q.start e) (hnames : e.NamesNoVariable u.site) :
    standard u'.site q.string = standard u.site e := by
  obtain ⟨e', he', hbare⟩ := hspells.exists_ofText?
  let deeper := readWithin (annotationDepth - 1)
  have hquoted : e'.AtomsAgree deeper deeper (u'.site.quote q.start) (u'.site.quote q.start) :=
    e'.atomsAgree_of_isQuoted (u'.site.isQuoted_quote q.start)
  calc standard u'.site q.string
    _ = (Expr.ofText? (String.ofList q.text).toList).bind
        (readWithin annotationDepth (u'.site.quote q.start)) := rfl
    _ = readWithin annotationDepth (u'.site.quote q.start) e' := by
      rw [String.toList_ofList, he', Option.bind_some]
    _ = readWith deeper (u'.site.quote q.start) e'.bare := (readsBare e' hquoted).type?.symm
    _ = readWith deeper (u'.site.quote q.start) e.bare := by rw [hbare]
    _ = standard u.site e := (readsBare e (h.atomsAgree hspells hnames)).type?

/-- **The extended meaning** of the string is that of the annotation. -/
theorem extended_string (hspells : Spells q.text q.start e) (hamp : '&' ∉ q.text)
    (hfree : e.isLiteralFree = true) (hnames : e.NamesNoVariable u.site) :
    extended u'.site q.string = extended u.site e := by
  obtain ⟨e', he', -⟩ := hspells.exists_ofText?
  have hsignature : signature? u'.site q.string = none := by
    rw [string, signature?, signatureWith, readSignature?_eq_none (e := e')]
    · rfl
    · rwa [String.toList_ofList]
  have hextended : extended u'.site q.string =
      (signature? u'.site q.string <|> standard u'.site q.string) := extended_str ..
  rw [hextended, hsignature, extended_of_isStandard (hspells.isStandard hamp hfree),
    ← h.standard_string hspells hnames]
  rfl

end Stands

/-! ## Annotations

The last step goes from the text in the file to the place in its tree.  That the edited file is
read, and as what tree, is `Quotation.read_node`; the place of the annotation in it has the place of
the string for its twin. -/

/-- A node has the annotation that its annotation becomes. -/
theorem annotation?_node (n : Node) : (q.node n).annotation? = n.annotation?.map q.expr := by
  cases n with
  | stmt s => cases s <;> simp [Quotation.node, stmt, Node.annotation?]
  | _ => rfl

/-- The places right above twins are twins. -/
theorem Twin.exists_parent (h : q.Twin file p p') {parent : Place}
    (hparent : p.parent? = some parent) :
    ∃ parent', p'.parent? = some parent' ∧ q.Twin file parent parent' := by
  cases h with
  | root => cases hparent
  | child h _ hc hc' =>
    rw [Place.parent?_of_mem_children (List.mem_of_getElem? hc)] at hparent
    cases hparent
    exact ⟨_, Place.parent?_of_mem_children (List.mem_of_getElem? hc'), h⟩

/-- **The annotation and its string** stand in files that are read. -/
theorem exists_stands {before text after : List Char} {place parent : Place}
    (hread : Node.read (before ++ (text ++ after)) = .ok file)
    (hplace : place ∈ (Place.root file).preorder) (hparent : place.parent? = some parent)
    (hhint : parent.node.annotation? = some e) (hnode : place.node = .expr e)
    (h : Spells text (utf8Length before) e) :
    Node.read (before ++ (literal text ++ after)) = .ok (node ⟨utf8Length before, text⟩ file) ∧
      ∃ place', Stands ⟨utf8Length before, text⟩ file e place place' := by
  have hmem : parent ∈ (Place.root file).preorder := by
    refine Place.mem_preorder_of_mem_ancestors hplace ?_
    rw [Place.ancestors_of_parent? hparent]
    exact List.mem_cons_self
  have hread' := read_node hread h (Node.Annotated.of_mem_preorder hmem (.here hhint))
  obtain ⟨hstart, hlt, hstop⟩ := h.bounds
  have hne : ∀ f, parent.node ≠ .expr f := by
    intro f hf
    rw [hf] at hhint
    cases hhint
  obtain ⟨place', htwin⟩ := exists_twin (q := ⟨utf8Length before, text⟩) hplace (by
    rw [Place.ancestors_of_parent? hparent]
    exact node_ne_expr_of_mem_chain hmem hne)
  refine ⟨hread', place', {
    twin := htwin
    node_eq := hnode
    node_eq' := ?_
    start_le := hstart
    le_stop := hstop
    tree := ⟨_, Node.isTreeOver_file hread⟩
    tree' := ⟨_, Node.isTreeOver_file hread'⟩
    takesText := Node.isExtended_of_read hread
    takesText' := Node.isExtended_of_read hread' }⟩
  rw [htwin.node, hnode]
  refine congrArg Node.expr ?_
  have hbefore : ¬ e.span.stop ≤ utf8Length before := by omega
  have hbehind : ¬ utf8Length before + utf8Length text ≤ e.span.start := by omega
  exact (if_neg hbefore).trans (if_neg hbehind)

end Quotation

/-- **Quoting an annotation does not change it.**  In a file that is read, the text of an annotation
is put in quotes: a text on one line, without quotes, backslashes and `&`, that is read as an
expression in which no number, truth value or tuple is met on the way down through operators and
parentheses, and no name of which stands for a variable.  Then the file is still read, with a string
in the place of the annotation, and both meanings of the string are those of the annotation. -/
theorem Place.types_quoted {before text after : List Char} {file : Node} {e : Expr}
    {place parent : Place} (hread : Node.read (before ++ (text ++ after)) = .ok file)
    (hplace : place ∈ (Place.root file).preorder) (hparent : place.parent? = some parent)
    (hhint : parent.node.annotation? = some e) (hnode : place.node = .expr e)
    (htext : Expr.read text (utf8Length before) = .ok e) (hplain : IsPlainText text)
    (hamp : '&' ∉ text) (hfree : e.isLiteralFree = true) (hnames : e.NamesNoVariable place.site) :
    let q : Quotation := ⟨utf8Length before, text⟩
    let string : Expr := .str ⟨utf8Length before, utf8Length before + utf8Length text + 2⟩
      (String.ofList text)
    ∃ place' parent', Node.read (before ++ ('"' :: text ++ '"' :: after)) = .ok (q.node file) ∧
      place' ∈ (Place.root (q.node file)).preorder ∧ place'.node = .expr string ∧
      place'.parent? = some parent' ∧ parent'.node.annotation? = some string ∧
      q.Twin file parent parent' ∧
      place'.standardType? = place.standardType? ∧
      place'.extendedType? false = place.extendedType? false := by
  intro q string
  have hsingle : e.isTuple = false := by
    cases e with
    | tuple => cases hfree
    | _ => rfl
  have hspells : Spells text (utf8Length before) e := ⟨htext, hsingle, hplain⟩
  obtain ⟨hread', place', hstands⟩ :=
    Quotation.exists_stands hread hplace hparent hhint hnode hspells
  obtain ⟨parent', hparent', htwin⟩ := hstands.twin.exists_parent hparent
  have hliteral : '"' :: text ++ '"' :: after = literal text ++ after := by simp [literal]
  have hexpr : q.expr e = string := by
    have hnode' := hstands.twin.node
    rw [hstands.node_eq', hnode] at hnode'
    exact (Node.expr.inj hnode').symm
  refine ⟨place', parent', hliteral ▸ hread', hstands.twin.mem_preorder.2, hstands.node_eq',
    hparent', ?_, htwin, ?_, ?_⟩
  · rw [htwin.node, Quotation.annotation?_node, hhint, Option.map_some, hexpr]
  · rw [standardType?, standardType?, hstands.node_eq', hnode]
    exact hstands.standard_string hspells hnames
  · rw [extendedType?, extendedType?, hstands.node_eq', hnode]
    exact hstands.extended_string hspells hamp hfree hnames

/-- The union of a class of the file and one that needs no declaration. -/
theorem Place.types_quoted_union :
    let e : Expr := .binary ⟨17, 24⟩ .bar (.name ⟨17, 20⟩ "int") (.name ⟨23, 24⟩ "C")
    let x : Stmt := .binding ⟨14, 24⟩ "x" (some e) none
    let c : Stmt := .classDef ⟨0, 13⟩ "C" [] [.pass ⟨9, 13⟩]
    let file := Node.file ⟨0, 24⟩ [c, x]
    let q : Quotation := ⟨17, "int | C".toList⟩
    let union : Ty := .union [.nominal "int" [], .nominal "C" []]
    Node.read "class C: pass\nx: int | C".toList = .ok file ∧
      Node.read "class C: pass\nx: \"int | C\"".toList = .ok (q.node file) ∧
      ∃ place' ∈ (root (q.node file)).preorder,
        place'.node = .expr (.str ⟨17, 26⟩ "int | C") ∧ place'.standardType? = some union ∧
          place'.extendedType? false = some union := by
  intro e x c file q union
  let parent := child (root file) 3 (.stmt x)
  let place := child parent 4 (.expr e)
  have hread : Node.read "class C: pass\nx: int | C".toList = .ok file := by decide +kernel
  have hplace : (root file).preorder[4]? = some place := by
    subst place parent file x c e
    rfl
  have hexpr : Expr.read "int | C".toList 17 = .ok e := by decide +kernel
  have htypes : place.standardType? = some union ∧ place.extendedType? false = some union := by
    subst place parent file x c e union
    constructor <;> cbv
  have hint : place.site.bindingOf (.name ⟨17, 20⟩ "int") = none := by
    subst place parent file x c e
    rfl
  have hclass : place.site.bindingOf (.name ⟨23, 24⟩ "C") =
      some (.declaration (child (root file) 1 (.stmt c))) := by
    subst place parent file x c e
    rfl
  -- The two operands have no parts, so these are all the names there are.
  have hparts : ∀ d, d = e ∨ e.HasPart d →
      d = e ∨ d = .name ⟨17, 20⟩ "int" ∨ d = .name ⟨23, 24⟩ "C" := by
    rintro d (rfl | hd)
    · exact .inl rfl
    · obtain ⟨child, hchild, hd⟩ := Relation.TransGen.head'_iff.1 hd
      rcases List.mem_pair.1 hchild with rfl | rfl
      all_goals
        rcases Relation.reflTransGen_iff_eq_or_transGen.1 hd with rfl | hd
        · simp
        · obtain ⟨below, hbelow, -⟩ := Relation.TransGen.head'_iff.1 hd
          cases hbelow
  have hnames : e.NamesNoVariable place.site := by
    intro d hd p hp span name annotation? value? hbinding
    rcases hparts d hd with rfl | rfl | rfl
    · cases hp
    · rw [hint] at hp
      cases hp
    · rw [hclass] at hp
      cases hp
      exact absurd hbinding (by simp [Place.node, c])
  -- The texts stay closed, so that nothing but their lengths is computed.
  obtain ⟨before, hbefore⟩ : ∃ before, before = "class C: pass\nx: ".toList := ⟨_, rfl⟩
  obtain ⟨text, htext⟩ : ∃ text, text = "int | C".toList := ⟨_, rfl⟩
  have hlength : utf8Length before = 17 := by rw [hbefore]; decide
  have hlength' : utf8Length text = 7 := by rw [htext]; decide
  have hstring : String.ofList text = "int | C" := by rw [htext, String.ofList_toList]
  have hsource : "class C: pass\nx: int | C".toList = before ++ (text ++ []) := by
    rw [hbefore, htext]
    decide
  have hsource' : before ++ ('"' :: text ++ ['"']) = "class C: pass\nx: \"int | C\"".toList := by
    rw [hbefore, htext]
    decide
  have hplain : IsPlainText text := by
    rw [IsPlainText, htext]
    decide
  have hamp : '&' ∉ text := by
    rw [htext]
    decide
  rw [hsource] at hread
  have h := types_quoted hread (List.mem_of_getElem? hplace) rfl rfl rfl
    (hlength.symm ▸ htext ▸ hexpr) hplain hamp rfl hnames
  simp only [hlength, hlength', hstring, hsource'] at h
  obtain ⟨place', parent', hread', hmem, hnode, -, -, -, hstandard, hextended⟩ := h
  rw [← hsource] at hread
  subst htext
  exact ⟨hread, hread', place', hmem, hnode, hstandard.trans htypes.1, hextended.trans htypes.2⟩

end TypeReveal
