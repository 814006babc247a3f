import TypeReveal.Annotation.Steps
import TypeReveal.Proofs.Expr.Composed
import TypeReveal.Proofs.Scope
import TypeReveal.Proofs.Statement.Origin

/-!
# What a reading leads to

A reading leads to others in few ways (`Reading.Next`): to a part of its annotation; from a string
that quotes a signature to what the two texts of the signature hold, which are shorter together than
the string is in the file; from the extended rules to the standard ones, once; and under the
standard rules to the value of an alias or to the content of a string, one level deeper, as long as
the depth allows it.  No chain of these is endless (`Reading.wellFounded_next`), and none leaves the
file (`Reading.IsOf.next`).
-/

set_option autoImplicit false
namespace TypeReveal
namespace Reading

/-! ## What a reading leads to

The relation is stated by its rules, without the functions that carry them out.  Each rule makes the
rank smaller, in its first number, its second or its third. -/

/-- **The readings that a reading leads to.** -/
inductive Next : Reading → Reading → Prop
  /-- A part of the annotation. -/
  | part {strict : Bool} {site : Site} {e c : Expr} (h : e.HasPart c) :
    Next (.extended strict site e) (.extended false site c)
  /-- What stands in a quoted signature, the whole of whose texts is shorter than the string. -/
  | fragment {strict : Bool} {site : Site} {span : Span} {text : String}
    {params result source : List Char} {root c : Expr}
    (hparts : signatureParts? text.toList = some (params, result))
    (hlength : utf8Length params + utf8Length result < span.length)
    (hsource : source = params ∨ source = result) (hroot : Expr.ofText? source = some root)
    (hc : c = root ∨ root.HasPart c) :
    Next (.extended strict site (.str span text)) (.extended false (site.quote span.start) c)
  /-- The same annotation by the standard rules. -/
  | standard {site : Site} {e : Expr} : Next (.extended false site e) (.standard 0 site e)
  /-- A part of the annotation, at the same depth. -/
  | partOf {depth : Nat} {site : Site} {e c : Expr} (hdepth : depth ≤ annotationDepth)
    (h : e.HasPart c) : Next (.standard depth site e) (.standard depth site c)
  /-- The content of a string, one level deeper. -/
  | quoted {depth : Nat} {site : Site} {span : Span} {text : String} {e : Expr}
    (hdepth : depth ≤ annotationDepth) (he : Expr.ofText? text.toList = some e) :
    Next (.standard depth site (.str span text))
      (.standard (depth + 1) (site.quote span.start) e)
  /-- The value of an alias, one level deeper. -/
  | aliased {depth : Nat} {site : Site} {span : Span} {name : String} {place : Place} {e : Expr}
    (hdepth : depth ≤ annotationDepth)
    (hplace : site.lookup span.start name = some (.declaration place))
    (he : place.aliasValue? = some e) :
    Next (.standard depth site (.name span name)) (.standard (depth + 1) place.interior e)

/-- What gets smaller from a reading to the next: the extended rules come before the standard ones;
then, of the extended rules, the longest string, and of the standard ones, the levels that are left;
then the annotation. -/
def rank : Reading → Nat × Nat × Nat
  | extended _ _ e => (1, e.longestString, e.size)
  | standard depth _ e => (0, annotationDepth + 1 - depth, e.size)

variable {r r' : Reading}

theorem Next.rank_lt (h : r.Next r') :
    Prod.Lex (· < ·) (Prod.Lex (· < ·) (· < ·)) r'.rank r.rank := by
  cases h with
  | part h =>
    refine .right _ ?_
    rcases Nat.lt_or_eq_of_le h.longestString_le with hlt | heq
    · exact .left _ _ hlt
    · exact Prod.lex_def.2 (.inr ⟨heq, h.size_lt⟩)
  | @fragment _ _ _ text _ _ source root c hparts _ hsource hroot hc =>
    refine .right _ (.left _ _ ?_)
    have hle : c.longestString ≤ root.longestString := by
      rcases hc with rfl | hc
      · exact Nat.le_refl _
      · exact hc.longestString_le
    have hsublist : source.Sublist text.toList := by
      rcases hsource with rfl | rfl
      · exact (sublist_of_signatureParts? hparts).1
      · exact (sublist_of_signatureParts? hparts).2
    calc c.longestString
      _ ≤ root.longestString := hle
      _ < source.length := Expr.longestString_lt_of_ofText? hroot
      _ ≤ text.toList.length := hsublist.length_le
      _ = text.length := text.length_toList
  | standard => exact .left _ _ Nat.zero_lt_one
  | partOf hdepth h => exact .right _ (.right _ h.size_lt)
  | quoted hdepth he => exact .right _ (.left _ _ (by omega))
  | aliased hdepth hplace he => exact .right _ (.left _ _ (by omega))

/-- **No chain of readings is endless.** -/
theorem wellFounded_next : WellFounded fun r' r : Reading => r.Next r' :=
  Subrelation.wf Next.rank_lt
    (InvImage.wf rank (WellFoundedRelation.wf (α := Nat × Nat × Nat)))

/-! ## Readings of a file

A string is a text of its own, with the site of the string it stands in.  So a reading of a file is
one of an expression at a place of the file, or of an expression that was read from a text. -/

/-- A reading of an expression of a file, or of one of a text of its own, where names stand for what
they do in the file. -/
structure IsOf (file : Place) (r : Reading) : Prop where
  site : r.site.IsIn file
  expr : (∃ place ∈ file.preorder, place.node = .expr r.expr) ∨
    ∃ source root, Expr.ofText? source = some root ∧ (r.expr = root ∨ root.HasPart r.expr)

section File

variable {node : Node} {file : Place}

theorem exists_place_of_mem_children {place : Place} {e c : Expr} (hplace : place ∈ file.preorder)
    (he : place.node = .expr e) (hc : c ∈ e.children) :
    ∃ below ∈ file.preorder, below.node = .expr c := by
  have hmem : Node.expr c ∈ place.children.map Place.node := by
    rw [Place.map_node_children, he]
    exact List.mem_map_of_mem hc
  obtain ⟨below, hbelow, hnode⟩ := List.mem_map.1 hmem
  exact ⟨below, Place.mem_preorder_of_mem_children hplace hbelow, hnode⟩

theorem IsOf.part {c : Expr} (h : r.IsOf file) (hc : r.expr.HasPart c) (hsite : r'.site = r.site)
    (hexpr : r'.expr = c) : r'.IsOf file := by
  refine ⟨hsite ▸ h.site, ?_⟩
  rw [hexpr]
  clear hexpr
  rcases h.expr with ⟨place, hplace, he⟩ | ⟨source, root, hroot, he⟩
  · refine .inl ?_
    induction hc with
    | single hc => exact exists_place_of_mem_children hplace he hc
    | tail _ hc ih =>
      obtain ⟨above, habove, hnode⟩ := ih
      exact exists_place_of_mem_children habove hnode hc
  · refine .inr ⟨source, root, hroot, .inr ?_⟩
    rcases he with rfl | he
    · exact hc
    · exact he.trans hc

/-- The value of an alias is an expression of the file. -/
theorem exists_place_of_aliasValue? {place : Place} {e : Expr} (hplace : place ∈ file.preorder)
    (he : place.aliasValue? = some e) : ∃ below ∈ file.preorder, below.node = .expr e := by
  rw [Place.aliasValue?] at he
  split at he
  · next hnode =>
    have hmem : Node.expr e ∈ place.children.map Place.node := by
      rw [Place.map_node_children, hnode, he]
      exact List.mem_cons_self
    obtain ⟨below, hbelow, hnode⟩ := List.mem_map.1 hmem
    exact ⟨below, Place.mem_preorder_of_mem_children hplace hbelow, hnode⟩
  · cases he

/-- **A reading of a file leads to readings of the file.** -/
theorem IsOf.next (h : r.IsOf (.root node)) (hnext : r.Next r') : r'.IsOf (.root node) := by
  cases hnext with
  | part hc => exact h.part hc rfl rfl
  | fragment _ _ _ hroot hc => exact ⟨h.site, .inr ⟨_, _, hroot, hc⟩⟩
  | standard => exact ⟨h.site, h.expr⟩
  | partOf _ hc => exact h.part hc rfl rfl
  | quoted _ he => exact ⟨h.site, .inr ⟨_, _, he, .inl rfl⟩⟩
  | aliased _ hplace he =>
    have hin := Site.isIn_lookupIn h.site hplace
    exact ⟨Site.isIn_interior hin, .inl (exists_place_of_aliasValue? hin he)⟩

/-- The strings of a file take up more bytes than the texts that they denote. -/
theorem IsOf.quoting {text : List Char} (h : r.IsOf (.root node))
    (hread : Node.read text = .ok node) : r.expr.Quoting := by
  rcases h.expr with ⟨place, hplace, he⟩ | ⟨source, root, hroot, he⟩
  · exact (Node.isRead_of_read hread hplace he).quoting
  · have hread : Expr.read source 0 = .ok root := Expr.ofText?_eq_some_iff.1 hroot
    exact Expr.quoting_of_read hread _ he

end File

end Reading
end TypeReveal
