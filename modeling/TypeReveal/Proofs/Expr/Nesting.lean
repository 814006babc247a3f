import TypeReveal.Proofs.Expr.Derivation
import TypeReveal.Proofs.Layout.Row
import TypeReveal.Proofs.Tree.Nesting

/-!
# Where expressions stand

The parts of an expression that is read stand one after another inside it, and it stands inside its
text: `Expr.laid_of_read`.

Its tokens stand in a row (`laid_lexemes`), and by every rule of the grammar an expression goes from
the first of its tokens to the last, while its parts share the tokens between them (`Derives.laid`).
Only a tuple may go on behind its tokens, to where it can end at most (`Expr.Filled.whole`).
-/

set_option autoImplicit false
namespace TypeReveal

/-- Expressions that stand one after another between `lo` and `hi`. -/
abbrev Expr.Laid (lo hi : Nat) (es : List Expr) : Prop := Node.Laid lo hi (es.map .expr)

/-- An expression whose parts stand one after another inside it. -/
abbrev Expr.Nested (e : Expr) : Prop := (Node.expr e).Nested

theorem Expr.nested_iff {e : Expr} :
    e.Nested ↔ Expr.Laid e.span.start e.span.stop e.children := Iff.rfl

theorem Expr.laid_singleton {lo hi : Nat} {e : Expr} :
    Expr.Laid lo hi [e] ↔ lo ≤ e.span.start ∧ e.Nested ∧ e.span.stop ≤ hi :=
  Node.laid_singleton

/-- An expression with what stands after it, from its own start. -/
theorem Expr.Laid.followed {lo mid hi : Nat} {e : Expr} {es : List Expr}
    (h : Expr.Laid lo mid [e]) (hes : Expr.Laid mid hi es) :
    Expr.Laid e.span.start hi (e :: es) := by
  obtain ⟨-, hnested, hstop⟩ := Expr.laid_singleton.1 h
  exact .cons (Nat.le_refl _) hnested (hes.mono hstop (Nat.le_refl hi))

theorem Expr.Laid.append {lo mid hi : Nat} {es fs : List Expr} (h : Expr.Laid lo mid es)
    (h' : Expr.Laid mid hi fs) : Expr.Laid lo hi (es ++ fs) := by
  rw [Expr.Laid, List.map_append]
  exact Node.Laid.append h h'

/-! ## Tokens

Tokens follow one another in the text, with gaps between them. -/

/-- **The tokens of a text** stand one after another in it. -/
theorem laid_lexemes (pos : Nat) (text : List Char) :
    Span.Laid pos (pos + utf8Length text) ((lexemes pos text).map Lexeme.span) := by
  induction pos, text using lexemes.induct with
  | case1 pos =>
    rw [lexemes]
    exact .nil (Nat.le_add_right _ _)
  | case2 pos rest ih =>
    have hstop : pos + 2 + utf8Length rest = pos + utf8Length ('\\' :: '\n' :: rest) := by
      simp [show '\\'.utf8Size = 1 from rfl, show '\n'.utf8Size = 1 from rfl]
      omega
    rw [lexemes, ← hstop]
    exact ih.mono (Nat.le_add_right _ _) (Nat.le_refl _)
  | case3 pos c rest hslash hspacing ih =>
    have hsize : c.utf8Size = 1 := by
      simp only [isSpacing, Bool.or_eq_true, beq_iff_eq] at hspacing
      rcases hspacing with ((rfl | rfl) | rfl) | rfl <;> rfl
    rw [lexemes.eq_3 _ _ _ hslash, if_pos hspacing, utf8Length_cons, hsize, ← Nat.add_assoc]
    exact ih.mono (Nat.le_add_right _ _) (Nat.le_refl _)
  | case4 pos c rest hslash hspacing htoken =>
    rw [lexemes.eq_3 _ _ _ hslash, if_neg hspacing, htoken]
    exact .cons (Nat.le_refl _) (Nat.le_refl _) (.nil (Nat.le_add_right _ _))
  | case5 pos c rest hslash hspacing token more htoken stop ih =>
    have hstop : stop + utf8Length (rest.drop more) = pos + utf8Length (c :: rest) := by
      have hrest := utf8Length_append (rest.take more) (rest.drop more)
      rw [List.take_append_drop] at hrest
      simp only [stop, utf8Length_cons, hrest]
      omega
    rw [lexemes.eq_3 _ _ _ hslash, if_neg hspacing, htoken]
    rw [hstop] at ih
    exact .cons (Nat.le_refl _) (by simp only; omega) ih

/-- An operand stands where its token does, and has no parts. -/
theorem Token.span_of_operand? {t : Token} {span : Span} {e : Expr}
    (h : t.operand? span = some e) : e.span = span ∧ e.children = [] := by
  rw [Token.operand?.eq_def] at h
  split at h
  case h_9 => cases h
  all_goals
    cases h
    exact ⟨rfl, rfl⟩

/-- What stands in brackets stands between them. -/
theorem laid_brackets {lo hi : Nat} {l r : Lexeme} {ls : List Lexeme}
    (h : Span.Laid lo hi ((l :: (ls ++ [r])).map Lexeme.span)) :
    lo ≤ l.span.start ∧ l.span.start ≤ l.span.stop ∧
      Span.Laid l.span.stop r.span.start (ls.map Lexeme.span) ∧
      r.span.start ≤ r.span.stop ∧ r.span.stop ≤ hi := by
  rw [List.map_cons, List.map_append] at h
  obtain ⟨hstart, hopen, hrest⟩ := Span.laid_cons.1 h
  obtain ⟨mid, hls, hclose⟩ := Span.laid_append.1 hrest
  obtain ⟨hmid, hr, hend⟩ := Span.laid_cons.1 hclose
  exact ⟨hstart, hopen, hls.mono (Nat.le_refl _) hmid, hr, hend.le⟩

/-! ## Derivations

A whole expression without a comma at its end may go on to where it can end at most.  That position
lies behind its tokens, so the parts stay inside of it. -/

/-- **Where elements stand**: in a row, all of it before the last comma if nothing comes after
that. -/
structure Expr.Filled (lo hi : Nat) (es : List Expr) (comma? : Option Nat) (ended : Bool) :
    Prop where
  laid : Expr.Laid lo hi es
  comma : ended = false → ∀ comma ∈ comma?, Expr.Laid lo comma es ∧ comma ≤ hi

/-- What elements are as a whole stands where they do, up to where it can end at most. -/
theorem Expr.Filled.whole {lo hi next : Nat} {es : List Expr} {comma? : Option Nat}
    {ended : Bool} {e : Expr} (h : Expr.Filled lo hi es comma? ended) (hnext : hi ≤ next)
    (hwhole : wholeOf? es comma? ended next = some e) : Expr.Laid lo next [e] := by
  have hlaid : Expr.Laid lo next es := h.laid.mono (Nat.le_refl lo) hnext
  rw [wholeOf?.eq_def] at hwhole
  split at hwhole
  · cases hwhole
  · cases hwhole
    exact Expr.laid_singleton.2 (Node.Laid.mem hlaid List.mem_cons_self)
  · next first rest comma =>
    cases hwhole
    -- Without an element after it, the last comma is the end of the tuple.
    obtain ⟨hrow, hstop⟩ : Expr.Laid lo (if ended then next else comma) (first :: rest) ∧
        (if ended then next else comma) ≤ next := by
      cases ended with
      | true => exact ⟨hlaid, Nat.le_refl next⟩
      | false =>
        obtain ⟨hrow, hcomma⟩ := h.comma rfl comma rfl
        exact ⟨hrow, Nat.le_trans hcomma hnext⟩
    obtain ⟨hstart, hnested, hrest⟩ := Node.laid_cons.1 hrow
    exact Expr.laid_singleton.2 ⟨hstart, .cons (Nat.le_refl _) hnested hrest, hstop⟩

mutual

/-- **An expression stands where its tokens do**, and its parts stand in it. -/
theorem Derives.laid : ∀ {s : Stratum} {ls : List Lexeme} {e : Expr}, Derives s ls e →
    ∀ {lo hi : Nat}, Span.Laid lo hi (ls.map Lexeme.span) → Expr.Laid lo hi [e]
  | _, _, _, .operand h, _, _, hls => by
    obtain ⟨hspan, hchildren⟩ := Token.span_of_operand? h
    obtain ⟨hstart, hle, hrest⟩ := Span.laid_cons.1 hls
    rw [Expr.laid_singleton, Expr.nested_iff, hspan, hchildren]
    exact ⟨hstart, .nil hle, hrest.le⟩
  | _, _, _, @Derives.unit l r _ _, _, _, hls => by
    obtain ⟨hstart, hopen, hinside, hclose, hstop⟩ := @laid_brackets _ _ l r [] hls
    exact Expr.laid_singleton.2
      ⟨hstart, .nil (Nat.le_trans hopen (Nat.le_trans hinside.le hclose)), hstop⟩
  -- What stands between brackets is laid strictly inside them; `mono` widens it to the pair.
  | _, _, _, .paren _ h hinner _, _, _, hls => by
    obtain ⟨hstart, hopen, hinside, hclose, hstop⟩ := laid_brackets hls
    have hlaid := (h.filled hinside).whole (Nat.le_refl _) hinner
    exact Expr.laid_singleton.2 ⟨hstart, hlaid.mono hopen hclose, hstop⟩
  | _, _, _, .list _ h _, _, _, hls => by
    obtain ⟨hstart, hopen, hinside, hclose, hstop⟩ := laid_brackets hls
    exact Expr.laid_singleton.2 ⟨hstart, (h.filled hinside).laid.mono hopen hclose, hstop⟩
  -- A suffix starts where the lexemes of its operand end, so the row of children only grows to
  -- the right.
  | _, _, _, .call hcallee _ h _, _, _, hls => by
    rw [List.map_append] at hls
    obtain ⟨mid, hleft, hright⟩ := Span.laid_append.1 hls
    obtain ⟨hmid, hopen, hinside, hclose, hstop⟩ := laid_brackets hright
    have hargs := (h.filled hinside).laid.mono (Nat.le_trans hmid hopen) hclose
    have hcalled := hcallee.laid hleft
    exact Expr.laid_singleton.2
      ⟨(Expr.laid_singleton.1 hcalled).1, hcalled.followed hargs, hstop⟩
  | _, _, _, .subscript hvalue _ h hindex _, _, _, hls => by
    rw [List.map_append] at hls
    obtain ⟨mid, hleft, hright⟩ := Span.laid_append.1 hls
    obtain ⟨hmid, hopen, hinside, hclose, hstop⟩ := laid_brackets hright
    have hlaid := (h.filled hinside).whole (Nat.le_refl _) hindex
    have hsubscripted := hvalue.laid hleft
    exact Expr.laid_singleton.2 ⟨(Expr.laid_singleton.1 hsubscripted).1,
      hsubscripted.followed (hlaid.mono (Nat.le_trans hmid hopen) hclose), hstop⟩
  | _, _, _, @Derives.member l r _ _ _ hvalue _ _, _, _, hls => by
    rw [List.map_append] at hls
    obtain ⟨mid, hleft, hright⟩ := Span.laid_append.1 hls
    obtain ⟨hmid, hdot, hinside, hattr, hstop⟩ := @laid_brackets _ _ l r [] hright
    have hlaid := hvalue.laid hleft
    have hend : mid ≤ r.span.stop :=
      Nat.le_trans hmid (Nat.le_trans hdot (Nat.le_trans hinside.le hattr))
    exact Expr.laid_singleton.2
      ⟨(Expr.laid_singleton.1 hlaid).1, hlaid.followed (.nil hend), hstop⟩
  | _, _, _, .amp h, _, _, hls => h.laid hls
  | _, _, _, .bar h, _, _, hls => h.laid hls
  | _, _, _, .binary hlhs _ hrhs, _, _, hls => by
    rw [List.map_append] at hls
    obtain ⟨mid, hleft, hright⟩ := Span.laid_append.1 hls
    obtain ⟨hmid, hop, hright⟩ := Span.laid_cons.1 hright
    have hlaid := hlhs.laid hleft
    obtain ⟨hstart, hnested, hstop⟩ := Expr.laid_singleton.1 (hrhs.laid hright)
    have hrow := hlaid.followed (Expr.laid_singleton.2
      ⟨Nat.le_trans hmid (Nat.le_trans hop hstart), hnested, Nat.le_refl _⟩)
    exact Expr.laid_singleton.2 ⟨(Expr.laid_singleton.1 hlaid).1, hrow, hstop⟩
  | _, _, _, .dangling hlhs _, _, _, hls => by
    rw [List.map_append] at hls
    obtain ⟨mid, hleft, hright⟩ := Span.laid_append.1 hls
    obtain ⟨hmid, hop, hrest⟩ := Span.laid_cons.1 hright
    have hlaid := hlhs.laid hleft
    exact Expr.laid_singleton.2 ⟨(Expr.laid_singleton.1 hlaid).1,
      hlaid.followed (.nil (Nat.le_trans hmid hop)), hrest.le⟩

/-- The elements of a level stand one after another, with their commas between them. -/
theorem Fills.filled : ∀ {ls : List Lexeme} {es : List Expr} {comma? : Option Nat}
    {ended : Bool}, Fills ls es comma? ended → ∀ {lo hi : Nat},
    Span.Laid lo hi (ls.map Lexeme.span) → Expr.Filled lo hi es comma? ended
  | _, _, _, _, .empty, _, _, hls => ⟨.nil hls.le, nofun⟩
  | _, _, _, _, .next h he, _, _, hls => by
    rw [List.map_append] at hls
    obtain ⟨mid, hleft, hright⟩ := Span.laid_append.1 hls
    exact ⟨(h.filled hleft).laid.append (he.laid hright), nofun⟩
  | _, _, _, _, @Fills.comma l _ _ _ h _, _, _, hls => by
    rw [List.map_append] at hls
    obtain ⟨mid, hleft, hright⟩ := Span.laid_append.1 hls
    obtain ⟨hmid, hle, hrest⟩ := Span.laid_cons.1 hright
    have hrow := (h.filled hleft).laid.mono (Nat.le_refl _) (Nat.le_trans hmid hle)
    refine ⟨hrow.mono (Nat.le_refl _) hrest.le, ?_⟩
    rintro - comma ⟨⟩
    exact ⟨hrow, hrest.le⟩

end

/-- **An expression that is read** stands in its text, and so do its parts in it. -/
theorem Expr.laid_of_read {text : List Char} {start : Nat} {e : Expr}
    (h : Expr.read text start = .ok e) : Expr.Laid start (start + utf8Length text) [e] := by
  obtain ⟨es, comma?, ended, hfills, hwhole⟩ := Expr.derives_of_read h
  exact (hfills.filled (laid_lexemes start text)).whole (Nat.le_refl _) hwhole

end TypeReveal
