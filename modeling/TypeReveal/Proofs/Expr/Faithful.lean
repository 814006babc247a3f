import TypeReveal.Proofs.Expr.Nesting
import TypeReveal.Proofs.Expr.Pieces
import TypeReveal.Proofs.Expr.Replay
import TypeReveal.Proofs.Expr.Shift
import TypeReveal.Proofs.Syntax.Equality

/-!
# The text of a node

Every node of an expression that is read has a text of its own that is read as that node, moved to
the start of the text (`Expr.read_text`).

The tokens of a node stand one after the other in the text (`Expr.StandsIn`): those of a child are
among those of its parent.  The text of a node is cut out from the first of its tokens to the last;
only a tuple without a last comma goes on to the token behind it, and so takes the spaces before
that along.

The text at the span of a node need not be a text of the node alone if it is cut at the span: a
tuple stands at the place of its elements, without the brackets around it.  That it can be read by
itself is because a tuple is also an expression without brackets, and every other node starts and
ends with tokens of its own.
-/

set_option autoImplicit false
namespace TypeReveal

/-! ## The ends of an expression

By induction on derivations, an expression starts with its first token and stops with its last one.
The exception is a tuple that ends without a comma, of which only the start is known here. -/

/-- The first of some tokens starts where a span does. -/
def StartsAt (ls : List Lexeme) (start : Nat) : Prop :=
  ls.head?.map (·.span.start) = some start

/-- The last of some tokens stops where a span does. -/
def StopsAt (ls : List Lexeme) (stop : Nat) : Prop :=
  ls.getLast?.map (·.span.stop) = some stop

section Ends

variable {ls ms : List Lexeme} {l : Lexeme} {start stop : Nat}

theorem StartsAt.append (h : StartsAt ls start) (ms : List Lexeme) : StartsAt (ls ++ ms) start := by
  cases ls with
  | nil => cases h
  | cons => exact h

theorem StartsAt.startOf_eq (h : StartsAt ls start) (stop : Nat) : startOf ls stop = start := by
  rw [startOf, show ls.head?.map (·.span.start) = some start from h, Option.getD_some]

theorem StopsAt.append (h : StopsAt ms stop) (ls : List Lexeme) : StopsAt (ls ++ ms) stop := by
  rw [StopsAt, List.getLast?_append]
  cases hlast : ms.getLast? with
  | none =>
    rw [StopsAt, hlast] at h
    cases h
  | some r => rwa [StopsAt, hlast] at h

theorem stopsAt_concat (ls : List Lexeme) (r : Lexeme) : StopsAt (ls ++ [r]) r.span.stop := by
  rw [StopsAt, List.getLast?_concat]
  rfl

/-- Tokens after which a bracket closes. -/
theorem stopsAt_bracket (ls ms : List Lexeme) (l r : Lexeme) :
    StopsAt (ls ++ l :: (ms ++ [r])) r.span.stop :=
  ((stopsAt_concat ms r).append [l]).append ls

end Ends

mutual

/-- **An expression starts and stops with its tokens.** -/
theorem Derives.ends : ∀ {s : Stratum} {ls : List Lexeme} {e : Expr}, Derives s ls e →
    StartsAt ls e.span.start ∧ StopsAt ls e.span.stop
  | _, _, _, .operand h => by
    rw [(Token.span_of_operand? h).1]
    exact ⟨rfl, rfl⟩
  | _, _, _, .unit _ _ => ⟨rfl, rfl⟩
  | _, _, _, .paren _ _ _ _ => ⟨rfl, stopsAt_bracket [] _ _ _⟩
  | _, _, _, .list _ _ _ => ⟨rfl, stopsAt_bracket [] _ _ _⟩
  | _, _, _, .call h _ _ _ => ⟨h.ends.1.append _, stopsAt_bracket _ _ _ _⟩
  | _, _, _, .subscript h _ _ _ _ => ⟨h.ends.1.append _, stopsAt_bracket _ _ _ _⟩
  | _, _, _, .member h _ _ => ⟨h.ends.1.append _, (stopsAt_concat [_] _).append _⟩
  | _, _, _, .amp h => h.ends
  | _, _, _, .bar h => h.ends
  | _, _, _, .binary hl _ hr => ⟨hl.ends.1.append _, (hr.ends.2.append [_]).append _⟩
  | _, _, _, .dangling hl _ => ⟨hl.ends.1.append _, stopsAt_concat _ _⟩

/-- Elements start with the first of them. -/
theorem Fills.startsAt : ∀ {ls : List Lexeme} {es : List Expr} {comma? : Option Nat}
    {ended : Bool}, Fills ls es comma? ended → ∀ first ∈ es.head?, StartsAt ls first.span.start
  | _, _, _, _, .empty => nofun
  | _, _, _, _, @Fills.next _ _ [] _ _ h he => fun first hfirst => by
    cases hfirst
    rw [h.eq_nil rfl]
    exact he.ends.1
  | _, _, _, _, @Fills.next _ _ (_ :: _) _ _ h _ =>
    fun first hfirst => (h.startsAt first hfirst).append _
  | _, _, _, _, .comma h _ => fun first hfirst => (h.startsAt first hfirst).append _

end

section Elements

variable {ls : List Lexeme} {es : List Expr} {comma? : Option Nat} {ended : Bool}

theorem Fills.stopsAt (h : Fills ls es comma? false) : ∀ comma ∈ comma?, StopsAt ls comma := by
  intro comma hcomma
  cases h with
  | empty => cases hcomma
  | comma =>
    cases hcomma
    exact stopsAt_concat _ _

end Elements

/-- **Where a whole expression starts and stops**: it stops with its tokens, wherever it may end at
most, or it goes on to there. -/
theorem DerivesWhole.ends {ls : List Lexeme} {next : Nat} {e : Expr}
    (h : DerivesWhole ls next e) :
    StartsAt ls e.span.start ∧
      (e.span.stop = next ∨ StopsAt ls e.span.stop ∧ ∀ stop, DerivesWhole ls stop e) := by
  rcases derivesWhole_iff.1 h with hbar | ⟨first, rest, comma, ended, hfills, rfl⟩
  · exact ⟨hbar.ends.1, .inr ⟨hbar.ends.2, fun stop => derivesWhole_iff.2 (.inl hbar)⟩⟩
  · refine ⟨hfills.startsAt first rfl, ?_⟩
    cases ended with
    | true => exact .inl rfl
    | false => exact .inr ⟨hfills.stopsAt comma rfl, fun stop => ⟨_, _, _, hfills, rfl⟩⟩

/-! ## Children -/

theorem Derives.toBar {s : Stratum} {ls : List Lexeme} {e : Expr} (h : Derives s ls e) :
    Derives .bar ls e := by
  cases s with
  | primary => exact .bar (.amp h)
  | amp => exact .bar h
  | bar => exact h
  | whole =>
    generalize hs : Stratum.whole = s at h
    cases h with
    | @binary op | @dangling op => cases op <;> cases hs
    | _ => cases hs

/-- An expression whose tokens are among some others, up to where the next of them starts. -/
def Among (ls : List Lexeme) (e : Expr) : Prop :=
  ∃ before own after, ls = before ++ (own ++ after) ∧
    ∀ stop, DerivesWhole own (startOf after stop) e

section Among

variable {s : Stratum} {ls ms : List Lexeme} {e : Expr} {es : List Expr}

theorem Derives.whole (h : Derives s ls e) (next : Nat) : DerivesWhole ls next e :=
  derivesWhole_iff.2 (.inl h.toBar)

theorem Derives.among (h : Derives s ls e) : Among ls e :=
  ⟨[], ls, [], by simp, fun _ => h.whole _⟩

theorem Among.append_left (h : Among ls e) (ms : List Lexeme) : Among (ms ++ ls) e := by
  obtain ⟨before, own, after, rfl, hown⟩ := h
  exact ⟨ms ++ before, own, after, by simp, hown⟩

theorem startOf_append (ls ms : List Lexeme) (stop : Nat) :
    startOf (ls ++ ms) stop = startOf ls (startOf ms stop) := by
  cases ls <;> rfl

theorem Among.append_right (h : Among ls e) (ms : List Lexeme) : Among (ls ++ ms) e := by
  obtain ⟨before, own, after, rfl, hown⟩ := h
  refine ⟨before, own, after ++ ms, by simp, fun stop => ?_⟩
  rw [startOf_append]
  exact hown _

/-- What stands between two brackets has its tokens there. -/
theorem Among.bracket (h : Among ms e) (ls : List Lexeme) (l r : Lexeme) :
    Among (ls ++ l :: (ms ++ [r])) e :=
  ((h.append_right [r]).append_left [l]).append_left ls

mutual

/-- **The elements of a level** have their tokens among those of the level. -/
theorem Fills.among : ∀ {ls : List Lexeme} {es : List Expr} {comma? : Option Nat} {ended : Bool},
    Fills ls es comma? ended → ∀ e ∈ es, Among ls e
  | _, _, _, _, .empty => nofun
  | _, _, _, _, .next h he => fun e hmem => by
    rcases List.mem_append.1 hmem with hmem | hmem
    · exact (h.among e hmem).append_right _
    · rw [List.mem_singleton.1 hmem]
      exact he.among.append_left _
  | _, _, _, _, .comma h _ => fun e hmem => (h.among e hmem).append_right _

/-- **The children of an expression** have their tokens among those of the expression. -/
theorem Derives.among_children : ∀ {s : Stratum} {ls : List Lexeme} {e : Expr},
    Derives s ls e → ∀ c ∈ e.children, Among ls c
  | _, _, _, .operand h => by
    rw [(Token.span_of_operand? h).2]
    exact nofun
  | _, _, _, .unit _ _ => nofun
  | _, _, _, .paren (r := r) _ h hinner _ => fun c hc => by
    rw [List.mem_singleton.1 hc]
    exact ⟨[_], _, [r], rfl, fun _ => ⟨_, _, _, h, hinner⟩⟩
  | _, _, _, .list _ h _ => fun c hc => (h.among c hc).bracket [] _ _
  | _, _, _, .call hcallee _ h _ => fun c hc => by
    rcases List.mem_cons.1 hc with rfl | hc
    · exact hcallee.among.append_right _
    · exact (h.among c hc).bracket _ _ _
  | _, _, _, .subscript (r := r) hvalue _ h hindex _ => fun c hc => by
    rcases List.mem_cons.1 hc with rfl | hc
    · exact hvalue.among.append_right _
    · rw [List.mem_singleton.1 hc]
      exact Among.append_left ⟨[_], _, [r], rfl, fun _ => ⟨_, _, _, h, hindex⟩⟩ _
  | _, _, _, .member h _ _ => fun c hc => by
    rw [List.mem_singleton.1 hc]
    exact h.among.append_right _
  | _, _, _, .amp h => h.among_children
  | _, _, _, .bar h => h.among_children
  -- The operator stands between the two, and is none of the children.
  | _, _, _, .binary hl _ hr => fun c hc => by
    rcases List.mem_cons.1 hc with rfl | hc
    · exact hl.among.append_right _
    · rw [List.mem_singleton.1 hc]
      exact (hr.among.append_left [_]).append_left _
  | _, _, _, .dangling h _ => fun c hc => by
    rw [List.mem_singleton.1 hc]
    exact h.among.append_right _

end

theorem DerivesWhole.among_children {next : Nat} (h : DerivesWhole ls next e) :
    ∀ c ∈ e.children, Among ls c := by
  rcases derivesWhole_iff.1 h with hbar | ⟨first, rest, comma, ended, hfills, rfl⟩
  · exact hbar.among_children
  · exact hfills.among

end Among

/-! ## Nodes in a text

From the expression to its children and theirs, each stands in the text.  The piece that is cut out
has its tokens, all of them and no others, so it is derived as the node and therefore read as it. -/

/-- **An expression whose tokens stand in a text**, one after the other. -/
def Expr.StandsIn (text : List Char) (e : Expr) : Prop :=
  ∃ before own after, lexemes 0 text = before ++ (own ++ after) ∧
    DerivesWhole own (startOf after (utf8Length text)) e

theorem Expr.StandsIn.child {text : List Char} {e c : Expr} (h : e.StandsIn text)
    (hc : c ∈ e.children) : c.StandsIn text := by
  obtain ⟨before, own, after, htext, hwhole⟩ := h
  obtain ⟨before', own', after', rfl, hwhole'⟩ := hwhole.among_children c hc
  refine ⟨before ++ before', own', after' ++ after, by simp [htext], ?_⟩
  rw [startOf_append]
  exact hwhole' _

/-- A piece of a text with the tokens of an expression is read as the expression. -/
theorem DerivesWhole.read_piece {own : List Lexeme} {pos : Nat} {piece : List Char} {e : Expr}
    (h : DerivesWhole own (pos + utf8Length piece) e) (hlexed : Lexed pos piece own) :
    Expr.read piece pos = .ok e :=
  Expr.read_of_derives (hlexed.lexemes_eq.symm ▸ h)

/-- **An expression that stands in a text** is read from a piece of it. -/
theorem Expr.StandsIn.exists_piece {text : List Char} {e : Expr} (h : e.StandsIn text)
    (hjunk : ∀ l ∈ lexemes 0 text, l.token ≠ .junk) :
    ∃ front piece back, text = front ++ (piece ++ back) ∧
      e.span.start = utf8Length front ∧ e.span.stop = utf8Length front + utf8Length piece ∧
      Expr.read piece e.span.start = .ok e := by
  obtain ⟨before, own, after, htext, hwhole⟩ := h
  obtain ⟨hstarts, hstops⟩ := hwhole.ends
  have hlexed := lexed_of_lexemes 0 text hjunk
  rw [htext] at hlexed
  obtain ⟨front, rest, rfl, -, hrest, hfront⟩ := hlexed.exists_cut
  obtain ⟨piece, back, rfl, hpiece, -, hpieceStop⟩ := hrest.exists_cut
  rw [Nat.zero_add] at hfront hpiece hpieceStop
  rw [(hstarts.append after).startOf_eq] at hfront
  rw [utf8Length_append, ← hpieceStop] at hwhole hstops
  rw [← hfront]
  rcases hstops with hstop | ⟨hlast, hall⟩
  · exact ⟨front, piece, back, rfl, rfl, hstop, hwhole.read_piece hpiece⟩
  · -- The spaces behind the last token are not part of the node.
    obtain ⟨r, hr, hstop⟩ := Option.map_eq_some_iff.1 hlast
    obtain ⟨ls, rfl⟩ := List.getLast?_eq_some_iff.1 hr
    obtain ⟨piece, gap, rfl, hpiece, -, hpieceStop⟩ := hpiece.exists_trimmed
    exact ⟨front, piece, gap ++ back, by simp, rfl, hstop.symm.trans hpieceStop.symm,
      (hall _).read_piece hpiece⟩

theorem Expr.standsIn_of_read {text : List Char} {e : Expr} (h : Expr.read text 0 = .ok e) :
    e.StandsIn text :=
  ⟨[], lexemes 0 text, [], by simp, Nat.zero_add (utf8Length text) ▸ Expr.derives_of_read h⟩

/-- Below an expression that stands in a text there are only such expressions. -/
theorem Expr.StandsIn.below {text : List Char} {place below : Place} {e : Expr}
    (h : e.StandsIn text) (hplace : place.node = .expr e) (hbelow : below ∈ place.preorder) :
    ∃ n : Expr, below.node = .expr n ∧ n.StandsIn text := by
  induction Place.mem_preorder_iff.1 hbelow with
  | refl => exact ⟨e, hplace, h⟩
  | tail hparent hchild ih =>
    obtain ⟨n, hnode, hn⟩ := ih (Place.mem_preorder_iff.2 hparent)
    have hmem := List.mem_map_of_mem (f := Place.node) hchild
    rw [Place.map_node_children, hnode] at hmem
    obtain ⟨c, hc, heq⟩ := List.mem_map.1 hmem
    exact ⟨c, heq.symm, hn.child hc⟩

/-- **The text of a node is faithful.** Every node of an expression that is read has a text, and
this text is read as the node, all of whose spans are moved left by the start of its own.  So the
text says all that the node does, of its parts as well as of itself. -/
theorem Expr.read_text {text : List Char} {e : Expr} (h : Expr.read text 0 = .ok e)
    {place : Place} (hplace : place ∈ (Place.root (.expr e)).preorder) :
    ∃ n part own, place.node = .expr n ∧ byteSlice? text n.span.start n.span.stop = some part ∧
      Expr.read part 0 = .ok own ∧ own.shift n.span.start = n := by
  obtain ⟨n, hnode, hn⟩ := (Expr.standsIn_of_read h).below rfl hplace
  obtain ⟨front, piece, back, rfl, hstart, hstop, hread⟩ :=
    hn.exists_piece (Expr.not_junk_of_read h)
  have hmoved := Expr.read_shift piece 0 n.span.start
  rw [Nat.zero_add, hread] at hmoved
  cases hown : Expr.read piece 0 with
  | error err =>
    rw [hown] at hmoved
    cases hmoved
  | ok own =>
    rw [hown] at hmoved
    refine ⟨n, piece, own, hnode, ?_, hown, (Except.ok.inj hmoved).symm⟩
    rw [hstart, hstop]
    exact byteSlice?_append front piece back

/-- A tuple in parentheses takes the space behind its last element along. -/
theorem Expr.read_text_tuple :
    Expr.read "(a , b )".toList 0 =
      .ok (.paren ⟨0, 8⟩ (.tuple ⟨1, 7⟩ [.name ⟨1, 2⟩ "a", .name ⟨5, 6⟩ "b"])) ∧
    byteSlice? "(a , b )".toList 1 7 = some "a , b ".toList ∧
    ∃ own, Expr.read "a , b ".toList 0 = .ok own ∧
      own.shift 1 = .tuple ⟨1, 7⟩ [.name ⟨1, 2⟩ "a", .name ⟨5, 6⟩ "b"] := by
  have hread : Expr.read "(a , b )".toList 0 =
      .ok (.paren ⟨0, 8⟩ (.tuple ⟨1, 7⟩ [.name ⟨1, 2⟩ "a", .name ⟨5, 6⟩ "b"])) := by decide +kernel
  have hslice : byteSlice? "(a , b )".toList 1 7 = some "a , b ".toList := by decide
  obtain ⟨n, part, own, hnode, hpart, hown, hshift⟩ := read_text hread
    (Place.mem_preorder_of_mem_children (Place.self_mem_preorder _) List.mem_cons_self)
  cases hnode
  obtain rfl := Option.some.inj (hslice.symm.trans hpart)
  exact ⟨hread, hslice, own, hown, hshift⟩

end TypeReveal
