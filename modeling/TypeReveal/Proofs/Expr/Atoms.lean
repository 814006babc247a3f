import TypeReveal.Proofs.Expr.Derivation

/-!
# Expressions from their atoms

What is derived from tokens is built up from the operands that single tokens are.  A property that
these have and that passes from the parts of an expression to the whole holds of the expression
(`Derives.inherits`), and so of all that is read (`Expr.of_read`).

This is induction on derivations with everything taken out that does not vary.  It serves for
properties of which it only matters that they are passed on, such as that an expression has no
strings or no operator of a kind in it.
-/

set_option autoImplicit false
namespace TypeReveal

/-- Whether an expression is a single token. -/
def Expr.isAtom : Expr → Bool
  | int .. | float .. | bool .. | none _ | ellipsis _ | str .. | name .. => true
  | binary .. | dangling .. | paren .. | tuple .. | list .. | subscript .. | member .. | call .. =>
    false

/-- A property that passes from the parts of an expression to the whole. -/
def Expr.Inherited (P : Expr → Prop) : Prop :=
  ∀ e : Expr, e.isAtom = false → (∀ c ∈ e.children, P c) → P e

/-- Every operand that is one of some tokens has a property. -/
def Lexeme.Each (P : Expr → Prop) (ls : List Lexeme) : Prop :=
  ∀ l ∈ ls, ∀ e ∈ l.token.operand? l.span, P e

variable {P : Expr → Prop}

theorem Lexeme.Each.append {ls ms : List Lexeme} (h : Lexeme.Each P (ls ++ ms)) :
    Lexeme.Each P ls ∧ Lexeme.Each P ms := List.forall_mem_append.1 h

/-- What stands in brackets. -/
theorem Lexeme.Each.inside {l r : Lexeme} {ls : List Lexeme}
    (h : Lexeme.Each P (l :: (ls ++ [r]))) : Lexeme.Each P ls :=
  (Lexeme.Each.append (List.forall_mem_cons.1 h).2).1

theorem of_wholeOf? (hP : Expr.Inherited P) {es : List Expr} {comma? : Option Nat}
    {ended : Bool} {next : Nat} {e : Expr} (hes : ∀ c ∈ es, P c)
    (h : wholeOf? es comma? ended next = some e) : P e := by
  rw [wholeOf?.eq_def] at h
  split at h
  · cases h
  · cases h
    exact hes _ List.mem_cons_self
  · cases h
    exact hP _ rfl hes

mutual

/-- **A property of atoms that passes from parts to wholes** holds of what is derived. -/
theorem Derives.inherits (hP : Expr.Inherited P) : ∀ {s : Stratum} {ls : List Lexeme} {e : Expr},
    Derives s ls e → Lexeme.Each P ls → P e
  | _, _, _, .operand h, hls => hls _ List.mem_cons_self _ h
  | _, _, _, .unit _ _, _ => hP _ rfl fun _ hc => absurd hc List.not_mem_nil
  | _, _, _, .paren _ h hinner _, hls =>
    hP _ rfl (List.forall_mem_singleton.2 (of_wholeOf? hP (h.inherits hP hls.inside) hinner))
  | _, _, _, .list _ h _, hls => hP _ rfl (h.inherits hP hls.inside)
  | _, _, _, .call hcallee _ h _, hls =>
    hP _ rfl (List.forall_mem_cons.2
      ⟨hcallee.inherits hP hls.append.1, h.inherits hP hls.append.2.inside⟩)
  | _, _, _, .subscript hvalue _ h hindex _, hls =>
    have helems := h.inherits hP hls.append.2.inside
    hP _ rfl (List.forall_mem_cons.2 ⟨hvalue.inherits hP hls.append.1,
      List.forall_mem_singleton.2 (of_wholeOf? hP helems hindex)⟩)
  | _, _, _, .member hvalue _ _, hls =>
    hP _ rfl (List.forall_mem_singleton.2 (hvalue.inherits hP hls.append.1))
  | _, _, _, .amp h, hls => h.inherits hP hls
  | _, _, _, .bar h, hls => h.inherits hP hls
  | _, _, _, .binary hlhs _ hrhs, hls =>
    hP _ rfl (List.forall_mem_cons.2 ⟨hlhs.inherits hP hls.append.1,
      List.forall_mem_singleton.2 (hrhs.inherits hP (List.forall_mem_cons.1 hls.append.2).2)⟩)
  | _, _, _, .dangling hlhs _, hls =>
    hP _ rfl (List.forall_mem_singleton.2 (hlhs.inherits hP hls.append.1))

theorem Fills.inherits (hP : Expr.Inherited P) : ∀ {ls : List Lexeme} {es : List Expr}
    {comma? : Option Nat} {ended : Bool}, Fills ls es comma? ended → Lexeme.Each P ls →
    ∀ c ∈ es, P c
  | _, _, _, _, .empty, _ => fun _ hc => absurd hc List.not_mem_nil
  | _, _, _, _, .next h he, hls =>
    List.forall_mem_append.2
      ⟨h.inherits hP hls.append.1, List.forall_mem_singleton.2 (he.inherits hP hls.append.2)⟩
  | _, _, _, _, .comma h _, hls => h.inherits hP hls.append.1

end

/-- **A property of atoms that passes from parts to wholes** holds of what is read. -/
theorem Expr.of_read (hP : Expr.Inherited P) {text : List Char} {start : Nat} {e : Expr}
    (hatom : ∀ l ∈ lexemes start text, ∀ e ∈ l.token.operand? l.span, P e)
    (h : Expr.read text start = .ok e) : P e := by
  obtain ⟨es, comma?, ended, hfills, hwhole⟩ := Expr.derives_of_read h
  exact of_wholeOf? hP (hfills.inherits hP hatom) hwhole

end TypeReveal
