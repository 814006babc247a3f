import TypeReveal.Proofs.Text.Class
import TypeReveal.Text.Quoted

/-!
# Texts that are told apart

Two ways of writing something are **told apart** if a longer text cannot start with both of them
unless they stand for the same thing, and are then followed by the same text (`Told`).  What follows
may be restricted: a word is only told from its continuations where no further letter comes.

* `Told.append`, `Told.cons` — parts that are told apart one after the other.
* `Told.run` — words and numbers; `Told.join` — lists with separators.
* `told_escapeAscii` — escaped texts, up to the quote that ends them.
-/

set_option autoImplicit false
namespace TypeReveal

/-- **Texts that start with `u` and with `v`**, where what follows `stops` them, are only the same
if `P` holds and the same follows. -/
def Told (stops : List Char → Prop) (u v : List Char) (P : Prop) : Prop :=
  ∀ s t, stops s → stops t → u ++ s = v ++ t → P ∧ s = t

/-- What starts with one of some characters, or is empty. -/
def StartsIn (marks s : List Char) : Prop := ∀ c ∈ s.head?, c ∈ marks

/-- Any text at all. -/
def Anything (_ : List Char) : Prop := True

theorem startsIn_cons {marks : List Char} {c : Char} (h : c ∈ marks) (s : List Char) :
    StartsIn marks (c :: s) := by
  rintro d hd
  cases hd
  exact h

theorem StartsIn.mono {marks more s : List Char} (h : StartsIn marks s) (hsub : marks ⊆ more) :
    StartsIn more s :=
  fun c hc => hsub (h c hc)

/-- No text that starts with one of some characters starts with another. -/
theorem StartsIn.head?_any {marks s : List Char} {p : Char → Bool} (h : StartsIn marks s)
    (hp : ∀ c ∈ marks, p c = false) : s.head?.any p = false := by
  cases hhead : s.head? with
  | none => rfl
  | some c => exact hp c (h c hhead)

namespace Told

variable {stops stops' : List Char → Prop} {u v u' v' : List Char} {P Q : Prop} {c d : Char}

theorem mono (h : Told stops u v P) (hstops : ∀ s, stops' s → stops s) : Told stops' u v P :=
  fun s t hs ht => h s t (hstops s hs) (hstops t ht)

theorem imp (h : Told stops u v P) (hPQ : P → Q) : Told stops u v Q :=
  fun s t hs ht heq => (h s t hs ht heq).imp_left hPQ

theorem symm (h : Told stops u v P) : Told stops v u P :=
  fun s t hs ht heq => (h t s ht hs heq.symm).imp_right Eq.symm

theorem self (u : List Char) (hP : P) : Told stops u u P :=
  fun _ _ _ _ heq => ⟨hP, List.append_cancel_left heq⟩

/-- Parts that are told apart one after the other. -/
theorem append (h : Told stops u v P) (hu : ∀ s, stops' s → stops (u' ++ s))
    (hv : ∀ s, stops' s → stops (v' ++ s)) (h' : P → Told stops' u' v' Q) :
    Told stops' (u ++ u') (v ++ v') (P ∧ Q) := by
  intro s t hs ht heq
  rw [List.append_assoc, List.append_assoc] at heq
  obtain ⟨hP, hrest⟩ := h _ _ (hu s hs) (hv t ht) heq
  obtain ⟨hQ, hst⟩ := h' hP s t hs ht hrest
  exact ⟨⟨hP, hQ⟩, hst⟩

theorem cons (c : Char) (h : Told stops u v P) : Told stops (c :: u) (c :: v) P :=
  fun s t hs ht heq => h s t hs ht (List.cons.inj heq).2

theorem of_ne (h : c ≠ d) (u v : List Char) : Told stops (c :: u) (d :: v) P :=
  fun _ _ _ _ heq => absurd (List.cons.inj heq).1 h

/-- Words are told apart where nothing follows that could go on with them. -/
theorem run {p : Char → Bool} (hu : ∀ c ∈ u, p c = true) (hv : ∀ c ∈ v, p c = true)
    (hstops : ∀ s, stops s → s.head?.any p = false) : Told stops u v (u = v) := by
  have htake : ∀ {w s : List Char}, (∀ c ∈ w, p c = true) → stops s →
      (w ++ s).takeWhile p = w := by
    intro w s hw hs
    rw [List.takeWhile_append_of_pos hw]
    cases s with
    | nil => rw [List.takeWhile_nil, List.append_nil]
    | cons c s =>
      have hc : p c = false := hstops _ hs
      rw [List.takeWhile_cons_of_neg (by simp [hc]), List.append_nil]
  intro s t hs ht heq
  have huv := congrArg (List.takeWhile p) heq
  rw [htake hu hs, htake hv ht] at huv
  subst huv
  exact ⟨rfl, List.append_cancel_left heq⟩

end Told

/-! ## Lists

A list is told from another element by element.  Where one of them ends, what follows is no
separator, so the other ends there as well. -/

section Lists

variable {α β : Type} {text : α → List Char} {key : α → β} {stops outer : List Char → Prop}
  {sep : List Char} {xs ys : List α}

theorem intercalate_cons_append (sep u : List Char) (us s : List Char) (more : List (List Char)) :
    List.intercalate sep (u :: us :: more) ++ s =
      u ++ (sep ++ (List.intercalate sep (us :: more) ++ s)) := by
  rw [List.intercalate_cons_cons, List.append_assoc, List.append_assoc]

/-- What follows the first of the texts between separators. -/
theorem exists_intercalate_cons {P : List Char → Prop} {s : List Char} (hend : P s)
    (hsep : ∀ t, P (sep ++ t)) (u : List Char) (us : List (List Char)) :
    ∃ t, List.intercalate sep (u :: us) ++ s = u ++ t ∧ P t := by
  cases us with
  | nil => exact ⟨s, by simp, hend⟩
  | cons next more => exact ⟨_, intercalate_cons_append sep u next s more, hsep _⟩

/-- **Lists of texts with separators between them.**  Each text is told from each other one where a
separator follows or what may follow the list; the latter does not start as a separator does. -/
theorem Told.join (hsep : ∀ s, stops (sep ++ s)) (houter : ∀ s, outer s → stops s)
    (hapart : ∀ s t, outer s → s ≠ sep ++ t) (hxs : xs ≠ []) (hys : ys ≠ [])
    (h : ∀ x ∈ xs, ∀ y ∈ ys, Told stops (text x) (text y) (key x = key y)) :
    Told outer (List.intercalate sep (xs.map text)) (List.intercalate sep (ys.map text))
      (xs.map key = ys.map key) := by
  induction xs generalizing ys with
  | nil => exact absurd rfl hxs
  | cons x xs ih =>
    obtain ⟨y, ys, rfl⟩ := List.exists_cons_of_ne_nil hys
    have hfirst := h x List.mem_cons_self y List.mem_cons_self
    intro s t hs ht heq
    -- What ends a list is told from the separator, so the lists end together.
    match xs, ys with
    | [], [] =>
      simp only [List.map_cons, List.map_nil, List.intercalate_singleton] at heq ⊢
      obtain ⟨hkey, hrest⟩ := hfirst s t (houter s hs) (houter t ht) heq
      exact ⟨by rw [hkey], hrest⟩
    | [], y' :: ys =>
      simp only [List.map_cons, List.map_nil, List.intercalate_singleton,
        intercalate_cons_append] at heq
      exact absurd (hfirst _ _ (houter s hs) (hsep _) heq).2 (hapart s _ hs)
    | x' :: xs, [] =>
      simp only [List.map_cons, List.map_nil, List.intercalate_singleton,
        intercalate_cons_append] at heq
      exact absurd (hfirst _ _ (hsep _) (houter t ht) heq).2.symm (hapart t _ ht)
    | x' :: xs, y' :: ys =>
      simp only [List.map_cons, intercalate_cons_append] at heq
      obtain ⟨hkey, hrest⟩ := hfirst _ _ (hsep _) (hsep _) heq
      have hmore := @ih (y' :: ys) (List.cons_ne_nil _ _) (List.cons_ne_nil _ _)
        fun z hz w hw => h z (List.mem_cons_of_mem _ hz) w (List.mem_cons_of_mem _ hw)
      obtain ⟨hkeys, hst⟩ := hmore s t hs ht (List.append_cancel_left hrest)
      exact ⟨by rw [List.map_cons, hkey, hkeys]; rfl, hst⟩

end Lists

/-! ## Numbers

Digits are a word, and different numbers have different digits. -/

theorem digitChar_injOn {m n : Nat} (hm : m < 16) (hn : n < 16)
    (h : Nat.digitChar m = Nat.digitChar n) : m = n :=
  (by decide : ∀ m < 16, ∀ n < 16, Nat.digitChar m = Nat.digitChar n → m = n) m hm n hn h

/-- **Different numbers have different digits.** -/
theorem toDigits_injective {b : Nat} (hb : 1 < b) (hb' : b ≤ 16) {m n : Nat}
    (h : Nat.toDigits b m = Nat.toDigits b n) : m = n := by
  induction m using Nat.strongRecOn generalizing n with
  | ind m ih =>
    have hpos : 0 < b := by omega
    have hlast : ∀ k, k % b < 16 := fun k => Nat.lt_of_lt_of_le (Nat.mod_lt k hpos) hb'
    rw [Nat.toDigits_eq_if hb, Nat.toDigits_eq_if hb (n := n)] at h
    split at h <;> split at h
    · next hm hn => exact digitChar_injOn (by omega) (by omega) (List.cons.inj h).1
    · exact absurd (List.append_eq_singleton_iff.1 h.symm) (by simp [Nat.toDigits_ne_nil])
    · exact absurd (List.append_eq_singleton_iff.1 h) (by simp [Nat.toDigits_ne_nil])
    · next hm hn =>
      obtain ⟨hfront, hend⟩ := List.append_inj' h rfl
      have hdiv := ih (m / b) (Nat.div_lt_self (by omega) hb) hfront
      have hmod := digitChar_injOn (hlast m) (hlast n) (List.cons.inj hend).1
      rw [← Nat.div_add_mod m b, hdiv, hmod, Nat.div_add_mod]

theorem isWordPart_of_mem_toDigits {b : Nat} (hb : 1 < b) (hb' : b ≤ 16) {n : Nat} :
    ∀ c ∈ Nat.toDigits b n, isWordPart c = true := by
  have hdigit : ∀ m < 16, isWordPart (Nat.digitChar m) = true := by decide
  induction n using Nat.strongRecOn with
  | ind n ih =>
    rw [Nat.toDigits_eq_if hb]
    split
    · next hn =>
      intro c hc
      rw [List.mem_singleton.1 hc]
      exact hdigit n (by omega)
    · next hn =>
      intro c hc
      rcases List.mem_append.1 hc with hc | hc
      · exact ih (n / b) (Nat.div_lt_self (by omega) hb) c hc
      · rw [List.mem_singleton.1 hc]
        exact hdigit _ (Nat.lt_of_lt_of_le (Nat.mod_lt n (Nat.lt_of_succ_lt hb)) hb')

/-- **Numbers are told apart** where no digit follows. -/
theorem told_toDigits {b : Nat} (hb : 1 < b) (hb' : b ≤ 16) {stops : List Char → Prop}
    (hstops : ∀ s, stops s → s.head?.any isWordPart = false) (m n : Nat) :
    Told stops (Nat.toDigits b m) (Nat.toDigits b n) (m = n) :=
  (Told.run (isWordPart_of_mem_toDigits hb hb') (isWordPart_of_mem_toDigits hb hb') hstops).imp
    (toDigits_injective hb hb')

/-! ## Escapes

The reader of escapes need not be known for this: no escape is a start of another one, and a
character that is not escaped is none of those that escapes begin with. -/

/-- The characters after the backslash of short escapes, and what they stand for. -/
def shortEscapes : List (Char × Char) :=
  [('t', '\t'), ('r', '\r'), ('n', '\n'), ('\'', '\''), ('"', '"'), ('\\', '\\')]

/-- **How a character is escaped**: by a short escape, not at all, or by its code point. -/
inductive EscapedBy : Char → List Char → Prop
  | short {mark c : Char} (h : (mark, c) ∈ shortEscapes) : EscapedBy c ['\\', mark]
  | plain {c : Char} (hquote : c ≠ '\'') (hslash : c ≠ '\\') : EscapedBy c [c]
  | codePoint (c : Char) : EscapedBy c (codePointEscape c)

theorem escapedBy_escapeAsciiChar (c : Char) : EscapedBy c (escapeAsciiChar c) := by
  rw [escapeAsciiChar.eq_def]
  split
  iterate 6 exact .short (by decide)
  next _ _ _ hquote _ hslash =>
    split
    · exact .plain hquote hslash
    · exact .codePoint c

theorem told_codePointEscape (c d : Char) :
    Told Anything (codePointEscape c) (codePointEscape d) (c = d) := by
  have hbrace : ∀ s, Anything s → StartsIn ['\x7d'] (['\x7d'] ++ s) :=
    fun s _ => startsIn_cons List.mem_cons_self s
  have hdigits : Told (StartsIn ['\x7d']) (Nat.toDigits 16 c.toNat) (Nat.toDigits 16 d.toNat)
      (c.toNat = d.toNat) :=
    told_toDigits (by decide) (by decide) (fun s hs => hs.head?_any (by decide)) _ _
  have hclosed : Told Anything (Nat.toDigits 16 c.toNat ++ ['\x7d'])
      (Nat.toDigits 16 d.toNat ++ ['\x7d']) (c = d) :=
    (hdigits.append hbrace hbrace fun _ => .self _ trivial).imp fun h => Char.toNat_inj.1 h.1
  exact ((hclosed.cons '\x7b').cons 'u').cons '\\'

/-- **Escaped characters are told apart**, whatever follows. -/
theorem told_escapedBy {c d : Char} {u v : List Char} (hc : EscapedBy c u) (hd : EscapedBy d v) :
    Told Anything u v (c = d) := by
  -- A short escape and one by code point differ behind the backslash.
  have hshort : ∀ {mark c d : Char}, (mark, c) ∈ shortEscapes →
      Told Anything ['\\', mark] (codePointEscape d) (c = d) := by
    intro mark c d h
    have hmark : mark ≠ 'u' := (by decide : ∀ p ∈ shortEscapes, p.1 ≠ 'u') _ h
    exact (Told.of_ne hmark _ _).cons '\\'
  cases hc with
  | short h =>
    cases hd with
    | short h' =>
      have hsame := (by decide : ∀ p ∈ shortEscapes, ∀ q ∈ shortEscapes, p.1 = q.1 → p.2 = q.2)
        _ h _ h'
      intro s t _ _ heq
      obtain ⟨hmark, hst⟩ := List.cons.inj (List.cons.inj heq).2
      exact ⟨hsame hmark, hst⟩
    | plain _ hslash => exact .of_ne hslash.symm _ _
    | codePoint => exact hshort h
  | plain _ hslash =>
    cases hd with
    | short => exact .of_ne hslash _ _
    | plain =>
      intro s t _ _ heq
      exact List.cons.inj heq
    | codePoint => exact .of_ne hslash _ _
  | codePoint =>
    cases hd with
    | short h => exact (hshort h).symm.imp Eq.symm
    | plain _ hslash => exact .of_ne hslash.symm _ _
    | codePoint => exact told_codePointEscape c d

/-- An escaped character does not look like the end of the text. -/
theorem told_quote {c : Char} {u : List Char} (h : EscapedBy c u) (v : List Char) :
    Told Anything (u ++ v) ['\''] False := by
  cases h with
  | short | codePoint => exact .of_ne (by decide) _ _
  | plain hquote => exact .of_ne hquote _ _

/-- **Escaped texts are told apart** by the quote at their end. -/
theorem told_escapeAscii (cs ds : List Char) :
    Told Anything (escapeAscii cs ++ ['\'']) (escapeAscii ds ++ ['\'']) (cs = ds) := by
  have hcons : ∀ c cs, escapeAscii (c :: cs) ++ ['\''] =
      escapeAsciiChar c ++ (escapeAscii cs ++ ['\'']) := by
    intro c cs
    rw [escapeAscii, List.flatMap_cons, List.append_assoc]
    rfl
  induction cs generalizing ds with
  | nil =>
    cases ds with
    | nil => exact .self _ rfl
    | cons d ds =>
      rw [hcons]
      exact (told_quote (escapedBy_escapeAsciiChar d) _).symm.imp False.elim
  | cons c cs ih =>
    rw [hcons]
    cases ds with
    | nil => exact (told_quote (escapedBy_escapeAsciiChar c) _).imp False.elim
    | cons d ds =>
      rw [hcons]
      have hchar := told_escapedBy (escapedBy_escapeAsciiChar c) (escapedBy_escapeAsciiChar d)
      exact (hchar.append (fun _ _ => trivial) (fun _ _ => trivial) fun _ => ih ds).imp
        fun ⟨hc, hcs⟩ => by rw [hc, hcs]

end TypeReveal
