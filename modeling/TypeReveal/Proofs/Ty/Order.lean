import Mathlib.Data.List.Forall2
import Mathlib.Data.List.Perm.Basic
import TypeReveal.Ty.Order

/-!
# The order on types is lawful

Types compare by their codes, so the laws of an order come from those of lists of integers.  What
has to be shown is that the codes say the right thing.

* `Decides k l o` — two codes **decide** their order as `o`, whatever is written after each: no code
  runs on into what follows.  Codes that are put together decide part by part (`Decides.append`,
  `Decides.list`).
* `Ty.compareParts` — the comparison by form and then part by part, a union by the sorted list of
  its members.  `Ty.decides` shows by induction that codes decide just this.
* `Ty.Reordered` — one type is another with the members of its unions, at any depth, in another
  order.  Equal types are the reordered ones: `Ty.beq_iff_reordered`.

A code is a list of integers that starts with the form of the type.  Lists are compared element by
element, and a list that is a start of another comes first; so it is not enough that the codes of
parts are compared rightly, they must also end where the other ends, or differ before.  That is why
`Decides` speaks of all that can come after a code, and it is the form in which the induction goes
through.

The other half is about equality.  Codes of unions are sorted, so that reordered unions have one
code; and a code says everything else about a type, so that types with one code differ only in the
order of members.  `Ty.Reordered` is defined without codes, by recursion on both types, and says
what `==` should mean.
-/

set_option autoImplicit false
namespace TypeReveal

open Std

/-! ## Codes that decide

The closure properties: a code that is put behind another, a number in front of a code, and lists,
whose code has a number in front of each element and another at the end. -/

/-- Two codes decide their order, as `o`, whatever is written after each. -/
def Decides (k l : List Int) (o : Ordering) : Prop :=
  ∀ r s, compare (k ++ r) (l ++ s) = o.then (compare r s)

namespace Decides

variable {k k' l l' : List Int} {o o' : Ordering}

theorem compare_eq (h : Decides k l o) : compare k l = o := by
  simpa using h [] []

theorem append (h : Decides k l o) (h' : Decides k' l' o') :
    Decides (k ++ k') (l ++ l') (o.then o') := by
  intro r s
  rw [List.append_assoc, List.append_assoc, h, h', Ordering.then_assoc]

theorem single (x y : Int) : Decides [x] [y] (compare x y) := by
  intro r s
  rw [List.singleton_append, List.singleton_append, List.compare_cons_cons]

theorem cons (x : Int) (h : Decides k l o) : Decides (x :: k) (x :: l) o := by
  have hsingle := (single x x).append h
  rwa [compare_self, Ordering.eq_then] at hsingle

/-- Where two codes start differently, what comes after is of no account. -/
theorem of_ne {x y : Int} (h : x ≠ y) (k l : List Int) :
    Decides (x :: k) (y :: l) (compare x y) := by
  intro r s
  rw [List.cons_append, List.cons_append, List.compare_cons_cons]
  cases hcompare : compare x y with
  | eq => exact absurd (LawfulEqOrd.eq_of_compare hcompare) h
  | lt | gt => rfl

/-- **The code of a list decides** as the list of the codes does.  The number in front of each
element is one and at the end there is a zero, so a list that ends first comes first, and no element
is compared with the end of a list. -/
theorem list {ks ls : List (List Int)} (h : ∀ k ∈ ks, ∀ l ∈ ls, Decides k l (compare k l)) :
    Decides (listKey ks) (listKey ls) (compare ks ls) := by
  induction ks generalizing ls with
  | nil =>
    cases ls with
    | nil => exact single 0 0
    | cons l ls => exact of_ne (by decide) _ _
  | cons k ks ih =>
    cases ls with
    | nil => exact of_ne (by decide) _ _
    | cons l ls =>
      have hhead := h k List.mem_cons_self l List.mem_cons_self
      have htail := ih fun k hk l hl =>
        h k (List.mem_cons_of_mem _ hk) l (List.mem_cons_of_mem _ hl)
      simpa [listKey, List.compare_cons_cons] using (hhead.append htail).cons 1

end Decides

/-! ## Texts and literals

Characters become positive numbers, and a text ends with zero, so that a shorter text comes first
whatever follows its code. -/

theorem compare_charCode (c d : Char) :
    compare ((c.toNat : Int) + 1) ((d.toNat : Int) + 1) = compare c d := by
  have hlt : (c.toNat : Int) + 1 < (d.toNat : Int) + 1 ↔ c < d := by
    rw [Char.lt_def, UInt32.lt_iff_toNat_lt]
    exact (by omega : (c.toNat : Int) + 1 < (d.toNat : Int) + 1 ↔ c.toNat < d.toNat)
  have heq : (c.toNat : Int) + 1 = (d.toNat : Int) + 1 ↔ c = d := by
    rw [← Char.toNat_inj]
    omega
  simp only [compare, compareOfLessAndEq, hlt, heq]

theorem compare_chars (cs ds : List Char) : compareOfLessAndEq cs ds = compare cs ds := by
  induction cs generalizing ds with
  | nil => cases ds <;> rfl
  | cons c cs ih =>
    cases ds with
    | nil => rfl
    | cons d ds =>
      rw [List.compare_cons_cons, ← ih]
      simp only [compare, compareOfLessAndEq, List.cons_lt_cons_iff, List.cons.injEq]
      by_cases hlt : c < d
      · simp [hlt]
      · by_cases heq : c = d <;> simp [hlt, heq]

/-- Texts compare character by character. -/
theorem compare_toList (s t : String) : compare s t = compare s.toList t.toList := by
  rw [← compare_chars]
  simp only [compare, String.compare, compareOfLessAndEq, ← String.toList_inj]
  rfl

theorem decides_charCodes (cs ds : List Char) :
    Decides (cs.map (fun c => (c.toNat : Int) + 1) ++ [0])
      (ds.map (fun c => (c.toNat : Int) + 1) ++ [0]) (compare cs ds) := by
  have hpos : ∀ c : Char, compare 0 ((c.toNat : Int) + 1) = .lt := by
    intro c
    rw [compare_eq_lt]
    omega
  induction cs generalizing ds with
  | nil =>
    cases ds with
    | nil => exact .single 0 0
    | cons d ds =>
      have hcode := Decides.of_ne (x := 0) (y := (d.toNat : Int) + 1) (by omega) []
        (ds.map (fun c => (c.toNat : Int) + 1) ++ [0])
      rwa [hpos] at hcode
  | cons c cs ih =>
    cases ds with
    | nil =>
      have hcode := Decides.of_ne (x := (c.toNat : Int) + 1) (y := 0) (by omega)
        (cs.map (fun c => (c.toNat : Int) + 1) ++ [0]) []
      rwa [OrientedOrd.eq_swap, hpos] at hcode
    | cons d ds =>
      have hcode := (Decides.single ((c.toNat : Int) + 1) ((d.toNat : Int) + 1)).append (ih ds)
      rw [compare_charCode, ← List.compare_cons_cons] at hcode
      exact hcode

theorem decides_textKey (s t : String) : Decides (textKey s) (textKey t) (compare s t) := by
  rw [compare_toList]
  exact decides_charCodes s.toList t.toList

theorem decides_nameKey (n m : Option String) :
    Decides (nameKey n) (nameKey m) (compare n m) := by
  cases n with
  | none =>
    cases m with
    | none => exact .single 0 0
    | some t => exact .of_ne (by decide) _ _
  | some s =>
    cases m with
    | none => exact .of_ne (by decide) _ _
    | some t => exact (decides_textKey s t).cons 1

/-- The place of a kind of literals among all kinds. -/
def Literal.form : Literal → Int
  | int _ => 0
  | bool _ => 1
  | str _ => 2

/-- Literals compare by their kind, and literals of one kind by their value. -/
def Literal.compareParts : Literal → Literal → Ordering
  | int v, int w => compare v w
  | bool v, bool w => compare v w
  | str v, str w => compare v w
  | v, w => compare v.form w.form

theorem Literal.decides (v w : Literal) : Decides v.key w.key (v.compareParts w) := by
  cases v with
  | int v =>
    cases w with
    | int w => exact (Decides.single v w).cons 0
    | bool | str => exact .of_ne (by decide) _ _
  | bool v =>
    cases w with
    | bool w =>
      refine Decides.cons 1 ?_
      cases v <;> cases w <;> exact .single _ _
    | int | str => exact .of_ne (by decide) _ _
  | str v =>
    cases w with
    | str w => exact (decides_textKey v w).cons 2
    | int | bool => exact .of_ne (by decide) _ _

theorem Literal.eq_of_compareParts {v w : Literal} (h : v.compareParts w = .eq) : v = w := by
  cases v <;> cases w <;> first | exact congrArg _ (LawfulEqOrd.eq_of_compare h) | cases h

/-! ## Types

The comparison part by part follows the fields of each form in order.  Lists compare
lexicographically, a missing name before every name.  For a union the members are sorted first,
which is the only place where the comparison looks at more than one level of the type. -/

instance : Ord Slot := ⟨fun p q => compare p.key q.key⟩

theorem Slot.compare_def (p q : Slot) : compare p q = compare p.key q.key := rfl

instance : LT Ty := ltOfOrd

section Lists

variable {α : Type} [Ord α] {key : α → List Int}
  (hkey : ∀ x y, compare x y = compare (key x) (key y))

include hkey

theorem compare_map (xs ys : List α) : compare (xs.map key) (ys.map key) = compare xs ys := by
  induction xs generalizing ys with
  | nil => cases ys <;> rfl
  | cons x xs ih =>
    cases ys with
    | nil => rfl
    | cons y ys =>
      rw [List.map_cons, List.map_cons, List.compare_cons_cons, List.compare_cons_cons, ih, hkey]

theorem map_eq_of_compare {xs ys : List α} (h : compare xs ys = .eq) : xs.map key = ys.map key :=
  LawfulEqOrd.eq_of_compare ((compare_map hkey xs ys).trans h)

/-- The code of a list decides as the list does, if its elements compare by their codes and these
decide. -/
theorem decides_listKey {xs ys : List α} (h : ∀ x ∈ xs, ∀ y, ∃ o, Decides (key x) (key y) o) :
    Decides (listKey (xs.map key)) (listKey (ys.map key)) (compare xs ys) := by
  rw [← compare_map hkey]
  refine .list fun k hk l hl => ?_
  obtain ⟨x, hx, rfl⟩ := List.mem_map.1 hk
  obtain ⟨y, -, rfl⟩ := List.mem_map.1 hl
  obtain ⟨o, ho⟩ := h x hx y
  rwa [ho.compare_eq]

end Lists

theorem sort_perm (tys : List Ty) : (Ty.sort tys).Perm tys := List.mergeSort_perm tys _

theorem map_key_sort (tys : List Ty) : (Ty.sort tys).map Ty.key = sortKeys (tys.map Ty.key) :=
  List.map_mergeSort fun _ _ _ _ => rfl

namespace Ty

/-- The place of a form of types among all forms. -/
def form : Ty → Int
  | unknown => 0
  | literal _ => 1
  | union _ => 2
  | tuple _ => 3
  | callable .. => 4
  | nominal .. => 5
  | function .. => 6

/-- **Types compare by their form, and types of one form part by part**; a union compares by the
sorted list of its members. -/
def compareParts : Ty → Ty → Ordering
  | literal v, literal w => v.compareParts w
  | union as, union bs => compare (sort as) (sort bs)
  | tuple as, tuple bs => compare as bs
  | callable ps r, callable qs s => (compare ps qs).then (compare r s)
  | nominal n as, nominal m bs => (compare n m).then (compare as bs)
  | function n ps r, function m qs s =>
    ((compare n m).then (compare ps qs)).then (compare r s)
  | a, b => compare a.form b.form

end Ty

/-- Parameters compare by their name and then by their type. -/
def Slot.compareParts : Slot → Slot → Ordering
  | .mk n t, .mk m u => (compare n m).then (compare t u)

theorem Ty.decides_of_form_ne {a b : Ty} (h : a.form ≠ b.form) :
    Decides a.key b.key (compare a.form b.form) := by
  have hkey : ∀ t : Ty, ∃ k, t.key = t.form :: k := by
    intro t
    cases t <;> exact ⟨_, by rw [Ty.key]; rfl⟩
  obtain ⟨k, hk⟩ := hkey a
  obtain ⟨l, hl⟩ := hkey b
  rw [hk, hl]
  exact .of_ne h k l

theorem Ty.decides_keys {as : List Ty} (h : ∀ a ∈ as, ∀ b, Decides a.key b.key (a.compareParts b))
    (bs : List Ty) : Decides (listKey (Ty.keys as)) (listKey (Ty.keys bs)) (compare as bs) := by
  rw [Ty.keys_eq_map, Ty.keys_eq_map]
  exact decides_listKey Ty.compare_def fun a ha b => ⟨_, h a ha b⟩

theorem Slot.decides_keys {ps : List Slot}
    (h : ∀ p ∈ ps, ∀ q, Decides p.key q.key (p.compareParts q)) (qs : List Slot) :
    Decides (listKey (Slot.keys ps)) (listKey (Slot.keys qs)) (compare ps qs) := by
  rw [Slot.keys_eq_map, Slot.keys_eq_map]
  exact decides_listKey Slot.compare_def fun p hp q => ⟨_, h p hp q⟩

mutual

/-- **The codes of types decide** as the types compare part by part.  The induction is on the first
type.  Types of different forms are decided by their first number; those of one form by their
fields, and the members of a union by the sorted lists of their codes. -/
theorem Ty.decides (a b : Ty) : Decides a.key b.key (a.compareParts b) := by
  by_cases hform : a.form = b.form
  case neg =>
    have hcode := Ty.decides_of_form_ne hform
    cases a <;> cases b <;> first | exact absurd rfl hform | exact hcode
  cases a with
  | unknown =>
    cases b with
    | unknown => exact .single 0 0
    | _ => cases hform
  | literal v =>
    cases b with
    | literal w => exact (v.decides w).cons 1
    | _ => cases hform
  | union as =>
    cases b with
    | union bs =>
      -- The members are compared in sorted order, and sorting brings in no new ones.
      have hsort : ∀ a ∈ Ty.sort as, ∀ b, Decides a.key b.key (a.compareParts b) :=
        fun a ha => Ty.decides_of_mem as a ((sort_perm as).mem_iff.1 ha)
      have hcode := Ty.decides_keys hsort (Ty.sort bs)
      rw [Ty.keys_eq_map, Ty.keys_eq_map, map_key_sort, map_key_sort] at hcode
      rw [Ty.key, Ty.key, Ty.keys_eq_map, Ty.keys_eq_map]
      exact hcode.cons 2
    | _ => cases hform
  | tuple as =>
    cases b with
    | tuple bs => exact (Ty.decides_keys (Ty.decides_of_mem as) bs).cons 3
    | _ => cases hform
  | callable ps r =>
    cases b with
    | callable qs s =>
      -- The result is compared by its key: that is the comparison of the parts.
      have hresult := r.decides s
      rw [← hresult.compare_eq] at hresult
      exact ((Slot.decides_keys (Slot.decides_of_mem ps) qs).append hresult).cons 4
    | _ => cases hform
  | nominal n as =>
    cases b with
    | nominal m bs =>
      exact ((decides_textKey n m).append (Ty.decides_keys (Ty.decides_of_mem as) bs)).cons 5
    | _ => cases hform
  | function n ps r =>
    cases b with
    | function m qs s =>
      have hresult := r.decides s
      rw [← hresult.compare_eq] at hresult
      exact (((decides_textKey n m).append
        (Slot.decides_keys (Slot.decides_of_mem ps) qs)).append hresult).cons 6
    | _ => cases hform

theorem Ty.decides_of_mem : ∀ (as : List Ty), ∀ a ∈ as, ∀ b,
    Decides a.key b.key (a.compareParts b)
  | [], a, ha, _ => absurd ha List.not_mem_nil
  | t :: ts, a, ha, b => by
    rcases List.mem_cons.1 ha with heq | ha
    · exact heq ▸ Ty.decides t b
    · exact Ty.decides_of_mem ts a ha b

theorem Slot.decides (p q : Slot) : Decides p.key q.key (p.compareParts q) := by
  cases p with
  | mk n t =>
    cases q with
    | mk m u =>
      have htype := t.decides u
      rw [← htype.compare_eq] at htype
      exact (decides_nameKey n m).append htype

theorem Slot.decides_of_mem : ∀ (ps : List Slot), ∀ p ∈ ps, ∀ q,
    Decides p.key q.key (p.compareParts q)
  | [], p, hp, _ => absurd hp List.not_mem_nil
  | s :: ss, p, hp, q => by
    rcases List.mem_cons.1 hp with heq | hp
    · exact heq ▸ Slot.decides s q
    · exact Slot.decides_of_mem ss p hp q

end

/-! ## Reordering unions

Three relations, for types, lists of types and lists of parameters, defined together.  Only the rule
for unions has a permutation in it.  From a permutation of codes one of types is found, whose
members are then related one by one. -/

mutual

/-- One type is another with the members of its unions, at any depth, in another order. -/
inductive Ty.Reordered : Ty → Ty → Prop
  | unknown : Ty.Reordered .unknown .unknown
  | literal (value : Literal) : Ty.Reordered (.literal value) (.literal value)
  | union {members parts members' : List Ty} (h : Ty.ReorderedAll members parts)
    (hperm : parts.Perm members') : Ty.Reordered (.union members) (.union members')
  | tuple {elems elems' : List Ty} (h : Ty.ReorderedAll elems elems') :
    Ty.Reordered (.tuple elems) (.tuple elems')
  | callable {params params' : List Slot} {result result' : Ty}
    (hparams : Slot.ReorderedAll params params') (hresult : Ty.Reordered result result') :
    Ty.Reordered (.callable params result) (.callable params' result')
  | nominal (name : String) {args args' : List Ty} (h : Ty.ReorderedAll args args') :
    Ty.Reordered (.nominal name args) (.nominal name args')
  | function (name : String) {params params' : List Slot} {result result' : Ty}
    (hparams : Slot.ReorderedAll params params') (hresult : Ty.Reordered result result') :
    Ty.Reordered (.function name params result) (.function name params' result')

/-- The types of one list are those of another, reordered one by one. -/
inductive Ty.ReorderedAll : List Ty → List Ty → Prop
  | nil : Ty.ReorderedAll [] []
  | cons {ty ty' : Ty} {tys tys' : List Ty} (h : Ty.Reordered ty ty')
    (htys : Ty.ReorderedAll tys tys') : Ty.ReorderedAll (ty :: tys) (ty' :: tys')

/-- The parameters of one list have the names of those of another, and their types reordered. -/
inductive Slot.ReorderedAll : List Slot → List Slot → Prop
  | nil : Slot.ReorderedAll [] []
  | cons (name? : Option String) {ty ty' : Ty} {slots slots' : List Slot}
    (h : Ty.Reordered ty ty') (hslots : Slot.ReorderedAll slots slots') :
    Slot.ReorderedAll (.mk name? ty :: slots) (.mk name? ty' :: slots')

end

theorem sortKeys_eq_of_perm {ks ls : List (List Int)} (h : ks.Perm ls) :
    sortKeys ks = sortKeys ls := by
  have hsorted : ∀ ks, (sortKeys ks).Pairwise fun k l => (compare k l).isLE = true :=
    List.pairwise_mergeSort (fun _ _ _ => TransOrd.isLE_trans) fun k l => by
      cases hcompare : compare k l with
      | lt | eq => rfl
      | gt => rw [OrientedOrd.eq_swap, Ordering.swap_eq_gt] at hcompare; rw [hcompare]; rfl
  have hperm : (sortKeys ks).Perm (sortKeys ls) :=
    ((List.mergeSort_perm ks _).trans h).trans (List.mergeSort_perm ls _).symm
  refine hperm.eq_of_pairwise (fun k l _ _ hkl hlk => ?_) (hsorted ks) (hsorted ls)
  exact LawfulEqOrd.eq_of_compare (OrientedCmp.isLE_antisymm hkl hlk)

mutual

/-- The order of the members of unions is of no account to a code. -/
theorem Ty.Reordered.key_eq {a b : Ty} (h : Ty.Reordered a b) : a.key = b.key := by
  cases h with
  | unknown | literal => rfl
  | union h hperm =>
    rw [Ty.key, Ty.key, Ty.ReorderedAll.keys_eq h, Ty.keys_eq_map, Ty.keys_eq_map,
      sortKeys_eq_of_perm (hperm.map Ty.key)]
  | tuple h => rw [Ty.key, Ty.key, Ty.ReorderedAll.keys_eq h]
  | callable hparams hresult => rw [Ty.key, Ty.key, hresult.key_eq, hparams.keys_eq]
  | nominal name h => rw [Ty.key, Ty.key, Ty.ReorderedAll.keys_eq h]
  | function name hparams hresult => rw [Ty.key, Ty.key, hresult.key_eq, hparams.keys_eq]

theorem Ty.ReorderedAll.keys_eq {as bs : List Ty} (h : Ty.ReorderedAll as bs) :
    Ty.keys as = Ty.keys bs := by
  cases h with
  | nil => rfl
  | cons h htys => rw [Ty.keys, Ty.keys, h.key_eq, htys.keys_eq]

theorem Slot.ReorderedAll.keys_eq {ps qs : List Slot} (h : Slot.ReorderedAll ps qs) :
    Slot.keys ps = Slot.keys qs := by
  cases h with
  | nil => rfl
  | cons name? h hslots =>
    rw [Slot.keys, Slot.keys, Slot.key, Slot.key, h.key_eq, hslots.keys_eq]

end

/-- A list with the codes of another, in some order, can be brought into that order. -/
theorem exists_perm_of_map_perm {as bs : List Ty} (h : (as.map Ty.key).Perm (bs.map Ty.key)) :
    ∃ cs : List Ty, as.map Ty.key = cs.map Ty.key ∧ cs.Perm bs := by
  rwa [← congrFun (congrFun (List.eq_map_comp_perm Ty.key) _) _] at h

mutual

/-- Types with one code are reorderings of each other.  This is by induction on the first type: the
forms are the same by the first number, and the fields are found again in the code, for a union up
to a permutation. -/
theorem Ty.reordered_of_key_eq (a b : Ty) (h : a.key = b.key) : Ty.Reordered a b := by
  have hparts : a.compareParts b = .eq := by
    rw [← (a.decides b).compare_eq, h, compare_self]
  cases a with
  | unknown =>
    cases b with
    | unknown => exact .unknown
    | _ => cases hparts
  | literal v =>
    cases b with
    | literal w =>
      cases Literal.eq_of_compareParts hparts
      exact .literal v
    | _ => cases hparts
  | union as =>
    cases b with
    | union bs =>
      -- Equal keys only say that the sorted members agree, hence the permutation.
      have hsort := map_eq_of_compare Ty.compare_def hparts
      have hperm : (as.map Ty.key).Perm (bs.map Ty.key) := by
        refine ((sort_perm as).map Ty.key).symm.trans ?_
        rw [hsort]
        exact (sort_perm bs).map Ty.key
      obtain ⟨cs, hkeys, hcs⟩ := exists_perm_of_map_perm hperm
      exact .union (Ty.reorderedAll_of_map_eq as cs hkeys) hcs
    | _ => cases hparts
  | tuple as =>
    cases b with
    | tuple bs =>
      exact .tuple (Ty.reorderedAll_of_map_eq as bs (map_eq_of_compare Ty.compare_def hparts))
    | _ => cases hparts
  | callable ps r =>
    cases b with
    | callable qs s =>
      obtain ⟨hparams, hresult⟩ := Ordering.then_eq_eq.1 hparts
      exact .callable
        (Slot.reorderedAll_of_map_eq ps qs (map_eq_of_compare Slot.compare_def hparams))
        (Ty.reordered_of_key_eq r s (LawfulEqOrd.eq_of_compare hresult))
    | _ => cases hparts
  | nominal n as =>
    cases b with
    | nominal m bs =>
      obtain ⟨hname, hargs⟩ := Ordering.then_eq_eq.1 hparts
      cases LawfulEqOrd.eq_of_compare hname
      exact .nominal n (Ty.reorderedAll_of_map_eq as bs (map_eq_of_compare Ty.compare_def hargs))
    | _ => cases hparts
  | function n ps r =>
    cases b with
    | function m qs s =>
      obtain ⟨hhead, hresult⟩ := Ordering.then_eq_eq.1 hparts
      obtain ⟨hname, hparams⟩ := Ordering.then_eq_eq.1 hhead
      cases LawfulEqOrd.eq_of_compare hname
      exact .function n
        (Slot.reorderedAll_of_map_eq ps qs (map_eq_of_compare Slot.compare_def hparams))
        (Ty.reordered_of_key_eq r s (LawfulEqOrd.eq_of_compare hresult))
    | _ => cases hparts

theorem Ty.reorderedAll_of_map_eq : ∀ (as bs : List Ty), as.map Ty.key = bs.map Ty.key →
    Ty.ReorderedAll as bs
  | [], [], _ => .nil
  | a :: as, b :: bs, h => by
    obtain ⟨hhead, htail⟩ := List.cons.inj h
    exact .cons (Ty.reordered_of_key_eq a b hhead) (Ty.reorderedAll_of_map_eq as bs htail)

theorem Slot.reorderedAll_of_map_eq : ∀ (ps qs : List Slot), ps.map Slot.key = qs.map Slot.key →
    Slot.ReorderedAll ps qs
  | [], [], _ => .nil
  | .mk n t :: ps, .mk m u :: qs, h => by
    obtain ⟨hhead, htail⟩ := List.cons.inj h
    have hparts : Slot.compareParts (.mk n t) (.mk m u) = .eq := by
      rw [← (Slot.decides _ _).compare_eq, hhead, compare_self]
    obtain ⟨hname, htype⟩ := Ordering.then_eq_eq.1 hparts
    cases LawfulEqOrd.eq_of_compare hname
    exact .cons n (Ty.reordered_of_key_eq t u (LawfulEqOrd.eq_of_compare htype))
      (Slot.reorderedAll_of_map_eq ps qs htail)

end

/-! ## The laws

Trichotomy and transitivity come from the order on lists of integers by way of the code.  What is
left is to say what comparing as equal is. -/

namespace Ty

instance : TransOrd Ty := inferInstanceAs (TransCmp (compareOn Ty.key))

/-- Types that compare as equal are equal, unions being sets. -/
theorem compare_eq_iff_beq {a b : Ty} : compare a b = .eq ↔ (a == b) = true := by
  rw [compare_def, beq_def, beq_iff_eq, LawfulEqOrd.compare_eq_iff_eq]

/-- **Equal types are reorderings of each other.** -/
theorem beq_iff_reordered {a b : Ty} : (a == b) = true ↔ Reordered a b := by
  rw [beq_def, beq_iff_eq]
  exact ⟨reordered_of_key_eq a b, Reordered.key_eq⟩

theorem compare_eq_compareParts (a b : Ty) : compare a b = a.compareParts b :=
  (a.decides b).compare_eq

theorem lt_or_beq_or_gt (a b : Ty) :
    (a < b ∧ (a == b) = false ∧ ¬ b < a) ∨ (¬ a < b ∧ (a == b) = true ∧ ¬ b < a) ∨
      (¬ a < b ∧ (a == b) = false ∧ b < a) := by
  have hlt : ∀ a b : Ty, a < b ↔ compare a b = .lt := fun _ _ => Iff.rfl
  have hbeq : (a == b) = decide (compare a b = .eq) := by
    rw [Bool.eq_iff_iff, decide_eq_true_iff, compare_eq_iff_beq]
  rw [hlt, hlt, hbeq, OrientedOrd.eq_swap (a := b)]
  cases compare a b <;> simp

/-- **The order on types is lawful.** Of two types one comes before the other or they are equal,
never more than one of these; the order is transitive; types are equal when one is the other with
the members of unions reordered, at any depth; and types compare part by part. -/
theorem compare_lawful :
    (∀ a b : Ty, (a < b ∧ (a == b) = false ∧ ¬ b < a) ∨ (¬ a < b ∧ (a == b) = true ∧ ¬ b < a) ∨
      (¬ a < b ∧ (a == b) = false ∧ b < a)) ∧
    (∀ a b c : Ty, a < b → b < c → a < c) ∧
    (∀ a b : Ty, compare a b = .eq ↔ (a == b) = true) ∧
    (∀ a b : Ty, (a == b) = true ↔ Reordered a b) ∧
    (∀ a b : Ty, compare a b = a.compareParts b) ∧
    ∀ p q : Slot, compare p q = p.compareParts q := by
  refine ⟨lt_or_beq_or_gt, fun a b c hab hbc => ?_, fun _ _ => compare_eq_iff_beq,
    fun _ _ => beq_iff_reordered, compare_eq_compareParts, fun p q => (p.decides q).compare_eq⟩
  exact TransCmp.lt_trans (show compare a b = .lt from hab) hbc

/-- Three types in order, and the middle one with its union the other way round. -/
theorem compare_lawful_tuple :
    let low := tuple []
    let mid := tuple [union [ofClass "int", noneType], unknown]
    let mid' := tuple [union [noneType, ofClass "int"], unknown]
    let high := callable [.named "x" mid] (union [])
    low < mid ∧ mid < high ∧ low < high ∧ (mid == mid') = true := by
  intro low mid mid' high
  have hlow : low < mid := (compare_lawful.2.2.2.2.1 low mid).trans rfl
  have hhigh : mid < high := (compare_lawful.2.2.2.2.1 mid high).trans rfl
  refine ⟨hlow, hhigh, compare_lawful.2.1 low mid high hlow hhigh, ?_⟩
  refine (compare_lawful.2.2.2.1 mid mid').2 (.tuple (.cons (.union ?_ (.swap ..)) ?_))
  · exact .cons (.nominal "int" .nil) (.cons (.nominal "None" .nil) .nil)
  · exact .cons .unknown .nil

end Ty

end TypeReveal
