import TypeReveal.Syntax.ParseError
import TypeReveal.Tree.Node

/-!
# Equality of trees

Whether two trees are equal can be computed.  A tree holds lists of trees, so this is done together
for trees and for lists of them, and `Expr.same_iff` and `Stmt.same_iff` say that it is equality.

With it the readings of fixed texts are decided: that a text reads as a given tree is a closed
statement about functions that compute.
-/

set_option autoImplicit false
namespace TypeReveal

/-! ## Expressions

Two functions by recursion on the first tree, with a case for each constructor; trees with different
constructors are not equal. -/

mutual

/-- Whether two expressions are equal, spans and all. -/
def Expr.same : Expr → Expr → Bool
  | .int span value, .int span' value' => span == span' && value == value'
  | .float span text, .float span' text' => span == span' && text == text'
  | .bool span value, .bool span' value' => span == span' && value == value'
  | .none span, .none span' => span == span'
  | .ellipsis span, .ellipsis span' => span == span'
  | .str span text, .str span' text' => span == span' && text == text'
  | .name span text, .name span' text' => span == span' && text == text'
  | .binary span op lhs rhs, .binary span' op' lhs' rhs' =>
    span == span' && op == op' && lhs.same lhs' && rhs.same rhs'
  | .dangling span op lhs, .dangling span' op' lhs' =>
    span == span' && op == op' && lhs.same lhs'
  | .paren span inner, .paren span' inner' => span == span' && inner.same inner'
  | .tuple span elems, .tuple span' elems' => span == span' && Expr.sameAll elems elems'
  | .list span elems, .list span' elems' => span == span' && Expr.sameAll elems elems'
  | .subscript span value index, .subscript span' value' index' =>
    span == span' && value.same value' && index.same index'
  | .member span value attr, .member span' value' attr' =>
    span == span' && value.same value' && attr == attr'
  | .call span callee args, .call span' callee' args' =>
    span == span' && callee.same callee' && Expr.sameAll args args'
  | _, _ => false

/-- Whether two lists of expressions are equal. -/
def Expr.sameAll : List Expr → List Expr → Bool
  | [], [] => true
  | e :: es, e' :: es' => e.same e' && Expr.sameAll es es'
  | _, _ => false

end

mutual

/-- **The comparison is equality.** By induction on the first expression, which the comparison
follows; the second one is taken apart in each case. -/
theorem Expr.same_iff (e e' : Expr) : e.same e' = true ↔ e = e' := by
  cases e with
  | binary span op lhs rhs =>
    cases e' <;> simp [same, same_iff lhs, same_iff rhs, and_assoc]
  | dangling span op lhs => cases e' <;> simp [same, same_iff lhs, and_assoc]
  | paren span inner => cases e' <;> simp [same, same_iff inner]
  | tuple span elems => cases e' <;> simp [same, sameAll_iff elems]
  | list span elems => cases e' <;> simp [same, sameAll_iff elems]
  | subscript span value index =>
    cases e' <;> simp [same, same_iff value, same_iff index, and_assoc]
  | member span value attr => cases e' <;> simp [same, same_iff value, and_assoc]
  | call span callee args =>
    cases e' <;> simp [same, same_iff callee, sameAll_iff args, and_assoc]
  | _ => cases e' <;> simp [same]

theorem Expr.sameAll_iff (es es' : List Expr) : Expr.sameAll es es' = true ↔ es = es' := by
  match es, es' with
  | [], [] => simp [sameAll]
  | [], _ :: _ => simp [sameAll]
  | _ :: _, [] => simp [sameAll]
  | e :: es, e' :: es' => simp [sameAll, same_iff e, sameAll_iff es]

end

instance : DecidableEq Expr := fun e e' => decidable_of_iff _ (Expr.same_iff e e')

deriving instance DecidableEq for Param

/-! ## Statements

The same once more, on top of the equality of expressions. -/

mutual

/-- Whether two statements are equal, spans and all. -/
def Stmt.same : Stmt → Stmt → Bool
  | .function span name decorators params result? body,
      .function span' name' decorators' params' result?' body' =>
    span == span' && name == name' && decorators == decorators' && params == params' &&
      result? == result?' && Stmt.sameAll body body'
  | .classDef span name bases body, .classDef span' name' bases' body' =>
    span == span' && name == name' && bases == bases' && Stmt.sameAll body body'
  | .conditional span cond body orelse, .conditional span' cond' body' orelse' =>
    span == span' && cond == cond' && Stmt.sameAll body body' && Stmt.sameAll orelse orelse'
  | .binding span name annotation? value?, .binding span' name' annotation?' value?' =>
    span == span' && name == name' && annotation? == annotation?' && value? == value?'
  | .result span value?, .result span' value?' => span == span' && value? == value?'
  | .imports span module? names, .imports span' module?' names' =>
    span == span' && module? == module?' && names == names'
  | .expr span value, .expr span' value' => span == span' && value == value'
  | .pass span, .pass span' => span == span'
  | _, _ => false

/-- Whether two lists of statements are equal. -/
def Stmt.sameAll : List Stmt → List Stmt → Bool
  | [], [] => true
  | s :: ss, s' :: ss' => s.same s' && Stmt.sameAll ss ss'
  | _, _ => false

end

mutual

/-- **The comparison of statements is equality.** -/
theorem Stmt.same_iff (s s' : Stmt) : s.same s' = true ↔ s = s' := by
  cases s with
  | function span name decorators params result? body =>
    cases s' <;> simp [same, sameAll_iff body, and_assoc]
  | classDef span name bases body => cases s' <;> simp [same, sameAll_iff body, and_assoc]
  | conditional span cond body orelse =>
    cases s' <;> simp [same, sameAll_iff body, sameAll_iff orelse, and_assoc]
  | _ => cases s' <;> simp [same, and_assoc]

theorem Stmt.sameAll_iff (ss ss' : List Stmt) : Stmt.sameAll ss ss' = true ↔ ss = ss' := by
  match ss, ss' with
  | [], [] => simp [sameAll]
  | [], _ :: _ => simp [sameAll]
  | _ :: _, [] => simp [sameAll]
  | s :: ss, s' :: ss' => simp [sameAll, same_iff s, sameAll_iff ss]

end

instance : DecidableEq Stmt := fun s s' => decidable_of_iff _ (Stmt.same_iff s s')

deriving instance DecidableEq for Node

end TypeReveal
