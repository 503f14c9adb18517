/-
Expressions up to the numbers of their uses: the shape of an expression is the expression with every number left at 0.
-/
import Lox.Tree.Basic

namespace Lox

mutual

/-- An expression without the numbers of its uses. -/
def Expr.shape : Expr → Expr
  | .literal value => .literal value
  | .unary operator operand => .unary operator operand.shape
  | .binary operator left right => .binary operator left.shape right.shape
  | .logical operator left right => .logical operator left.shape right.shape
  | .group inner => .group inner.shape
  | .ref _ name => .ref 0 name
  | .assign _ name value => .assign 0 name value.shape
  | .call callee paren arguments => .call callee.shape paren (Expr.shapeAll arguments)
  | .get object name => .get object.shape name
  | .set object name value => .set object.shape name value.shape
  | .self _ keyword => .self 0 keyword
  | .super _ keyword method => .super 0 keyword method

/-- Expressions without the numbers of their uses. -/
def Expr.shapeAll : List Expr → List Expr
  | [] => []
  | e :: es => e.shape :: Expr.shapeAll es

end

namespace Expr

variable {e : Expr}

theorem shapeAll_eq (es : List Expr) : shapeAll es = es.map shape := by
  induction es with
  | nil => rfl
  | cons e es ih => rw [shapeAll, List.map_cons, ih]

theorem eq_ref_of_shape {name : Token} (h : e.shape = .ref 0 name) : ∃ id, e = .ref id name := by
  cases e <;> simp only [shape, reduceCtorEq, ref.injEq, true_and] at h
  exact ⟨_, by rw [h]⟩

theorem eq_get_of_shape {object : Expr} {name : Token} (h : e.shape = .get object name) :
    ∃ object', e = .get object' name ∧ object'.shape = object := by
  cases e <;> simp only [shape, reduceCtorEq, get.injEq] at h
  exact ⟨_, by rw [h.2], h.1⟩

end Expr

end Lox
