/-
Trees with their uses of variables counted from further up. Every use in a tree gets a number that is higher by the
same amount and nothing else is different; what a `for` loop is turned into is raised with the loop.
-/
import Lox.Grammar.ForLoop
import Lox.Proofs.Tree.Code

namespace Lox

mutual

/-- An expression with the numbers of its uses raised by `k`. -/
def Expr.raise (k : UseId) : Expr → Expr
  | .literal value => .literal value
  | .unary operator operand => .unary operator (operand.raise k)
  | .binary operator left right => .binary operator (left.raise k) (right.raise k)
  | .logical operator left right => .logical operator (left.raise k) (right.raise k)
  | .group inner => .group (inner.raise k)
  | .ref id name => .ref (id + k) name
  | .assign id name value => .assign (id + k) name (value.raise k)
  | .call callee paren arguments => .call (callee.raise k) paren (Expr.raiseAll k arguments)
  | .get object name => .get (object.raise k) name
  | .set object name value => .set (object.raise k) name (value.raise k)
  | .self id keyword => .self (id + k) keyword
  | .super id keyword method => .super (id + k) keyword method

/-- Expressions with the numbers of their uses raised by `k`. -/
def Expr.raiseAll (k : UseId) : List Expr → List Expr
  | [] => []
  | e :: es => e.raise k :: Expr.raiseAll k es

end

mutual

/-- A statement with the numbers of its uses raised by `k`. -/
def Stmt.raise (k : UseId) : Stmt → Stmt
  | .expression e => .expression (e.raise k)
  | .print e => .print (e.raise k)
  | .varDecl name initial => .varDecl name (initial.map (Expr.raise k))
  | .block body => .block (Stmt.raiseAll k body)
  | .ifElse condition yes none => .ifElse (condition.raise k) (yes.raise k) none
  | .ifElse condition yes (some no) => .ifElse (condition.raise k) (yes.raise k) (some (no.raise k))
  | .whileDo condition body => .whileDo (condition.raise k) (body.raise k)
  | .funDecl routine => .funDecl (routineRaise k routine)
  | .ret keyword value => .ret keyword (value.map (Expr.raise k))
  | .classDecl name superclass methods =>
    .classDecl name (superclass.map (Expr.raise k)) (methodsRaise k methods)

/-- Statements with the numbers of their uses raised by `k`. -/
def Stmt.raiseAll (k : UseId) : List Stmt → List Stmt
  | [] => []
  | s :: ss => s.raise k :: Stmt.raiseAll k ss

/-- A routine with the numbers of the uses in its body raised by `k`. -/
def routineRaise (k : UseId) : Routine Stmt → Routine Stmt
  | ⟨name, parameters, body⟩ => ⟨name, parameters, Stmt.raiseAll k body⟩

/-- Methods with the numbers of the uses in them raised by `k`. -/
def methodsRaise (k : UseId) : List (Routine Stmt) → List (Routine Stmt)
  | [] => []
  | r :: rs => routineRaise k r :: methodsRaise k rs

end

variable {k : UseId}

/-! ## Lists -/

theorem Expr.raiseAll_eq (es : List Expr) : Expr.raiseAll k es = es.map (Expr.raise k) := by
  induction es with
  | nil => rfl
  | cons e es ih => rw [Expr.raiseAll, ih, List.map_cons]

theorem Stmt.raiseAll_eq (ss : List Stmt) : Stmt.raiseAll k ss = ss.map (Stmt.raise k) := by
  induction ss with
  | nil => rfl
  | cons s ss ih => rw [Stmt.raiseAll, ih, List.map_cons]

theorem methodsRaise_eq (rs : List (Routine Stmt)) : methodsRaise k rs = rs.map (routineRaise k) := by
  induction rs with
  | nil => rfl
  | cons r rs ih => rw [methodsRaise, ih, List.map_cons]

theorem Stmt.raise_ifElse (condition : Expr) (yes : Stmt) (no : Option Stmt) :
    (Stmt.ifElse condition yes no).raise k = .ifElse (condition.raise k) (yes.raise k) (no.map (Stmt.raise k)) := by
  cases no <;> rfl

/-! ## Raising by nothing -/

mutual

theorem Expr.raise_zero : ∀ e : Expr, e.raise 0 = e
  | .literal _ | .ref _ _ | .self _ _ | .super _ _ _ => rfl
  | .unary _ operand => by rw [Expr.raise, operand.raise_zero]
  | .binary _ left right | .logical _ left right => by rw [raise, left.raise_zero, right.raise_zero]
  | .group inner => by rw [raise, inner.raise_zero]
  | .assign _ _ value => by rw [raise, value.raise_zero, Nat.add_zero]
  | .call callee _ arguments => by rw [raise, callee.raise_zero, Expr.raiseAll_zero arguments]
  | .get object _ => by rw [raise, object.raise_zero]
  | .set object _ value => by rw [raise, object.raise_zero, value.raise_zero]

theorem Expr.raiseAll_zero : ∀ es : List Expr, Expr.raiseAll 0 es = es
  | [] => rfl
  | e :: es => by rw [raiseAll, e.raise_zero, Expr.raiseAll_zero es]

end

theorem Expr.raiseOption_zero (e : Option Expr) : e.map (Expr.raise 0) = e := by
  cases e with
  | none => rfl
  | some e => rw [Option.map_some, e.raise_zero]

mutual

theorem Stmt.raise_zero : ∀ s : Stmt, s.raise 0 = s
  | .expression e | .print e => by rw [Stmt.raise, e.raise_zero]
  | .varDecl _ e | .ret _ e => by rw [Stmt.raise, Expr.raiseOption_zero]
  | .block body => by rw [Stmt.raise, Stmt.raiseAll_zero body]
  | .ifElse condition yes none => by rw [Stmt.raise, condition.raise_zero, yes.raise_zero]
  | .ifElse condition yes (some no) => by rw [Stmt.raise, condition.raise_zero, yes.raise_zero, no.raise_zero]
  | .whileDo condition body => by rw [Stmt.raise, condition.raise_zero, body.raise_zero]
  | .funDecl routine => by rw [Stmt.raise, routineRaise_zero routine]
  | .classDecl _ superclass methods => by rw [Stmt.raise, Expr.raiseOption_zero, methodsRaise_zero methods]

theorem Stmt.raiseAll_zero : ∀ ss : List Stmt, Stmt.raiseAll 0 ss = ss
  | [] => rfl
  | s :: ss => by rw [Stmt.raiseAll, s.raise_zero, Stmt.raiseAll_zero ss]

theorem routineRaise_zero : ∀ r : Routine Stmt, routineRaise 0 r = r
  | ⟨_, _, body⟩ => by rw [routineRaise, Stmt.raiseAll_zero body]

theorem methodsRaise_zero : ∀ rs : List (Routine Stmt), methodsRaise 0 rs = rs
  | [] => rfl
  | r :: rs => by rw [methodsRaise, routineRaise_zero r, methodsRaise_zero rs]

end

/-! ## Loops -/

namespace ForLoop

theorem raise_pass (id : UseId) (name : Token) (body : Stmt) :
    (pass id name body).raise k = pass (id + k) name (body.raise k) := by
  have up (n : Nat) : id + n + k = id + k + n := Nat.add_right_comm _ _ _
  simp only [pass, Stmt.raise, Stmt.raiseAll, Expr.raise, Option.map_some, up]

theorem raise_withIncrement (increment : Option Expr) (body : Stmt) :
    (withIncrement increment body).raise k = withIncrement (increment.map (Expr.raise k)) (body.raise k) := by
  cases increment <;> rfl

theorem raise_whole (first : Option Stmt) (condition : Option Expr) (body : Stmt) :
    (whole first condition body).raise k =
      whole (first.map (Stmt.raise k)) (condition.map (Expr.raise k)) (body.raise k) := by
  cases first <;> cases condition <;> rfl

end ForLoop

end Lox
