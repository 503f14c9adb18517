/-
Trees without lines. Every token in a tree is put on no line; nothing else is different, and what a `for` loop is turned
into without its lines is what the loop without lines is turned into.
-/
import Lox.Grammar.ForLoop
import Lox.Proofs.Token.Same

namespace Lox

mutual

/-- An expression with its tokens on no line. -/
def Expr.lineless : Expr → Expr
  | .literal value => .literal value
  | .unary operator operand => .unary operator.lineless operand.lineless
  | .binary operator left right => .binary operator.lineless left.lineless right.lineless
  | .logical operator left right => .logical operator.lineless left.lineless right.lineless
  | .group inner => .group inner.lineless
  | .ref id name => .ref id name.lineless
  | .assign id name value => .assign id name.lineless value.lineless
  | .call callee paren arguments => .call callee.lineless paren.lineless (Expr.linelessAll arguments)
  | .get object name => .get object.lineless name.lineless
  | .set object name value => .set object.lineless name.lineless value.lineless
  | .self id keyword => .self id keyword.lineless
  | .super id keyword method => .super id keyword.lineless method.lineless

/-- Expressions with their tokens on no line. -/
def Expr.linelessAll : List Expr → List Expr
  | [] => []
  | e :: es => e.lineless :: Expr.linelessAll es

end

mutual

/-- A statement with its tokens on no line. -/
def Stmt.lineless : Stmt → Stmt
  | .expression e => .expression e.lineless
  | .print e => .print e.lineless
  | .varDecl name initial => .varDecl name.lineless (initial.map Expr.lineless)
  | .block body => .block (Stmt.linelessAll body)
  | .ifElse condition yes none => .ifElse condition.lineless yes.lineless none
  | .ifElse condition yes (some no) => .ifElse condition.lineless yes.lineless (some no.lineless)
  | .whileDo condition body => .whileDo condition.lineless body.lineless
  | .funDecl routine => .funDecl (routineLineless routine)
  | .ret keyword value => .ret keyword.lineless (value.map Expr.lineless)
  | .classDecl name superclass methods =>
    .classDecl name.lineless (superclass.map Expr.lineless) (methodsLineless methods)

/-- Statements with their tokens on no line. -/
def Stmt.linelessAll : List Stmt → List Stmt
  | [] => []
  | s :: ss => s.lineless :: Stmt.linelessAll ss

/-- A routine with its tokens on no line. -/
def routineLineless : Routine Stmt → Routine Stmt
  | ⟨name, parameters, body⟩ => ⟨name.lineless, parameters.map Token.lineless, Stmt.linelessAll body⟩

/-- Methods with their tokens on no line. -/
def methodsLineless : List (Routine Stmt) → List (Routine Stmt)
  | [] => []
  | r :: rs => routineLineless r :: methodsLineless rs

end

theorem name_routineLineless (r : Routine Stmt) : (routineLineless r).name = r.name.lineless := by
  cases r
  rfl

theorem lexeme_routineLineless (r : Routine Stmt) : (routineLineless r).name.lexeme = r.name.lexeme := by
  cases r
  rfl

theorem parameters_routineLineless (r : Routine Stmt) :
    (routineLineless r).parameters = r.parameters.map Token.lineless := by
  cases r
  rfl

theorem body_routineLineless (r : Routine Stmt) : (routineLineless r).body = Stmt.linelessAll r.body := by
  cases r
  rfl

theorem isInitializer_routineLineless (r : Routine Stmt) : (routineLineless r).isInitializer = r.isInitializer := by
  cases r
  rfl

theorem Expr.linelessAll_eq (es : List Expr) : Expr.linelessAll es = es.map Expr.lineless := by
  induction es with
  | nil => rfl
  | cons e es ih => rw [Expr.linelessAll, ih, List.map_cons]

theorem Stmt.linelessAll_eq (ss : List Stmt) : Stmt.linelessAll ss = ss.map Stmt.lineless := by
  induction ss with
  | nil => rfl
  | cons s ss ih => rw [Stmt.linelessAll, ih, List.map_cons]

theorem methodsLineless_eq (rs : List (Routine Stmt)) : methodsLineless rs = rs.map routineLineless := by
  induction rs with
  | nil => rfl
  | cons r rs ih => rw [methodsLineless, ih, List.map_cons]

theorem Stmt.lineless_ifElse (condition : Expr) (yes : Stmt) (no : Option Stmt) :
    (Stmt.ifElse condition yes no).lineless =
      .ifElse condition.lineless yes.lineless (no.map Stmt.lineless) := by
  cases no <;> rfl

/-! ## Loops -/

namespace ForLoop

theorem lineless_withIncrement (increment : Option Expr) (body : Stmt) :
    (withIncrement increment body).lineless = withIncrement (increment.map Expr.lineless) body.lineless := by
  cases increment <;> rfl

theorem lineless_whole (first : Option Stmt) (condition : Option Expr) (body : Stmt) :
    (whole first condition body).lineless =
      whole (first.map Stmt.lineless) (condition.map Expr.lineless) body.lineless := by
  cases first <;> cases condition <;> rfl

end ForLoop

end Lox
