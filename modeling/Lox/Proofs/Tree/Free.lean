/-
Where a part of a program mentions a variable of its surroundings: a variable that is read or assigned to, and that no
statement before in the same part declares.
-/
import Lox.Proofs.Tree.Code

namespace Lox

variable (n : String)

mutual

/-- Whether an expression mentions a variable of this name. -/
def Expr.HasFree : Expr → Prop
  | .literal _ => False
  | .unary _ operand => operand.HasFree
  | .binary _ left right => left.HasFree ∨ right.HasFree
  | .logical _ left right => left.HasFree ∨ right.HasFree
  | .group inner => inner.HasFree
  | .ref _ name => name.lexeme = n
  | .assign _ name value => name.lexeme = n ∨ value.HasFree
  | .call callee _ arguments => callee.HasFree ∨ Expr.HaveFree arguments
  | .get object _ => object.HasFree
  | .set object _ value => object.HasFree ∨ value.HasFree
  | .self _ _ => False
  | .super _ _ _ => False

/-- Whether one of these expressions mentions a variable of this name. -/
def Expr.HaveFree : List Expr → Prop
  | [] => False
  | e :: es => e.HasFree ∨ Expr.HaveFree es

end

/-- Whether an expression that may be missing mentions a variable of this name. -/
def Expr.OptionHasFree (e : Option Expr) : Prop := ∃ x ∈ e, x.HasFree n

mutual

/-- Whether a statement mentions a variable of this name that is not declared in it. -/
def Stmt.HasFree : Stmt → Prop
  | .expression e => e.HasFree n
  | .print e => e.HasFree n
  | .varDecl _ initial => Expr.OptionHasFree n initial
  | .block body => Stmt.HaveFree body
  | .ifElse condition yes none => condition.HasFree n ∨ yes.HasFree
  | .ifElse condition yes (some no) => condition.HasFree n ∨ yes.HasFree ∨ no.HasFree
  | .whileDo condition body => condition.HasFree n ∨ body.HasFree
  | .funDecl routine => routineHasFree routine
  | .ret _ value => Expr.OptionHasFree n value
  | .classDecl _ none methods => methodsHaveFree methods
  | .classDecl _ (some superclass) methods => superclass.HasFree n ∨ methodsHaveFree methods

/-- Whether one of these statements mentions a variable of this name that none before it declares. -/
def Stmt.HaveFree : List Stmt → Prop
  | [] => False
  | s :: ss => s.HasFree ∨ n ∉ s.declared ∧ Stmt.HaveFree ss

/-- Whether a routine mentions a variable of this name that is no parameter. -/
def routineHasFree : Routine Stmt → Prop
  | ⟨_, parameters, body⟩ => n ∉ parameters.map (·.lexeme) ∧ Stmt.HaveFree body

/-- Whether one of these methods mentions a variable of this name. -/
def methodsHaveFree : List (Routine Stmt) → Prop
  | [] => False
  | r :: rs => routineHasFree r ∨ methodsHaveFree rs

end

/-- Whether a part of a program mentions a variable of this name that is not declared in it. -/
def Code.HasFree : Code → Prop
  | expr e => e.HasFree n
  | exprs es => Expr.HaveFree n es
  | stmt s => s.HasFree n
  | stmts ss => Stmt.HaveFree n ss
  | routine r => routineHasFree n r
  | methods rs => methodsHaveFree n rs

end Lox
