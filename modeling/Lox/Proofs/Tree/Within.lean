/-
The expressions, statements and routines within a part of a program, and what is said of a program by looking
at all of them: which names it mentions, which assignments stand in the initializer of the very variable they
assign to, and whether the names of its local scopes are declared before they are mentioned.
-/
import Lox.Proofs.Tree.Code

namespace Lox

/-! ## Parts within a part -/

mutual

/-- An expression and the expressions in it. -/
def Expr.within : Expr → List Code
  | .literal value => [.expr (.literal value)]
  | .unary operator operand => .expr (.unary operator operand) :: operand.within
  | .binary operator left right => .expr (.binary operator left right) :: (left.within ++ right.within)
  | .logical operator left right => .expr (.logical operator left right) :: (left.within ++ right.within)
  | .group inner => .expr (.group inner) :: inner.within
  | .ref id name => [.expr (.ref id name)]
  | .assign id name value => .expr (.assign id name value) :: value.within
  | .call callee paren arguments =>
    .expr (.call callee paren arguments) :: (callee.within ++ Expr.withinAll arguments)
  | .get object name => .expr (.get object name) :: object.within
  | .set object name value => .expr (.set object name value) :: (value.within ++ object.within)
  | .self id keyword => [.expr (.self id keyword)]
  | .super id keyword method => [.expr (.super id keyword method)]

/-- Expressions and the expressions in them. -/
def Expr.withinAll : List Expr → List Code
  | [] => []
  | e :: es => e.within ++ Expr.withinAll es

end

/-- An expression that may be missing, and the expressions in it. -/
def Expr.withinOption (e : Option Expr) : List Code := (e.map Expr.within).getD []

mutual

/-- A statement and what is in it. -/
def Stmt.within : Stmt → List Code
  | .expression e => .stmt (.expression e) :: e.within
  | .print e => .stmt (.print e) :: e.within
  | .varDecl name initial => .stmt (.varDecl name initial) :: Expr.withinOption initial
  | .block body => .stmt (.block body) :: Stmt.withinAll body
  | .ifElse condition yes none => .stmt (.ifElse condition yes none) :: (condition.within ++ yes.within)
  | .ifElse condition yes (some no) =>
    .stmt (.ifElse condition yes (some no)) :: (condition.within ++ (yes.within ++ no.within))
  | .whileDo condition body => .stmt (.whileDo condition body) :: (condition.within ++ body.within)
  | .funDecl routine => .stmt (.funDecl routine) :: routineWithin routine
  | .ret keyword value => .stmt (.ret keyword value) :: Expr.withinOption value
  | .classDecl name none methods => .stmt (.classDecl name none methods) :: methodsWithin methods
  | .classDecl name (some superclass) methods =>
    .stmt (.classDecl name (some superclass) methods) :: (superclass.within ++ methodsWithin methods)

/-- Statements and what is in them. -/
def Stmt.withinAll : List Stmt → List Code
  | [] => []
  | s :: ss => s.within ++ Stmt.withinAll ss

/-- A routine and what is in it. -/
def routineWithin : Routine Stmt → List Code
  | ⟨name, parameters, body⟩ => .routine ⟨name, parameters, body⟩ :: Stmt.withinAll body

/-- Methods and what is in them. -/
def methodsWithin : List (Routine Stmt) → List Code
  | [] => []
  | r :: rs => routineWithin r ++ methodsWithin rs

end

/-- The expressions, statements and routines within a part of a program. -/
def Code.within : Code → List Code
  | expr e => e.within
  | exprs es => Expr.withinAll es
  | stmt s => s.within
  | stmts ss => Stmt.withinAll ss
  | routine r => routineWithin r
  | methods rs => methodsWithin rs

theorem Expr.mem_within (e : Expr) : Code.expr e ∈ e.within := by
  cases e <;> exact List.mem_cons_self

theorem Stmt.mem_within (s : Stmt) : Code.stmt s ∈ s.within := by
  cases s with
  | ifElse _ _ no => cases no <;> exact List.mem_cons_self
  | classDecl _ superclass _ => cases superclass <;> exact List.mem_cons_self
  | _ => exact List.mem_cons_self

/-! ## Mentioned names -/

/-- The name of the variable that a part of a program reads or assigns to itself. -/
def Code.variable? : Code → Option String
  | expr (.ref _ name) => some name.lexeme
  | expr (.assign _ name _) => some name.lexeme
  | _ => none

/-- The names of the variables that are read or assigned to within a part of a program. -/
def Code.mentions (c : Code) : List String := c.within.filterMap Code.variable?

/-! ## All names -/

/-- The names of the variables that a part of a program has itself, outside of its parts: those that it declares or
mentions. Functions and classes are variables too. -/
def Code.named : Code → List String
  | expr (.ref _ name) => [name.lexeme]
  | expr (.assign _ name _) => [name.lexeme]
  | stmt (.varDecl name _) => [name.lexeme]
  | stmt (.funDecl r) => [r.name.lexeme]
  | stmt (.classDecl name _ _) => [name.lexeme]
  | routine r => r.parameters.map (·.lexeme)
  | _ => []

/-- The names of all variables within a part of a program. -/
def Code.names (c : Code) : List String := c.within.flatMap Code.named

/-! ## Functions and classes -/

/-- Whether a part of a program declares a function or a class. -/
def Code.Introduces : Code → Prop
  | stmt (.funDecl _) | stmt (.classDecl _ _ _) => True
  | _ => False

/-- Whether no function and no class is declared anywhere within a statement. -/
def Stmt.Flat (s : Stmt) : Prop := ∀ x ∈ s.within, ¬ x.Introduces

instance : DecidablePred Code.Introduces
  | .stmt (.funDecl _) | .stmt (.classDecl _ _ _) => isTrue trivial
  | .stmt (.expression _) | .stmt (.print _) | .stmt (.varDecl _ _) | .stmt (.block _) | .stmt (.ifElse _ _ _)
  | .stmt (.whileDo _ _) | .stmt (.ret _ _) | .expr _ | .exprs _ | .stmts _ | .routine _ | .methods _ => isFalse id

instance (s : Stmt) : Decidable s.Flat := inferInstanceAs (Decidable (∀ x ∈ _, ¬ Code.Introduces x))

/-! ## Assignments in initializers -/

/-- The number of an assignment to a variable of this name. -/
def Code.write? (name : String) : Code → Option UseId
  | expr (.assign id target _) => if target.lexeme = name then some id else none
  | _ => none

/-- The numbers of the assignments to a variable of this name within a part of a program. -/
def Code.writes (c : Code) (name : String) : List UseId := c.within.filterMap (Code.write? name)

/-- The numbers of the assignments to a variable in the expression with which a statement declares it. -/
def Code.initialWrites : Code → List UseId
  | stmt (.varDecl name (some e)) => (Code.expr e).writes name.lexeme
  | _ => []

/-- The numbers of the assignments in a program that stand in the initializer of the variable assigned to, as in
`var a = a = nil`. -/
def Stmt.ownWrites (statements : List Stmt) : List UseId := (Stmt.withinAll statements).flatMap Code.initialWrites

/-! ## Names in order -/

/-- The names mentioned before a statement completes what it declares: those in the initializer of a variable. The
name of a function or a class is complete before anything is mentioned in it. -/
def Stmt.mentionsBefore : Stmt → List String
  | .varDecl _ (some e) => (Code.expr e).mentions
  | _ => []

/-- Whether a statement does not mention what it declares before that is complete. -/
def Stmt.DeclaresFirst (s : Stmt) : Prop := ∀ n ∈ s.mentionsBefore, n ∉ s.declared

/-- Whether of these statements of one scope none mentions a name that is declared only later. -/
def Stmt.InOrder : List Stmt → Prop
  | [] => True
  | s :: ss => s.DeclaresFirst ∧ (∀ n ∈ (Code.stmt s).mentions, n ∉ Stmt.declaredAll ss) ∧ Stmt.InOrder ss

/-- Whether a part of a program, if it is a block or a routine, declares the names of its scope before it mentions
them. The parameters of a routine come before everything. -/
def Code.Orderly : Code → Prop
  | stmt (.block body) => Stmt.InOrder body
  | routine r => Stmt.InOrder r.body
  | _ => True

/-- Whether every local scope of a program declares its names before they are mentioned in it, nested functions and
classes included. -/
def Stmt.Orderly (statements : List Stmt) : Prop := ∀ c ∈ Stmt.withinAll statements, c.Orderly

instance (s : Stmt) : Decidable s.DeclaresFirst := inferInstanceAs (Decidable (∀ n ∈ _, n ∉ _))

instance Stmt.decidableInOrder : ∀ ss : List Stmt, Decidable (Stmt.InOrder ss)
  | [] => isTrue trivial
  | _ :: ss =>
    have := Stmt.decidableInOrder ss
    inferInstanceAs (Decidable (_ ∧ _ ∧ _))

instance : DecidablePred Code.Orderly
  | .stmt (.block body) => Stmt.decidableInOrder body
  | .routine r => Stmt.decidableInOrder r.body
  | .stmt (.expression _) | .stmt (.print _) | .stmt (.varDecl _ _) | .stmt (.ifElse _ _ _)
  | .stmt (.whileDo _ _) | .stmt (.funDecl _) | .stmt (.ret _ _) | .stmt (.classDecl _ _ _)
  | .expr _ | .exprs _ | .stmts _ | .methods _ => isTrue trivial

instance (statements : List Stmt) : Decidable (Stmt.Orderly statements) :=
  inferInstanceAs (Decidable (∀ c ∈ _, Code.Orderly c))

end Lox
