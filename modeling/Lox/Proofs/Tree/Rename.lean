/-
Another name for a local variable. It is given to the declaration of the variable, in a block or in a function with
its parameters, and to the uses that a table sends to that scope under the old name, and to nothing else.
-/
import Lox.Binding.Table
import Lox.Proofs.Tree.Within

namespace Lox

/-- A new name for the variables of an old name in some scope, with the table that tells which uses are theirs. -/
structure Renaming where
  table : Table
  old : String
  new : String

namespace Renaming

/-- A token with the new name, if it has the old one. -/
def token (r : Renaming) (t : Token) : Token := if t.lexeme = r.old then { t with lexeme := r.new } else t

/-- The name of a use, as many scopes further in than the scope of the variable. -/
def used (r : Renaming) (inside : Nat) (id : UseId) (name : Token) : Token :=
  if r.table.get? id = some inside then r.token name else name

/-- The name of a declaration, as many scopes further in than the scope of the variable. -/
def declared (r : Renaming) (inside : Nat) (name : Token) : Token := if inside = 0 then r.token name else name

end Renaming

mutual

/-- An expression with the new name, as many scopes further in than the scope of the variable. -/
def Expr.rename (r : Renaming) (inside : Nat) : Expr → Expr
  | .literal value => .literal value
  | .unary operator operand => .unary operator (operand.rename r inside)
  | .binary operator left right => .binary operator (left.rename r inside) (right.rename r inside)
  | .logical operator left right => .logical operator (left.rename r inside) (right.rename r inside)
  | .group inner => .group (inner.rename r inside)
  | .ref id name => .ref id (r.used inside id name)
  | .assign id name value => .assign id (r.used inside id name) (value.rename r inside)
  | .call callee paren arguments => .call (callee.rename r inside) paren (Expr.renameAll r inside arguments)
  | .get object name => .get (object.rename r inside) name
  | .set object name value => .set (object.rename r inside) name (value.rename r inside)
  | .self id keyword => .self id keyword
  | .super id keyword method => .super id keyword method

/-- Expressions with the new name. -/
def Expr.renameAll (r : Renaming) (inside : Nat) : List Expr → List Expr
  | [] => []
  | e :: es => e.rename r inside :: Expr.renameAll r inside es

end

mutual

/-- A statement with the new name, as many scopes further in than the scope of the variable. Blocks and routines have
a scope of their own, methods also those of the words of classes. -/
def Stmt.rename (r : Renaming) (inside : Nat) : Stmt → Stmt
  | .expression e => .expression (e.rename r inside)
  | .print e => .print (e.rename r inside)
  | .varDecl name initial => .varDecl (r.declared inside name) (initial.map (Expr.rename r inside))
  | .block body => .block (Stmt.renameAll r (inside + 1) body)
  | .ifElse condition yes none => .ifElse (condition.rename r inside) (yes.rename r inside) none
  | .ifElse condition yes (some no) =>
    .ifElse (condition.rename r inside) (yes.rename r inside) (some (no.rename r inside))
  | .whileDo condition body => .whileDo (condition.rename r inside) (body.rename r inside)
  | .funDecl routine => .funDecl (renameRoutine r inside routine)
  | .ret keyword value => .ret keyword (value.map (Expr.rename r inside))
  | .classDecl name none methods => .classDecl name none (renameMethods r (inside + 1) methods)
  | .classDecl name (some superclass) methods =>
    .classDecl name (some (superclass.rename r inside)) (renameMethods r (inside + 2) methods)

/-- Statements with the new name. -/
def Stmt.renameAll (r : Renaming) (inside : Nat) : List Stmt → List Stmt
  | [] => []
  | s :: ss => s.rename r inside :: Stmt.renameAll r inside ss

/-- A routine with the new name. -/
def renameRoutine (r : Renaming) (inside : Nat) : Routine Stmt → Routine Stmt
  | ⟨name, parameters, body⟩ => ⟨name, parameters, Stmt.renameAll r (inside + 1) body⟩

/-- Methods with the new name. -/
def renameMethods (r : Renaming) (inside : Nat) : List (Routine Stmt) → List (Routine Stmt)
  | [] => []
  | m :: ms => renameRoutine r inside m :: renameMethods r inside ms

end

/-- Whether statements declare a variable of this name in the scope they stand in. -/
def Stmt.DeclareVariable (n : String) (ss : List Stmt) : Prop :=
  ∃ name initial, .varDecl name initial ∈ ss ∧ name.lexeme = n

/-- Whether a part is the scope of a variable with the old name, and another one is that scope with the new name. -/
inductive Renaming.Local (r : Renaming) : Code → Code → Prop
  | block {ss : List Stmt} (declares : Stmt.DeclareVariable r.old ss) :
      Local r (.stmt (.block ss)) (.stmt (.block (Stmt.renameAll r 0 ss)))
  | routine {name : Token} {parameters : List Token} {ss : List Stmt}
      (declares : r.old ∈ parameters.map (·.lexeme) ∨ Stmt.DeclareVariable r.old ss) :
      Local r (.routine ⟨name, parameters, ss⟩) (.routine ⟨name, parameters.map r.token, Stmt.renameAll r 0 ss⟩)

end Lox
