/-
Parts of programs: an expression, a statement, a routine, or a list of one of these. For each of them the
numbers of the uses in it, the names it declares in the scope it stands in, and `Formed`, what the grammar
promises about it: operators are operators, names are no words of the language, a branch or a loop body
declares nothing by itself, and a superclass is named.
-/
import Lox.Grammar.Expression

namespace Lox

/-- A part of a program. -/
inductive Code
  | expr (e : Expr)
  | exprs (es : List Expr)
  | stmt (s : Stmt)
  | stmts (ss : List Stmt)
  | routine (r : Routine Stmt)
  | methods (rs : List (Routine Stmt))

/-! ## Uses -/

mutual

/-- The numbers of the uses in an expression, in the order in which the names are looked up. -/
def Expr.uses : Expr → List UseId
  | .literal _ => []
  | .unary _ operand => operand.uses
  | .binary _ left right => left.uses ++ right.uses
  | .logical _ left right => left.uses ++ right.uses
  | .group inner => inner.uses
  | .ref id _ => [id]
  | .assign id _ value => value.uses ++ [id]
  | .call callee _ arguments => callee.uses ++ Expr.usesAll arguments
  | .get object _ => object.uses
  | .set object _ value => value.uses ++ object.uses
  | .self id _ => [id]
  | .super id _ _ => [id]

/-- The numbers of the uses in expressions. -/
def Expr.usesAll : List Expr → List UseId
  | [] => []
  | e :: es => e.uses ++ Expr.usesAll es

end

/-- The numbers of the uses in an expression that may be missing. -/
def Expr.usesOption (e : Option Expr) : List UseId := (e.map Expr.uses).getD []

mutual

/-- The numbers of the uses in a statement. -/
def Stmt.uses : Stmt → List UseId
  | .expression e => e.uses
  | .print e => e.uses
  | .varDecl _ initial => Expr.usesOption initial
  | .block body => Stmt.usesAll body
  | .ifElse condition yes none => condition.uses ++ yes.uses
  | .ifElse condition yes (some no) => condition.uses ++ (yes.uses ++ no.uses)
  | .whileDo condition body => condition.uses ++ body.uses
  | .funDecl routine => routineUses routine
  | .ret _ value => Expr.usesOption value
  | .classDecl _ none methods => methodUses methods
  | .classDecl _ (some superclass) methods => superclass.uses ++ methodUses methods

/-- The numbers of the uses in statements. -/
def Stmt.usesAll : List Stmt → List UseId
  | [] => []
  | s :: ss => s.uses ++ Stmt.usesAll ss

/-- The numbers of the uses in a routine. -/
def routineUses : Routine Stmt → List UseId
  | ⟨_, _, body⟩ => Stmt.usesAll body

/-- The numbers of the uses in methods. -/
def methodUses : List (Routine Stmt) → List UseId
  | [] => []
  | r :: rs => routineUses r ++ methodUses rs

end

/-- The numbers of the uses in a part of a program. -/
def Code.uses : Code → List UseId
  | expr e => e.uses
  | exprs es => Expr.usesAll es
  | stmt s => s.uses
  | stmts ss => Stmt.usesAll ss
  | routine r => routineUses r
  | methods rs => methodUses rs

/-- The number and the name of an expression that is itself a use of a variable. -/
def Expr.use? : Expr → Option (UseId × String)
  | .ref id name => some (id, name.lexeme)
  | .assign id name _ => some (id, name.lexeme)
  | .self id _ => some (id, thisName)
  | .super id _ _ => some (id, superName)
  | _ => none

/-- The number and the name of a part of a program that is itself a use of a variable. -/
def Code.use? : Code → Option (UseId × String)
  | expr e => e.use?
  | _ => none

theorem Expr.mem_uses {e : Expr} {use : UseId} {name : String} (h : e.use? = some (use, name)) : use ∈ e.uses := by
  cases e with
  | ref _ _ | self _ _ | super _ _ _ =>
    cases h
    exact List.mem_singleton_self _
  | assign _ _ _ =>
    cases h
    exact List.mem_append_right _ (List.mem_singleton_self _)
  | _ => cases h

/-! ## Declared names -/

/-- The names that a statement declares in the scope it stands in. -/
def Stmt.declared : Stmt → List String
  | .varDecl name _ => [name.lexeme]
  | .funDecl routine => [routine.name.lexeme]
  | .classDecl name _ _ => [name.lexeme]
  | .ifElse _ yes none => yes.declared
  | .ifElse _ yes (some no) => yes.declared ++ no.declared
  | .whileDo _ body => body.declared
  | _ => []

/-- The names that statements declare in the scope they stand in. -/
def Stmt.declaredAll (ss : List Stmt) : List String := ss.flatMap Stmt.declared

/-! ## What the grammar promises -/

/-- Whether a variable can have this name: it is none of the words under which methods find their instance and
their superclass. -/
def Nameable (name : String) : Prop := name ≠ thisName ∧ name ≠ superName

/-- The kinds of the operators between two operands that are both evaluated. -/
def binaryKinds : List Kind :=
  [.bangEqual, .equalEqual, .greater, .greaterEqual, .less, .lessEqual, .minus, .plus, .star, .slash]

mutual

/-- What the grammar promises about an expression. -/
def Expr.Formed : Expr → Prop
  | .literal _ => True
  | .unary operator operand => operator.kind ∈ signs ∧ operand.Formed
  | .binary operator left right => operator.kind ∈ binaryKinds ∧ left.Formed ∧ right.Formed
  | .logical _ left right => left.Formed ∧ right.Formed
  | .group inner => inner.Formed
  | .ref _ name => Nameable name.lexeme
  | .assign _ name value => Nameable name.lexeme ∧ value.Formed
  | .call callee _ arguments => callee.Formed ∧ Expr.FormedAll arguments
  | .get object _ => object.Formed
  | .set object _ value => object.Formed ∧ value.Formed
  | .self _ keyword => keyword.lexeme = thisName
  | .super _ _ _ => True

/-- What the grammar promises about expressions. -/
def Expr.FormedAll : List Expr → Prop
  | [] => True
  | e :: es => e.Formed ∧ Expr.FormedAll es

end

/-- What the grammar promises about an expression that may be missing. -/
def Expr.FormedOption (e : Option Expr) : Prop := ∀ x ∈ e, x.Formed

/-- What the grammar promises about a superclass: it is a name. -/
def Expr.NamesClass (e : Expr) : Prop := ∃ id name, e = .ref id name ∧ Nameable name.lexeme

mutual

/-- What the grammar promises about a statement. -/
def Stmt.Formed : Stmt → Prop
  | .expression e => e.Formed
  | .print e => e.Formed
  | .varDecl name initial => Nameable name.lexeme ∧ Expr.FormedOption initial
  | .block body => Stmt.FormedAll body
  | .ifElse condition yes none => condition.Formed ∧ yes.Formed ∧ yes.declared = []
  | .ifElse condition yes (some no) =>
    condition.Formed ∧ (yes.Formed ∧ yes.declared = []) ∧ no.Formed ∧ no.declared = []
  | .whileDo condition body => condition.Formed ∧ body.Formed ∧ body.declared = []
  | .funDecl routine => Nameable routine.name.lexeme ∧ routineFormed routine
  | .ret _ value => Expr.FormedOption value
  | .classDecl name none methods => Nameable name.lexeme ∧ methodsFormed methods
  | .classDecl name (some superclass) methods =>
    Nameable name.lexeme ∧ superclass.NamesClass ∧ methodsFormed methods

/-- What the grammar promises about statements. -/
def Stmt.FormedAll : List Stmt → Prop
  | [] => True
  | s :: ss => s.Formed ∧ Stmt.FormedAll ss

/-- What the grammar promises about a routine. -/
def routineFormed : Routine Stmt → Prop
  | ⟨_, parameters, body⟩ => (∀ p ∈ parameters, Nameable p.lexeme) ∧ Stmt.FormedAll body

/-- What the grammar promises about methods. -/
def methodsFormed : List (Routine Stmt) → Prop
  | [] => True
  | r :: rs => routineFormed r ∧ methodsFormed rs

end

/-- What the grammar promises about a part of a program. -/
def Code.Formed : Code → Prop
  | expr e => e.Formed
  | exprs es => Expr.FormedAll es
  | stmt s => s.Formed
  | stmts ss => Stmt.FormedAll ss
  | routine r => routineFormed r
  | methods rs => methodsFormed rs

theorem Expr.NamesClass.formed {e : Expr} (h : e.NamesClass) : e.Formed := by
  obtain ⟨id, name, rfl, hn⟩ := h
  exact hn

end Lox
