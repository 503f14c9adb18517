/-
A walk that keeps the kinds of code and of class it is in as part of its state. It sets them where it goes into a
routine or a class, and puts back the old ones where it comes out; the walk of `resolve`, to which they are handed from
above, goes the same way (`Code.visit_eq`).
-/
import Lox.Proofs.Binding.Visit

namespace Lox

/-! ## Visitors -/

/-- A walk, and the kinds of code and of class that it is in. -/
structure Visitor where
  walk : Walk
  body : Body
  home : Home

namespace Visitor

/-- What surrounds the place where a visitor is. -/
def around (v : Visitor) : Surroundings := ⟨v.body, v.home⟩

/-- Moves on in the walk. -/
def move (v : Visitor) (f : Walk → Walk) : Visitor := { v with walk := f v.walk }

/-- Goes into a kind of code. -/
def enterBody (v : Visitor) (body : Body) : Visitor := { v with body }

/-- Goes into a kind of class. -/
def enterHome (v : Visitor) (home : Home) : Visitor := { v with home }

end Visitor

mutual

/-- Visits a statement. -/
def Stmt.visit : Stmt → Visitor → Visitor
  | .expression e, v => v.move (e.walk v.home)
  | .print e, v => v.move (e.walk v.home)
  | .varDecl name initial, v =>
    ((v.move (·.declare name)).move (Expr.walkOption v.home initial)).move (·.define name)
  | .block body, v => (Stmt.visitAll body (v.move .openScope)).move .closeScope
  | .ifElse condition yes none, v => yes.visit (v.move (condition.walk v.home))
  | .ifElse condition yes (some no), v => no.visit (yes.visit (v.move (condition.walk v.home)))
  | .whileDo condition body, v => body.visit (v.move (condition.walk v.home))
  | .funDecl routine, v => visitRoutine .function routine (v.move (·.introduce routine.name))
  | .ret keyword value, v =>
    (v.move (·.checkReturn v.body keyword value.isSome)).move (Expr.walkOption v.home value)
  | .classDecl name none methods, v =>
    let enclosing := v.home
    let v := (v.enterHome .plainClass).move (·.introduce name)
    let v := visitMethods methods (v.move (·.openWordScope thisName))
    (v.move .closeScope).enterHome enclosing
  | .classDecl name (some superclass) methods, v =>
    let enclosing := v.home
    let v := (v.enterHome .plainClass).move (·.introduce name)
    let v := (v.move (·.checkSuperclass name superclass)).enterHome .subclass
    let v := (v.move (superclass.walk v.home)).move (·.openWordScope superName)
    let v := visitMethods methods (v.move (·.openWordScope thisName))
    ((v.move .closeScope).move .closeScope).enterHome enclosing

/-- Visits statements from the first to the last. -/
def Stmt.visitAll : List Stmt → Visitor → Visitor
  | [], v => v
  | s :: ss, v => Stmt.visitAll ss (s.visit v)

/-- Visits a routine that is a kind of code. -/
def visitRoutine (kind : Body) : Routine Stmt → Visitor → Visitor
  | ⟨_, parameters, body⟩, v =>
    let enclosing := v.body
    let v := (v.enterBody kind).move .openScope
    let v := Stmt.visitAll body (v.move (parameters.foldl Walk.introduce ·))
    (v.move .closeScope).enterBody enclosing

/-- Visits the methods of a class. -/
def visitMethods : List (Routine Stmt) → Visitor → Visitor
  | [], v => v
  | r :: rs, v => visitMethods rs (visitRoutine r.methodBody r v)

end

/-- Visits a part of a program. A routine that stands alone is of the kind of code that the visitor is in. -/
def Code.visit : Code → Visitor → Visitor
  | expr e, v => v.move (e.walk v.home)
  | exprs es, v => v.move (Expr.walkAll v.home es)
  | stmt s, v => s.visit v
  | stmts ss, v => Stmt.visitAll ss v
  | routine r, v => visitRoutine v.body r v
  | methods rs, v => visitMethods rs v

/-! ## The same walk -/

mutual

/-- A visit to a statement walks through it and leaves the kinds as they were. -/
theorem Stmt.visit_eq : ∀ (s : Stmt) (v : Visitor), s.visit v = v.move (s.walk v.around)
  | .expression _, _ => rfl
  | .print _, _ => rfl
  | .varDecl _ _, _ => rfl
  | .block body, v => by
    rw [Stmt.visit, Stmt.visitAll_eq body]
    rfl
  | .ifElse _ yes none, v => by
    rw [Stmt.visit, yes.visit_eq]
    rfl
  | .ifElse _ yes (some no), v => by
    rw [Stmt.visit, yes.visit_eq, no.visit_eq]
    rfl
  | .whileDo _ body, v => by
    rw [Stmt.visit, body.visit_eq]
    rfl
  | .funDecl routine, v => by
    rw [Stmt.visit, visitRoutine_eq]
    rfl
  | .ret _ _, _ => rfl
  | .classDecl _ none methods, v => by
    rw [Stmt.visit, visitMethods_eq methods]
    rfl
  | .classDecl _ (some _) methods, v => by
    rw [Stmt.visit, visitMethods_eq methods]
    rfl

/-- A visit to statements walks through them and leaves the kinds as they were. -/
theorem Stmt.visitAll_eq : ∀ (ss : List Stmt) (v : Visitor), Stmt.visitAll ss v = v.move (Stmt.walkAll v.around ss)
  | [], _ => rfl
  | s :: ss, v => by
    rw [Stmt.visitAll, s.visit_eq, Stmt.visitAll_eq ss]
    rfl

/-- A visit to a routine walks through it as one of that kind. -/
theorem visitRoutine_eq : ∀ (kind : Body) (r : Routine Stmt) (v : Visitor),
    visitRoutine kind r v = v.move (walkRoutine ⟨kind, v.home⟩ r)
  | _, ⟨_, _, body⟩, v => by
    rw [visitRoutine, Stmt.visitAll_eq body]
    rfl

/-- A visit to methods walks through them. -/
theorem visitMethods_eq : ∀ (rs : List (Routine Stmt)) (v : Visitor),
    visitMethods rs v = v.move (walkMethods v.home rs)
  | [], _ => rfl
  | r :: rs, v => by
    rw [visitMethods, visitRoutine_eq _ r, visitMethods_eq rs]
    rfl

end

/-- A visit to a part of a program walks through it and leaves the kinds as they were. -/
theorem Code.visit_eq (c : Code) (v : Visitor) : c.visit v = v.move (c.walk v.around) := by
  cases c with
  | expr e | exprs es => rfl
  | stmt s => exact s.visit_eq v
  | stmts ss => exact Stmt.visitAll_eq ss v
  | routine r => exact visitRoutine_eq v.body r v
  | methods rs => exact visitMethods_eq rs v

end Lox
