/-
Where the parts of a program stand: in which blocks, functions, methods and classes. And the rules on names, on
`return`, and on the words `this` and `super`, each in terms of what is around a part (`WellFormed`).
-/
import Lox.Proofs.Tree.Within

namespace Lox

/-! ## Layers -/

/-- Something that parts of a program stand in. -/
inductive Layer
  | block
  | function
  | method (name : Token)
  /-- A class, with a superclass or without. -/
  | cls (inherits : Bool)

namespace Layer

/-- Whether a layer is a function or a method. -/
def isRoutine : Layer → Bool
  | function | method _ => true
  | block | cls _ => false

def isClass : Layer → Bool
  | cls _ => true
  | block | function | method _ => false

/-- Whether names that are declared in a layer are local to it. -/
def isScope : Layer → Bool
  | block | function | method _ => true
  | cls _ => false

end Layer

/-- The expressions within an expression, each with the layers that are around it. -/
def Expr.placed (around : List Layer) (e : Expr) : List (List Layer × Code) := e.within.map (around, ·)

mutual

/-- What is within a statement, each part with the layers that are around it, the innermost first. A superclass counts
as standing in the class that names it. -/
def Stmt.placed (around : List Layer) : Stmt → List (List Layer × Code)
  | .expression e => (around, .stmt (.expression e)) :: e.placed around
  | .print e => (around, .stmt (.print e)) :: e.placed around
  | .varDecl name initial => (around, .stmt (.varDecl name initial)) :: initial.toList.flatMap (·.placed around)
  | .block body => (around, .stmt (.block body)) :: Stmt.placedAll (.block :: around) body
  | .ifElse condition yes none =>
    (around, .stmt (.ifElse condition yes none)) :: (condition.placed around ++ yes.placed around)
  | .ifElse condition yes (some no) =>
    (around, .stmt (.ifElse condition yes (some no))) ::
      (condition.placed around ++ (yes.placed around ++ no.placed around))
  | .whileDo condition body =>
    (around, .stmt (.whileDo condition body)) :: (condition.placed around ++ body.placed around)
  | .funDecl routine => (around, .stmt (.funDecl routine)) :: routinePlaced (.function :: around) routine
  | .ret keyword value => (around, .stmt (.ret keyword value)) :: value.toList.flatMap (·.placed around)
  | .classDecl name none methods =>
    (around, .stmt (.classDecl name none methods)) :: methodsPlaced (.cls false :: around) methods
  | .classDecl name (some superclass) methods =>
    (around, .stmt (.classDecl name (some superclass) methods)) ::
      (superclass.placed (.cls true :: around) ++ methodsPlaced (.cls true :: around) methods)

/-- What is within statements, each part with the layers that are around it. -/
def Stmt.placedAll (around : List Layer) : List Stmt → List (List Layer × Code)
  | [] => []
  | s :: ss => s.placed around ++ Stmt.placedAll around ss

/-- A routine and what is within it, with the layer of its own code. -/
def routinePlaced (inside : List Layer) : Routine Stmt → List (List Layer × Code)
  | ⟨name, parameters, body⟩ => (inside, .routine ⟨name, parameters, body⟩) :: Stmt.placedAll inside body

/-- Methods and what is within them, each with the layer of its own code. -/
def methodsPlaced (around : List Layer) : List (Routine Stmt) → List (List Layer × Code)
  | [] => []
  | r :: rs => routinePlaced (.method r.name :: around) r ++ methodsPlaced around rs

end

/-! ## The rules -/

/-- Whether statements keep the rules on names, on `return`, and on the words of classes. -/
structure WellFormed (statements : List Stmt) : Prop where
  /-- A `return` stands in a function or a method. -/
  inside : ∀ around keyword value, (around, .stmt (.ret keyword value)) ∈ Stmt.placedAll [] statements →
    ∃ layer ∈ around, layer.isRoutine = true
  /-- A `return` with a value does not have an initializer as the innermost function or method around it. -/
  values : ∀ around keyword value, (around, .stmt (.ret keyword (some value))) ∈ Stmt.placedAll [] statements →
    ∀ name, around.find? Layer.isRoutine = some (.method name) → name.lexeme ≠ initializerName
  /-- The word `this` stands in a class. -/
  self : ∀ around id keyword, (around, .expr (.self id keyword)) ∈ Stmt.placedAll [] statements →
    ∃ layer ∈ around, layer.isClass = true
  /-- The innermost class around the word `super` has a superclass. -/
  super : ∀ around id keyword method, (around, .expr (.super id keyword method)) ∈ Stmt.placedAll [] statements →
    around.find? Layer.isClass = some (.cls true)
  /-- A class does not name itself as its superclass. -/
  parents : ∀ around name id parent methods,
    (around, .stmt (.classDecl name (some (.ref id parent)) methods)) ∈ Stmt.placedAll [] statements →
      parent.lexeme ≠ name.lexeme
  /-- A block declares no name twice. -/
  blocks : ∀ around body, (around, .stmt (.block body)) ∈ Stmt.placedAll [] statements →
    (Stmt.declaredAll body).Nodup
  /-- The parameters and the body of a function or a method, which share a scope, declare no name twice. -/
  routines : ∀ around r, (around, .routine r) ∈ Stmt.placedAll [] statements →
    (r.parameters.map (·.lexeme) ++ Stmt.declaredAll r.body).Nodup
  /-- A local variable is not read in its own initializer. -/
  initials : ∀ around name e, (around, .stmt (.varDecl name (some e))) ∈ Stmt.placedAll [] statements →
    (∃ layer ∈ around, layer.isScope = true) →
      ∀ id read, .expr (.ref id read) ∈ e.within → read.lexeme ≠ name.lexeme

/-! ## One part at a time -/

/-- Whether an expression does not read a variable of this name. -/
def Expr.Avoids (e : Expr) (name : String) : Prop := ∀ id read, .expr (.ref id read) ∈ e.within → read.lexeme ≠ name

/-- Whether a part of a program keeps the rules that are about itself, with these layers around it. -/
def Code.WellPlaced (around : List Layer) : Code → Prop
  | stmt (.ret _ none) => ∃ layer ∈ around, layer.isRoutine = true
  | stmt (.ret _ (some _)) =>
    (∃ layer ∈ around, layer.isRoutine = true) ∧
      ∀ name, around.find? Layer.isRoutine = some (.method name) → name.lexeme ≠ initializerName
  | expr (.self _ _) => ∃ layer ∈ around, layer.isClass = true
  | expr (.super _ _ _) => around.find? Layer.isClass = some (.cls true)
  | stmt (.classDecl name (some (.ref _ parent)) _) => parent.lexeme ≠ name.lexeme
  | stmt (.block body) => (Stmt.declaredAll body).Nodup
  | routine r => (r.parameters.map (·.lexeme) ++ Stmt.declaredAll r.body).Nodup
  | stmt (.varDecl name (some e)) => (∃ layer ∈ around, layer.isScope = true) → e.Avoids name.lexeme
  | _ => True

/-- A program is well-formed if each of its parts keeps the rules that are about the part. -/
theorem wellFormed_iff {statements : List Stmt} :
    WellFormed statements ↔ ∀ part ∈ Stmt.placedAll [] statements, part.2.WellPlaced part.1 := by
  constructor
  · rintro h ⟨around, code⟩ mem
    show code.WellPlaced around
    unfold Code.WellPlaced
    split
    · exact h.inside _ _ _ mem
    · exact ⟨h.inside _ _ _ mem, h.values _ _ _ mem⟩
    · exact h.self _ _ _ mem
    · exact h.super _ _ _ _ mem
    · exact h.parents _ _ _ _ _ mem
    · exact h.blocks _ _ mem
    · exact h.routines _ _ mem
    · exact h.initials _ _ _ mem
    · trivial
  · intro h
    refine ⟨fun around keyword value mem => ?_, fun _ _ _ mem => (h _ mem).2, fun _ _ _ mem => h _ mem,
      fun _ _ _ _ mem => h _ mem, fun _ _ _ _ _ mem => h _ mem, fun _ _ mem => h _ mem, fun _ _ mem => h _ mem,
      fun _ _ _ mem => h _ mem⟩
    cases value with
    | none => exact h _ mem
    | some _ => exact (h _ mem).1

end Lox
