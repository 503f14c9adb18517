/-
Finding the variable of every use before a program runs. The walk through the tree keeps the names of the
scopes that are open; a use belongs to the innermost of them that declares its name. On the way the rules on
names, on `return`, `this` and `super` are checked. Global names are not kept, for they can be declared
later.
-/
import Lox.Binding.Fault
import Lox.Binding.Table
import Lox.Bindings

namespace Lox

/-! ## Where the walk is -/

/-- The kind of code a statement stands in. -/
inductive Body
  | top
  | function
  | method
  | initializer
  deriving DecidableEq, Repr

/-- The kind of class an expression stands in. -/
inductive Home
  | noClass
  | plainClass
  | subclass
  deriving DecidableEq, Repr

/-- What surrounds a place in the tree. -/
structure Surroundings where
  body : Body
  home : Home
  deriving DecidableEq, Repr

/-- The surroundings of a program's own statements. -/
def Surroundings.outermost : Surroundings := ⟨.top, .noClass⟩

/-- The kind of code that a method's body is. -/
def Routine.methodBody (r : Routine Stmt) : Body := if r.isInitializer then .initializer else .method

/-! ## What the walk keeps -/

/-- The names that a scope declares, each with whether its declaration is complete. -/
abbrev Declarations := Bindings Bool

/-- The open scopes, the innermost first, with the entries made and the errors found. -/
structure Walk where
  scopes : List Declarations
  table : Table
  errors : Array BindingError

namespace Walk

/-- The start of a walk: no scope is open. -/
def start : Walk := ⟨[], .empty, #[]⟩

/-- Adds an error to those found. -/
def record (w : Walk) (fault : BindingFault) (site : Token) : Walk :=
  { w with errors := w.errors.push ⟨fault, site⟩ }

/-- Adds an error if a condition holds. -/
def recordIf (condition : Bool) (fault : BindingFault) (site : Token) (w : Walk) : Walk :=
  if condition then w.record fault site else w

/-- Opens a scope. -/
def openScope (w : Walk) : Walk := { w with scopes := .empty :: w.scopes }

/-- Closes the innermost scope. -/
def closeScope (w : Walk) : Walk := { w with scopes := w.scopes.tail }

/-- Declares a name in the innermost scope, complete or not. -/
def mark (w : Walk) (name : String) (complete : Bool) : Walk :=
  match w.scopes with
  | [] => w
  | scope :: outer => { w with scopes := scope.set name complete :: outer }

/-- Whether the innermost scope has a name already. -/
def declared (w : Walk) (name : String) : Bool := w.scopes.head?.any (·.contains name)

/-- Starts the declaration of a variable; a second one in the same scope is an error. -/
def declare (w : Walk) (name : Token) : Walk :=
  if w.declared name.lexeme then w.record .declaredTwice name else w.mark name.lexeme false

/-- Completes the declaration of a variable. -/
def define (w : Walk) (name : Token) : Walk := w.mark name.lexeme true

/-- Declares a variable without anything between the start and the end of its declaration. -/
def introduce (w : Walk) (name : Token) : Walk := (w.declare name).define name

/-- Whether a name is being declared in the innermost scope just now. -/
def beingDeclared (w : Walk) (name : String) : Bool := w.scopes.head?.any (·.get? name == some false)

/-- Enters a use of a name with the distance of the innermost scope that has it, if there is one. -/
def bind (w : Walk) (id : UseId) (name : String) : Walk :=
  match w.scopes.findIdx? (·.contains name) with
  | some distance => { w with table := w.table.insert id distance }
  | none => w

/-- Opens a scope that declares one of the words of classes. -/
def openWordScope (w : Walk) (word : String) : Walk := w.openScope.mark word true

end Walk

/-! ## Expressions -/

/-- The rule that the word `super` breaks in a kind of class, if it breaks one. -/
def Home.superFault? : Home → Option BindingFault
  | noClass => some .superOutsideClass
  | plainClass => some .superWithoutSuperclass
  | subclass => none

/-- A use of `super` at `keyword`. -/
def Walk.super (w : Walk) (home : Home) (id : UseId) (keyword : Token) : Walk :=
  let w :=
    match home.superFault? with
    | some fault => w.record fault keyword
    | none => w
  w.bind id superName

/-- A use of `this` at `keyword`. -/
def Walk.self (w : Walk) (home : Home) (id : UseId) (keyword : Token) : Walk :=
  if home = .noClass then w.record .thisOutsideClass keyword else w.bind id thisName

mutual

/-- Walks through an expression, in the order in which its parts are to be checked. -/
def Expr.walk (home : Home) : Expr → Walk → Walk
  | .literal _, w => w
  | .group inner, w => inner.walk home w
  | .unary _ operand, w => operand.walk home w
  | .binary _ left right, w => right.walk home (left.walk home w)
  | .logical _ left right, w => right.walk home (left.walk home w)
  | .ref id name, w =>
    (w.recordIf (w.beingDeclared name.lexeme) .usedInOwnInitializer name).bind id name.lexeme
  | .assign id name value, w => (value.walk home w).bind id name.lexeme
  | .call callee _ arguments, w => Expr.walkAll home arguments (callee.walk home w)
  | .get object _, w => object.walk home w
  | .set object _ value, w => object.walk home (value.walk home w)
  | .self id keyword, w => w.self home id keyword
  | .super id keyword _, w => w.super home id keyword

/-- Walks through expressions from the first to the last. -/
def Expr.walkAll (home : Home) : List Expr → Walk → Walk
  | [], w => w
  | e :: es, w => Expr.walkAll home es (e.walk home w)

end

/-- Walks through an expression if there is one. -/
def Expr.walkOption (home : Home) (e : Option Expr) (w : Walk) : Walk :=
  match e with
  | none => w
  | some e => e.walk home w

/-! ## Statements -/

/-- Checks that a class does not name itself as its superclass. -/
def Walk.checkSuperclass (w : Walk) (name : Token) (superclass : Expr) : Walk :=
  match superclass with
  | .ref _ parent => w.recordIf (parent.lexeme == name.lexeme) .inheritsFromItself parent
  | _ => w

/-- Checks the place of a `return`, with or without a value. -/
def Walk.checkReturn (w : Walk) (body : Body) (keyword : Token) (hasValue : Bool) : Walk :=
  (w.recordIf (body == .top) .returnAtTop keyword).recordIf (hasValue && body == .initializer)
    .valueFromInitializer keyword

mutual

/-- Walks through a statement. -/
def Stmt.walk (around : Surroundings) : Stmt → Walk → Walk
  | .expression e, w => e.walk around.home w
  | .print e, w => e.walk around.home w
  | .varDecl name initial, w => (Expr.walkOption around.home initial (w.declare name)).define name
  | .block body, w => (Stmt.walkAll around body w.openScope).closeScope
  | .ifElse condition yes none, w => yes.walk around (condition.walk around.home w)
  | .ifElse condition yes (some no), w => no.walk around (yes.walk around (condition.walk around.home w))
  | .whileDo condition body, w => body.walk around (condition.walk around.home w)
  | .funDecl routine, w =>
    walkRoutine { around with body := .function } routine (w.introduce routine.name)
  | .ret keyword value, w =>
    Expr.walkOption around.home value (w.checkReturn around.body keyword value.isSome)
  | .classDecl name none methods, w =>
    (walkMethods .plainClass methods ((w.introduce name).openWordScope thisName)).closeScope
  | .classDecl name (some superclass) methods, w =>
    let w := superclass.walk .subclass ((w.introduce name).checkSuperclass name superclass)
    let w := (w.openWordScope superName).openWordScope thisName
    (walkMethods .subclass methods w).closeScope.closeScope

/-- Walks through statements from the first to the last. -/
def Stmt.walkAll (around : Surroundings) : List Stmt → Walk → Walk
  | [], w => w
  | s :: ss, w => Stmt.walkAll around ss (s.walk around w)

/-- Walks through a routine, whose parameters and body share a scope. -/
def walkRoutine (inside : Surroundings) : Routine Stmt → Walk → Walk
  | ⟨_, parameters, body⟩, w =>
    (Stmt.walkAll inside body (parameters.foldl Walk.introduce w.openScope)).closeScope

/-- Walks through the methods of a class. -/
def walkMethods (home : Home) : List (Routine Stmt) → Walk → Walk
  | [], w => w
  | r :: rs, w => walkMethods home rs (walkRoutine ⟨r.methodBody, home⟩ r w)

end

/-! ## Programs -/

/-- The table of a program and the rules it breaks. -/
structure Resolution where
  table : Table
  errors : List BindingError

/-- Finds the variables of a program's statements. -/
def resolve (statements : List Stmt) : Resolution :=
  let w := Stmt.walkAll .outermost statements .start
  ⟨w.table, w.errors.toList⟩

end Lox
