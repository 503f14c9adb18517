/-
Syntax trees. An expression that uses a variable carries a number, so that two uses of one name can be
told apart; the tokens in a tree give the names and the lines that errors point at.
-/
import Lox.Token.Basic

namespace Lox

/-- The number of an expression that uses a variable. The numbers are natural numbers and never start again; a counter of 32
bits gives the same ones as long as there are fewer than `2 ^ 32` uses. Where it matters that a number has 32 bits, this bound
is asked for. -/
abbrev UseId := Nat

/-- An expression. -/
inductive Expr
  | literal (value : Literal)
  | unary (operator : Token) (operand : Expr)
  | binary (operator : Token) (left right : Expr)
  /-- `and` and `or`, which may leave their right side alone. -/
  | logical (operator : Token) (left right : Expr)
  | group (inner : Expr)
  | ref (id : UseId) (name : Token)
  | assign (id : UseId) (name : Token) (value : Expr)
  /-- A call, with the parenthesis that closes its arguments. -/
  | call (callee : Expr) (paren : Token) (arguments : List Expr)
  | get (object : Expr) (name : Token)
  | set (object : Expr) (name : Token) (value : Expr)
  /-- The word `this`. -/
  | self (id : UseId) (keyword : Token)
  /-- A method taken from the superclass. -/
  | super (id : UseId) (keyword method : Token)
  deriving BEq, Inhabited

/-- A named piece of code with parameters: a function or a method. Its statements are of type `σ`. -/
structure Routine (σ : Type) where
  name : Token
  parameters : List Token
  body : List σ
  deriving BEq, Inhabited

/-- A statement. -/
inductive Stmt
  | expression (e : Expr)
  | print (e : Expr)
  | varDecl (name : Token) (initial : Option Expr)
  | block (body : List Stmt)
  | ifElse (condition : Expr) (yes : Stmt) (no : Option Stmt)
  | whileDo (condition : Expr) (body : Stmt)
  | funDecl (routine : Routine Stmt)
  | ret (keyword : Token) (value : Option Expr)
  | classDecl (name : Token) (superclass : Option Expr) (methods : List (Routine Stmt))
  deriving Inhabited

/-! ## Names with a meaning of their own -/

/-- The name under which a method finds its instance. -/
def thisName : String := "this"

/-- The name under which a method finds its superclass. -/
def superName : String := "super"

/-- The name of the method that sets up a new instance. -/
def initializerName : String := "init"

/-- Whether a routine, declared as a method, sets up new instances. -/
def Routine.isInitializer (r : Routine Stmt) : Bool := r.name.lexeme == initializerName

end Lox
