/-
The state of a running program: what is being done just now, and a stack of frames that says what is left to
do afterwards. A frame waits either for the value of an expression or for the end of a statement.
-/
import Lox.Machine.Sink
import Lox.Machine.Store

namespace Lox

/-- How a statement ends if nothing fails. -/
inductive Completion
  | normal
  /-- A `return` was reached, with this value. -/
  | returned (v : Value)
  deriving DecidableEq, Inhabited

/-- What a machine does just now. -/
inductive Control
  /-- Starts a statement. -/
  | exec (s : Stmt)
  /-- Starts an expression. -/
  | eval (e : Expr)
  /-- Has the value of an expression. -/
  | value (v : Value)
  /-- Has come to the end of a statement. -/
  | finished (c : Completion)
  /-- Has failed. -/
  | failed (e : Failure)

/--
What is left to do when the statement or expression at hand is done. The frames from `discard` to `leave`
await the value of an expression, the others the end of a statement.
-/
inductive Frame
  /-- An expression statement drops its value. -/
  | discard
  | print
  | define (name : Token)
  | choose (yes : Stmt) (no : Option Stmt)
  /-- A loop has to decide whether it goes on. -/
  | test (condition : Expr) (body : Stmt)
  /-- A `return` awaits its value. -/
  | giveBack
  | inherit (name : Token) (superclass : Expr) (methods : List (Routine Stmt))
  | unary (operator : Token)
  /-- The left operand is awaited. -/
  | left (operator : Token) (right : Expr)
  /-- The right operand is awaited. -/
  | right (operator : Token) (left : Value)
  | logical (operator : Token) (right : Expr)
  | assign (id : UseId) (name : Token)
  | callee (paren : Token) (arguments : List Expr)
  /-- An argument is awaited; those before it have `values`, the last first. -/
  | argument (paren : Token) (callee : Value) (values : List Value) (arguments : List Expr)
  | property (name : Token)
  /-- The object of an assignment to a field is awaited. -/
  | target (name : Token) (value : Expr)
  /-- The value of an assignment to a field is awaited. -/
  | store (object : InstanceId) (name : Token)
  /-- An initializer runs for a new instance, which is the value of the call. -/
  | construct (object : InstanceId)
  /-- A call is active. -/
  | leave
  /-- Statements follow. -/
  | sequence (rest : List Stmt)
  /-- The body of a loop runs. -/
  | again (condition : Expr) (body : Stmt)
  /-- A block ends, and the scope around it is current again. -/
  | leaveScope (outer : ScopeId)
  /-- A function's body ends, and the scope of its caller is current again. -/
  | body (closure : Closure) (caller : ScopeId)

/-- The state of a running program. -/
structure Machine where
  control : Control
  frames : List Frame
  /-- The scope that is current. -/
  scope : ScopeId
  /-- How many calls are active. -/
  depth : Nat
  store : Store
  sink : Sink

namespace Machine

/-- A machine that has run nothing yet. -/
def initial (sink : Sink) : Machine := ⟨.finished .normal, [], Store.globalScope, 0, .initial, sink⟩

/-- Makes a machine run statements next. -/
def load (m : Machine) (statements : List Stmt) : Machine :=
  { m with control := .finished .normal, frames := [.sequence statements] }

/-- Whether nothing is left to do. -/
def halted (m : Machine) : Bool :=
  match m.frames, m.control with
  | [], .finished _ => true
  | [], .failed _ => true
  | _, _ => false

/-- What a machine failed with, if it did. -/
def failure? (m : Machine) : Option Failure :=
  match m.control with
  | .failed e => some e
  | _ => none

end Machine

end Lox
