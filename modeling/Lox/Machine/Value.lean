/-
The values that a program computes with. Functions, classes and instances live in a store, and a value only
names them, so that two values of these kinds are equal exactly if they name the same thing.
-/
import Lox.Tree.Basic

namespace Lox

/-- The number of a scope in a store. -/
abbrev ScopeId := Nat

/-- The number of a function in a store. -/
abbrev ClosureId := Nat

/-- The number of a class in a store. -/
abbrev ClassId := Nat

/-- The number of an instance in a store. -/
abbrev InstanceId := Nat

/-- A value. -/
inductive Value
  | nil
  | bool (b : Bool)
  | number (x : Float)
  | string (s : String)
  | closure (id : ClosureId)
  | cls (id : ClassId)
  | object (id : InstanceId)
  deriving DecidableEq, Inhabited

namespace Value

/-- The value of a constant. -/
def ofLiteral : Literal → Value
  | .nil => nil
  | .bool b => bool b
  | .number x => number x
  | .string s => string s

/-- Whether a condition holds; only `nil` and `false` do not. -/
def isTruthy : Value → Bool
  | nil => false
  | bool b => b
  | _ => true

/-- The equality of the language. Numbers compare as numbers, so that a value need not equal itself. -/
def equals : Value → Value → Bool
  | nil, nil => true
  | bool a, bool b => a == b
  | number a, number b => a == b
  | string a, string b => a == b
  | closure a, closure b => a == b
  | cls a, cls b => a == b
  | object a, object b => a == b
  | _, _ => false

end Value

end Lox
