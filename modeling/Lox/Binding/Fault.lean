/-
The rules on names and on places of words that a program can break, and the wording of each breach.
-/
import Lox.Token.Basic

namespace Lox

/-- A rule that a program breaks at a token. -/
inductive BindingFault
  | returnAtTop
  | valueFromInitializer
  | inheritsFromItself
  | usedInOwnInitializer
  | thisOutsideClass
  | superOutsideClass
  | superWithoutSuperclass
  | declaredTwice
  deriving DecidableEq, Repr

/-- The wording of a breach. -/
def BindingFault.message : BindingFault → String
  | returnAtTop => "Can't return from top-level code."
  | valueFromInitializer => "Can't return a value from an initializer."
  | inheritsFromItself => "A class can't inherit from itself."
  | usedInOwnInitializer => "Can't read local variable in its own initializer."
  | thisOutsideClass => "Can't use 'this' outside of a class."
  | superOutsideClass => "Can't use 'super' outside of a class."
  | superWithoutSuperclass => "Can't use 'super' in a class with no superclass."
  | declaredTwice => "Already a variable with this name in this scope."

/-- A breach and the token at which it was found. -/
structure BindingError where
  fault : BindingFault
  site : Token
  deriving DecidableEq

end Lox
