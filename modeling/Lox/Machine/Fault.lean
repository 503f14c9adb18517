/-
What can stop a running program, and the wording of each reason.
-/
import Lox.Token.Basic

namespace Lox

/-- A reason for which a program stops at a token. -/
inductive RuntimeFault
  | undefinedVariable (name : String)
  | undefinedProperty (name : String)
  | operandNotNumber
  | operandsNotNumbers
  | operandsNotAddable
  | unknownOperator (lexeme : String)
  | notCallable
  | wrongArgumentCount (expected given : Nat)
  | stackOverflow
  | superclassNotClass
  | noProperties
  | noFields
  | superOutsideClass
  deriving DecidableEq, Repr

/-- The wording of a reason. -/
def RuntimeFault.message : RuntimeFault → String
  | undefinedVariable name => "Undefined variable '" ++ name ++ "'."
  | undefinedProperty name => "Undefined property '" ++ name ++ "'."
  | operandNotNumber => "Operand must be a number."
  | operandsNotNumbers => "Operands must be numbers."
  | operandsNotAddable => "Operands must be two numbers or two strings."
  | unknownOperator lexeme => "Unknown operator '" ++ lexeme ++ "'."
  | notCallable => "Can only call functions and classes."
  | wrongArgumentCount expected given =>
    "Expected " ++ toString expected ++ " arguments but got " ++ toString given ++ "."
  | stackOverflow => "Stack overflow."
  | superclassNotClass => "Superclass must be a class."
  | noProperties => "Only instances have properties."
  | noFields => "Only instances have fields."
  | superOutsideClass => "Can't use 'super' outside of a class."

/-- A reason and the token at which the program stopped. -/
structure RuntimeError where
  fault : RuntimeFault
  site : Token
  deriving DecidableEq

/-- A reason for which output is lost. -/
inductive SinkFault
  | full
  | flushRefused
  deriving DecidableEq, Repr

/-- The wording of a loss of output. -/
def SinkFault.message : SinkFault → String
  | full => "sink full"
  | flushRefused => "flush refused"

/-- What stopped a program. -/
inductive Failure
  | runtime (e : RuntimeError)
  | sink (fault : SinkFault)
  deriving DecidableEq

end Lox
