/-
Operators on values. Arithmetic is that of doubles, so that dividing by zero is no fault.
-/
import Lox.Machine.Fault
import Lox.Machine.Value

namespace Lox.Operator

/-- A number computed from two numbers. -/
def arithmetic (f : Float → Float → Float) : Value → Value → Except RuntimeFault Value
  | .number a, .number b => .ok (.number (f a b))
  | _, _ => .error .operandsNotNumbers

/-- A comparison of two numbers. -/
def comparison (f : Float → Float → Bool) : Value → Value → Except RuntimeFault Value
  | .number a, .number b => .ok (.bool (f a b))
  | _, _ => .error .operandsNotNumbers

/-- The sum of two numbers or the two strings one after the other. -/
def add : Value → Value → Except RuntimeFault Value
  | .number a, .number b => .ok (.number (a + b))
  | .string a, .string b => .ok (.string (a ++ b))
  | _, _ => .error .operandsNotAddable

/-- The value of an operator between two values. -/
def binary (operator : Token) (left right : Value) : Except RuntimeFault Value :=
  match operator.kind with
  | .plus => add left right
  | .minus => arithmetic (· - ·) left right
  | .star => arithmetic (· * ·) left right
  | .slash => arithmetic (· / ·) left right
  | .greater => comparison (fun a b => decide (b < a)) left right
  | .greaterEqual => comparison (fun a b => decide (b ≤ a)) left right
  | .less => comparison (fun a b => decide (a < b)) left right
  | .lessEqual => comparison (fun a b => decide (a ≤ b)) left right
  | .equalEqual => .ok (.bool (left.equals right))
  | .bangEqual => .ok (.bool (!left.equals right))
  | _ => .error (.unknownOperator operator.lexeme)

/-- The number with the other sign. -/
def negate : Value → Except RuntimeFault Value
  | .number a => .ok (.number (-a))
  | _ => .error .operandNotNumber

/-- The value of an operator before a value. -/
def unary (operator : Token) (operand : Value) : Except RuntimeFault Value :=
  match operator.kind with
  | .minus => negate operand
  | .bang => .ok (.bool (!operand.isTruthy))
  | _ => .error (.unknownOperator operator.lexeme)

/-- Whether the left side of `and` or `or` is already the answer; every operator but `or` acts as `and`. -/
def decides (operator : Token) (left : Value) : Bool :=
  if operator.kind = .orWord then left.isTruthy else !left.isTruthy

end Lox.Operator
