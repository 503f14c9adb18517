/-
The grammar of expressions. The binary operators stand in a table of levels, loosest first; below them come
the signs, then calls and properties, then the primary expressions. A rule that contains an expression inside
itself takes the rule for it as an argument, and `expression` ties the knot: its number bounds how deep
expressions nest, and the tokens that are left are always enough, for nothing nests without taking a token.
-/
import Lox.Grammar.Cursor

namespace Lox

/-- A level of left-associative operators. -/
structure Level where
  operators : List Kind
  build : Token → Expr → Expr → Expr

/-- The levels of binary operators, from the loosest to the tightest. -/
def levels : List Level :=
  [⟨[.orWord], .logical⟩, ⟨[.andWord], .logical⟩, ⟨[.bangEqual, .equalEqual], .binary⟩,
    ⟨[.greater, .greaterEqual, .less, .lessEqual], .binary⟩, ⟨[.minus, .plus], .binary⟩,
    ⟨[.star, .slash], .binary⟩]

/-- The operators that stand before their operand. -/
def signs : List Kind := [.bang, .minus]

namespace Rule

/-! ## Primary expressions, calls and properties -/

/-- A constant, a variable, `this`, a method of the superclass, or an expression in parentheses. -/
def primary (inner : Rule Expr) : Rule Expr := do
  let t ← peek
  match t.kind with
  | .falseWord =>
    advance
    return .literal (.bool false)
  | .trueWord =>
    advance
    return .literal (.bool true)
  | .nilWord =>
    advance
    return .literal .nil
  | .number | .string =>
    advance
    match t.literal with
    | some value => return .literal value
    | none => throw ⟨.missingExpression, t⟩
  | .superWord =>
    advance
    let _ ← expect .superDot
    let method ← expect .superMethodName
    return .super (← newUse) t method
  | .thisWord =>
    advance
    return .self (← newUse) t
  | .identifier =>
    advance
    return .ref (← newUse) t
  | .leftParen =>
    advance
    let e ← inner
    let _ ← expect .groupEnd
    return .group e
  | _ => stop .missingExpression

/-- The arguments of a call, after its opening parenthesis. -/
def arguments (fuel : Nat) (inner : Rule Expr) : Rule (List Expr) := do
  if ← check .rightParen then return [] else entries .tooManyArguments inner fuel []

/-- The calls and properties that follow an expression, at most `fuel` of them. -/
def suffixes (inner : Rule Expr) : Nat → Expr → Rule Expr
  | 0, e => return e
  | fuel + 1, e => do
    if ← accept .leftParen then
      let values ← arguments (fuel + 1) inner
      let paren ← expect .argumentsEnd
      suffixes inner fuel (.call e paren values)
    else if ← accept .dot then
      let name ← expect .propertyName
      suffixes inner fuel (.get e name)
    else return e

/-- A primary expression with its calls and properties. -/
def call (fuel : Nat) (inner : Rule Expr) : Rule Expr := do
  suffixes inner fuel (← primary inner)

/-! ## Operators -/

/-- The signs that come next, before those already read, the last first. -/
def leadingSigns : Nat → List Token → Rule (List Token)
  | 0, found => return found
  | fuel + 1, found => do
    match ← acceptAny? signs with
    | some sign => leadingSigns fuel (sign :: found)
    | none => return found

/-- An operand with the signs before it; the sign nearest to the operand applies first. -/
def signed (fuel : Nat) (inner : Rule Expr) : Rule Expr := do
  let found ← leadingSigns fuel []
  let operand ← call fuel inner
  return found.foldl (fun e sign => .unary sign e) operand

/-- The operators of a level that follow `left`, each with its right operand. -/
def chain (level : Level) (operand : Rule Expr) : Nat → Expr → Rule Expr
  | 0, left => return left
  | fuel + 1, left => do
    match ← acceptAny? level.operators with
    | some operator => chain level operand fuel (level.build operator left (← operand))
    | none => return left

/-- Operands of the next level, with the operators of this level between them. -/
def leftAssociative (fuel : Nat) (level : Level) (operand : Rule Expr) : Rule Expr := do
  chain level operand fuel (← operand)

/-- An expression without an assignment at its top. -/
def operation (fuel : Nat) (inner : Rule Expr) : Rule Expr :=
  levels.foldr (leftAssociative fuel) (signed fuel inner)

/-- An operation, or an assignment to the variable or property that an operation turns out to be. -/
def assignment (fuel : Nat) (inner : Rule Expr) : Rule Expr := do
  let target ← operation fuel inner
  match ← acceptAny? [.equal] with
  | none => return target
  | some equals =>
    let value ← inner
    match target with
    | .ref _ name => return .assign (← newUse) name value
    | .get object name => return .set object name value
    | _ =>
      record .invalidTarget equals
      return target

/-- An expression that nests less than `fuel` deep, read from at most `fuel` tokens. -/
def expression : Nat → Rule Expr
  | 0 => stop .missingExpression
  | fuel + 1 => assignment (fuel + 1) (expression fuel)

end Rule

end Lox
