/-
What a token list can lack to be a program, and the wording of each lack. An expectation fixes the kind of
token that has to come next, so that a rule names what it expects and nothing else.
-/
import Lox.Token.Basic

namespace Lox

/-- Whether a routine is declared on its own or in a class. -/
inductive Role
  | function
  | method
  deriving DecidableEq, Repr

/-- The word for a role in messages. -/
def Role.word : Role → String
  | function => "function"
  | method => "method"

/-- The places of the grammar at which one kind of token has to come. -/
inductive Expectation
  | className
  | superclassName
  | classBody
  | classEnd
  | routineName (role : Role)
  | parameterList (role : Role)
  | parameterName
  | parametersEnd
  | routineBody (role : Role)
  | variableName
  | variableEnd
  | forClauses
  | forConditionEnd
  | forClausesEnd
  | ifCondition
  | ifConditionEnd
  | whileCondition
  | whileConditionEnd
  | printEnd
  | returnEnd
  | expressionEnd
  | blockEnd
  | argumentsEnd
  | propertyName
  | superDot
  | superMethodName
  | groupEnd
  deriving DecidableEq, Repr

namespace Expectation

/-- The kind of token that is expected. -/
def kind : Expectation → Kind
  | className | superclassName | routineName _ | parameterName | variableName | propertyName
  | superMethodName => .identifier
  | classBody | routineBody _ => .leftBrace
  | classEnd | blockEnd => .rightBrace
  | parameterList _ | forClauses | ifCondition | whileCondition => .leftParen
  | parametersEnd | forClausesEnd | ifConditionEnd | whileConditionEnd | argumentsEnd
  | groupEnd => .rightParen
  | variableEnd | forConditionEnd | printEnd | returnEnd | expressionEnd => .semicolon
  | superDot => .dot

/-- The wording of an expectation that is not met. -/
def message : Expectation → String
  | className => "Expect class name."
  | superclassName => "Expect superclass name."
  | classBody => "Expect '\x7b' before class body."
  | classEnd => "Expect '\x7d' after class body."
  | routineName role => "Expect " ++ role.word ++ " name."
  | parameterList role => "Expect '(' after " ++ role.word ++ " name."
  | parameterName => "Expect parameter name."
  | parametersEnd => "Expect ')' after parameters."
  | routineBody role => "Expect '\x7b' before " ++ role.word ++ " body."
  | variableName => "Expect variable name."
  | variableEnd => "Expect ';' after variable declaration."
  | forClauses => "Expect '(' after 'for'."
  | forConditionEnd => "Expect ';' after loop condition."
  | forClausesEnd => "Expect ')' after for clauses."
  | ifCondition => "Expect '(' after 'if'."
  | ifConditionEnd => "Expect ')' after if condition."
  | whileCondition => "Expect '(' after 'while'."
  | whileConditionEnd => "Expect ')' after condition."
  | printEnd => "Expect ';' after value."
  | returnEnd => "Expect ';' after return value."
  | expressionEnd => "Expect ';' after expression."
  | blockEnd => "Expect '\x7d' after block."
  | argumentsEnd => "Expect ')' after arguments."
  | propertyName => "Expect property name after '.'."
  | superDot => "Expect '.' after 'super'."
  | superMethodName => "Expect superclass method name."
  | groupEnd => "Expect ')' after expression."

end Expectation

/-- The most arguments a call can have, and the most parameters a routine can have. -/
def arityLimit : Nat := 255

/-- What is wrong at a token. -/
inductive SyntaxFault
  | missing (expected : Expectation)
  | missingExpression
  | tooManyParameters
  | tooManyArguments
  | invalidTarget
  deriving DecidableEq, Repr

/-- The wording of a fault. -/
def SyntaxFault.message : SyntaxFault → String
  | missing expected => expected.message
  | missingExpression => "Expect expression."
  | tooManyParameters => "Can't have more than " ++ toString arityLimit ++ " parameters."
  | tooManyArguments => "Can't have more than " ++ toString arityLimit ++ " arguments."
  | invalidTarget => "Invalid assignment target."

/-- A fault and the token at which it was found. -/
structure SyntaxError where
  fault : SyntaxFault
  site : Token
  deriving DecidableEq

end Lox
