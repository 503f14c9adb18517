/-
The grammar of statements and declarations. As with expressions, a rule takes the rules for what it contains
as arguments, and `statement` ties the knot. An error inside a declaration ends it; the declaration is
dropped and reading goes on at the next boundary.
-/
import Lox.Grammar.Expression
import Lox.Grammar.ForLoop

namespace Lox

/-- A rule that never stops: it gives its result whatever the tokens are. -/
abbrev SureRule (α : Type) := StateM Cursor α

namespace Rule

/-- Runs a rule; an error is recorded, what it left unread is skipped up to a boundary, and nothing is given. -/
def recovering {α : Type} (rule : Rule α) : SureRule (Option α) := do
  match ← rule.run with
  | .ok x => return some x
  | .error e =>
    modify fun c => (c.record e).recover
    return none

/-! ## Sequences -/

/-- The results of a rule, one after another up to a cursor where `done` holds, after those already found. -/
def sequence {α : Type} (done : Cursor → Bool) (rule : SureRule (Option α)) :
    Nat → List α → SureRule (List α)
  | 0, found => return found.reverse
  | fuel + 1, found => do
    if done (← get) then return found.reverse
    else
      match ← rule with
      | some x => sequence done rule fuel (x :: found)
      | none => sequence done rule fuel found

/-- Whether a body in braces has nothing more to read. -/
def bodyDone (c : Cursor) : Bool := c.check .rightBrace || c.atEnd

/-- The statements of a block, after its opening brace. -/
def block (fuel : Nat) (declaration : SureRule (Option Stmt)) : Rule (List Stmt) := do
  let body ← (sequence bodyDone declaration fuel [] : SureRule (List Stmt))
  let _ ← expect .blockEnd
  return body

/-! ## Declarations -/

/-- The parameters of a routine, after the opening parenthesis. -/
def parameters (fuel : Nat) : Rule (List Token) := do
  if ← check .rightParen then return []
  else entries .tooManyParameters (expect .parameterName) fuel []

/-- A function after the word `fun`, or a method. -/
def routine (role : Role) (fuel : Nat) (declaration : SureRule (Option Stmt)) : Rule (Routine Stmt) := do
  let name ← expect (.routineName role)
  let _ ← expect (.parameterList role)
  let params ← parameters fuel
  let _ ← expect .parametersEnd
  let _ ← expect (.routineBody role)
  return ⟨name, params, ← block fuel declaration⟩

/-- The methods of a class, up to its closing brace, after those already found. -/
def methods (method : Rule (Routine Stmt)) : Nat → List (Routine Stmt) → Rule (List (Routine Stmt))
  | 0, found => return found.reverse
  | fuel + 1, found => do
    if bodyDone (← get) then return found.reverse
    else methods method fuel ((← method) :: found)

/-- The superclass that a class names after `<`. -/
def superclass? : Rule (Option Expr) := do
  if ← accept .less then
    let name ← expect .superclassName
    return some (.ref (← newUse) name)
  else return none

/-- A class, after the word `class`. -/
def classDeclaration (fuel : Nat) (declaration : SureRule (Option Stmt)) : Rule Stmt := do
  let name ← expect .className
  let superclass ← superclass?
  let _ ← expect .classBody
  let found ← methods (routine .method fuel declaration) fuel []
  let _ ← expect .classEnd
  return .classDecl name superclass found

/-- The expression after an equals sign, if there is one. -/
def initializer? (expression : Rule Expr) : Rule (Option Expr) := do
  if ← accept .equal then return some (← expression) else return none

/-- A variable, after the word `var`. -/
def varDeclaration (expression : Rule Expr) : Rule Stmt := do
  let name ← expect .variableName
  let initial ← initializer? expression
  let _ ← expect .variableEnd
  return .varDecl name initial

/-! ## Statements -/

/-- An expression with the token that has to end it. -/
def ended (expression : Rule Expr) (close : Expectation) : Rule Expr := do
  let e ← expression
  let _ ← expect close
  return e

/-- An expression, or nothing if a token of this kind is next. -/
def unless? (kind : Kind) (expression : Rule Expr) : Rule (Option Expr) := do
  if ← check kind then return none else return some (← expression)

/-- The first clause of a `for` loop with its semicolon. -/
def forStart (expression : Rule Expr) : Rule (Option Stmt) := do
  if ← accept .semicolon then return none
  else if ← accept .varWord then return some (← varDeclaration expression)
  else return some (.expression (← ended expression .expressionEnd))

/-- The body of a `for` loop that starts with `first`, with a binding for every pass if that is a variable. -/
def forBody (first : Option Stmt) (body : Stmt) : Rule Stmt := do
  match first with
  | some (.varDecl name _) => return ForLoop.pass (← newUses ForLoop.usesPerPass) name body
  | _ => return body

/-- A `for` loop, after its first word. -/
def forStatement (expression : Rule Expr) (statement : Rule Stmt) : Rule Stmt := do
  let _ ← expect .forClauses
  let first ← forStart expression
  let condition ← unless? .semicolon expression
  let _ ← expect .forConditionEnd
  let increment ← unless? .rightParen expression
  let _ ← expect .forClausesEnd
  let body ← forBody first (← statement)
  return ForLoop.whole first condition (ForLoop.withIncrement increment body)

/-- The part after `else`, if there is one. -/
def elseBranch? (statement : Rule Stmt) : Rule (Option Stmt) := do
  if ← accept .elseWord then return some (← statement) else return none

/-- A choice, after the word `if`. -/
def ifStatement (expression : Rule Expr) (statement : Rule Stmt) : Rule Stmt := do
  let _ ← expect .ifCondition
  let condition ← ended expression .ifConditionEnd
  let yes ← statement
  return .ifElse condition yes (← elseBranch? statement)

/-- A loop, after the word `while`. -/
def whileStatement (expression : Rule Expr) (statement : Rule Stmt) : Rule Stmt := do
  let _ ← expect .whileCondition
  let condition ← ended expression .whileConditionEnd
  return .whileDo condition (← statement)

/-- A return, after its word `keyword`. -/
def returnStatement (keyword : Token) (expression : Rule Expr) : Rule Stmt := do
  let value ← unless? .semicolon expression
  let _ ← expect .returnEnd
  return .ret keyword value

/-- A statement, by its first token; what starts with no word of a statement is an expression. -/
def statementWith (fuel : Nat) (expression : Rule Expr) (statement : Rule Stmt)
    (declaration : SureRule (Option Stmt)) : Rule Stmt := do
  let t ← peek
  match t.kind with
  | .forWord =>
    advance
    forStatement expression statement
  | .ifWord =>
    advance
    ifStatement expression statement
  | .printWord =>
    advance
    return .print (← ended expression .printEnd)
  | .returnWord =>
    advance
    returnStatement t expression
  | .whileWord =>
    advance
    whileStatement expression statement
  | .leftBrace =>
    advance
    return .block (← block fuel declaration)
  | _ => return .expression (← ended expression .expressionEnd)

/-- A declaration, by its first token; what declares nothing is a statement. -/
def declarationWith (fuel : Nat) (expression : Rule Expr) (statement : Rule Stmt)
    (declaration : SureRule (Option Stmt)) : Rule Stmt := do
  match (← peek).kind with
  | .classWord =>
    advance
    classDeclaration fuel declaration
  | .funWord =>
    advance
    return .funDecl (← routine .function fuel declaration)
  | .varWord =>
    advance
    varDeclaration expression
  | _ => statement

mutual

/-- A statement that nests less than `fuel` deep, read from at most `fuel` tokens. -/
def statement : Nat → Rule Stmt
  | 0 => stop .missingExpression
  | fuel + 1 => statementWith (fuel + 1) (expression (fuel + 1)) (statement fuel) (declaration fuel)

/-- A declaration or statement; it gives nothing if there is an error in it. -/
def declaration : Nat → SureRule (Option Stmt)
  | 0 => recovering (stop .missingExpression)
  | fuel + 1 =>
    recovering
      (declarationWith (fuel + 1) (expression (fuel + 1))
        (statementWith (fuel + 1) (expression (fuel + 1)) (statement fuel) (declaration fuel))
        (declaration fuel))

end

end Rule

end Lox
