/-
Reading tokens. A cursor holds the tokens that are left, the one taken last, the number of the next use of a
variable and the errors found so far; a rule of the grammar takes tokens from it and gives a tree or an
error. What a failed rule has taken, numbered and recorded stays so.
-/
import Lox.Grammar.Fault
import Lox.Tree.Basic

namespace Lox

/-- A place in a token list, with what has been collected on the way to it. -/
structure Cursor where
  rest : List Token
  previous : Token
  nextUse : UseId
  errors : Array SyntaxError

namespace Cursor

/-- The start of a token list. -/
def start (tokens : List Token) : Cursor := ⟨tokens, .missing, 0, #[]⟩

/-- The next token; after the last there is always an end token. -/
def peek (c : Cursor) : Token := c.rest.headD .missing

/-- Whether the next token ends the program. -/
def atEnd (c : Cursor) : Bool := c.peek.kind == .endOfInput

/-- Whether the next token is of a kind; the end is of none. -/
def check (c : Cursor) (kind : Kind) : Bool := !c.atEnd && c.peek.kind == kind

/-- Takes the next token, unless it ends the program. -/
def advance (c : Cursor) : Cursor :=
  if c.atEnd then c else { c with rest := c.rest.tail, previous := c.peek }

/-- Adds an error to those found. -/
def record (c : Cursor) (e : SyntaxError) : Cursor := { c with errors := c.errors.push e }

/-! ## Recovery -/

/-- The words that start a statement. -/
def startsStatement : Kind → Bool
  | .classWord | .funWord | .varWord | .forWord | .ifWord | .whileWord | .printWord | .returnWord => true
  | _ => false

/-- Whether the cursor stands after a semicolon or before a word that starts a statement. -/
def atBoundary (c : Cursor) : Bool :=
  c.previous.kind == .semicolon || startsStatement c.peek.kind

/-- Takes tokens up to a boundary or the end, at most `fuel` of them. -/
def skipToBoundary : Nat → Cursor → Cursor
  | 0, c => c
  | fuel + 1, c => if c.atEnd || c.atBoundary then c else skipToBoundary fuel c.advance

/-- Takes the token at which an error was found, whatever it is, and then what comes before the next boundary. -/
def recover (c : Cursor) : Cursor :=
  let c := c.advance
  skipToBoundary c.rest.length c

end Cursor

/-! ## Rules -/

/-- A rule of the grammar: it moves a cursor and gives a result or stops with an error. -/
abbrev Rule (α : Type) := ExceptT SyntaxError (StateM Cursor) α

namespace Rule

/-- The next token, which stays. -/
def peek : Rule Token := return (← get).peek

/-- Whether the next token is of a kind. -/
def check (kind : Kind) : Rule Bool := return (← get).check kind

/-- Takes the next token. -/
def advance : Rule Unit := modify Cursor.advance

/-- Stops at the next token. -/
def stop {α : Type} (fault : SyntaxFault) : Rule α := do throw ⟨fault, ← peek⟩

/-- Records an error and goes on. -/
def record (fault : SyntaxFault) (site : Token) : Rule Unit := modify (·.record ⟨fault, site⟩)

/-- Takes the next token if it is of one of the kinds. -/
def acceptAny? (kinds : List Kind) : Rule (Option Token) := do
  let c ← get
  if kinds.any c.check then
    advance
    return some c.peek
  else return none

/-- Takes the next token if it is of this kind, and says whether it was. -/
def accept (kind : Kind) : Rule Bool := do
  if ← check kind then
    advance
    return true
  else return false

/-- Takes the next token if it is the expected one, and stops there if it is not. -/
def expect (expected : Expectation) : Rule Token := do
  let c ← get
  if c.check expected.kind then
    advance
    return c.peek
  else stop (.missing expected)

/-- Sets aside the numbers of this many uses of variables and gives the first. -/
def newUses (count : Nat) : Rule UseId :=
  modifyGet fun c => (c.nextUse, { c with nextUse := c.nextUse + count })

/-- The number of a new use of a variable. -/
def newUse : Rule UseId := newUses 1

/--
Entries with commas between them, after those already read, which are in reverse. Each entry beyond the limit
is recorded as a fault and read all the same. There are at most `fuel` more.
-/
def entries {α : Type} (tooMany : SyntaxFault) (entry : Rule α) : Nat → List α → Rule (List α)
  | 0, found => return found.reverse
  | fuel + 1, found => do
    if arityLimit ≤ found.length then record tooMany (← peek)
    let found := (← entry) :: found
    if ← accept .comma then entries tooMany entry fuel found else return found.reverse

end Rule

end Lox
