/-
Reading a whole program: declarations up to the end token, or up to the end of the list if there is none.
-/
import Lox.Grammar.Statement

namespace Lox

/-- The statements read from a token list, the errors found, and how many uses of variables were numbered. -/
structure Parse where
  statements : List Stmt
  errors : List SyntaxError
  uses : Nat

/-- Declarations from a cursor to the end. -/
def Rule.program (fuel : Nat) : SureRule (List Stmt) :=
  sequence Cursor.atEnd (declaration fuel) fuel []

/-- Reads a program from its tokens. -/
def parse (tokens : List Token) : Parse :=
  let (statements, cursor) := (Rule.program tokens.length).run (.start tokens)
  ⟨statements, cursor.errors.toList, cursor.nextUse⟩

end Lox
