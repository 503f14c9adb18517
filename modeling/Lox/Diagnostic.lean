/-
Errors as they are reported: what is wrong, on which line, and at which lexeme.
-/
import Lox.Binding.Fault
import Lox.Grammar.Fault
import Lox.Machine.Fault
import Lox.Token.Stream

namespace Lox

/-- Anything that can be reported about a program. -/
inductive Diagnostic
  | lexical (e : LexicalError)
  | grammar (e : SyntaxError)
  | binding (e : BindingError)
  | runtime (e : RuntimeError)
  | sink (fault : SinkFault)
  deriving DecidableEq

/-- Where a token is, as it is named in a report. -/
def Token.location (t : Token) : String :=
  if t.kind = .endOfInput then " at end" else " at '" ++ t.lexeme ++ "'"

namespace Diagnostic

/-- The report of what stopped a program. -/
def ofFailure : Failure → Diagnostic
  | .runtime e => runtime e
  | .sink fault => sink fault

/-- The line that a report points at; a loss of output points at none. -/
def line? : Diagnostic → Option Nat
  | lexical e => some e.line
  | grammar e => some e.site.line
  | binding e => some e.site.line
  | runtime e => some e.site.line
  | sink _ => none

/-- What is wrong, without a place. -/
def bare : Diagnostic → String
  | lexical e => e.fault.message
  | grammar e => e.fault.message
  | binding e => e.fault.message
  | runtime e => e.fault.message
  | sink fault => fault.message

/-- A report that starts with its line. -/
def lineFirst (line : Nat) (location message : String) : String :=
  "[line " ++ toString line ++ "] Error" ++ location ++ ": " ++ message

/-- The whole report. -/
def render (d : Diagnostic) : String :=
  match d with
  | lexical e => lineFirst e.line "" d.bare
  | grammar e => lineFirst e.site.line e.site.location d.bare
  | binding e => lineFirst e.site.line e.site.location d.bare
  | runtime e => d.bare ++ "\n[line " ++ toString e.site.line ++ "]"
  | sink _ => d.bare

end Diagnostic

end Lox
