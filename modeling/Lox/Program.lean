/-
Programs from their text to their outcome. A text is scanned, parsed and resolved, each only if what comes
before found no error, and then run; the parts can also be put together without regard to errors.
-/
import Lox.Binding.Walk
import Lox.Diagnostic
import Lox.Grammar.Program
import Lox.Machine.Step

namespace Lox

/-! ## Before the run -/

/-- A program that can be run. -/
structure Program where
  statements : List Stmt
  table : Table

/-- The program of a text, or the errors of the first stage that found any. -/
def Program.ofSource (source : String) : Except (List Diagnostic) Program :=
  let scanned := scan source
  if !scanned.errors.isEmpty then .error (scanned.errors.map .lexical)
  else
    let parsed := parse scanned.tokens
    if !parsed.errors.isEmpty then .error (parsed.errors.map .grammar)
    else
      let resolved := resolve parsed.statements
      if !resolved.errors.isEmpty then .error (resolved.errors.map .binding)
      else .ok ⟨parsed.statements, resolved.table⟩

/-! ## The run -/

/-- What a machine failed with in the end; a flush that is refused counts only if nothing failed before. -/
def Machine.verdict (m : Machine) : Option Failure :=
  match m.failure? with
  | some e => some e
  | none => m.sink.flushFault?.map .sink

/-- Runs statements on a machine to their end and gives the machine as it is then, with what it failed with. -/
def Machine.interpret (place : UseId → Place) (fuel : Nat) (statements : List Stmt) (m : Machine) :
    Option (Machine × Option Failure) :=
  (run place fuel (m.load statements)).map fun m => (m, m.verdict)

/-- How a program ends. -/
inductive Ending
  | success
  /-- It was not run, because of these errors. -/
  | rejected (errors : List Diagnostic)
  | failed (e : Failure)

/-- What a program has printed when it ends, and how it ends. -/
structure Outcome where
  printed : ByteArray
  ending : Ending

namespace Ending

/-- The status with which a program ends: 65 for errors before the run, 70 for a failure in it. -/
def exitCode : Ending → Nat
  | success => 0
  | rejected _ => 65
  | failed _ => 70

/-- The errors of an ending. -/
def errors : Ending → List Diagnostic
  | success => []
  | rejected errors => errors
  | failed e => [.ofFailure e]

/-- The report of an ending, one error a line. -/
def report (e : Ending) : String := String.intercalate "\n" (e.errors.map Diagnostic.render)

end Ending

/-- Runs statements from the start, if they end within `fuel` steps. -/
def runStatements (place : UseId → Place) (fuel : Nat) (statements : List Stmt) (sink : Sink) :
    Option Outcome :=
  ((Machine.initial sink).interpret place fuel statements).map fun
    | (m, none) => ⟨m.sink.written, .success⟩
    | (m, some e) => ⟨m.sink.written, .failed e⟩

/-- Runs the program of a text, if it ends within `fuel` steps. -/
def runSource (fuel : Nat) (source : String) (sink : Sink) : Option Outcome :=
  match Program.ofSource source with
  | .error errors => some ⟨sink.written, .rejected errors⟩
  | .ok program => runStatements program.table.place fuel program.statements sink

/-! ## Programs with errors -/

/-- All that can be found out about a program before it is run, errors or not. -/
structure Analysis where
  program : Program
  lexical : List LexicalError
  grammar : List SyntaxError
  binding : List BindingError

namespace Analysis

/-- Statements that were neither scanned nor parsed. -/
def ofStatements (statements : List Stmt) : Analysis :=
  let resolved := resolve statements
  ⟨⟨statements, resolved.table⟩, [], [], resolved.errors⟩

/-- Whatever statements can be read from tokens. -/
def ofTokens (tokens : List Token) : Analysis :=
  let parsed := parse tokens
  { ofStatements parsed.statements with grammar := parsed.errors }

/-- Whatever tokens can be read from a text, with or without the end token. -/
def ofSource (source : String) (keepEnd : Bool) : Analysis :=
  let scanned := scan source
  let tokens := if keepEnd then scanned.tokens else scanned.tokens.dropLast
  { ofTokens tokens with lexical := scanned.errors }

/-- The errors of the text and its tokens. -/
def sourceErrors (a : Analysis) : List Diagnostic :=
  a.lexical.map .lexical ++ a.grammar.map .grammar

/-- All errors, stage by stage. -/
def errors (a : Analysis) : List Diagnostic := a.sourceErrors ++ a.binding.map .binding

end Analysis

end Lox
