/-
The two commands, from the contents of a file to what is written and the status: one lists the tokens of a
program, the other runs it.
-/
import Lox.Program
import Lox.Token.Data

namespace Lox.CommandLine

/-- What a command does. -/
inductive Command
  /-- Lists the tokens, on lines or as data. -/
  | tokenize (asData : Bool)
  | run
  deriving DecidableEq, Repr

/-- What a command writes to its two outputs, and its status. -/
structure Report where
  output : ByteArray
  errors : String
  status : Nat

/-- Why a file gives no program. -/
inductive FileFault
  | missing
  | notText
  deriving DecidableEq, Repr

/-! ## Files -/

/-- What was tried with a file, and what went wrong. -/
def FileFault.message : FileFault → String × String
  | missing => ("open", "No such file or directory (os error 2)")
  | notText => ("read", "stream did not contain valid UTF-8")

/-- The report of a file that gives no program. -/
def FileFault.report (fault : FileFault) (file : String) : Report :=
  let (attempt, cause) := fault.message
  { output := .empty
    errors :=
      "Error: Failed to " ++ attempt ++ " file " ++ Text.describe file ++ "\n\nCaused by:\n    " ++
        cause ++ "\n"
    status := 1 }

/-- The text of a file, of which the bytes are given if there is such a file. -/
def readSource (contents : Option ByteArray) : Except FileFault String :=
  match contents with
  | none => .error .missing
  | some bytes =>
    match String.fromUTF8? bytes with
    | some source => .ok source
    | none => .error .notText

/-! ## Commands -/

/-- Lines of text. -/
def lines (texts : List String) : String := String.join (texts.map (· ++ "\n"))

/-- Lists the tokens of a text. -/
def tokenize (asData : Bool) (source : String) : Report :=
  let scanned := scan source
  let output :=
    if asData then Token.dataArray scanned.tokens ++ "\n" else lines (scanned.tokens.map Token.listing)
  { output := output.toUTF8
    errors := lines (scanned.errors.map fun e => (Diagnostic.lexical e).render)
    status := if scanned.errors.isEmpty then 0 else 65 }

/-- The report of a program that has ended. -/
def ofOutcome (outcome : Outcome) : Report :=
  { output := outcome.printed
    errors :=
      match outcome.ending with
      | .success => ""
      | ending => ending.report ++ "\n"
    status := outcome.ending.exitCode }

/-- Carries out a command on the contents of a file, if the program ends within `fuel` steps. -/
def perform (fuel : Nat) (command : Command) (file : String) (contents : Option ByteArray) :
    Option Report :=
  match readSource contents with
  | .error fault => some (fault.report file)
  | .ok source =>
    match command with
    | .tokenize asData => some (tokenize asData source)
    | .run => (runSource fuel source .unlimited).map ofOutcome

/-- The command and the file that the arguments of a command line name. -/
def parse? (arguments : List String) : Option (Command × String) :=
  match arguments with
  | ["tokenize", "--json", file] => some (.tokenize true, file)
  | ["tokenize", file, "--json"] => some (.tokenize true, file)
  | ["tokenize", file] => some (.tokenize false, file)
  | ["run", file] => some (.run, file)
  | _ => none

end Lox.CommandLine
