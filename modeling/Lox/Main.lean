/-
The command line of the interpreter.
-/
import Lox.CommandLine

open Lox

/-- More steps than any run takes. -/
def stepLimit : Nat := Nat.pow 2 62

/-- The bytes of a file, if there is one. -/
def readContents (file : String) : IO (Option ByteArray) := do
  try
    return some (← IO.FS.readBinFile file)
  catch
    | .noFileOrDirectory .. => return none
    | e => throw e

/-- Writes a report and gives its status. -/
def present (report : CommandLine.Report) : IO UInt32 := do
  let output ← IO.getStdout
  output.write report.output
  output.flush
  IO.eprint report.errors
  return UInt32.ofNat report.status

/-- Carries out the command that the arguments name. -/
def main (arguments : List String) : IO UInt32 := do
  match CommandLine.parse? arguments with
  | none =>
    IO.eprintln "usage: tokenize FILE [--json] | run FILE"
    return 2
  | some (command, file) =>
    match CommandLine.perform stepLimit command file (← readContents file) with
    | some report => present report
    | none =>
      IO.eprintln "Error: too many steps"
      return 1
