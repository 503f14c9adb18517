/-
Several programs one after another on one machine: global variables and printed text stay, also when a
program fails.
-/
import Lox.Program

namespace Lox

/-- What a program of a session printed, what it failed with, and the machine after it. -/
structure Stage where
  printed : ByteArray
  failure : Option Failure
  after : Machine

/-- Runs one more program on a machine. -/
def Machine.stage (place : UseId → Place) (fuel : Nat) (statements : List Stmt) (m : Machine) :
    Option Stage :=
  let before := m.sink.written.size
  (m.interpret place fuel statements).map fun (m, failure) =>
    ⟨m.sink.written.extract before m.sink.written.size, failure, m⟩

/-- Runs programs one after another, each within `fuel` steps. -/
def Machine.stages (place : UseId → Place) (fuel : Nat) : List (List Stmt) → Machine → Option (List Stage)
  | [], _ => some []
  | statements :: rest, m => do
    let stage ← m.stage place fuel statements
    let later ← stages place fuel rest stage.after
    return stage :: later

end Lox
