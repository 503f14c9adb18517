/-
Running without the table. If a program that is accepted declares the names of its local scopes before it mentions
them, then looking for every variable in the nearest scopes, from the current one outwards, gives the same run: it
prints the same and ends in the same way.
-/
import Lox.Proofs.Machine.Nearest
import Lox.Proofs.Program.Run

namespace Lox

variable {source : String} {program : Program}

/-- An accepted program with its names in order has the same outcome whether the table says where the variables are or
the nearest scopes are searched; and if it does not end within some number of steps, it does so in neither way. -/
theorem Program.nearest_agrees (accepted : Program.ofSource source = .ok program)
    (orderly : Stmt.Orderly program.statements) (fuel : Nat) (sink : Sink) :
    runStatements program.table.place fuel program.statements sink =
      runStatements Machine.nearest fuel program.statements sink := by
  have start := Machine.conforms_start program.statements sink
  have run := start.run_nearest (resolved_of_ofSource accepted) orderly fuel
  unfold runStatements Machine.interpret
  rw [show Machine.run program.table.place fuel ((Machine.initial sink).load program.statements) = _ from run]
  rfl

/-- With a function that outlives its block, and a variable in another block that hides its own. -/
theorem Program.nearest_agrees_closure :
    ∃ program,
      Program.ofSource "var f; \x7b var a; fun g() \x7b return a; \x7d f = g; \x7d \x7b var a = true; print f(); \x7d" =
        .ok program ∧ Stmt.Orderly program.statements ∧
        runStatements program.table.place 50 program.statements .unlimited =
          runStatements Machine.nearest 50 program.statements .unlimited ∧
        (runStatements Machine.nearest 50 program.statements .unlimited).isSome = true := by
  have ran : (Program.ofSource
        "var f; \x7b var a; fun g() \x7b return a; \x7d f = g; \x7d \x7b var a = true; print f(); \x7d").toOption.any
      (fun p => decide (Stmt.Orderly p.statements ∧
        (runStatements Machine.nearest 50 p.statements .unlimited).isSome = true)) = true := by decide +kernel
  obtain ⟨program, accepted, ran⟩ := Program.exists_ofSource ran
  obtain ⟨orderly, ends⟩ := of_decide_eq_true ran
  exact ⟨program, accepted, orderly, program.nearest_agrees accepted orderly 50 .unlimited, ends⟩

end Lox
