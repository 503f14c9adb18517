/-
The meaning of `for` in terms of the other statements. A loop that declares a variable gives every pass a
binding of its own: the variable is copied into it by way of a slot that no program can name, and copied
back when the pass is over.
-/
import Lox.Tree.Basic

namespace Lox.ForLoop

/-- The name of the slot; it is no word of the language. -/
def slotName : String := "<for>"

/-- The token of the slot of a loop over `name`. -/
def slot (name : Token) : Token := ⟨.identifier, slotName, none, name.line⟩

/-- How many uses of variables a pass needs. -/
def usesPerPass : Nat := 6

/--
One pass of a loop over `name`, with uses numbered from `id` on: the slot takes the loop variable's value,
the body runs with a new variable that starts from the slot, and the value goes back the same way.
-/
def pass (id : UseId) (name : Token) (body : Stmt) : Stmt :=
  .block
    [.varDecl (slot name) (some (.ref (id + 3) name)),
      .block
        [.varDecl name (some (.ref id (slot name))),
          body,
          .expression (.assign (id + 2) (slot name) (.ref (id + 1) name))],
      .expression (.assign (id + 5) name (.ref (id + 4) (slot name)))]

/-- A body followed by the loop's last clause, if there is one. -/
def withIncrement (increment : Option Expr) (body : Stmt) : Stmt :=
  match increment with
  | none => body
  | some e => .block [body, .expression e]

/-- A loop with a first clause, if there is one; without a condition it goes on for ever. -/
def whole (first : Option Stmt) (condition : Option Expr) (body : Stmt) : Stmt :=
  let loop := .whileDo (condition.getD (.literal (.bool true))) body
  match first with
  | none => loop
  | some s => .block [s, loop]

end Lox.ForLoop
