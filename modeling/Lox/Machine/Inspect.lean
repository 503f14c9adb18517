/-
Descriptions of functions, classes and instances that show more than their printed text.
-/
import Lox.Machine.Store
import Lox.Text.Quoted

namespace Lox.Store

/-- A record of named fields. -/
def recordText (name : String) (fields : List (String × String)) : String :=
  name ++ " \x7b " ++ String.intercalate ", " (fields.map fun (field, text) => field ++ ": " ++ text) ++
    " \x7d"

/-- The description of a function. -/
def describeClosure (s : Store) (id : ClosureId) : String :=
  match s.closures[id]? with
  | none => ""
  | some closure =>
    recordText "LoxFunction"
      [("name", Text.describe closure.routine.name.lexeme), ("arity", toString closure.arity),
        ("is_initializer", if closure.initializer then "true" else "false")]

/-- The names of an instance's fields in alphabetical order. -/
def fieldNames (object : Instance) : List String :=
  object.fields.names.mergeSort fun a b => decide (a ≤ b)

/-- The description of an instance. -/
def describeInstance (s : Store) (id : InstanceId) : String :=
  match s.instances[id]? with
  | none => ""
  | some object =>
    recordText "LoxInstance"
      [("class", Text.describe (s.className object.cls)),
        ("fields", "[" ++ String.intercalate ", " ((fieldNames object).map Text.describe) ++ "]")]

end Lox.Store
