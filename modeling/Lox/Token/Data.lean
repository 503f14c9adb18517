/-
Token lists as data: an array of records, one field a line, indented by two spaces a level.
-/
import Lox.Token.Basic
import Lox.Text.Quoted

namespace Lox.Token

/-- A line of the listing, indented by `level` steps. -/
def indented (level : Nat) (text : String) : String :=
  String.ofList (List.replicate (2 * level) ' ') ++ text

/-- A constant with the name of its type, on lines of its own. -/
def taggedLiteral (tag value : String) : String :=
  "\x7b\n" ++ indented 3 ("\"" ++ tag ++ "\": " ++ value) ++ "\n" ++ indented 2 "\x7d"

/-- The value of the field `literal`. -/
def dataLiteral : Option Literal → String
  | none => "null"
  | some .nil => "\"Nil\""
  | some (.bool b) => taggedLiteral "Bool" (if b then "true" else "false")
  | some (.number x) => taggedLiteral "Number" (Number.dataText x)
  | some (.string s) => taggedLiteral "Str" (Text.quote s)

/-- The record of a token. -/
def dataRecord (t : Token) : String :=
  let field (name value : String) := indented 2 ("\"" ++ name ++ "\": " ++ value)
  let fields :=
    [field "token_type" (Text.quote t.kind.name), field "lexeme" (Text.quote t.lexeme),
      field "literal" (dataLiteral t.literal), field "line" (toString t.line)]
  indented 1 "\x7b\n" ++ String.intercalate ",\n" fields ++ "\n" ++ indented 1 "\x7d"

/-- The array of the records of a token list; an empty one is on one line. -/
def dataArray (tokens : List Token) : String :=
  if tokens.isEmpty then "[]"
  else "[\n" ++ String.intercalate ",\n" (tokens.map dataRecord) ++ "\n]"

end Lox.Token
