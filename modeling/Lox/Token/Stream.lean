/-
The tokens of a program's text. Pieces become tokens or errors, each with the line it ends on; blanks and
comments become nothing, and one end token closes the stream.
-/
import Lox.Number.Decimal
import Lox.Token.Piece

namespace Lox

/-! ## Errors -/

/-- What is wrong with a stretch of text that is no lexeme. -/
inductive LexicalFault
  | unexpectedCharacter
  | unterminatedString
  deriving DecidableEq, Repr

/-- The wording of a fault. -/
def LexicalFault.message : LexicalFault → String
  | unexpectedCharacter => "Unexpected character."
  | unterminatedString => "Unterminated string."

/-- A fault with the line on which the faulty text ends. -/
structure LexicalError where
  fault : LexicalFault
  line : Nat
  deriving DecidableEq, Repr

/-- An entry of a token stream. -/
inductive Item
  | token (t : Token)
  | error (e : LexicalError)
  deriving DecidableEq

/-! ## From pieces to tokens -/

/-- The double that a number's lexeme stands for. -/
def numberValue (text : List Char) : Float :=
  let whole := text.takeWhile Char.isDigit
  (Number.Decimal.ofDigits whole (text.drop (whole.length + 1))).toFloat

/-- The text between the quotation marks of a string's lexeme. -/
def stringValue (text : List Char) : String := String.ofList (text.drop 1).dropLast

/-- The constant that a lexeme carries; only numbers and strings carry one. -/
def lexemeLiteral (kind : Kind) (text : List Char) : Option Literal :=
  match kind with
  | .number => some (.number (numberValue text))
  | .string => some (.string (stringValue text))
  | _ => none

namespace Piece

/-- How many newlines a piece covers. -/
def newlines (p : Piece) : Nat := p.text.count '\n'

/-- The stream entry of a piece that ends on `line`. -/
def item? (line : Nat) : Piece → Option Item
  | blank _ | comment _ => none
  | lexeme kind text => some (.token ⟨kind, String.ofList text, lexemeLiteral kind text, line⟩)
  | stray _ => some (.error ⟨.unexpectedCharacter, line⟩)
  | openString _ => some (.error ⟨.unterminatedString, line⟩)

end Piece

/-- The stream of pieces that start on `line`. -/
def itemsFrom (line : Nat) : List Piece → List Item
  | [] => [.token (.endAt line)]
  | p :: ps =>
    let line := line + p.newlines
    match p.item? line with
    | none => itemsFrom line ps
    | some item => item :: itemsFrom line ps

/-- The token stream of a program's text; the first line is line 1. -/
def items (source : String) : List Item := itemsFrom 1 (pieces source.toList)

/-! ## Tokens and errors apart -/

/-- The tokens of a text, ended by an end token, and its errors, each in the order of the text. -/
structure Scan where
  tokens : List Token
  errors : List LexicalError
  deriving DecidableEq

/-- Tokens and errors of a stream, apart. -/
def Scan.ofItems (stream : List Item) : Scan where
  tokens := stream.filterMap fun | .token t => some t | .error _ => none
  errors := stream.filterMap fun | .token _ => none | .error e => some e

/-- The tokens and errors of a program's text. -/
def scan (source : String) : Scan := .ofItems (items source)

end Lox
