/-
Tokens: the kinds of lexeme of the language with their names and spellings, the constants a token can
carry, and the token itself, which remembers its lexeme and its line.
-/
import Lox.Number.Text

namespace Lox

/-! ## Kinds -/

/-- The kinds of token. -/
inductive Kind
  | leftParen
  | rightParen
  | leftBrace
  | rightBrace
  | comma
  | dot
  | minus
  | plus
  | semicolon
  | slash
  | star
  | bang
  | bangEqual
  | equal
  | equalEqual
  | greater
  | greaterEqual
  | less
  | lessEqual
  | identifier
  | string
  | number
  | andWord
  | classWord
  | elseWord
  | falseWord
  | funWord
  | forWord
  | ifWord
  | nilWord
  | orWord
  | printWord
  | returnWord
  | superWord
  | thisWord
  | trueWord
  | varWord
  | whileWord
  | endOfInput
  deriving DecidableEq, Repr, Inhabited

namespace Kind

/-- Every kind, once. -/
def all : List Kind :=
  [leftParen, rightParen, leftBrace, rightBrace, comma, dot, minus, plus, semicolon, slash, star, bang,
    bangEqual, equal, equalEqual, greater, greaterEqual, less, lessEqual, identifier, string, number,
    andWord, classWord, elseWord, falseWord, funWord, forWord, ifWord, nilWord, orWord, printWord,
    returnWord, superWord, thisWord, trueWord, varWord, whileWord, endOfInput]

/-- The name of a kind in listings of tokens. -/
def name : Kind → String
  | leftParen => "LEFT_PAREN"
  | rightParen => "RIGHT_PAREN"
  | leftBrace => "LEFT_BRACE"
  | rightBrace => "RIGHT_BRACE"
  | comma => "COMMA"
  | dot => "DOT"
  | minus => "MINUS"
  | plus => "PLUS"
  | semicolon => "SEMICOLON"
  | slash => "SLASH"
  | star => "STAR"
  | bang => "BANG"
  | bangEqual => "BANG_EQUAL"
  | equal => "EQUAL"
  | equalEqual => "EQUAL_EQUAL"
  | greater => "GREATER"
  | greaterEqual => "GREATER_EQUAL"
  | less => "LESS"
  | lessEqual => "LESS_EQUAL"
  | identifier => "IDENTIFIER"
  | string => "STRING"
  | number => "NUMBER"
  | andWord => "AND"
  | classWord => "CLASS"
  | elseWord => "ELSE"
  | falseWord => "FALSE"
  | funWord => "FUN"
  | forWord => "FOR"
  | ifWord => "IF"
  | nilWord => "NIL"
  | orWord => "OR"
  | printWord => "PRINT"
  | returnWord => "RETURN"
  | superWord => "SUPER"
  | thisWord => "THIS"
  | trueWord => "TRUE"
  | varWord => "VAR"
  | whileWord => "WHILE"
  | endOfInput => "EOF"

/-- The kind of a name, if it is the name of one. -/
def ofName? (text : String) : Option Kind := all.find? (·.name == text)

/-- The reserved words with their kinds. -/
def reserved : List (String × Kind) :=
  [("and", andWord), ("class", classWord), ("else", elseWord), ("false", falseWord), ("fun", funWord),
    ("for", forWord), ("if", ifWord), ("nil", nilWord), ("or", orWord), ("print", printWord),
    ("return", returnWord), ("super", superWord), ("this", thisWord), ("true", trueWord),
    ("var", varWord), ("while", whileWord)]

/-- The kind of a whole word: a reserved word has its own, and every other word is an identifier. -/
def ofWord (text : String) : Kind := (reserved.lookup text).getD identifier

end Kind

/-! ## Constants -/

/-- A constant written in a program. -/
inductive Literal
  | nil
  | bool (b : Bool)
  | number (x : Float)
  | string (s : String)
  deriving DecidableEq, Inhabited

/-! ## Tokens -/

/-- A token: its kind, the text it was written with, its constant if it has one, and the line it ends on. -/
structure Token where
  kind : Kind
  lexeme : String
  literal : Option Literal
  line : Nat
  deriving DecidableEq, Inhabited

namespace Token

/-- The token that ends a program whose last line is `line`. -/
def endAt (line : Nat) : Token := ⟨.endOfInput, "", none, line⟩

/-- Stands for what follows a list of tokens that has no end token; it is on no line. -/
def missing : Token := endAt 0

/-- The text of a token's constant in a listing; `null` where there is none. -/
def literalText : Option Literal → String
  | none => "null"
  | some .nil => "nil"
  | some (.bool b) => if b then "true" else "false"
  | some (.number x) => Number.tokenText x
  | some (.string s) => s

/-- A token's line in a listing: its kind, lexeme and constant. -/
def listing (t : Token) : String := t.kind.name ++ " " ++ t.lexeme ++ " " ++ literalText t.literal

end Token

end Lox
