/-
Text between quotation marks. A quoted text has no bare quotation mark and no bare backslash inside, and
control characters are spelled out; two spellings are in use, one for data and one for descriptions of
values.
-/

namespace Lox.Text

/-- Text between quotation marks, each character spelled by `escape`. -/
def quoteWith (escape : Char → List Char) (text : String) : String :=
  String.ofList ('"' :: text.toList.flatMap escape ++ ['"'])

/-- The hexadecimal digits of a number, at least `width` of them. -/
def hexDigits (width n : Nat) : List Char :=
  let digits := Nat.toDigits 16 n
  List.replicate (width - digits.length) '0' ++ digits

/-- Whether a character is a control character below the space. -/
def isLowControl (c : Char) : Bool := c.toNat < 0x20

/-- Whether a character is a control character, in the low range or after the tilde. -/
def isControl (c : Char) : Bool := isLowControl c || (0x7F ≤ c.toNat && c.toNat < 0xA0)

/-- The spelling of a character in data: the short forms first, then four hexadecimal digits. -/
def dataEscape (c : Char) : List Char :=
  if c = '"' then ['\\', '"']
  else if c = '\\' then ['\\', '\\']
  else if c = '\n' then ['\\', 'n']
  else if c = '\r' then ['\\', 'r']
  else if c = '\t' then ['\\', 't']
  else if c = '\x08' then ['\\', 'b']
  else if c = '\x0c' then ['\\', 'f']
  else if isLowControl c then '\\' :: 'u' :: hexDigits 4 c.toNat
  else [c]

/-- The spelling of a character in a description: hexadecimal digits stand between braces. -/
def descriptionEscape (c : Char) : List Char :=
  if c = '"' then ['\\', '"']
  else if c = '\\' then ['\\', '\\']
  else if c = '\n' then ['\\', 'n']
  else if c = '\r' then ['\\', 'r']
  else if c = '\t' then ['\\', 't']
  else if c = '\x00' then ['\\', '0']
  else if isControl c then '\\' :: 'u' :: '{' :: hexDigits 1 c.toNat ++ ['}']
  else [c]

/-- Text quoted for data. -/
def quote (text : String) : String := quoteWith dataEscape text

/-- Text quoted for a description. -/
def describe (text : String) : String := quoteWith descriptionEscape text

end Lox.Text
