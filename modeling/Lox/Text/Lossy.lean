/-
Bytes read as text even if they stop in the middle of a character.
-/

namespace Lox.Text

/-- Stands for a character that cannot be read. -/
def replacement : String := "\uFFFD"

/-- The text of bytes of which up to `cut` at the end may be the start of a character. -/
def ofBytesCut (bytes : ByteArray) : Nat → String
  | 0 => (String.fromUTF8? bytes).getD replacement
  | cut + 1 =>
    match String.fromUTF8? bytes with
    | some text => text
    | none =>
      match String.fromUTF8? (bytes.extract 0 (bytes.size - 1)) with
      | some text => text ++ replacement
      | none => ofBytesCut (bytes.extract 0 (bytes.size - 1)) cut

/-- The text of bytes; a character that is cut off at the end is replaced. -/
def ofBytes (bytes : ByteArray) : String := ofBytesCut bytes 3

end Lox.Text
