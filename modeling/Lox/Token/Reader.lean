/-
Reading a text byte by byte. The bytes of a text are characters in UTF-8, and a reader goes over them with a cursor and
cuts lexemes out of the text where they start and end. Each of its steps fails where a byte would be read that is not
there, or where a slice would be taken out of range or through the middle of a character.
-/
import Lox.Token.Stream

namespace Lox

/-! ## Readers -/

/-- What a reader is in. -/
inductive Phase
  /-- In nothing: the next byte begins something new. -/
  | between
  /-- In a string, after its opening quotation mark. -/
  | string
  /-- In a number, before its point. -/
  | whole
  /-- In a number, after its point. -/
  | decimals
  | word
  deriving DecidableEq, Repr

/-- A reader: the byte at which the lexeme it is in starts, the one up to which it has read, the line there, and the
entries of the stream that it found, the latest first. -/
structure Reader where
  start : Nat
  cursor : Nat
  line : Nat
  phase : Phase
  found : List Item

/-- The byte at an index of a text, as the character of the same number. The bytes of a character that takes more than
one are from 128 on, and so none of them is a character that the language knows. -/
def byte? (source : String) (i : Nat) : Option Char := source.toByteArray.data[i]?.map Char.ofUInt8

/-- The part of a text from one index to another. -/
def slice? (source : String) (first last : Nat) : Option String :=
  if h : first ≤ last ∧ (⟨first⟩ : String.Pos.Raw).IsValid source ∧ (⟨last⟩ : String.Pos.Raw).IsValid source then
    some (source.extract ⟨⟨first⟩, h.2.1⟩ ⟨⟨last⟩, h.2.2⟩)
  else none

namespace Reader

/-- The start of a text. -/
def first : Reader := ⟨0, 0, 1, .between, []⟩

/-- The next byte, or zero at the end. -/
def peek (source : String) (r : Reader) : Char := (byte? source r.cursor).getD (.ofNat 0)

/-- The byte after the next one, or zero at the end. -/
def peekNext (source : String) (r : Reader) : Char := (byte? source (r.cursor + 1)).getD (.ofNat 0)

/-- Takes the next byte. -/
def advance (source : String) (r : Reader) : Option (Char × Reader) :=
  (byte? source r.cursor).map fun b => (b, { r with cursor := r.cursor + 1 })

/-- Counts the line that a byte ends, if it ends one. -/
def countLine (b : Char) (r : Reader) : Reader := if b = '\n' then { r with line := r.line + 1 } else r

/-- Adds an entry to the stream and is done with what it was in. -/
def emit (item : Item) (r : Reader) : Reader := { r with phase := .between, found := item :: r.found }

/-- Adds a token for the lexeme up to here. -/
def emitToken (source : String) (kind : Kind) (literal : Option Literal) (r : Reader) : Option Reader := do
  let lexeme ← slice? source r.start r.cursor
  some (r.emit (.token ⟨kind, lexeme, literal, r.line⟩))

/-- Takes the next byte if it is the one that is expected. -/
def matchByte (source : String) (expected : Char) (r : Reader) : Option (Bool × Reader) :=
  if r.cursor < source.utf8ByteSize ∧ (r.peek source) = expected then
    (r.advance source).map fun (_, r) => (true, r)
  else some (false, r)

/-- Goes on to the end of the line, or to the end of the text. -/
def skipLine (source : String) (r : Reader) : Option Reader :=
  if r.cursor ≤ source.utf8ByteSize then
    match (source.toByteArray.data.toList.drop r.cursor).findIdx? (Char.ofUInt8 · == '\n') with
    | some distance => some { r with cursor := r.cursor + distance }
    | none => some { r with cursor := source.utf8ByteSize }
  else none

/-- Goes to the end of the character at which the reader started. -/
def skipChar (source : String) (r : Reader) : Option Reader := do
  let rest ← slice? source r.start source.utf8ByteSize
  match rest.toList with
  | c :: _ => some { r with cursor := r.start + c.utf8Size }
  | [] => some r

/-- Goes on after the first byte of something new. -/
def dispatch (source : String) (c : Char) (r : Reader) : Option Reader :=
  if Piece.isBlank c then some (r.countLine c)
  else if c = '"' then some { r with phase := .string }
  else if c = '/' then do
    let (isComment, r) ← r.matchByte source '/'
    if isComment then r.skipLine source else r.emitToken source .slash none
  else if c.isDigit then some { r with phase := .whole }
  else if Piece.startsWord c then some { r with phase := .word }
  else
    match Piece.mark? c, Piece.comparison? c with
    | some kind, _ => r.emitToken source kind none
    | none, some (alone, withEqual) => do
      let (isLong, r) ← r.matchByte source '='
      r.emitToken source (if isLong then withEqual else alone) none
    | none, none => do
      let r ← r.skipChar source
      some (r.emit (.error ⟨.unexpectedCharacter, r.line⟩))

/-- Reads the first byte of something new. -/
def begin (source : String) (r : Reader) : Option Reader := do
  let (c, r) ← { r with start := r.cursor }.advance source
  r.dispatch source c

/-- Ends the number that the reader is in. -/
def endNumber (source : String) (r : Reader) : Option Reader := do
  let text ← slice? source r.start r.cursor
  r.emitToken source .number (some (.number (numberValue text.toList)))

/-- Ends the word that the reader is in. -/
def endWord (source : String) (r : Reader) : Option Reader := do
  let text ← slice? source r.start r.cursor
  r.emitToken source (.ofWord text) none

/-- Ends the string that the reader is in, with its closing quotation mark. -/
def endString (source : String) (r : Reader) : Option Reader := do
  let (_, r) ← r.advance source
  let value ← slice? source (r.start + 1) (r.cursor - 1)
  r.emitToken source .string (some (.string value))

/-- One step of a reader. After the end token it stays where it is, one byte after the end of the text. -/
def step (source : String) (r : Reader) : Option Reader :=
  match r.phase with
  | .between =>
    if r.cursor < source.utf8ByteSize then r.begin source
    else if r.cursor = source.utf8ByteSize then some { r.emit (.token (.endAt r.line)) with cursor := r.cursor + 1 }
    else some r
  | .string =>
    if source.utf8ByteSize ≤ r.cursor then some (r.emit (.error ⟨.unterminatedString, r.line⟩))
    else if (r.peek source) = '"' then r.endString source
    else (r.advance source).map fun (b, r) => r.countLine b
  | .whole =>
    if (r.peek source).isDigit then (r.advance source).map (·.2)
    else if (r.peek source) = '.' ∧ (r.peekNext source).isDigit then
      (r.advance source).map fun (_, r) => { r with phase := .decimals }
    else r.endNumber source
  | .decimals =>
    if (r.peek source).isDigit then (r.advance source).map (·.2) else r.endNumber source
  | .word =>
    if Piece.continuesWord (r.peek source) then (r.advance source).map (·.2) else r.endWord source

/-- The state of a reader after some steps. -/
def after (source : String) : Nat → Option Reader
  | 0 => some .first
  | n + 1 => (after source n).bind (step source)

end Reader

end Lox
