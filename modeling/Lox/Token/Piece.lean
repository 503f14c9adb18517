/-
A program's text cut into pieces: blanks, comments, lexemes, and the two kinds of text that belong to no
lexeme. Each piece is the longest that starts where the one before ended, and the pieces put together
are the text again (`pieces_text`).
-/
import Lox.Token.Basic

namespace Lox

/-- A stretch of a program's text. -/
inductive Piece
  /-- A space, tab, carriage return or newline. -/
  | blank (c : Char)
  /-- Two slashes and the rest of their line. -/
  | comment (text : List Char)
  | lexeme (kind : Kind) (text : List Char)
  /-- A character that starts no lexeme. -/
  | stray (c : Char)
  /-- A quotation mark that no other follows, and all text after it. -/
  | openString (text : List Char)
  deriving DecidableEq, Repr

namespace Piece

/-- The text that a piece covers. -/
def text : Piece → List Char
  | blank c | stray c => [c]
  | comment cs => '/' :: '/' :: cs
  | lexeme _ cs => cs
  | openString cs => '"' :: cs

/-! ## Characters -/

/-- Whether a character only separates lexemes. -/
def isBlank (c : Char) : Bool := c == ' ' || c == '\r' || c == '\t' || c == '\n'

/-- Whether a word can start with this character; only letters without accents and `_` can. -/
def startsWord (c : Char) : Bool := c.isAlpha || c == '_'

/-- Whether a word can go on with this character. -/
def continuesWord (c : Char) : Bool := c.isAlphanum || c == '_'

/-- The lexemes of one character that are no part of a longer one. -/
def mark? : Char → Option Kind
  | '(' => some .leftParen
  | ')' => some .rightParen
  | '{' => some .leftBrace
  | '}' => some .rightBrace
  | ',' => some .comma
  | '.' => some .dot
  | '-' => some .minus
  | '+' => some .plus
  | ';' => some .semicolon
  | '*' => some .star
  | _ => none

/-- The lexemes of one character that an equals sign may follow, alone and with it. -/
def comparison? : Char → Option (Kind × Kind)
  | '!' => some (.bang, .bangEqual)
  | '=' => some (.equal, .equalEqual)
  | '<' => some (.less, .lessEqual)
  | '>' => some (.greater, .greaterEqual)
  | _ => none

/-! ## Reading one piece -/

/-- Reads a string, after its opening quotation mark. -/
def readString (cs : List Char) : Piece × List Char :=
  let body := cs.takeWhile (· != '"')
  match cs.dropWhile (· != '"') with
  | quote :: rest => (lexeme .string ('"' :: body ++ [quote]), rest)
  | [] => (openString body, [])

/-- Reads what starts with a slash: a comment up to its newline, or the slash alone. -/
def readSlash : List Char → Piece × List Char
  | '/' :: cs => (comment (cs.takeWhile (· != '\n')), cs.dropWhile (· != '\n'))
  | cs => (lexeme .slash ['/'], cs)

/-- The decimals at the start of a text, a point and at least one digit, and the text after them. -/
def splitDecimals : List Char → List Char × List Char
  | '.' :: c :: cs =>
    if c.isDigit then ('.' :: c :: cs.takeWhile Char.isDigit, cs.dropWhile Char.isDigit)
    else ([], '.' :: c :: cs)
  | cs => ([], cs)

/-- Reads a number, after its first digit. -/
def readNumber (c : Char) (cs : List Char) : Piece × List Char :=
  let (decimals, rest) := splitDecimals (cs.dropWhile Char.isDigit)
  (lexeme .number (c :: cs.takeWhile Char.isDigit ++ decimals), rest)

/-- Reads a word, after its first character. -/
def readWord (c : Char) (cs : List Char) : Piece × List Char :=
  let word := c :: cs.takeWhile continuesWord
  (lexeme (.ofWord (String.ofList word)) word, cs.dropWhile continuesWord)

/-- Reads an operator that an equals sign may follow. -/
def readComparison (c : Char) (alone withEqual : Kind) : List Char → Piece × List Char
  | '=' :: cs => (lexeme withEqual [c, '='], cs)
  | cs => (lexeme alone [c], cs)

/-- The piece at the start of the text `c :: cs`, and the text after it. -/
def read (c : Char) (cs : List Char) : Piece × List Char :=
  if isBlank c then (blank c, cs)
  else if c = '"' then readString cs
  else if c = '/' then readSlash cs
  else if c.isDigit then readNumber c cs
  else if startsWord c then readWord c cs
  else
    match mark? c, comparison? c with
    | some kind, _ => (lexeme kind [c], cs)
    | none, some (alone, withEqual) => readComparison c alone withEqual cs
    | none, none => (stray c, cs)

/-! ## Nothing is lost -/

/-- What was read starts with a character and, with the text left over, is the text that was read from. -/
def Splits (c : Char) (cs : List Char) (r : Piece × List Char) : Prop :=
  (∃ more, r.1.text = c :: more) ∧ r.1.text ++ r.2 = c :: cs

theorem readString_splits (cs : List Char) : Splits '"' cs (readString cs) := by
  have whole := List.takeWhile_append_dropWhile (p := (· != '"')) (l := cs)
  unfold readString
  split
  · next quote rest h =>
    have isQuote : quote = '"' := by
      have := List.head?_dropWhile_not (· != '"') cs
      simpa [h] using this
    refine ⟨⟨_, rfl⟩, ?_⟩
    rw [h] at whole
    simp [text, whole]
  · next h =>
    refine ⟨⟨_, rfl⟩, ?_⟩
    rw [h] at whole
    simpa [text] using whole

theorem readSlash_splits (cs : List Char) : Splits '/' cs (readSlash cs) := by
  unfold readSlash
  split <;> exact ⟨⟨_, rfl⟩, by simp [text]⟩

theorem splitDecimals_append (cs : List Char) : (splitDecimals cs).1 ++ (splitDecimals cs).2 = cs := by
  unfold splitDecimals
  split
  · split <;> simp
  · rfl

theorem readNumber_splits (c : Char) (cs : List Char) : Splits c cs (readNumber c cs) :=
  ⟨⟨_, rfl⟩, by simp [readNumber, text, splitDecimals_append]⟩

theorem readWord_splits (c : Char) (cs : List Char) : Splits c cs (readWord c cs) :=
  ⟨⟨_, rfl⟩, by simp [readWord, text]⟩

theorem readComparison_splits (c : Char) (alone withEqual : Kind) (cs : List Char) :
    Splits c cs (readComparison c alone withEqual cs) := by
  unfold readComparison
  split <;> exact ⟨⟨_, rfl⟩, by simp [text]⟩

/-- A piece holds the character it was read at, and with the text after it is the text that was read. -/
theorem read_splits (c : Char) (cs : List Char) : Splits c cs (read c cs) := by
  unfold read
  split
  · exact ⟨⟨_, rfl⟩, by simp [text]⟩
  split
  · next h => rw [h]; exact readString_splits cs
  split
  · next h => rw [h]; exact readSlash_splits cs
  split
  · exact readNumber_splits c cs
  split
  · exact readWord_splits c cs
  split
  · exact ⟨⟨_, rfl⟩, by simp [text]⟩
  · exact readComparison_splits c _ _ cs
  · exact ⟨⟨_, rfl⟩, by simp [text]⟩

theorem read_text (c : Char) (cs : List Char) : (read c cs).1.text ++ (read c cs).2 = c :: cs :=
  (read_splits c cs).2

/-- Reading a piece leaves no more than the text after its first character. -/
theorem length_read_le (c : Char) (cs : List Char) : (read c cs).2.length ≤ cs.length := by
  obtain ⟨⟨more, start⟩, whole⟩ := read_splits c cs
  have := congrArg List.length whole
  simp [start] at this
  omega

end Piece

/-! ## Cutting up a text -/

/-- Puts the pieces of a text, in order, after those already `found`, which are in reverse. -/
def piecesOnto (found : List Piece) : List Char → List Piece
  | [] => found.reverse
  | c :: cs => piecesOnto ((Piece.read c cs).1 :: found) (Piece.read c cs).2
termination_by cs => cs.length
decreasing_by exact Nat.lt_succ_of_le (Piece.length_read_le c cs)

/-- The pieces of a text. -/
def pieces (cs : List Char) : List Piece := piecesOnto [] cs

theorem piecesOnto_eq (found : List Piece) (cs : List Char) :
    piecesOnto found cs = found.reverse ++ pieces cs := by
  induction h : cs.length using Nat.strongRecOn generalizing found cs with
  | ind n ih =>
    subst h
    cases cs with
    | nil => simp [pieces, piecesOnto]
    | cons c cs =>
      have shorter := Nat.lt_succ_of_le (Piece.length_read_le c cs)
      rw [pieces, piecesOnto, piecesOnto, ih _ shorter _ _ rfl, ih _ shorter [_] _ rfl]
      simp

@[simp] theorem pieces_nil : pieces [] = [] := by simp [pieces, piecesOnto]

theorem pieces_cons (c : Char) (cs : List Char) :
    pieces (c :: cs) = (Piece.read c cs).1 :: pieces (Piece.read c cs).2 := by
  rw [pieces, piecesOnto, piecesOnto_eq]
  rfl

/-- The pieces of a text cover it, in order and without gaps. -/
theorem pieces_text (cs : List Char) : (pieces cs).flatMap Piece.text = cs := by
  induction h : cs.length using Nat.strongRecOn generalizing cs with
  | ind n ih =>
    subst h
    cases cs with
    | nil => simp
    | cons c cs =>
      have shorter := Nat.lt_succ_of_le (Piece.length_read_le c cs)
      rw [pieces_cons, List.flatMap_cons, ih _ shorter _ rfl, Piece.read_text]

end Lox
