/-
Decimal numerals and the doubles they stand for. A numeral is kept exactly, as a sign, a coefficient and a
power of ten, and rounded once, to the nearest double and on a tie to the even one.
-/

namespace Lox.Number

/-- The number `± coefficient · 10 ^ exponent`. -/
structure Decimal where
  negative : Bool
  coefficient : Nat
  exponent : Int
  deriving DecidableEq, Repr

/-! ## Digits -/

/-- The value of a digit. -/
def digitValue (c : Char) : Nat := c.toNat - '0'.toNat

/-- The number that a list of digits stands for. -/
def ofDigits (cs : List Char) : Nat := cs.foldl (fun n c => 10 * n + digitValue c) 0

namespace Decimal

/-- The numeral with these digits before and after the point. -/
def ofDigits (whole fraction : List Char) : Decimal :=
  ⟨false, Number.ofDigits (whole ++ fraction), -fraction.length⟩

/-! ## Rounding -/

/-- Numerals of `10 ^ 310` or more are infinite. -/
def overflowExponent : Int := 310

/-- A numeral is at least `10` to this, unless it is zero: `10 ^ 3` is less than `2 ^ 10`. -/
def lowerExponent (d : Decimal) : Int := (Nat.log2 d.coefficient * 3 / 10 : Nat) + d.exponent

/-- The double nearest to a numeral without its sign. -/
def magnitude (d : Decimal) : Float := Float.ofScientific d.coefficient (d.exponent < 0) d.exponent.natAbs

/-- The double nearest to a numeral. What is far beyond all doubles is not multiplied or divided out. -/
def toFloat (d : Decimal) : Float :=
  let magnitude : Float :=
    if d.coefficient ≠ 0 ∧ overflowExponent < d.lowerExponent then Float.ofBits 0x7FF0000000000000
    else d.magnitude
  if d.negative then -magnitude else magnitude

/-! ## Text -/

/-- Takes a sign off the front of a text; none means plus. -/
def readSign : List Char → Bool × List Char
  | '-' :: cs => (true, cs)
  | '+' :: cs => (false, cs)
  | cs => (false, cs)

/-- Reads an exponent, the part of a numeral after its `e`. -/
def readExponent? (cs : List Char) : Option Int :=
  let (negative, digits) := readSign cs
  if digits.isEmpty || !digits.all Char.isDigit then none
  else
    let n : Int := Number.ofDigits digits
    some (if negative then -n else n)

/-- Reads a numeral: a sign, digits, a point with digits, and an exponent, of which only digits must be there. -/
def ofText? (cs : List Char) : Option Decimal :=
  let (negative, unsigned) := readSign cs
  let (whole, rest) := unsigned.span Char.isDigit
  let (fraction, rest) :=
    match rest with
    | '.' :: cs => cs.span Char.isDigit
    | _ => ([], rest)
  if whole.isEmpty && fraction.isEmpty then none
  else
    let d := Decimal.ofDigits whole fraction
    match rest with
    | [] => some { d with negative }
    | c :: cs =>
      if c = 'e' ∨ c = 'E' then
        (readExponent? cs).map fun e => { d with negative, exponent := d.exponent + e }
      else none

end Decimal

/-- Reads the text of a double: a numeral, or one of the names of the infinities and of no number. -/
def ofText? (text : String) : Option Float :=
  match text with
  | "inf" => some (Float.ofBits 0x7FF0000000000000)
  | "-inf" => some (Float.ofBits 0xFFF0000000000000)
  | "NaN" => some (Float.ofBits 0x7FF8000000000000)
  | _ => (Decimal.ofText? text.toList).map Decimal.toFloat

end Lox.Number
