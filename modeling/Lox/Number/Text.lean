/-
How numbers are written. A `Style` says when a number is written with an exponent, how many decimals
are the least, which of two equally near decimals is taken, and what stands for the values that are no
numbers; three functions then give the text a program prints, the text in a data file, and the text on
a token.
-/
import Lox.Number.Shortest

namespace Lox.Number

/-- The decisions of a written form of numbers. -/
structure Style where
  tie : Tie
  /-- Whether a number whose first digit has this exponent is written without an exponent. -/
  positional : Int → Bool
  /-- The least number of decimals of a number that is written without an exponent. -/
  decimals : Nat
  infinity : String
  negativeInfinity : String
  nan : String

/-- Numbers as a program prints them: every digit in its place, and no point in a whole number. -/
def Style.plain : Style where
  tie := .away
  positional := fun _ => true
  decimals := 0
  infinity := "inf"
  negativeInfinity := "-inf"
  nan := "NaN"

/-- Numbers in data files: at least one decimal, an exponent from `1e+16` on and below `0.00001`. -/
def Style.data : Style where
  tie := .toEven
  positional := fun e => decide (-5 ≤ e) && decide (e ≤ 15)
  decimals := 1
  infinity := "null"
  negativeInfinity := "null"
  nan := "null"

/-! ## Digits in their places -/

/-- The decimal digits of a whole number. -/
def wholeText (n : Nat) : List Char := Nat.toDigits 10 n

/-- Zeros are added at the front up to a given length. -/
def padLeft (length : Nat) (cs : List Char) : List Char :=
  List.replicate (length - cs.length) '0' ++ cs

/-- Zeros are added at the end up to a given length. -/
def padRight (length : Nat) (cs : List Char) : List Char :=
  cs ++ List.replicate (length - cs.length) '0'

/-- Digits before and after a point, which is left out when nothing follows it. -/
def withPoint (whole fraction : List Char) : List Char :=
  if fraction.isEmpty then whole else whole ++ '.' :: fraction

/-- A decimal with every digit in its place. -/
def Digits.positional (d : Digits) (decimals : Nat) : List Char :=
  let places := (-d.exponent).toNat
  let digits := padLeft (places + 1) (wholeText (d.coefficient * Nat.pow 10 d.exponent.toNat))
  let split := digits.length - places
  withPoint (digits.take split) (padRight decimals (digits.drop split))

/-- A decimal with one digit before the point and a signed exponent. -/
def Digits.scientific (d : Digits) : List Char :=
  let e := d.leading
  let sign := if e < 0 then '-' else '+'
  match wholeText d.coefficient with
  | [] => []
  | first :: rest => withPoint [first] rest ++ 'e' :: sign :: wholeText e.natAbs

/-! ## Numbers -/

/-- Puts the sign in front of a magnitude. -/
def signed (negative : Bool) (magnitude : List Char) : String :=
  String.ofList (if negative then '-' :: magnitude else magnitude)

/-- The text of a number in a style. -/
def Style.write (style : Style) (x : Float) : String :=
  match parts x with
  | .nan => style.nan
  | .infinite negative => if negative then style.negativeInfinity else style.infinity
  | .finite negative mantissa exponent =>
    let d := shortest style.tie mantissa exponent
    signed negative <|
      if style.positional d.leading then d.positional style.decimals else d.scientific

/-- The text of a number as a program prints it. -/
def display (x : Float) : String := Style.plain.write x

/-- The text of a number in a data file. -/
def dataText (x : Float) : String := Style.data.write x

/-- The text of a number on a token: a whole number has all its digits and one decimal. -/
def tokenText (x : Float) : String :=
  match parts x with
  | .finite negative mantissa exponent =>
    if isWhole mantissa exponent then
      signed negative (wholeText (wholePart mantissa exponent) ++ ['.', '0'])
    else display x
  | _ => display x

end Lox.Number
