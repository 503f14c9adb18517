/-
The shortest decimal that reads back to a given double: among the decimals that round to it those
with the fewest digits, and of these the one nearest to it. All comparisons are between natural
numbers, so nothing is rounded on the way.
-/
import Lox.Number.Binary

namespace Lox.Number

/-- Which of two equally near decimals is chosen. -/
inductive Tie
  /-- The one farther from zero. -/
  | away
  /-- The one whose last digit is even. -/
  | toEven
  deriving DecidableEq, Repr

/-! ## The numbers that round to a double -/

/--
A magnitude `value / unit` with the interval from `low / unit` to `high / unit` of all numbers that
round to it; `closed` tells whether the ends round to it as well.
-/
structure Interval where
  value : Nat
  low : Nat
  high : Nat
  unit : Nat
  closed : Bool
  deriving Repr

namespace Interval

/--
The rounding interval of `mantissa · 2 ^ exponent`. It ends half way to the neighbouring doubles; the
one below is nearer where the exponent changes. The ends round to the even mantissa.
-/
def ofBinary (mantissa : Nat) (exponent : Int) : Interval :=
  let scale := Nat.pow 2 (exponent - 2).toNat
  let narrow := mantissa == leastNormalMantissa && leastExponent < exponent
  { value := 4 * mantissa * scale
    low := (4 * mantissa - if narrow then 1 else 2) * scale
    high := (4 * mantissa + 2) * scale
    unit := Nat.pow 2 (2 - exponent).toNat
    closed := mantissa % 2 == 0 }

/-- The same interval measured in units of `10 ^ k`. -/
def inTens (i : Interval) (k : Int) : Interval :=
  let scale := Nat.pow 10 (-k).toNat
  { value := i.value * scale
    low := i.low * scale
    high := i.high * scale
    unit := i.unit * Nat.pow 10 k.toNat
    closed := i.closed }

/-- Whether the whole number `c` lies in the interval. -/
def contains (i : Interval) (c : Nat) : Bool :=
  if i.closed then i.low ≤ c * i.unit && c * i.unit ≤ i.high
  else i.low < c * i.unit && c * i.unit < i.high

/-- The whole number of the interval that is nearest to its value, if there is one. -/
def nearest? (i : Interval) (tie : Tie) : Option Nat :=
  let c := i.value / i.unit
  match i.contains c, i.contains (c + 1) with
  | false, false => none
  | true, false => some c
  | false, true => some (c + 1)
  | true, true =>
    match compare (2 * i.value) ((2 * c + 1) * i.unit), tie with
    | .lt, _ => some c
    | .gt, _ => some (c + 1)
    | .eq, .away => some (c + 1)
    | .eq, .toEven => some (if c % 2 = 0 then c else c + 1)

end Interval

/-! ## Decimal digits -/

/-- How many decimal digits a number has; zero has one. -/
def digitCount (n : Nat) : Nat := (Nat.toDigits 10 n).length

/-- The exponent `e` with `10 ^ e ≤ value / unit < 10 ^ (e + 1)`, for a positive value. -/
def leadingExponent (value unit : Nat) : Int :=
  if unit ≤ value then digitCount (value / unit) - 1
  else
    let count := digitCount (unit / value)
    if value * Nat.pow 10 (count - 1) < unit then -count else 1 - count

/-- A decimal `coefficient · 10 ^ exponent` without a sign. -/
structure Digits where
  coefficient : Nat
  exponent : Int
  deriving DecidableEq, Repr

namespace Digits

/-- The exponent of the first digit, when the number is written `d.ddd · 10 ^ e`. -/
def leading (d : Digits) : Int := digitCount d.coefficient - 1 + d.exponent

/-- The same number without zeros at the end of its digits; at most `fuel` of them are dropped. -/
def dropZeros : Nat → Digits → Digits
  | 0, d => d
  | fuel + 1, d =>
    if d.coefficient % 10 = 0 ∧ d.coefficient ≠ 0 then
      dropZeros fuel ⟨d.coefficient / 10, d.exponent + 1⟩
    else d

end Digits

/-- Seventeen digits tell any two doubles apart. -/
def enoughDigits : Nat := 17

/--
The shortest decimal in an interval, whose first digit has the exponent `leading`: the grid of
`count` digits is tried first, then grids of one digit more, `more` times.
-/
def shortestFrom (i : Interval) (tie : Tie) (leading : Int) (count : Nat) : Nat → Digits
  | 0 =>
    let k := leading - count + 1
    let scaled := i.inTens k
    ⟨scaled.value / scaled.unit, k⟩
  | more + 1 =>
    let k := leading - count + 1
    match (i.inTens k).nearest? tie with
    | some c => Digits.dropZeros (count + 1) ⟨c, k⟩
    | none => shortestFrom i tie leading (count + 1) more

/-- The shortest decimal that reads back to `mantissa · 2 ^ exponent`. -/
def shortest (tie : Tie) (mantissa : Nat) (exponent : Int) : Digits :=
  if mantissa = 0 then ⟨0, 0⟩
  else
    let i := Interval.ofBinary mantissa exponent
    shortestFrom i tie (leadingExponent i.value i.unit) 1 enoughDigits

end Lox.Number
