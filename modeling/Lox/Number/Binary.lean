/-
The value of a double: a sign and a magnitude `mantissa · 2 ^ exponent`, both exact, or an
infinity, or no number at all.
-/

namespace Lox.Number

/-- A double taken apart. -/
inductive Parts
  | nan
  | infinite (negative : Bool)
  /-- The number `± mantissa · 2 ^ exponent`. -/
  | finite (negative : Bool) (mantissa : Nat) (exponent : Int)
  deriving DecidableEq, Repr

/-- The mantissa of the least normal double, which is also where the spacing of doubles changes. -/
def leastNormalMantissa : Nat := Nat.pow 2 52

/-- The exponent of the subnormal doubles, the least one. -/
def leastExponent : Int := -1074

/-- The parts of a double, read off its bits: one of sign, eleven of exponent, fifty-two of fraction. -/
def parts (x : Float) : Parts :=
  let bits := x.toBits.toNat
  let negative := bits / Nat.pow 2 63 == 1
  let exponent : Nat := bits / Nat.pow 2 52 % Nat.pow 2 11
  let fraction : Nat := bits % Nat.pow 2 52
  if exponent = 2047 then
    if fraction = 0 then .infinite negative else .nan
  else if exponent = 0 then
    .finite negative fraction leastExponent
  else
    .finite negative (leastNormalMantissa + fraction) (exponent + leastExponent - 1)

/-- Whether `mantissa · 2 ^ exponent` is a whole number. -/
def isWhole (mantissa : Nat) (exponent : Int) : Bool :=
  mantissa % Nat.pow 2 (-exponent).toNat == 0

/-- The magnitude `mantissa · 2 ^ exponent` without its fraction. -/
def wholePart (mantissa : Nat) (exponent : Int) : Nat :=
  mantissa * Nat.pow 2 exponent.toNat / Nat.pow 2 (-exponent).toNat

end Lox.Number
