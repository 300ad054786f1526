import Sentential.Decimal.Power

/-!
# What the bits of a double stand for

A finite double is a sign and a value `mantissa · 2 ^ exponent`, with at most 53 bits in the
mantissa. The sign is kept beside the value because a zero has one too.
-/

namespace Sentential.Decimal

/-- A double, taken apart. -/
inductive Binary where
  | nan
  | infinite (negative : Bool)
  /-- The number `± mantissa · 2 ^ exponent`. -/
  | finite (negative : Bool) (mantissa : Nat) (exponent : Int)
deriving Repr, DecidableEq

namespace Binary

/-- Reads the sign bit, the eleven bits of the exponent and the 52 bits of the fraction. The
lowest exponent stands for the subnormal numbers, the highest for the infinities and NaN. -/
def ofBits (bits : UInt64) : Binary :=
  let n := bits.toNat
  let negative := n / pow2 63 == 1
  let exponent : Nat := n / pow2 52 % pow2 11
  let fraction : Nat := n % pow2 52
  if exponent = 2047 then
    if fraction = 0 then .infinite negative else .nan
  else if exponent = 0 then
    .finite negative fraction (-1074)
  else
    .finite negative (pow2 52 + fraction) ((exponent : Int) - 1075)

def ofFloat (x : Float) : Binary := ofBits x.toBits

end Binary

/-- The minus sign of a negative number. -/
def sign (negative : Bool) : List Char := if negative then ['-'] else []

end Sentential.Decimal
