import Sentential.Decimal.Power

/-!
# Non-negative fractions on the decimal grid

Every exact number text of this library comes from one question about a non-negative
fraction: which multiple of a power of ten lies at, below or nearest to it. The questions are
answered in natural number arithmetic, so nothing is lost on the way.

* `Ratio.roundHalfEven` is the nearest whole number, an exact half going to the even neighbour;
* `Ratio.shift` moves the decimal point, which turns "to so many places" into "to a whole
  number";
* `Ratio.leading` is the exponent of the leading digit: `10 ^ leading ≤ r < 10 ^ (leading + 1)`.
-/

namespace Sentential.Decimal

/-- The digits of a number in base ten, the leading one first; zero is the one digit `0`. -/
def digits (n : Nat) : List Char := Nat.toDigits 10 n

/-- A non-negative fraction, not necessarily in lowest terms. -/
structure Ratio where
  num : Nat
  den : Nat
deriving Repr, DecidableEq

namespace Ratio

/-- The fraction `m · 2 ^ q`. -/
def ofDyadic (m : Nat) (q : Int) : Ratio := ⟨m * pow2 q.toNat, pow2 (-q).toNat⟩

/-- The fraction times `10 ^ e`. -/
def shift (r : Ratio) (e : Int) : Ratio := ⟨r.num * pow10 e.toNat, r.den * pow10 (-e).toNat⟩

/-- The nearest whole number; an exact half goes to the even one of its two neighbours. -/
def roundHalfEven (r : Ratio) : Nat :=
  let q := r.num / r.den
  let twice := 2 * (r.num % r.den)
  if twice < r.den then q else if r.den < twice then q + 1 else q + q % 2

/-- The exponent of the leading decimal digit of a positive fraction. -/
def leading (r : Ratio) : Int :=
  if r.den ≤ r.num then
    ((digits (r.num / r.den)).length : Int) - 1
  else
    let k := (digits (r.den / r.num)).length
    if r.den ≤ r.num * pow10 (k - 1) then 1 - (k : Int) else -(k : Int)

end Ratio
end Sentential.Decimal
