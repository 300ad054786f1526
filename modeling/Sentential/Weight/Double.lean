import Sentential.Decimal.Shortest
import Sentential.Decimal.Numeral
import Sentential.Weight.Basic

/-!
# Doubles as weights

The number type that the program runs with. A sum of doubles starts from the negative zero, the
one value that changes no double that is added to it; so the sum of no weights is a negative zero.
-/

namespace Sentential

instance : Arithmetic Float where
  zero := 0.0
  one := 1.0
  emptySum := -0.0
  add := (· + ·)
  mul := (· * ·)

instance : Weight Float where
  div := (· / ·)
  complement p := 1.0 - p
  exp := Float.exp
  log := Float.log
  isNonneg x := x ≥ 0.0
  isLogProbability x := x ≤ 0.0
  same x y := x == y
  text x := Decimal.Binary.shortText (.ofFloat x)
  placesText x := Decimal.Binary.fixedText 2 (.ofFloat x)
  generalText x := Decimal.Binary.generalText 8 (.ofFloat x)
  read? := Decimal.readFloat?

end Sentential
