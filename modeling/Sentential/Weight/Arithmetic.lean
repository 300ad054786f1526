/-!
# Arithmetic with two operations

Circuits are evaluated with a sum and a product and nothing else is known of the two: no law
holds, so the order in which the operations are applied is part of every result. A sum starts from
a value of its own, which a number type may tell apart from zero.
-/

namespace Sentential

/-- The constants and operations that a circuit is evaluated with. -/
class Arithmetic (V : Type) where
  /-- The value of an indicator that the evidence rules out, and of a circuit without a root. -/
  zero : V
  one : V
  /-- The sum of no values. -/
  emptySum : V
  add : V → V → V
  mul : V → V → V

namespace Arithmetic

variable {V : Type} [Arithmetic V]

/-- The values added from left to right. -/
def sum (xs : List V) : V := xs.foldl add emptySum

/-- The values multiplied from left to right. -/
def product (xs : List V) : V := xs.foldl mul one

end Arithmetic
end Sentential
