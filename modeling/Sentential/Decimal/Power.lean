/-!
# Powers of two and ten

The place values of the two bases between which numbers are carried over, and the sizes of the
machine words that numbers in files have to fit.
-/

namespace Sentential.Decimal

/-- The number of values that `n` bits have. -/
def pow2 (n : Nat) : Nat := Nat.pow 2 n

/-- The number of values that `n` decimal digits have. -/
def pow10 (n : Nat) : Nat := Nat.pow 10 n

theorem pow2_pos (n : Nat) : 0 < pow2 n := Nat.pow_pos (by decide)

theorem pow10_pos (n : Nat) : 0 < pow10 n := Nat.pow_pos (by decide)

end Sentential.Decimal
