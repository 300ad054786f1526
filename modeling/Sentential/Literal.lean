import Sentential.Decimal.Power
import Sentential.Fault

/-!
# Literals

A literal is a variable or its negation, written as a signed number: `3` is the variable `x3`,
`-3` its negation. Literals live in signed words of 32 bits, variables in unsigned ones, so the
way from a variable to a literal reads the unsigned word as a signed one. That reading wraps in
the upper half of the range, and negation has one value it cannot negate.
-/

namespace Sentential

/-- A variable or its negation. -/
structure Literal where
  value : Int
  nonzero : value ≠ 0
deriving DecidableEq, Repr

namespace Literal

/-! ## Making literals -/

def ofInt (value : Int) : Except Fault Literal :=
  if h : value = 0 then .error .zeroLiteral else .ok ⟨value, h⟩

/-- The signed number that a word of 32 bits spells in two's complement. -/
def signed (word : UInt32) : Int := word.toInt32.toInt

/-- Negation within 32 bits: the lowest number has no negative. -/
def negated (value : Int) : Except Fault Int :=
  if value = -(Decimal.pow2 31 : Int) then .error .overflow else .ok (-value)

/-- The literal that holds when the variable does. -/
def positive (var : UInt32) : Except Fault Literal := ofInt (signed var)

/-- The literal that holds when the variable does not. -/
def negative (var : UInt32) : Except Fault Literal := do ofInt (← negated (signed var))

/-- The opposite literal. -/
def neg (l : Literal) : Except Fault Literal := do ofInt (← negated l.value)

/-! ## Looking at literals -/

/-- The variable, without its sign. -/
def var (l : Literal) : Nat := l.value.natAbs

def isPositive (l : Literal) : Bool := 0 < l.value

def isNegative (l : Literal) : Bool := l.value < 0

def text (l : Literal) : String :=
  if l.isNegative then s!"¬x{l.var}" else s!"x{l.var}"

end Literal
end Sentential
