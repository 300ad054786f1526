import Sentential.Proofs.Weight.Laws

/-!
# The smallest number type

Zero, one and minus infinity are enough to weigh diagrams whose elements are either certain or
impossible: the two numbers are the probabilities, and their logarithms are minus infinity and
zero. All laws of weights hold of the three.
-/

namespace Sentential

/-- A number that is a probability or the logarithm of one. -/
inductive Extreme where
  | minusInfinity
  | zero
  | one
deriving DecidableEq, Repr

namespace Extreme

/-- Sums do not rise above one, and nothing adds up with minus infinity. -/
def add : Extreme → Extreme → Extreme
  | zero, zero => zero
  | zero, one => one
  | one, zero => one
  | one, one => one
  | _, _ => minusInfinity

def mul : Extreme → Extreme → Extreme
  | one, b => b
  | a, one => a
  | _, _ => zero

def div : Extreme → Extreme → Extreme
  | a, one => a
  | _, _ => minusInfinity

def complement : Extreme → Extreme
  | zero => one
  | one => zero
  | minusInfinity => one

def exp : Extreme → Extreme
  | minusInfinity => zero
  | _ => one

def log : Extreme → Extreme
  | one => zero
  | _ => minusInfinity

def text : Extreme → List Char
  | minusInfinity => "-inf".toList
  | zero => ['0']
  | one => ['1']

def read? (cs : List Char) : Option Extreme := [minusInfinity, zero, one].find? (text · == cs)

instance : Weight Extreme where
  zero := zero
  one := one
  emptySum := zero
  add := add
  mul := mul
  div := div
  complement := complement
  exp := exp
  log := log
  isNonneg a := a != minusInfinity
  isLogProbability a := a != one
  same a b := a == b
  text := text
  placesText := text
  generalText := text
  read? := read?

/-- The place of a number in the order, from minus infinity to one. -/
def rank : Extreme → Nat
  | minusInfinity => 0
  | zero => 1
  | one => 2

def le (a b : Extreme) : Prop := a.rank ≤ b.rank

instance (a b : Extreme) : Decidable (le a b) := inferInstanceAs (Decidable (a.rank ≤ b.rank))

theorem laws : Weight.Laws Extreme le := by
  constructor
  case le_refl => intro a; cases a <;> decide
  case le_trans => intro a b c; cases a <;> cases b <;> cases c <;> decide
  case emptySum_add => intro a; cases a <;> decide
  case nonneg_add => intro a b; cases a <;> cases b <;> decide
  case le_add_left => intro a b; cases a <;> cases b <;> decide
  case le_add_right => intro a b; cases a <;> cases b <;> decide
  case div_mass => intro a t; unfold Weight.IsMass Weight.IsProbability; cases a <;> cases t <;> decide
  case log_probability => intro p; unfold Weight.IsProbability; cases p <;> decide
  case exp_logProbability => intro l; unfold Weight.IsProbability; cases l <;> decide
  case read_text => intro l; cases l <;> decide
  case isField_text => intro l; cases l <;> decide

end Extreme
end Sentential
