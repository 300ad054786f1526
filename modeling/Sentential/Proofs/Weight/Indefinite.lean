import Sentential.Proofs.Weight.Zero

/-!
# The smallest number type with an undefined number

Zero, one, minus infinity and a number that is none: enough to tell what becomes of elements all of
which are impossible. All laws of weights and of zero hold of the four.
-/

namespace Sentential

/-- A number that is a probability, the logarithm of one, or undefined. -/
inductive Indefinite where
  | undefined
  | minusInfinity
  | zero
  | one
deriving DecidableEq, Repr

namespace Indefinite

/-- Sums do not rise above one, and only probabilities add up. -/
def add : Indefinite → Indefinite → Indefinite
  | zero, zero => zero
  | zero, one => one
  | one, zero => one
  | one, one => one
  | _, _ => undefined

def mul : Indefinite → Indefinite → Indefinite
  | one, b => b
  | a, one => a
  | zero, zero => zero
  | _, _ => undefined

def div : Indefinite → Indefinite → Indefinite
  | a, one => a
  | _, _ => undefined

def complement : Indefinite → Indefinite
  | zero => one
  | one => zero
  | a => a

def exp : Indefinite → Indefinite
  | minusInfinity => zero
  | zero => one
  | a => a

def log : Indefinite → Indefinite
  | zero => minusInfinity
  | one => zero
  | _ => undefined

def text : Indefinite → List Char
  | undefined => "NaN".toList
  | minusInfinity => "-inf".toList
  | zero => ['0']
  | one => ['1']

def read? (cs : List Char) : Option Indefinite :=
  [undefined, minusInfinity, zero, one].find? (text · == cs)

instance : Weight Indefinite where
  zero := zero
  one := one
  emptySum := zero
  add := add
  mul := mul
  div := div
  complement := complement
  exp := exp
  log := log
  isNonneg a := a == zero || a == one
  isLogProbability a := a == minusInfinity || a == zero
  same a b := a != undefined && a == b
  text := text
  placesText := text
  generalText := text
  read? := read?

/-- Zero and one are in their order, and so are equal numbers. -/
def le (a b : Indefinite) : Prop := a = b ∨ (a = zero ∧ b = one)

instance (a b : Indefinite) : Decidable (le a b) :=
  inferInstanceAs (Decidable (a = b ∨ (a = zero ∧ b = one)))

theorem laws : Weight.Laws Indefinite le := by
  constructor
  case le_refl => exact fun _ => Or.inl rfl
  case le_trans => intro a b c; cases a <;> cases b <;> cases c <;> decide
  case emptySum_add => intro a; cases a <;> decide
  case nonneg_add => intro a b; cases a <;> cases b <;> decide
  case le_add_left => intro a b; cases a <;> cases b <;> decide
  case le_add_right => intro a b; cases a <;> cases b <;> decide
  case div_mass =>
    intro a t
    unfold Weight.IsMass Weight.IsProbability
    cases a <;> cases t <;> decide
  case log_probability => intro p; unfold Weight.IsProbability; cases p <;> decide
  case exp_logProbability => intro l; unfold Weight.IsProbability; cases l <;> decide
  case read_text => intro l; cases l <;> decide
  case isField_text => intro l; cases l <;> decide

/-- Only one number is undefined. -/
theorem isUndefined_iff {a : Indefinite} : Weight.IsUndefined a ↔ a = undefined := by
  constructor
  · intro h
    have hself := h a
    cases a <;> first | rfl | exact absurd hself (by decide)
  · rintro rfl b
    rfl

theorem zeroLaws : Weight.ZeroLaws Indefinite := by
  constructor
  case zero_or_mass =>
    intro p
    unfold Weight.IsProbability Weight.IsZero Weight.IsMass
    cases p <;> decide
  case zero_add_zero => intro a b; unfold Weight.IsZero; cases a <;> cases b <;> decide
  case zero_add_mass =>
    intro a b
    unfold Weight.IsZero Weight.IsMass
    cases a <;> cases b <;> decide
  case mass_add =>
    intro a p
    unfold Weight.IsMass Weight.IsProbability
    cases a <;> cases p <;> decide
  case complement_add =>
    intro p
    unfold Weight.IsProbability Weight.IsMass
    cases p <;> decide
  case zero_div_zero =>
    intro a b
    rw [isUndefined_iff]
    unfold Weight.IsZero
    cases a <;> cases b <;> decide
  case log_undefined => intro a; simp only [isUndefined_iff]; rintro rfl; rfl
  case isLogProbability_undefined => intro a; rw [isUndefined_iff]; rintro rfl; rfl
  case read_text_undefined =>
    intro a
    simp only [isUndefined_iff]
    rintro rfl
    exact ⟨undefined, by decide, rfl⟩
  case isField_text_undefined => intro a; rw [isUndefined_iff]; rintro rfl; decide

end Indefinite
end Sentential
