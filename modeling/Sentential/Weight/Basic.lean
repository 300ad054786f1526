import Sentential.Weight.Arithmetic
import Sentential.Fault

/-!
# Weights

What the library asks of the numbers that weigh the elements of a diagram: the arithmetic of the
circuits, the passage between probabilities and their logarithms, and the texts in which weights
are written and read. Nothing beyond these operations is used, so every statement about diagrams
holds for any number type that has them; the one that the program runs with is the double.
-/

namespace Sentential

/-- A number type whose values can weigh the elements of a diagram. -/
class Weight (W : Type) extends Arithmetic W where
  div : W → W → W
  /-- The probability of the opposite. -/
  complement : W → W
  exp : W → W
  log : W → W
  /-- Neither negative nor undefined. -/
  isNonneg : W → Bool
  /-- Neither above zero nor undefined. -/
  isLogProbability : W → Bool
  /-- Equality as the number type sees it. -/
  same : W → W → Bool
  /-- The shortest text that reads back. -/
  text : W → List Char
  /-- Two places behind the point. -/
  placesText : W → List Char
  /-- Eight significant digits. -/
  generalText : W → List Char
  read? : List Char → Option W

/-- The weights of a node, none of them negative. For a TRUE node they stand for the two values
of its variable, the weight of false first; for a decision they stand for its elements. -/
structure Theta (W : Type) [Weight W] where
  weights : List W
  nonneg : ∀ w ∈ weights, Weight.isNonneg w = true

namespace Theta

variable {W : Type} [Weight W]

/-! ## Making weights -/

def ofWeights (weights : List W) : Except Fault (Theta W) :=
  if h : ∀ w ∈ weights, Weight.isNonneg w = true then .ok ⟨weights, h⟩
  else .error .negativeWeight

/-- The weights of a TRUE node whose variable holds with probability `p`. -/
def bernoulli (p : W) : Except Fault (Theta W) := ofWeights [Weight.complement p, p]

/-! ## Looking at weights -/

def length (θ : Theta W) : Nat := θ.weights.length

def isEmpty (θ : Theta W) : Bool := θ.weights.isEmpty

def sum (θ : Theta W) : W := Arithmetic.sum θ.weights

def weight (θ : Theta W) (i : Nat) : Except Fault W :=
  match θ.weights[i]? with
  | some w => .ok w
  | none => .error .outOfRange

/-- The weights as parts of their sum. -/
def normalized (θ : Theta W) : List W :=
  let total := θ.sum
  θ.weights.map (Weight.div · total)

/-- The logarithms of the weights as parts of their sum. -/
def logs (θ : Theta W) : List W := θ.normalized.map Weight.log

end Theta
end Sentential
