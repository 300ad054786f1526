import Sentential.Weight.Basic
import Sentential.Text.Record
import Sentential.Proofs.Text.Rendered

/-!
# What number types have in common

The arithmetic of weights is rounded, so few laws hold of it, and `Weight` asks for none. What the
probabilistic file format relies on is collected here (`Weight.Laws`): sums of weights grow, a
weight as a part of a finite sum is a probability, logarithms and exponentials go back and forth
between probabilities and their logarithms, and the text of a number reads back as the number.
Doubles have these laws with the order of doubles.
-/

namespace Sentential
namespace Weight

variable {W : Type} [Weight W]

/-- The number is between zero and one. -/
def IsProbability (p : W) : Prop := isNonneg p = true ∧ isNonneg (complement p) = true

/-- The exponential of the logarithm of a probability is a probability. -/
def ExpProbability (W : Type) [Weight W] : Prop :=
  ∀ l : W, isLogProbability l = true → IsProbability (exp l)

/-- The number is finite and above zero: no other is one when divided by itself. -/
def IsMass (t : W) : Prop := isNonneg t = true ∧ same (div t t) Arithmetic.one = true

/-- The laws of a number type whose order is `le`. -/
structure Laws (W : Type) [Weight W] (le : W → W → Prop) : Prop where
  le_refl : ∀ {a : W}, isNonneg a = true → le a a
  le_trans : ∀ {a b c : W}, le a b → le b c → le a c
  /-- What an empty sum is, weights added to it stay what they are. -/
  emptySum_add : ∀ {a : W}, isNonneg a = true → Arithmetic.add Arithmetic.emptySum a = a
  nonneg_add : ∀ {a b : W}, isNonneg a = true → isNonneg b = true →
    isNonneg (Arithmetic.add a b) = true
  /-- Rounding does not bring a sum below what is added. -/
  le_add_left : ∀ {a b : W}, isNonneg a = true → isNonneg b = true → le a (Arithmetic.add a b)
  le_add_right : ∀ {a b : W}, isNonneg a = true → isNonneg b = true → le b (Arithmetic.add a b)
  /-- A weight divided by a finite sum above it is a probability. -/
  div_mass : ∀ {a t : W}, isNonneg a = true → le a t → IsMass t → IsProbability (div a t)
  /-- Logarithms of probabilities may be minus infinity, but none is above zero or no number. -/
  log_probability : ∀ {p : W}, IsProbability p → isLogProbability (log p) = true
  exp_logProbability : ∀ {l : W}, isLogProbability l = true → IsProbability (exp l)
  /-- A number is written with as many digits as it takes to read it back. -/
  read_text : ∀ {l : W}, isLogProbability l = true → read? (text l) = some l
  isField_text : ∀ {l : W}, isLogProbability l = true → Text.IsField (text l)

namespace Laws

variable {le : W → W → Prop} (laws : Laws W le)
include laws

theorem expProbability : ExpProbability W := fun _ hl => laws.exp_logProbability hl

/-- A running sum is above what it was before and above everything that is added. -/
theorem le_foldl_add {ws : List W} (hws : ∀ w ∈ ws, isNonneg w = true) {a : W}
    (ha : isNonneg a = true) :
    le a (ws.foldl Arithmetic.add a) ∧ ∀ w ∈ ws, le w (ws.foldl Arithmetic.add a) := by
  induction ws generalizing a with
  | nil => exact ⟨laws.le_refl ha, fun w hw => absurd hw List.not_mem_nil⟩
  | cons v ws ih =>
    have hv := hws v List.mem_cons_self
    have hrest : ∀ w ∈ ws, isNonneg w = true := fun w hw => hws w (List.mem_cons_of_mem _ hw)
    obtain ⟨hle, hall⟩ := ih hrest (laws.nonneg_add ha hv)
    constructor
    · exact laws.le_trans (laws.le_add_left ha hv) hle
    · intro w hw
      rcases List.mem_cons.1 hw with rfl | hw
      · exact laws.le_trans (laws.le_add_right ha hv) hle
      · exact hall w hw

/-- Every weight is at most the sum of all. -/
theorem le_sum {ws : List W} (hws : ∀ w ∈ ws, isNonneg w = true) {w : W} (hw : w ∈ ws) :
    le w (Arithmetic.sum ws) := by
  cases ws with
  | nil => exact absurd hw List.not_mem_nil
  | cons v ws =>
    have hv := hws v List.mem_cons_self
    obtain ⟨hle, hall⟩ := laws.le_foldl_add (fun w hw => hws w (List.mem_cons_of_mem _ hw)) hv
    show le w (ws.foldl Arithmetic.add (Arithmetic.add Arithmetic.emptySum v))
    rw [laws.emptySum_add hv]
    rcases List.mem_cons.1 hw with rfl | hw
    · exact hle
    · exact hall w hw

end Laws
end Weight

namespace Theta

open Weight

variable {W : Type} [Weight W]

/-- The weights, if there are any, have a finite sum above zero. -/
def Normalizable (θ : Theta W) : Prop := θ.weights ≠ [] → IsMass θ.sum

theorem length_logs (θ : Theta W) : θ.logs.length = θ.length := by
  unfold logs normalized
  rw [List.length_map, List.length_map]
  rfl

section

variable (hexp : ExpProbability W)
include hexp

theorem exists_bernoulli {l : W} (hl : isLogProbability l = true) :
    ∃ θ : Theta W, bernoulli (exp l) = .ok θ ∧ θ.weights = [complement (exp l), exp l] := by
  obtain ⟨hnonneg, hcomplement⟩ := hexp l hl
  have hall : ∀ w ∈ [complement (exp l), exp l], isNonneg w = true := by
    intro w hw
    simp only [List.mem_cons, List.not_mem_nil, or_false] at hw
    rcases hw with rfl | rfl
    · exact hcomplement
    · exact hnonneg
  exact ⟨⟨_, hall⟩, dif_pos hall, rfl⟩

theorem exists_ofWeights {ls : List W} (hls : ∀ l ∈ ls, isLogProbability l = true) :
    ∃ θ : Theta W, ofWeights (ls.map exp) = .ok θ ∧ θ.weights = ls.map exp := by
  have hall : ∀ w ∈ ls.map exp, isNonneg w = true := by
    intro w hw
    obtain ⟨l, hl, rfl⟩ := List.mem_map.1 hw
    exact (hexp l (hls l hl)).1
  exact ⟨⟨_, hall⟩, dif_pos hall, rfl⟩

end

variable {le : W → W → Prop} (laws : Laws W le)
include laws

theorem isLogProbability_logs {θ : Theta W} (hθ : θ.Normalizable) :
    ∀ l ∈ θ.logs, isLogProbability l = true := by
  intro l hl
  obtain ⟨p, hp, rfl⟩ := List.mem_map.1 hl
  obtain ⟨w, hw, rfl⟩ := List.mem_map.1 hp
  apply laws.log_probability
  apply laws.div_mass (θ.nonneg w hw) (laws.le_sum θ.nonneg hw)
  exact hθ (List.ne_nil_of_mem hw)

end Theta
end Sentential
