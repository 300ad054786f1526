import Sentential.Proofs.Weight.Laws

/-!
# Weights that are zero

Weights are written as the logarithms of their parts of the sum, and a sum of zero leaves no parts:
zero divided by zero is no number, and neither is the logarithm of that. `Weight.ZeroLaws` collects
what is known of zero in a number type that has an undefined number. Weights that were read are
probabilities, and these have a sum that divides them unless all of them are zero
(`Theta.normalizable_of_not_weightless`).

Doubles have these laws: a probability that is not zero is at least the smallest double, and sums
of probabilities are finite.
-/

namespace Sentential
namespace Weight

variable {W : Type} [Weight W]

/-- The number is zero. -/
def IsZero (a : W) : Prop := same a Arithmetic.zero = true

/-- The number is the same as no number, not even as itself. -/
def IsUndefined (a : W) : Prop := ∀ b, same a b = false

/-- The laws of zero and of the undefined number. -/
structure ZeroLaws (W : Type) [Weight W] : Prop where
  zero_or_mass : ∀ {p : W}, IsProbability p → IsZero p ∨ IsMass p
  zero_add_zero : ∀ {a b : W}, IsZero a → IsZero b → IsZero (Arithmetic.add a b)
  zero_add_mass : ∀ {a b : W}, IsZero a → IsMass b → IsMass (Arithmetic.add a b)
  /-- No probability carries a finite sum to infinity. -/
  mass_add : ∀ {a p : W}, IsMass a → IsProbability p → IsMass (Arithmetic.add a p)
  /-- Of two probabilities that are opposites not both are zero. -/
  complement_add : ∀ {p : W}, IsProbability p → IsMass (Arithmetic.add (complement p) p)
  zero_div_zero : ∀ {a b : W}, IsZero a → IsZero b → IsUndefined (div a b)
  log_undefined : ∀ {a : W}, IsUndefined a → IsUndefined (log a)
  isLogProbability_undefined : ∀ {a : W}, IsUndefined a → isLogProbability a = false
  /-- The undefined number is written and read as such, whichever of its forms it has. -/
  read_text_undefined : ∀ {a : W}, IsUndefined a → ∃ b : W, read? (text a) = some b ∧ IsUndefined b
  isField_text_undefined : ∀ {a : W}, IsUndefined a → Text.IsField (text a)

namespace ZeroLaws

variable (zeros : ZeroLaws W)
include zeros

/-- A sum that is above zero stays so. -/
theorem foldl_mass {ws : List W} (hws : ∀ w ∈ ws, IsProbability w) {a : W} (ha : IsMass a) :
    IsMass (ws.foldl Arithmetic.add a) := by
  induction ws generalizing a with
  | nil => exact ha
  | cons w ws ih =>
    exact ih (fun v hv => hws v (List.mem_cons_of_mem _ hv))
      (zeros.mass_add ha (hws w List.mem_cons_self))

theorem foldl_zero {ws : List W} (hws : ∀ w ∈ ws, IsZero w) {a : W} (ha : IsZero a) :
    IsZero (ws.foldl Arithmetic.add a) := by
  induction ws generalizing a with
  | nil => exact ha
  | cons w ws ih =>
    exact ih (fun v hv => hws v (List.mem_cons_of_mem _ hv))
      (zeros.zero_add_zero ha (hws w List.mem_cons_self))

/-- A sum rises above zero with the first weight that is not zero. -/
theorem foldl_mass_of_exists {ws : List W} (hws : ∀ w ∈ ws, IsProbability w)
    (hsome : ∃ w ∈ ws, ¬ IsZero w) {a : W} (ha : IsZero a) :
    IsMass (ws.foldl Arithmetic.add a) := by
  induction ws generalizing a with
  | nil => exact absurd hsome (by simp)
  | cons w ws ih =>
    have hrest : ∀ v ∈ ws, IsProbability v := fun v hv => hws v (List.mem_cons_of_mem _ hv)
    rcases zeros.zero_or_mass (hws w List.mem_cons_self) with hzero | hmass
    · obtain ⟨v, hv, hne⟩ := hsome
      have hv : v ∈ ws := (List.mem_cons.1 hv).resolve_left fun heq => hne (heq ▸ hzero)
      exact ih hrest ⟨v, hv, hne⟩ (zeros.zero_add_zero ha hzero)
    · exact zeros.foldl_mass hrest (zeros.zero_add_mass ha hmass)

/-- Zero is not above zero. -/
theorem not_mass {a : W} (ha : IsZero a) : ¬ IsMass a := by
  intro hmass
  have hsame := zeros.zero_div_zero ha ha Arithmetic.one
  exact absurd (hsame.symm.trans hmass.2) (by simp)

end ZeroLaws
end Weight

namespace Theta

open Weight

variable {W : Type} [Weight W] {θ : Theta W}

/-- There are weights, and all of them are zero. -/
def Weightless (θ : Theta W) : Prop := θ.weights ≠ [] ∧ ∀ w ∈ θ.weights, IsZero w

/-- A sum of weights starts from the first weight. -/
theorem sum_eq_foldl {le : W → W → Prop} (laws : Laws W le) {w : W} {ws : List W}
    (h : θ.weights = w :: ws) : θ.sum = ws.foldl Arithmetic.add w := by
  have hnonneg : isNonneg w = true := θ.nonneg w (by simp [h])
  unfold sum Arithmetic.sum
  rw [h, List.foldl_cons, laws.emptySum_add hnonneg]

variable {le : W → W → Prop} (laws : Laws W le) (zeros : ZeroLaws W)
include laws zeros

theorem Weightless.isZero_sum (h : θ.Weightless) : IsZero θ.sum := by
  obtain ⟨hne, hall⟩ := h
  obtain ⟨w, ws, hws⟩ := List.exists_cons_of_ne_nil hne
  rw [hws] at hall
  rw [sum_eq_foldl laws hws]
  exact zeros.foldl_zero (fun v hv => hall v (List.mem_cons_of_mem _ hv))
    (hall w List.mem_cons_self)

/-- Weights that are all zero have no logarithms. -/
theorem Weightless.undefined_logs (h : θ.Weightless) : ∀ l ∈ θ.logs, IsUndefined l := by
  intro l hl
  obtain ⟨p, hp, rfl⟩ := List.mem_map.1 hl
  obtain ⟨w, hw, rfl⟩ := List.mem_map.1 hp
  exact zeros.log_undefined (zeros.zero_div_zero (h.2 w hw) (h.isZero_sum laws zeros))

theorem Weightless.not_normalizable (h : θ.Weightless) : ¬ θ.Normalizable :=
  fun hθ => zeros.not_mass (h.isZero_sum laws zeros) (hθ h.1)

/-- Probabilities can be taken as parts of their sum unless all of them are zero. -/
theorem normalizable_of_not_weightless (hθ : ∀ w ∈ θ.weights, IsProbability w)
    (hsome : ¬ θ.Weightless) : θ.Normalizable := by
  intro hne
  obtain ⟨w, ws, hws⟩ := List.exists_cons_of_ne_nil hne
  have hexists : ∃ v ∈ w :: ws, ¬ IsZero v := by
    by_contra hnone
    push Not at hnone
    exact hsome ⟨hne, hws ▸ hnone⟩
  rw [hws] at hθ
  have hrest : ∀ v ∈ ws, IsProbability v := fun v hv => hθ v (List.mem_cons_of_mem _ hv)
  rw [sum_eq_foldl laws hws]
  rcases zeros.zero_or_mass (hθ w List.mem_cons_self) with hzero | hmass
  · -- the first weight is zero, so it is another one that is not
    obtain ⟨v, hv, hnonzero⟩ := hexists
    have hv : v ∈ ws := (List.mem_cons.1 hv).resolve_left fun heq => hnonzero (heq ▸ hzero)
    exact zeros.foldl_mass_of_exists hrest ⟨v, hv, hnonzero⟩ hzero
  · exact zeros.foldl_mass hrest hmass

/-- The two weights of a probability and its opposite can be taken as parts of their sum. -/
theorem normalizable_bernoulli {p : W} (hp : IsProbability p)
    (hθ : θ.weights = [complement p, p]) : θ.Normalizable := by
  intro _
  rw [sum_eq_foldl laws hθ]
  exact zeros.complement_add hp

end Theta
end Sentential
