import Mathlib.Data.Fintype.Basic
import Mathlib.Tactic.Ring
import Sentential.Proofs.Meaning.Assignment

/-!
# Marginals

A function of the evidence is *marginal* over some variables if under any evidence it is the sum
of its values under all assignments to the variables that agree with the evidence. The indicators
of a variable are marginal over the variable, a weighted sum of marginal functions is marginal, and
so is the product of two that are marginal over different variables.

Evidence that holds a variable and its negation agrees with no assignment.
-/

namespace Sentential

/-- The literals of some variables that an assignment makes true. -/
def observations (vars : List Nat) (T : Finset Nat) : List Int :=
  vars.map fun var => if var ∈ T then (var : Int) else -(var : Int)

/-- The assignment makes none of the observed literals of the variables false. -/
def Agrees (A : Finset Nat) (evidence : List Int) (T : Finset Nat) : Prop :=
  ∀ var ∈ A, ((var : Int) ∈ evidence → var ∈ T) ∧ (-(var : Int) ∈ evidence → var ∉ T)

instance (A : Finset Nat) (evidence : List Int) (T : Finset Nat) :
    Decidable (Agrees A evidence T) :=
  inferInstanceAs (Decidable (∀ var ∈ A, _ ∧ _))

variable {R : Type} [CommSemiring R] {vars : List Nat} {A B T : Finset Nat} {f g : List Int → R}
  {evidence : List Int}

theorem mem_observations (hpos : ∀ var ∈ vars, 0 < var) {var : Nat} (hvar : var ∈ vars) :
    ((var : Int) ∈ observations vars T ↔ var ∈ T) ∧
      (-(var : Int) ∈ observations vars T ↔ var ∉ T) := by
  have hzero := hpos var hvar
  unfold observations
  simp only [List.mem_map]
  constructor
  · constructor
    · rintro ⟨x, hx, heq⟩
      have hx := hpos x hx
      split at heq
      · next hmem =>
        obtain rfl : x = var := by omega
        exact hmem
      · omega
    · intro hmem
      exact ⟨var, hvar, if_pos hmem⟩
  · constructor
    · rintro ⟨x, hx, heq⟩
      have hx := hpos x hx
      split at heq
      · omega
      · next hmem =>
        obtain rfl : x = var := by omega
        exact hmem
    · intro hmem
      exact ⟨var, hvar, if_neg hmem⟩

theorem agrees_union : Agrees (A ∪ B) evidence T ↔ Agrees A evidence T ∧ Agrees B evidence T :=
  Finset.forall_mem_union

theorem dependsOn_agrees (A : Finset Nat) (evidence : List Int) :
    DependsOn (Agrees A evidence) A := by
  intro T
  apply propext
  refine forall₂_congr fun var hvar => ?_
  simp [hvar]

/-- Under any evidence the function is the sum of its values under the assignments that agree. -/
structure Marginal (vars : List Nat) (A : Finset Nat) (f : List Int → R) : Prop where
  depends : DependsOn (fun T => f (observations vars T)) A
  sum : ∀ evidence, f evidence = ∑ T ∈ A.powerset with Agrees A evidence T, f (observations vars T)

namespace Marginal

/-- The sum over all assignments, where one that does not agree counts for nothing. -/
theorem sum_ite (h : Marginal vars A f) (evidence : List Int) : f evidence
    = ∑ T ∈ A.powerset, if Agrees A evidence T then f (observations vars T) else 0 := by
  rw [h.sum evidence, Finset.sum_filter]

theorem dependsOn_ite (h : Marginal vars A f) (evidence : List Int) :
    DependsOn (fun T => if Agrees A evidence T then f (observations vars T) else 0) A := by
  intro T
  have hagrees := dependsOn_agrees A evidence T
  have hvalue := h.depends T
  simp only at hvalue
  simp only [hagrees, hvalue]

/-- The product of functions of different variables. -/
theorem mul (hdisjoint : Disjoint A B) (hf : Marginal vars A f) (hg : Marginal vars B g) :
    Marginal vars (A ∪ B) fun evidence => f evidence * g evidence := by
  constructor
  case depends =>
    intro T
    have hA : A ⊆ A ∪ B := Finset.subset_union_left
    have hB : B ⊆ A ∪ B := Finset.subset_union_right
    have hleft := hf.depends.mono hA T
    have hright := hg.depends.mono hB T
    simp only at hleft hright ⊢
    rw [hleft, hright]
  case sum =>
    intro evidence
    rw [hf.sum_ite evidence, hg.sum_ite evidence, ← sum_assignments_union hdisjoint
      (hf.dependsOn_ite evidence) (hg.dependsOn_ite evidence), Finset.sum_filter]
    refine Finset.sum_congr rfl fun T _ => ?_
    rw [ite_zero_mul_ite_zero]
    exact if_congr agrees_union.symm rfl rfl

theorem zero (vars : List Nat) (A : Finset Nat) : Marginal vars A fun _ => (0 : R) :=
  ⟨fun _ => rfl, fun _ => Finset.sum_const_zero.symm⟩

theorem add (hf : Marginal vars A f) (hg : Marginal vars A g) :
    Marginal vars A fun evidence => f evidence + g evidence := by
  constructor
  case depends =>
    intro T
    have hleft := hf.depends T
    have hright := hg.depends T
    simp only at hleft hright ⊢
    rw [hleft, hright]
  case sum =>
    intro evidence
    rw [hf.sum evidence, hg.sum evidence, Finset.sum_add_distrib]

theorem smul (w : R) (hf : Marginal vars A f) : Marginal vars A fun evidence => w * f evidence := by
  constructor
  case depends =>
    intro T
    have h := hf.depends T
    simp only at h ⊢
    rw [h]
  case sum =>
    intro evidence
    rw [hf.sum evidence, Finset.mul_sum]

/-- A sum over a list of marginal functions. -/
theorem list_sum {α : Type} {xs : List α} {f : α → List Int → R}
    (h : ∀ x ∈ xs, Marginal vars A (f x)) :
    Marginal vars A fun evidence => (xs.map fun x => f x evidence).sum := by
  induction xs with
  | nil => exact zero vars A
  | cons x xs ih =>
    simp only [List.map_cons, List.sum_cons]
    exact (h x List.mem_cons_self).add (ih fun y hy => h y (List.mem_cons_of_mem _ hy))

/-- The indicator of a variable. -/
theorem positive (hpos : ∀ var ∈ vars, 0 < var) {var : Nat} (hvar : var ∈ vars) :
    Marginal vars {var} fun evidence => if -(var : Int) ∈ evidence then (0 : R) else 1 := by
  have hmem := fun T => (mem_observations (T := T) hpos hvar).2
  constructor
  case depends =>
    intro T
    simp [hmem]
  case sum =>
    intro evidence
    rw [Finset.sum_filter, sum_powerset_singleton]
    simp [hmem, Agrees]

/-- The indicator of the negation of a variable. -/
theorem negative (hpos : ∀ var ∈ vars, 0 < var) {var : Nat} (hvar : var ∈ vars) :
    Marginal vars {var} fun evidence => if (var : Int) ∈ evidence then (0 : R) else 1 := by
  have hmem := fun T => (mem_observations (T := T) hpos hvar).1
  constructor
  case depends =>
    intro T
    simp [hmem]
  case sum =>
    intro evidence
    rw [Finset.sum_filter, sum_powerset_singleton]
    simp [hmem, Agrees]

end Marginal
end Sentential
