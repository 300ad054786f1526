import Mathlib.Algebra.BigOperators.Group.Finset.Sigma
import Mathlib.Algebra.BigOperators.Ring.Finset
import Mathlib.Data.Finset.Powerset

/-!
# Assignments

An assignment to some variables is given by those among them that it makes true, so the
assignments to `A` are the sets in `A.powerset`. Where a sum over all assignments to two disjoint
sets of variables is over products of one factor for each set, it is the product of the two sums
(`sum_assignments_union`).
-/

namespace Sentential

variable {R : Type} [CommSemiring R] {A B : Finset Nat}

/-- The value of a function depends on the variables in `A` only. -/
def DependsOn {α : Type} (f : Finset Nat → α) (A : Finset Nat) : Prop := ∀ T, f (T ∩ A) = f T

/-- Assignments that agree on some variables agree on fewer. -/
theorem inter_eq_of_subset {T T' : Finset Nat} (h : B ⊆ A) (heq : T ∩ A = T' ∩ A) :
    T ∩ B = T' ∩ B := by
  rw [← Finset.inter_eq_right.2 h, ← Finset.inter_assoc, heq, Finset.inter_assoc]

/-- What is added on other variables is not seen on these. -/
theorem union_inter_of_disjoint (hdisjoint : Disjoint A B) {T T' : Finset Nat} (hT : T' ⊆ B) :
    (T ∪ T') ∩ A = T ∩ A := by
  rw [Finset.union_inter_distrib_right,
    Finset.disjoint_iff_inter_eq_empty.1 (hdisjoint.symm.mono_left hT), Finset.union_empty]

theorem DependsOn.mono {α : Type} {f : Finset Nat → α} (hf : DependsOn f B) (h : B ⊆ A) :
    DependsOn f A := by
  intro T
  have heq : T ∩ A ∩ B = T ∩ B := by rw [Finset.inter_assoc, Finset.inter_eq_right.2 h]
  rw [← hf (T ∩ A), heq, hf T]

/-- A variable has two assignments. -/
theorem sum_powerset_singleton (var : Nat) (f : Finset Nat → R) :
    ∑ T ∈ ({var} : Finset Nat).powerset, f T = f ∅ + f {var} := by
  have hpowerset : ({var} : Finset Nat).powerset = {∅, {var}} := by
    ext T
    simp [Finset.subset_singleton_iff]
  rw [hpowerset, Finset.sum_pair (Finset.singleton_ne_empty var).symm]

/-- What is summed over the assignments to disjoint sets of variables is summed for each. -/
theorem sum_assignments_union (hdisjoint : Disjoint A B) {f g : Finset Nat → R}
    (hf : DependsOn f A) (hg : DependsOn g B) :
    ∑ T ∈ (A ∪ B).powerset, f T * g T = (∑ T ∈ A.powerset, f T) * ∑ T ∈ B.powerset, g T := by
  rw [Finset.sum_mul_sum, ← Finset.sum_product']
  -- an assignment to both sets is a pair of assignments
  refine Finset.sum_bij' (fun T _ => (T ∩ A, T ∩ B)) (fun P _ => P.1 ∪ P.2) ?_ ?_ ?_ ?_ ?_
  · intro T _
    simp only [Finset.mem_product, Finset.mem_powerset]
    exact ⟨Finset.inter_subset_right, Finset.inter_subset_right⟩
  · intro P hP
    rw [Finset.mem_product, Finset.mem_powerset, Finset.mem_powerset] at hP
    exact Finset.mem_powerset.2 (Finset.union_subset_union hP.1 hP.2)
  · intro T hT
    rw [Finset.mem_powerset] at hT
    show T ∩ A ∪ T ∩ B = T
    rw [← Finset.inter_union_distrib_left, Finset.inter_eq_left.2 hT]
  · intro P hP
    rw [Finset.mem_product, Finset.mem_powerset, Finset.mem_powerset] at hP
    have hleft : P.2 ∩ A = ∅ :=
      Finset.disjoint_iff_inter_eq_empty.1 (hdisjoint.symm.mono_left hP.2)
    have hright : P.1 ∩ B = ∅ := Finset.disjoint_iff_inter_eq_empty.1 (hdisjoint.mono_left hP.1)
    show ((P.1 ∪ P.2) ∩ A, (P.1 ∪ P.2) ∩ B) = P
    rw [Finset.union_inter_distrib_right, Finset.union_inter_distrib_right, hleft, hright,
      Finset.inter_eq_left.2 hP.1, Finset.inter_eq_left.2 hP.2, Finset.union_empty,
      Finset.empty_union]
  · intro T _
    rw [hf T, hg T]

/-- What depends on some variables is summed for each assignment to the others again. -/
theorem sum_assignments_of_subset (h : A ⊆ B) {f : Finset Nat → R} (hf : DependsOn f A) :
    ∑ T ∈ B.powerset, f T = (∑ T ∈ A.powerset, f T) * 2 ^ (B.card - A.card) := by
  have hone : DependsOn (fun _ => (1 : R)) (B \ A) := fun _ => rfl
  have hunion := sum_assignments_union Finset.disjoint_sdiff hf hone
  simp only [mul_one] at hunion
  rw [Finset.union_sdiff_of_subset h] at hunion
  rw [hunion, Finset.sum_const, Finset.card_powerset, Finset.card_sdiff_of_subset h,
    nsmul_eq_mul, mul_one, Nat.cast_pow, Nat.cast_ofNat]

end Sentential
