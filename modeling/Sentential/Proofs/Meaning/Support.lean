import Mathlib.Algebra.Order.BigOperators.Group.List
import Mathlib.Algebra.Order.Ring.Rat
import Sentential.Proofs.Circuit.Exact
import Sentential.Proofs.Meaning.Falsity
import Sentential.Proofs.Meaning.Marginal

/-!
# The support of a circuit

The circuit of a diagram has no opcodes for elements with a part that never holds, while the
function of a decision is made from all of its elements. `Built.compile_support`: nothing is lost.
With its weights taken as rational numbers, the circuit is worth zero under every assignment under
which the root does not hold, and more than zero under all others if the weights are.

Both directions follow the order in which the circuit was emitted. A node that holds has an element
whose parts both hold, and as no node that holds is said never to hold, that element was kept.
-/

namespace Sentential

/-- Of each of the variables `1, …, n` the evidence holds the literal that the assignment makes
true, and only that one. -/
def Describes (n : Nat) (T : Finset Nat) (evidence : List Int) : Prop :=
  ∀ var : Nat, 1 ≤ var → var ≤ n →
    ((var : Int) ∈ evidence ↔ var ∈ T) ∧ (-(var : Int) ∈ evidence ↔ var ∉ T)

variable {n : Nat} {T : Finset Nat} {evidence : List Int}

/-- Every assignment is described by its own literals. -/
theorem describes_observations (n : Nat) (T : Finset Nat) :
    Describes n T (observations (List.range' 1 n) T) := by
  intro var hpos hle
  refine mem_observations (fun v hv => ?_) ?_
  · exact (List.mem_range'_1.1 hv).1
  · rw [List.mem_range'_1]
    omega

/-- The evidence holds the opposite of the literals that the assignment makes false. -/
theorem Describes.neg_mem_iff (h : Describes n T evidence) {l : Literal} (hle : l.var ≤ n) :
    -l.value ∈ evidence ↔ ¬ (l.isPositive = true ↔ l.var ∈ T) := by
  have hpos : 1 ≤ l.var := Int.natAbs_pos.2 l.nonzero
  obtain ⟨htrue, hfalse⟩ := h l.var hpos hle
  have hsign : l.value = l.var ∨ l.value = -(l.var : Int) := Int.natAbs_eq l.value
  rcases hsign with hvalue | hvalue
  · have hpositive : l.isPositive = true := decide_eq_true (by omega)
    rw [hvalue, hfalse]
    simp [hpositive]
  · have hnegative : l.isPositive = false := decide_eq_false (by omega)
    rw [hvalue, neg_neg, htrue]
    simp [hnegative]

namespace Store

open Indexing

variable {W : Type} [Weight W] {s : Store W} {id root : NodeId} {order : List NodeId} {l : Layout}
  {e : Emission W} {q : W → ℚ} {c : Circuit W} {c' : Circuit ℚ}

/-- All weights of some nodes are positive numbers. -/
def PositiveWeights (s : Store W) (q : W → ℚ) (order : List NodeId) : Prop :=
  ∀ id ∈ order, ∀ (e : Entry W) (θ : Theta W), s.entry id = .ok e → e.theta = some θ →
    ∀ w ∈ θ.weights, 0 < q w

/-- A decision uses positive numbers for its elements if all its weights are. -/
theorem PositiveWeights.weightIn (h : s.PositiveWeights q order) (hs : s.Sound) (hmem : id ∈ order)
    {v : VtreeId} {es : List Element} {θ : Theta W} {b : Bool}
    (he : s.entry id = .ok ⟨⟨.decision v es, some θ⟩, b⟩) {x : Element} (hx : x ∈ es) :
    0 < weightIn q ⟨.decision v es, some θ⟩ x := by
  obtain ⟨i, w, -, hw, hweight⟩ := exists_elementWeight (v := v) (hs.length_theta he) hx
  unfold Store.weightIn
  rw [hweight]
  exact h id hmem _ θ he rfl w (List.mem_of_getElem? hw)

/-- The elements of a decision that can hold include all that do. -/
theorem Sound.positive_of_holds (hs : s.Sound) (hclosed : s.Closed) {x : Element}
    (hprime : s.Holds T x.prime) (hsub : s.Holds T x.sub) : s.positive x = true :=
  positive_iff.2 ⟨hprime.isFalse hs hclosed, hsub.isFalse hs hclosed⟩

section

variable (hs : s.Sound) (hclosed : s.Closed) (h : s.Compiled order l e)
  (hc : e.Yields s.varCount q c') (hsettled : Settled s.positiveElements order)
  (hdescribes : Describes s.varCount T evidence)

section

include hs h hc hdescribes

theorem Compiled.headValue_literal_holds {lit : Literal} {b : Bool}
    (he : s.entry id = .ok ⟨⟨.literal lit, none⟩, b⟩) :
    headValue l c' evidence id = if s.Holds T id then 1 else 0 := by
  have hv := hs.literal?_of_kind (kind_of_entry he)
  have hle : lit.var ≤ s.varCount := (exists_literal?.1 ⟨id, hv⟩).2
  have hmem := hdescribes.neg_mem_iff hle
  rw [← holds_literal (kind_of_entry he)] at hmem
  rw [h.headValue_literal hc hv, if_congr hmem rfl rfl, ite_not]
  rfl

/-- Under an assignment a TRUE node is worth the weight of the value that its variable has. -/
theorem Compiled.headValue_top_describes (hmem : id ∈ order) {leaf : VtreeId} {θ : Theta W}
    {b : Bool} (he : s.entry id = .ok ⟨⟨.top (some leaf), some θ⟩, b⟩) :
    ∃ w ∈ θ.weights, headValue l c' evidence id = q w := by
  obtain ⟨var, w₀, w₁, hleaf, hw, hvalue⟩ := h.headValue_top hc hmem he
  obtain ⟨hpos, hle⟩ := hs.vtree.leafOf_range hleaf
  obtain ⟨htrue, hfalse⟩ := hdescribes var hpos hle
  rw [hvalue, Arithmetic.sum_rat, Arithmetic.product_rat, Arithmetic.product_rat,
    if_congr htrue rfl rfl, if_congr hfalse rfl rfl, hw]
  by_cases hT : var ∈ T
  · exact ⟨w₁, by simp, by simp [hT, Arithmetic.zero, Arithmetic.one]⟩
  · exact ⟨w₀, by simp, by simp [hT, Arithmetic.zero, Arithmetic.one]⟩

end

section

include hs hclosed h hc

variable {v : VtreeId} {es : List Element} {θ : Theta W} {b : Bool} (hmem : id ∈ order)
  (he : s.entry id = .ok ⟨⟨.decision v es, some θ⟩, b⟩)
  (hzero : ∀ y ∈ nodesBelow (es.filter s.positive), ¬ s.Holds T y →
    headValue l c' evidence y = 0)
include hmem he hzero

omit hs hclosed in
/-- Where a decision does not hold, every element has a part that does not. -/
theorem Compiled.headValue_decision_eq_zero (hnot : ¬ s.Holds T id) :
    headValue l c' evidence id = 0 := by
  rw [h.headValue_decision hc hmem he, Arithmetic.sum_rat]
  simp only [Arithmetic.product_rat, List.prod_cons, List.prod_nil, mul_one]
  refine List.sum_eq_zero fun value hvalue => ?_
  obtain ⟨x, hx, rfl⟩ := List.mem_map.1 hvalue
  have hfails : ¬ s.Holds T x.prime ∨ ¬ s.Holds T x.sub := by
    by_contra hboth
    push Not at hboth
    exact hnot (.decision (kind_of_entry he) (List.mem_of_mem_filter hx) hboth.1 hboth.2)
  rcases hfails with hprime | hsub
  · rw [hzero _ (prime_mem_nodesBelow hx) hprime, zero_mul, mul_zero]
  · rw [hzero _ (sub_mem_nodesBelow hx) hsub, mul_zero, mul_zero]

/-- Where a decision holds, an element that holds was kept, and no other takes anything away. -/
theorem Compiled.headValue_decision_pos (hpositive : s.PositiveWeights q order)
    (hpos : ∀ y ∈ nodesBelow (es.filter s.positive), s.Holds T y → 0 < headValue l c' evidence y)
    (hholds : s.Holds T id) : 0 < headValue l c' evidence id := by
  have hnonneg : ∀ y ∈ nodesBelow (es.filter s.positive), 0 ≤ headValue l c' evidence y := by
    intro y hy
    by_cases hy' : s.Holds T y
    · exact (hpos y hy hy').le
    · exact (hzero y hy hy').ge
  obtain ⟨x, hx, hprime, hsub⟩ := (holds_decision (kind_of_entry he)).1 hholds
  have hkept : x ∈ es.filter s.positive :=
    List.mem_filter.2 ⟨hx, hs.positive_of_holds hclosed hprime hsub⟩
  have hterm := mul_pos (hpositive.weightIn hs hmem he hx)
    (mul_pos (hpos _ (prime_mem_nodesBelow hkept) hprime) (hpos _ (sub_mem_nodesBelow hkept) hsub))
  rw [h.headValue_decision hc hmem he, Arithmetic.sum_rat]
  simp only [Arithmetic.product_rat, List.prod_cons, List.prod_nil, mul_one]
  refine lt_of_lt_of_le hterm
    (List.single_le_sum (fun value hvalue => ?_) _ (List.mem_map.2 ⟨x, hkept, rfl⟩))
  obtain ⟨y, hy, rfl⟩ := List.mem_map.1 hvalue
  exact mul_nonneg (hpositive.weightIn hs hmem he (List.mem_of_mem_filter hy)).le
    (mul_nonneg (hnonneg _ (prime_mem_nodesBelow hy)) (hnonneg _ (sub_mem_nodesBelow hy)))

end

include hs hclosed h hc hsettled hdescribes

/-- A node is worth zero under an assignment under which it does not hold, and more than zero under
one under which it does if all weights are positive. -/
theorem Compiled.headValue_support (hmem : id ∈ order) :
    (¬ s.Holds T id → headValue l c' evidence id = 0) ∧
      (s.PositiveWeights q order → s.Holds T id → 0 < headValue l c' evidence id) := by
  -- the parts of the elements have smaller ids
  induction hraw : id.raw using Nat.strong_induction_on generalizing id with
  | _ n ih =>
    subst hraw
    cases h.wired id hmem with
    | literal lit he =>
      rw [h.headValue_literal_holds hs hc hdescribes he]
      exact ⟨fun hnot => if_neg hnot, fun _ hholds => by simp [hholds]⟩
    | top leaf var θ w₀ w₁ no yes negative positive a₀ a₁ p₀ p₁ i he =>
      obtain ⟨w, hw, hvalue⟩ := h.headValue_top_describes hs hc hdescribes hmem he
      refine ⟨fun hnot => absurd (.top (kind_of_entry he)) hnot, fun hpositive _ => ?_⟩
      rw [hvalue]
      exact hpositive id hmem _ θ he rfl w hw
    | decision v es θ xs i ps he =>
      have hknown : s.KnowsBelow es := hclosed.knowsBelow (elements_of_entry he)
      have hps := hsettled.mem hmem (positiveElements_known hknown (elements_of_entry he))
      have hbelow := fun y hy => ih y.raw
        (hclosed (elements_of_entry he) y (mem_nodesBelow_filter hy).1) (hps y hy) rfl
      have hzero := fun y hy => (hbelow y hy).1
      exact ⟨h.headValue_decision_eq_zero hc hmem he hzero, fun hpositive =>
        h.headValue_decision_pos hs hclosed hc hmem he hzero hpositive
          fun y hy => (hbelow y hy).2 hpositive⟩

end

/-! ## Roots -/

/-- The circuit of a diagram is worth zero under the assignments under which the root does not hold.
If all weights that it is made of are positive, it is worth more than zero under all others. -/
theorem Built.compile_support (h : s.Built) (hcompile : s.compile root = .ok c) : ∃ order,
    s.positiveOrder root = .ok order ∧ ∀ (q : W → ℚ) (T : Finset Nat) (evidence : List Int),
      Describes s.varCount T evidence →
      (¬ s.Holds T root → (c.map q).evaluate evidence = 0) ∧
      (s.PositiveWeights q order → s.Holds T root → 0 < (c.map q).evaluate evidence) := by
  have hs := h.sound
  obtain ⟨b, order, l, e, hp, hcompiled, rfl⟩ := h.exists_compiled hcompile
  refine ⟨order, hp.positiveOrder, fun q T evidence hdescribes => ?_⟩
  have hc := yields_circuitOf s e (if b then none else l.head? root) q
  cases b with
  | true =>
    exact ⟨fun _ => rfl, fun _ hholds => absurd hp.isFalse (hholds.not_isFalse hs h.closed)⟩
  | false =>
    simp only [Bool.false_eq_true, if_false] at hc ⊢
    rw [hcompiled.evaluate_eq hp.root_mem]
    exact hcompiled.headValue_support hs h.closed hc hp.settled hdescribes hp.root_mem

theorem compile_support_sample : ∃ c order, sample.compile ⟨8⟩ = .ok c ∧
    sample.positiveOrder ⟨8⟩ = .ok order ∧ ∀ (q : Extreme → ℚ) (T : Finset Nat),
      (¬ sample.Holds T ⟨8⟩ →
        (c.map q).evaluate (observations (List.range' 1 sample.varCount) T) = 0) ∧
      (sample.PositiveWeights q order → sample.Holds T ⟨8⟩ →
        0 < (c.map q).evaluate (observations (List.range' 1 sample.varCount) T)) := by
  have hnone : ∀ a ∈ [⟨8⟩, ⟨7⟩, ⟨3⟩, ⟨4⟩, NodeId.bottom], sample.refusal? a = none := by decide
  obtain ⟨c, hc⟩ := built_sample.exists_circuit (by decide) fun id hid =>
    hnone id (mem_of_reaches_sample hid)
  obtain ⟨order, horder, hsupport⟩ := built_sample.compile_support hc
  exact ⟨c, order, hc, horder, fun q T => hsupport q T _ (describes_observations _ T)⟩

end Store
end Sentential
