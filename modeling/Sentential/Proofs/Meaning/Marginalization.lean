import Sentential.Proofs.Circuit.Exact
import Sentential.Proofs.Format.PsddImage
import Sentential.Proofs.Meaning.Function
import Sentential.Proofs.Meaning.Marginal

/-!
# Marginalization

The circuit of a probabilistic diagram that was read from a file, with its weights taken as
rational numbers, computes marginals (`readPsdd_marginal`): under any evidence its value is the sum
of its values under all assignments to the variables of the root that agree with the evidence. If
the weights of every node sum to one, so do the values under all assignments.

What carries the proof is that the reader lets a prime in only at the left side of its decision and
a sub only at the right side. So the parts of a positive element speak of different variables, and
together of all variables of the decision (`Compiled.marginal`).
-/

namespace Sentential.Store

open Vtree Indexing

variable {W : Type} [Weight W] {s s' : Store W} {id root : NodeId} {order : List NodeId}
  {l : Layout} {e : Emission W} {q : W → ℚ} {c : Circuit ℚ} {vars : List Nat}

/-! ## Probabilistic diagrams as circuits -/

namespace Probabilistic

/-- No probabilistic node lacks the weights that its opcodes need. -/
theorem refusal? (h : s.Probabilistic id) (hs : s.Sound) : s.refusal? id = none := by
  unfold Store.refusal?
  cases h with
  | bottom => rw [hs.base.entry_bottom]
  | literal hliteral =>
    obtain ⟨v, hv⟩ := hliteral
    obtain ⟨lit, -, he⟩ := hs.entry_of_literal? hv
    rw [he]
  | top he => rw [he]
  | decision he => rw [he]

/-- A probabilistic diagram becomes a circuit. -/
theorem exists_circuit (h : s.Probabilistic root) (hs : s.Sound) : ∃ b order l e,
    s.Positive root b order ∧ s.Compiled order l e ∧ (∀ id ∈ order, s.Probabilistic id) ∧
      s.compile root = .ok (s.circuitOf e (if b then none else l.head? root)) := by
  obtain ⟨b, order, hp, horder⟩ := exists_positive_of NodeId.raw (fun id hid => hid.knows hs)
    (fun id es hid hes => hid.of_elements hs hes) h
  have hcompilable : ∀ id ∈ order, s.Compilable id := by
    intro id hid
    refine hs.compilable (fun es hes x hx => ?_) (hp.holds id hid) ((horder id hid).refusal? hs)
    exact ((horder id hid).of_elements hs hes x hx).1.knows hs
  obtain ⟨l, e, hcompiled, hcompile⟩ := hp.exists_compiled hs hcompilable
  exact ⟨b, order, l, e, hp, hcompiled, horder, hcompile⟩

/-- Every probabilistic node but the terminal belongs to a vtree node. -/
theorem exists_vtreeOf (h : s.Probabilistic id) (hs : s.Sound) (hne : id ≠ .bottom) :
    ∃ v t, s.vtreeOf id = .ok (some v) ∧ s.vtree.subtree? v = some t := by
  rcases hs.vtreeOf_cases (h.knows hs) with hnone | hsome
  · cases h with
    | bottom => exact absurd rfl hne
    | literal hliteral =>
      obtain ⟨v, hv⟩ := hliteral
      obtain ⟨lit, -, he⟩ := hs.entry_of_literal? hv
      obtain ⟨leaf, hleaf⟩ := hs.exists_leafOf (kind_of_entry he)
      exact absurd (hnone.symm.trans (vtreeOf_literal (kind_of_entry he) hleaf)) (by simp)
    | top he => exact absurd (hnone.symm.trans (vtreeOf_top (kind_of_entry he))) (by simp)
    | decision he => exact absurd (hnone.symm.trans (vtreeOf_decision (kind_of_entry he))) (by simp)
  · exact hsome

/-- A node that can hold and sits at a side is over all variables of the side. -/
theorem ownVars_eq (h : s.Probabilistic id) (hs : s.Sound) (hholds : s.isFalse id = .ok false)
    {side : VtreeId} (hsits : s.sitsAt side id = .ok true) {t : Tree}
    (ht : s.vtree.subtree? side = some t) : s.ownVars id = t.leafVars.toFinset := by
  obtain ⟨v, u, hv, hu⟩ := h.exists_vtreeOf hs (hs.ne_bottom hholds)
  unfold Store.sitsAt at hsits
  rw [hv, ok_bind] at hsits
  obtain rfl : v = side := by simpa using hsits
  obtain rfl := Option.some_inj.1 (hu.symm.trans ht)
  exact Store.ownVars_eq hv hu

end Probabilistic

/-! ## Values of heads -/

/-- The weights of the node sum to one: both weights of a TRUE node, and those of the positive
elements of a decision, which all differ. -/
structure Stochastic (s : Store W) (q : W → ℚ) (id : NodeId) : Prop where
  top : ∀ leaf θ b, s.entry id = .ok ⟨⟨.top leaf, some θ⟩, b⟩ → (θ.weights.map q).sum = 1
  distinct : ∀ v es θ b, s.entry id = .ok ⟨⟨.decision v es, some θ⟩, b⟩ → es.Nodup
  decision : ∀ v es θ b, s.entry id = .ok ⟨⟨.decision v es, some θ⟩, b⟩ →
    ((s.weighted es θ.weights).map fun x => q x.2).sum = 1

section

variable (hs : s.Sound) (h : s.Compiled order l e) (hc : e.Yields s.varCount q c)
include hs h hc

/-- The head of a literal is its variable or the negation of it. -/
theorem Compiled.marginal_literal (hpos : ∀ var ∈ vars, 0 < var) (hid : s.IsLiteral id)
    (hsub : ∀ var ∈ s.ownVars id, var ∈ vars) :
    Marginal vars (s.ownVars id) fun evidence => headValue l c evidence id := by
  obtain ⟨v, hv⟩ := hid
  obtain ⟨lit, rfl, he⟩ := hs.entry_of_literal? hv
  obtain ⟨leaf, hleaf⟩ := hs.exists_leafOf (kind_of_entry he)
  have hown : s.ownVars id = {lit.var} := by
    rw [Store.ownVars_eq (vtreeOf_literal (kind_of_entry he) hleaf) (hs.vtree.leafOf_iff.1 hleaf)]
    rfl
  have hvar : lit.var ∈ vars := hsub _ (by simp [hown])
  simp only [h.headValue_literal hc hv]
  rw [hown]
  rcases Int.natAbs_eq lit.value with hvalue | hvalue
  · rw [hvalue]
    exact Marginal.positive hpos hvar
  · rw [hvalue, neg_neg]
    exact Marginal.negative hpos hvar

/-- The head of a TRUE node is its variable and the negation of it, each with a weight. -/
theorem Compiled.marginal_top (hpos : ∀ var ∈ vars, 0 < var) {leaf : VtreeId} {θ : Theta W} {b : Bool}
    (he : s.entry id = .ok ⟨⟨.top (some leaf), some θ⟩, b⟩) (hmem : id ∈ order)
    (hsub : ∀ var ∈ s.ownVars id, var ∈ vars) :
    Marginal vars (s.ownVars id) fun evidence => headValue l c evidence id := by
  obtain ⟨var, w₀, w₁, hleaf, -, hvalue⟩ := h.headValue_top hc hmem he
  have hown : s.ownVars id = {var} := by
    rw [Store.ownVars_eq (vtreeOf_top (kind_of_entry he)) (hs.vtree.leafOf_iff.1 hleaf)]
    rfl
  have hvar : var ∈ vars := hsub _ (by simp [hown])
  simp only [hvalue, Arithmetic.sum_rat, Arithmetic.product_rat, List.sum_cons, List.sum_nil,
    List.prod_cons, List.prod_nil, mul_one, add_zero]
  rw [hown]
  exact ((Marginal.negative hpos hvar).smul (q w₀)).add ((Marginal.positive hpos hvar).smul (q w₁))

/-- The head of a decision is the weighted sum of products over its two sides. -/
theorem Compiled.marginal_decision {v i : VtreeId} {es : List Element} {θ : Theta W} {b : Bool}
    {left right : Tree} (he : s.entry id = .ok ⟨⟨.decision v es, some θ⟩, b⟩) (hmem : id ∈ order)
    (hfork : s.vtree.subtree? v = some (.fork i left right))
    (hprime : ∀ x ∈ es.filter s.positive,
      Marginal vars left.leafVars.toFinset fun evidence => headValue l c evidence x.prime)
    (hsub : ∀ x ∈ es.filter s.positive,
      Marginal vars right.leafVars.toFinset fun evidence => headValue l c evidence x.sub) :
    Marginal vars (s.ownVars id) fun evidence => headValue l c evidence id := by
  have hdisjoint := hs.disjoint_sides hfork
  simp only [h.headValue_decision hc hmem he, Arithmetic.sum_rat, Arithmetic.product_rat,
    List.prod_cons, List.prod_nil, mul_one]
  rw [ownVars_decision (kind_of_entry he) hfork]
  exact Marginal.list_sum fun x hx => ((hprime x hx).mul hdisjoint (hsub x hx)).smul _

variable (hholds : ∀ id ∈ order, s.isFalse id = .ok false)
  (hsettled : Settled s.positiveElements order)
include hholds hsettled

/-- The value of the head of a node is marginal over the variables of the node. -/
theorem Compiled.marginal (hpos : ∀ var ∈ vars, 0 < var) (hid : s.Probabilistic id)
    (hmem : id ∈ order) (hsub : ∀ var ∈ s.ownVars id, var ∈ vars) :
    Marginal vars (s.ownVars id) fun evidence => headValue l c evidence id := by
  induction hid with
  | bottom => exact absurd rfl (hs.ne_bottom (hholds _ hmem))
  | literal hliteral => exact h.marginal_literal hs hc hpos hliteral hsub
  | top he => exact h.marginal_top hs hc hpos he hmem hsub
  | @decision id v es θ b he hseated hlt hbelow ih =>
    obtain ⟨i, left, right, hfork, hall⟩ := hseated
    obtain ⟨hl, hr⟩ := hs.vtree.subtree?_sides hfork
    have hknown : s.KnowsBelow es := fun x hx => (hbelow x hx).knows hs
    have hps := hsettled.mem hmem (positiveElements_known hknown (elements_of_entry he))
    have hown := ownVars_decision (kind_of_entry he) hfork
    -- a part of a positive element is marginal over the side that it sits at
    have hside : ∀ x ∈ nodesBelow (es.filter s.positive), ∀ t : Tree,
        s.vtree.subtree? t.id = some t → s.sitsAt t.id x = .ok true →
        t.leafVars.toFinset ⊆ s.ownVars id →
        Marginal vars t.leafVars.toFinset fun evidence => headValue l c evidence x := by
      intro x hx t ht hsits hsubset
      have hx' := (mem_nodesBelow_filter hx).1
      have hxown := (hbelow x hx').ownVars_eq hs (hholds x (hps x hx)) hsits ht
      rw [← hxown] at hsubset ⊢
      exact ih x hx' (hps x hx) fun var hvar => hsub var (hsubset hvar)
    rw [hown] at hside
    have hsits := allElements_eq_true.1 hall
    exact h.marginal_decision hs hc he hmem hfork
      (fun x hx => hside x.prime (prime_mem_nodesBelow hx) left hl
        (hsits x (List.mem_of_mem_filter hx)).1 Finset.subset_union_left)
      (fun x hx => hside x.sub (sub_mem_nodesBelow hx) right hr
        (hsits x (List.mem_of_mem_filter hx)).2 Finset.subset_union_right)

/-- If the weights of every node sum to one, so does every node without evidence. -/
theorem Compiled.headValue_nil (hstochastic : ∀ id ∈ order, s.Stochastic q id)
    (hid : s.Probabilistic id) (hmem : id ∈ order) : headValue l c [] id = 1 := by
  induction hid with
  | bottom => exact absurd rfl (hs.ne_bottom (hholds _ hmem))
  | @literal id hliteral =>
    obtain ⟨v, hv⟩ := hliteral
    rw [h.headValue_literal hc hv, if_neg (by simp)]
    rfl
  | @top id leaf θ b he =>
    obtain ⟨var, w₀, w₁, -, hw, hvalue⟩ := h.headValue_top hc hmem he
    have hsum := (hstochastic id hmem).top _ θ b he
    rw [hw] at hsum
    rw [hvalue, Arithmetic.sum_rat, Arithmetic.product_rat, Arithmetic.product_rat,
      if_neg (by simp), if_neg (by simp), ← hsum]
    show (List.map List.prod [[q w₀, 1], [q w₁, 1]]).sum = _
    simp
  | @decision id v es θ b he hseated hlt hbelow ih =>
    have hθ : θ.weights.length = es.length := hs.length_theta he
    have hknown : s.KnowsBelow es := fun x hx => (hbelow x hx).knows hs
    have hps := hsettled.mem hmem (positiveElements_known hknown (elements_of_entry he))
    have hone : ∀ x ∈ nodesBelow (es.filter s.positive), headValue l c [] x = 1 :=
      fun x hx => ih x (mem_nodesBelow_filter hx).1 (hps x hx)
    have hdistinct := (hstochastic id hmem).distinct v es θ b he
    rw [h.headValue_decision hc hmem he, ← (hstochastic id hmem).decision v es θ b he,
      ← map_fst_weighted hθ, List.map_map, Arithmetic.sum_rat]
    congr 1
    refine List.map_congr_left fun x hx => ?_
    have hx' : x.1 ∈ es.filter s.positive := by
      rw [← map_fst_weighted hθ]
      exact List.mem_map_of_mem hx
    -- elements that differ have the weights at their positions
    have hweight := elementWeight_of_mem_zip (v := v) hdistinct (List.mem_of_mem_filter hx)
    show Arithmetic.product
      [weightIn q _ x.1, headValue l c [] x.1.prime, headValue l c [] x.1.sub] = _
    rw [hone _ (prime_mem_nodesBelow hx'), hone _ (sub_mem_nodesBelow hx'), Arithmetic.product_rat]
    unfold weightIn
    rw [hweight]
    simp

end

/-! ## Roots -/

/-- With its weights taken as rational numbers the circuit `c` of a diagram computes marginals over
the variables of a tree. If the weights of every node that the circuit is made of sum to one, so do
its values under all assignments, and without evidence it is worth one. -/
structure Marginalizes (s : Store W) (root : NodeId) (order : List NodeId) (t : Tree)
    (c : Circuit W) (q : W → ℚ) : Prop where
  sum : ∀ evidence, (c.map q).evaluate evidence
    = ∑ T ∈ t.leafVars.toFinset.powerset with Agrees t.leafVars.toFinset evidence T,
      (c.map q).evaluate (observations t.leafVars T)
  total : s.isFalse root = .ok false → (∀ id ∈ order, s.Stochastic q id) →
    ∑ T ∈ t.leafVars.toFinset.powerset, (c.map q).evaluate (observations t.leafVars T) = 1 ∧
      (c.map q).evaluate [] = 1

/-- The circuit of a diagram that was read computes marginals over the variables below the vtree
node of its root. -/
theorem Reached.readPsdd_marginal (h : s.Reached) {text : List Char}
    (hread : s.readPsdd text = (.ok root, s')) (hroot : root ≠ .bottom) : ∃ v t c order,
      s'.vtreeOf root = .ok (some v) ∧ s'.vtree.subtree? v = some t ∧ s'.compile root = .ok c ∧
      s'.positiveOrder root = .ok order ∧ ∀ q : W → ℚ, s'.Marginalizes root order t c q := by
  obtain ⟨hs, -, hprobabilistic⟩ := readPsdd_probabilistic h.sound hread
  obtain ⟨v, t, hv, ht⟩ := hprobabilistic.exists_vtreeOf hs hroot
  obtain ⟨b, order, l, e, hp, hcompiled, horder, hcompile⟩ := hprobabilistic.exists_circuit hs
  refine ⟨v, t, _, order, hv, ht, hcompile, hp.positiveOrder, fun q => ?_⟩
  have hc := yields_circuitOf s' e (if b then none else l.head? root) q
  cases b with
  | true =>
    -- without a root the circuit is worth zero under any evidence
    have hzero : ∀ evidence, ((s'.circuitOf e none).map q).evaluate evidence = 0 := fun _ => rfl
    refine ⟨fun evidence => ?_, fun hholds => absurd (hp.isFalse.symm.trans hholds) (by simp)⟩
    simp [hzero]
  | false =>
    simp only [Bool.false_eq_true, if_false] at hc ⊢
    have hevaluate := hcompiled.evaluate_eq hp.root_mem q
    have hown : s'.ownVars root = t.leafVars.toFinset := ownVars_eq hv ht
    have hpos : ∀ var ∈ t.leafVars, 0 < var := by
      intro var hvar
      have hmem := hs.ownVars_subset_all root (hown ▸ List.mem_toFinset.2 hvar)
      exact (Finset.mem_Icc.1 hmem).1
    have hmarginal := hcompiled.marginal hs hc hp.holds hp.settled hpos hprobabilistic hp.root_mem
      (by simp [hown])
    rw [hown] at hmarginal
    constructor
    case sum =>
      simp only [hevaluate]
      exact hmarginal.sum
    case total =>
      intro _ hstochastic
      have hone := hcompiled.headValue_nil hs hc hp.holds hp.settled hstochastic hprobabilistic
        hp.root_mem
      simp only [hevaluate]
      refine ⟨?_, hone⟩
      rw [← hone, hmarginal.sum []]
      -- every assignment agrees with no evidence at all
      refine (Finset.sum_congr (Finset.filter_true_of_mem fun T _ => ?_) fun _ _ => rfl).symm
      intro var _
      simp

/-- A file for `x₂`: a decision over a TRUE node of `x₁` whose second element is impossible. -/
def diagramText : List Char :=
  "psdd 4\nT 0 0 1 -inf\nL 1 2 2\nL 2 2 -2\nD 3 1 2 0 1 0 0 2 -inf\n".toList

theorem readPsdd_marginal_diagramText : ∃ s' v t c order,
    (ofVtree .pair : Store Extreme).readPsdd diagramText = (.ok ⟨7⟩, s') ∧
    s'.vtreeOf ⟨7⟩ = .ok (some v) ∧ s'.vtree.subtree? v = some t ∧ s'.compile ⟨7⟩ = .ok c ∧
    s'.positiveOrder ⟨7⟩ = .ok order ∧ ∀ q : Extreme → ℚ, s'.Marginalizes ⟨7⟩ order t c q := by
  have hreached : (ofVtree .pair : Store Extreme).Reached := .start (.balanced Vtree.balanced_two)
  have hroot : ((ofVtree .pair : Store Extreme).readPsdd diagramText).1 = .ok ⟨7⟩ := by
    decide +kernel
  have hread := Prod.ext hroot (rfl : ((ofVtree .pair : Store Extreme).readPsdd diagramText).2 = _)
  obtain ⟨v, t, c, order, hmarginal⟩ := hreached.readPsdd_marginal hread (by decide)
  exact ⟨_, v, t, c, order, hread, hmarginal⟩

end Sentential.Store
