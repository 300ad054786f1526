import Mathlib.Algebra.BigOperators.Group.List.Basic
import Mathlib.Algebra.Field.Rat
import Sentential.Proofs.Circuit.Wiring

/-!
# Circuits over other numbers

The opcodes of a circuit do not depend on what its weights are, so the weights can be taken as
numbers of another kind (`Circuit.map`). The value at the head of a node is then made from the
values at the heads of the nodes below in the way that the node is wired (`headValue_literal`,
`headValue_top`, `headValue_decision`), whatever the numbers are.

Rational numbers are added and multiplied without rounding, so circuits over them obey the laws of
arithmetic.
-/

namespace Sentential

instance : Arithmetic ℚ where
  zero := 0
  one := 1
  emptySum := 0
  add := (· + ·)
  mul := (· * ·)

theorem Arithmetic.sum_rat (xs : List ℚ) : Arithmetic.sum xs = xs.sum :=
  List.sum_eq_foldl.symm

theorem Arithmetic.product_rat (xs : List ℚ) : Arithmetic.product xs = xs.prod :=
  List.prod_eq_foldl.symm

variable {V W : Type} {q : W → V}

namespace WeightTable

/-- The same table with other numbers in place of the weights. -/
def map (q : W → V) (t : WeightTable W) : WeightTable V :=
  ⟨t.entries.map fun _ w => q w, q t.default⟩

theorem get_map (t : WeightTable W) (p : Int) : (t.map q).get p = q (t.get p) := by
  show ((t.entries.map fun _ w => q w)[p]?).getD (q t.default) = q ((t.entries[p]?).getD t.default)
  rw [Std.TreeMap.getElem?_map]
  cases t.entries[p]? <;> rfl

end WeightTable

namespace Circuit

/-- The same circuit with other numbers in place of the weights. -/
def map (q : W → V) (c : Circuit W) : Circuit V := { c with weights := c.weights.map q }

variable [Arithmetic V] {c : Circuit V} {evidence : List Int}

/-- The value of the opcode at a position. -/
def valueAt (c : Circuit V) (evidence : List Int) (i : Nat) : V :=
  (c.values evidence).getD i Arithmetic.zero

theorem valueOf_congr {vs vs' : Array V} {op : Opcode}
    (h : ∀ j ∈ op.operands, vs.getD j Arithmetic.zero = vs'.getD j Arithmetic.zero) :
    c.valueOf evidence vs op = c.valueOf evidence vs' op := by
  cases op with
  | literal l => rfl
  | product ids => exact congrArg Arithmetic.product (List.map_congr_left h)
  | sum ids => exact congrArg Arithmetic.sum (List.map_congr_left h)

/-- If all operands are earlier opcodes, the value of an opcode is what its operation makes of the
values of its operands. -/
theorem valueAt_eq (hearlier : ∀ (i : Nat) (op : Opcode), c.ops[i]? = some op →
    ∀ j ∈ op.operands, j < i) {i : Nat} {op : Opcode} (hop : c.ops[i]? = some op) :
    c.valueAt evidence i = c.valueOf evidence (c.values evidence) op := by
  obtain ⟨before, after, hops, hlen⟩ : ∃ before after,
      c.ops.toList = before ++ [op] ++ after ∧ before.length = i := by
    obtain ⟨hlt, hget⟩ := List.getElem?_eq_some_iff.1 (Array.getElem?_toList.trans hop)
    refine ⟨c.ops.toList.take i, c.ops.toList.drop (i + 1), ?_, ?_⟩
    · rw [← hget, List.append_assoc, List.singleton_append, List.getElem_cons_drop,
        List.take_append_drop]
    · rw [List.length_take]
      omega
  have hvalues : c.values evidence = c.valuesOf evidence (before ++ [op] ++ after) := by
    rw [values_eq, hops]
  have hsize : (c.valuesOf evidence before).size = i := by rw [size_valuesOf, hlen]
  -- the opcodes from the one in question on leave the values before it alone
  have hsame : ∀ j < i, (c.values evidence).getD j Arithmetic.zero
      = (c.valuesOf evidence before).getD j Arithmetic.zero := by
    intro j hj
    rw [hvalues, List.append_assoc, Array.getD_eq_getD_getElem?, Array.getD_eq_getD_getElem?,
      getElem?_valuesOf_append _ _ (hlen ▸ hj)]
  rw [valueOf_congr fun j hj => hsame j (hearlier i op hop j hj)]
  unfold valueAt
  rw [hvalues, Array.getD_eq_getD_getElem?, getElem?_valuesOf_append _ _ (by simp [hlen]),
    valuesOf_concat, ← hsize, Array.getElem?_push_size]
  rfl

end Circuit

/-- The circuit over `n` variables has the opcodes of the emission, and other numbers in place of
its weights. -/
structure Emission.Yields (e : Emission W) (n : Nat) (q : W → V) (c : Circuit V) : Prop where
  varCount : c.varCount = n
  ops : c.ops = e.ops
  weights : ∀ p, c.weights.get p = q (e.weights.get p)

namespace Store

variable [Weight W] {s : Store W} {l : Layout} {e : Emission W} {id : NodeId}
  {order : List NodeId} {c : Circuit V} {evidence : List Int}

theorem yields_circuitOf (s : Store W) (e : Emission W) (head : Option Nat) (q : W → V) :
    e.Yields s.varCount q ((s.circuitOf e head).map q) :=
  ⟨rfl, rfl, fun p => WeightTable.get_map e.weights p⟩

variable [Arithmetic V]

/-- The value at the head of a node. -/
def headValue (l : Layout) (c : Circuit V) (evidence : List Int) (id : NodeId) : V :=
  match l.head? id with
  | some i => c.valueAt evidence i
  | none => Arithmetic.zero

theorem headValue_eq {i : Nat} (h : l.head? id = some i) :
    headValue l c evidence id = c.valueAt evidence i := by
  unfold headValue
  rw [h]

/-- The weight that the circuit of a node uses for an element. -/
def weightIn (q : W → V) (node : Node W) (x : Element) : V :=
  match node.elementWeight x with
  | some w => q w
  | none => Arithmetic.zero

section

variable (h : s.Compiled order l e) (hc : e.Yields s.varCount q c)
include h hc

theorem Compiled.valueAt_eq {i : Nat} {op : Opcode} (hop : e.ops[i]? = some op) :
    c.valueAt evidence i = c.valueOf evidence (c.values evidence) op := by
  apply Circuit.valueAt_eq
  · rw [hc.ops]
    exact h.inStep.earlier
  · rw [hc.ops]
    exact hop

theorem Compiled.valueAt_parameter {i : Nat} {w : W} (hw : e.Parameter s.varCount i w) :
    c.valueAt evidence i = q w := by
  obtain ⟨p, hop, hp, -, hget⟩ := hw
  rw [h.valueAt_eq hc hop]
  show (if (p : Int).natAbs ≤ c.varCount then _ else c.weights.get p) = q w
  rw [if_neg (by rw [hc.varCount]; omega), hc.weights, hget]

theorem Compiled.valueAt_term {x : Emission.Item W} {i : Nat} (hx : e.Term s.varCount x i) :
    c.valueAt evidence i = Arithmetic.product
      [q x.weight, c.valueAt evidence x.prime, c.valueAt evidence x.sub] := by
  obtain ⟨a, ha, hop⟩ := hx
  rw [h.valueAt_eq hc hop, ← h.valueAt_parameter hc ha]
  rfl

omit hc in
/-- The circuit of a node of the order is worth what the head of the node is. -/
theorem Compiled.evaluate_eq (hmem : id ∈ order) (q : W → V) (evidence : List Int) :
    ((s.circuitOf e (l.head? id)).map q).evaluate evidence
      = headValue l ((s.circuitOf e (l.head? id)).map q) evidence id := by
  obtain ⟨i, hi⟩ := (h.laid.covers id).2 (Or.inr hmem)
  rw [headValue_eq hi, hi]
  rfl

/-- A literal is worth zero if the evidence holds the opposite literal, and one otherwise. -/
theorem Compiled.headValue_literal {v : Int} (hid : s.literal? v = some id) :
    headValue l c evidence id = if -v ∈ evidence then Arithmetic.zero else Arithmetic.one := by
  obtain ⟨i, hi, hop⟩ := h.indicator hid
  have hle : v.natAbs ≤ s.varCount := (exists_literal?.1 ⟨id, hid⟩).2
  rw [headValue_eq hi, h.valueAt_eq hc hop]
  exact if_pos (hc.varCount ▸ hle)

/-- A TRUE node is worth the weighted sum of the two literals of its variable. -/
theorem Compiled.headValue_top (hmem : id ∈ order) {leaf : VtreeId} {θ : Theta W} {b : Bool}
    (he : s.entry id = .ok ⟨⟨.top (some leaf), some θ⟩, b⟩) : ∃ (var : Nat) (w₀ w₁ : W),
      s.vtree.leafOf var = .ok leaf ∧ θ.weights = [w₀, w₁] ∧
      ∀ evidence, headValue l c evidence id = Arithmetic.sum
        [Arithmetic.product
            [q w₀, if (var : Int) ∈ evidence then Arithmetic.zero else Arithmetic.one],
          Arithmetic.product
            [q w₁, if -(var : Int) ∈ evidence then Arithmetic.zero else Arithmetic.one]] := by
  cases h.wired id hmem with
  | literal lit he' => exact absurd (he.symm.trans he') (by simp)
  | decision v es θ' xs i ps he' => exact absurd (he.symm.trans he') (by simp)
  | top leaf' var θ' w₀ w₁ no yes negative positive a₀ a₁ p₀ p₁ i he' hleaf hw hno hyes hneg hpos
      hhead hsum hp₀ hp₁ ha₀ ha₁ =>
    have heq := Except.ok.inj (he.symm.trans he')
    simp only [Entry.mk.injEq, Node.mk.injEq, Kind.top.injEq, Option.some.injEq] at heq
    obtain ⟨⟨rfl, rfl⟩, -⟩ := heq
    refine ⟨var, w₀, w₁, hleaf, hw, fun evidence => ?_⟩
    have hproduct : ∀ {a m p : Nat} {w : W}, e.ops[p]? = some (.product [a, m]) →
        e.Parameter s.varCount a w →
        c.valueAt evidence p = Arithmetic.product [q w, c.valueAt evidence m] := by
      intro a m p w hop ha
      rw [h.valueAt_eq hc hop, ← h.valueAt_parameter hc ha]
      rfl
    have hnovalue : headValue l c evidence no = _ := h.headValue_literal hc hno
    have hyesvalue : headValue l c evidence yes = _ := h.headValue_literal hc hyes
    rw [headValue_eq hneg, neg_neg] at hnovalue
    rw [headValue_eq hpos] at hyesvalue
    rw [← hnovalue, ← hyesvalue, ← hproduct hp₀ ha₀, ← hproduct hp₁ ha₁, headValue_eq hhead,
      h.valueAt_eq hc hsum]
    rfl

/-- A decision is worth the weighted sum over its positive elements. -/
theorem Compiled.headValue_decision (hmem : id ∈ order) {v : VtreeId} {es : List Element}
    {θ : Theta W} {b : Bool} (he : s.entry id = .ok ⟨⟨.decision v es, some θ⟩, b⟩) :
    headValue l c evidence id = Arithmetic.sum ((es.filter s.positive).map fun x =>
      Arithmetic.product [weightIn q ⟨.decision v es, some θ⟩ x,
        headValue l c evidence x.prime, headValue l c evidence x.sub]) := by
  obtain ⟨xs, i, ps, hxs, hhead, hsum, hps⟩ := h.wired_decision hmem he
  have hterms : xs.map (fun x => Arithmetic.product
      [q x.weight, c.valueAt evidence x.prime, c.valueAt evidence x.sub])
      = ps.map (c.valueAt evidence) :=
    map_eq_of_forall₂ hps fun x _ p hp => (h.valueAt_term hc hp).symm
  rw [headValue_eq hhead, h.valueAt_eq hc hsum]
  show Arithmetic.sum (ps.map (c.valueAt evidence)) = _
  rw [← hterms]
  congr 1
  symm
  refine map_eq_of_forall₂ hxs fun x _ item hitem => ?_
  have hweight : weightIn q ⟨.decision v es, some θ⟩ x = q item.weight := by
    unfold weightIn
    rw [hitem.weight]
  rw [hweight, headValue_eq hitem.prime, headValue_eq hitem.sub]

end

end Store
end Sentential
