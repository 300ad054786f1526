import Sentential.Proofs.Store.Coherent

/-!
# The nodes of a circuit

`Store.positiveOrder` asks for the flags of the nodes that an element refers to and never for that
of the node it is at. In a store that was built from its own ids that is enough: below a root that
can hold it lists exactly what is reached through positive elements, every node on the way can hold
itself, and a decision that can hold has an element that is followed (`Built.positivelyOrdered`).
-/

namespace Sentential.Store

open Indexing

variable {W : Type} [Weight W] {s : Store W} {id root : NodeId} {es : List Element}

/-- Neither the prime nor the sub of the element is known never to hold. -/
def HasPositive (s : Store W) (e : Element) : Prop :=
  s.isFalse e.prime = .ok false ∧ s.isFalse e.sub = .ok false

/-- The node `b` is the prime or the sub of a positive element of `a`. -/
def RefersPositively (s : Store W) (a b : NodeId) : Prop :=
  ∃ es, s.elements a = .ok es ∧ ∃ e ∈ es, s.HasPositive e ∧ (b = e.prime ∨ b = e.sub)

/-- The node `b` is reached from `a` through positive elements. -/
def ReachesPositively (s : Store W) : NodeId → NodeId → Prop :=
  Relation.ReflTransGen s.RefersPositively

/-- What is known of the order of the nodes that a circuit is made of. -/
structure PositivelyOrdered (s : Store W) (root : NodeId) (order : List NodeId) : Prop where
  positiveOrder : s.positiveOrder root = .ok order
  nil_iff : order = [] ↔ s.isFalse root = .ok true
  nodup : order.Nodup
  mem_iff : order ≠ [] → ∀ id, id ∈ order ↔ s.ReachesPositively root id
  holds : ∀ id ∈ order, s.isFalse id = .ok false
  chosen : ∀ id ∈ order, ∀ v es, s.kind id = .ok (.decision v es) → ∃ e ∈ es, s.HasPositive e
  below : ∀ (i : Nat) id es, order[i]? = some id → s.elements id = .ok es → ∀ e ∈ es,
    s.HasPositive e → ∀ x, x = e.prime ∨ x = e.sub → ∃ j, j < i ∧ order[j]? = some x
  last : order ≠ [] → order.getLast? = some root

theorem mem_nodesBelow_positive {x : NodeId} : x ∈ nodesBelow (es.filter s.positive) ↔
    ∃ e ∈ es, s.HasPositive e ∧ (x = e.prime ∨ x = e.sub) := by
  simp only [mem_nodesBelow, List.mem_filter, positive_iff, HasPositive, and_assoc]

/-- In a closed store the positive elements are found wherever there are elements. -/
theorem Closed.refersPositively_iff (h : s.Closed) {a b : NodeId} :
    s.RefersPositively a b ↔ LiesBelow s.positiveElements a b := by
  constructor
  · rintro ⟨es, hes, hb⟩
    exact ⟨_, positiveElements_known (h.knowsBelow hes) hes, mem_nodesBelow_positive.2 hb⟩
  · rintro ⟨ps, hps, hb⟩
    obtain ⟨es, hes, rfl⟩ := positiveElements_eq_ok hps
    exact ⟨es, hes, mem_nodesBelow_positive.1 hb⟩

theorem Closed.reachesPositively_iff (h : s.Closed) {a b : NodeId} :
    s.ReachesPositively a b ↔ Relation.ReflTransGen (LiesBelow s.positiveElements) a b := by
  have hsame : s.RefersPositively = LiesBelow s.positiveElements :=
    funext fun a => funext fun b => propext h.refersPositively_iff
  rw [ReachesPositively, hsame]

/-- A decision that can hold has an element whose parts can. -/
theorem Sound.exists_hasPositive (hs : s.Sound) (hclosed : s.Closed) {v : VtreeId}
    (hkind : s.kind id = .ok (.decision v es)) (hholds : s.isFalse id = .ok false) :
    ∃ e ∈ es, s.HasPositive e := by
  have hnot : ¬ s.isFalse id = .ok true := by
    rw [hholds]
    simp
  rw [hs.isFalse_decision hclosed hkind] at hnot
  push Not at hnot
  obtain ⟨e, he, hprime, hsub⟩ := hnot
  have hknown : s.KnowsBelow es := hclosed.knowsBelow (elements_of_kind hkind)
  exact ⟨e, he, isFalse_of_not (hknown _ (prime_mem_nodesBelow he)) hprime,
    isFalse_of_not (hknown _ (sub_mem_nodesBelow he)) hsub⟩

/-- The order of the nodes of a circuit is empty if and only if the root never holds. -/
theorem Positive.nil_iff {b : Bool} {order : List NodeId} (h : s.Positive root b order) :
    order = [] ↔ s.isFalse root = .ok true := by
  cases b with
  | true =>
    have hnil : order = [] := by
      cases h.walks
      rfl
    exact iff_of_true hnil h.isFalse
  | false =>
    refine iff_of_false (List.ne_nil_of_mem h.root_mem) ?_
    rw [h.isFalse]
    simp

/-- In a store that was built from its own ids the order of the nodes of a circuit lists exactly
what is reached through positive elements, and nothing that never holds. -/
theorem Built.positivelyOrdered (hs : s.Built) (hroot : s.Knows root) :
    ∃ order, s.PositivelyOrdered root order := by
  have hclosed : s.Closed := hs.closed
  obtain ⟨b, order, h⟩ := exists_positive hclosed hroot
  -- a list with nodes is the walk from the root
  have hwalks : order ≠ [] → Walks s.positiveElements [root] [] order := by
    intro hne
    cases b with
    | true => exact absurd (h.nil_iff.2 h.isFalse) hne
    | false => exact h.walks
  refine ⟨order, ?_⟩
  constructor
  case positiveOrder => exact h.positiveOrder
  case nil_iff => exact h.nil_iff
  case nodup => exact h.nodup
  case mem_iff =>
    intro hne id
    rw [hclosed.reachesPositively_iff]
    exact (hwalks hne).mem_iff
  case holds => exact h.holds
  case chosen =>
    intro id hid v es hkind
    exact hs.sound.exists_hasPositive hclosed hkind (h.holds id hid)
  case below =>
    intro i id es hi hes e he hpositive x hx
    exact h.settled.exists_lt hi (positiveElements_known (hclosed.knowsBelow hes) hes)
      (mem_nodesBelow_positive.2 ⟨e, he, hpositive, hx⟩)
  case last =>
    intro hne
    obtain ⟨inner, rfl⟩ := (hwalks hne).eq_concat (by simp)
    exact List.getLast?_concat

/-- Below the last node of the sample, and below the terminal that never holds. -/
theorem positivelyOrdered_sample :
    (sample.Knows ⟨8⟩ ∧ sample.isFalse ⟨8⟩ = .ok false ∧
      ∃ order, sample.PositivelyOrdered ⟨8⟩ order) ∧
    (sample.Knows .bottom ∧ sample.isFalse .bottom = .ok true ∧
      ∃ order, sample.PositivelyOrdered .bottom order) :=
  ⟨⟨by decide, rfl, built_sample.positivelyOrdered (by decide)⟩,
    ⟨by decide, rfl, built_sample.positivelyOrdered (by decide)⟩⟩

end Sentential.Store
