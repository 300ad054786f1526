import Mathlib.Data.Finset.Filter
import Mathlib.Data.Finset.Card
import Mathlib.Data.Finset.Range
import Sentential.Proofs.Store.Order

/-!
# Where a traversal comes to an end

A store that was given foreign ids can hold nodes that refer to no node, or to themselves. A
traversal from a root comes to an end exactly if all that is reached from the root are nodes of the
store and none of them is reached from itself (`traversable_iff`); then the fuel of `Store.indexing`
is enough, and whenever it is not enough the loop goes on forever (`indexing_eq_ok_iff`).

Traversability is kept as the store grows (`Traversable.mono`), since the nodes below the root stay
what they are.
-/

namespace Sentential.Store

open Indexing

variable {W : Type} [Weight W] {s s' : Store W} {a b id root : NodeId} {n : Node W} {flag : Bool}

/-- Everything that is reached from the node is a node, and does not lie below itself. -/
def Traversable (s : Store W) (root : NodeId) : Prop :=
  ∀ x, s.Reaches root x → s.Knows x ∧ ¬ Relation.TransGen s.Refers x x

theorem Traversable.knows (h : s.Traversable root) : s.Knows root := (h root .refl).1

theorem Traversable.of_reaches (h : s.Traversable root) (hid : s.Reaches root id) :
    s.Traversable id := fun x hx => h x (hid.trans hx)

/-! ## Traversals -/

open Classical in
/-- The number of nodes of the store that are reached from a node. -/
noncomputable def reachCount (s : Store W) (id : NodeId) : Nat :=
  ((Finset.range s.numNodes).filter fun i => s.Reaches id ⟨i⟩).card

/-- Fewer nodes are reached from a node that is referred to, as long as it does not lead back. -/
theorem reachCount_lt (hab : s.Refers a b) (hknown : s.Knows a)
    (hacyclic : ¬ Relation.TransGen s.Refers a a) : s.reachCount b < s.reachCount a := by
  classical
  apply Finset.card_lt_card
  rw [Finset.ssubset_iff_of_subset]
  · refine ⟨a.raw, Finset.mem_filter.2 ⟨Finset.mem_range.2 hknown, .refl⟩, fun hmem => ?_⟩
    exact hacyclic (.head' hab (Finset.mem_filter.1 hmem).2)
  · intro i hi
    obtain ⟨hlt, hreach⟩ := Finset.mem_filter.1 hi
    exact Finset.mem_filter.2 ⟨hlt, .head hab hreach⟩

theorem Traversable.lower (h : s.Traversable root) {es : List Element} (hid : s.Reaches root id)
    (hes : s.elements id = .ok es) :
    ∀ x ∈ nodesBelow es, s.Reaches root x ∧ s.reachCount x < s.reachCount id := by
  intro x hx
  have hrefers : s.Refers id x := ⟨es, hes, hx⟩
  exact ⟨hid.tail hrefers, reachCount_lt hrefers (h id hid).1 (h id hid).2⟩

theorem Traversable.exists_numbering (h : s.Traversable root) :
    ∃ order, s.Numbering root order := by
  obtain ⟨order, hnumbering, -⟩ := exists_numbering_of s.reachCount (p := s.Reaches root)
    (fun id hid => (h id hid).1) (fun id es hid hes => h.lower hid hes) .refl
  exact ⟨order, hnumbering⟩

theorem Traversable.exists_positive (h : s.Traversable root) :
    ∃ b order, s.Positive root b order := by
  obtain ⟨b, order, hpositive, -⟩ := exists_positive_of s.reachCount (p := s.Reaches root)
    (fun id hid => (h id hid).1) (fun id es hid hes => h.lower hid hes) .refl
  exact ⟨b, order, hpositive⟩

/-- What the loop has worked off can be traversed. -/
theorem traversable_of_rounds {log : List (Option NodeId)} {ix : Indexing}
    (h : Rounds s.elements [.visit root] .empty log [] ix) : s.Traversable root := by
  obtain ⟨order, rfl, hsettled, hnodup, hroot⟩ := h.settled
  intro x hx
  have hmem : x ∈ order := hsettled.mem_of_reflTransGen hroot hx
  obtain ⟨before, after, rfl⟩ := List.append_of_mem hmem
  obtain ⟨es, hes, -⟩ := hsettled before x after rfl
  obtain ⟨e, he, -⟩ := elements_eq_ok.1 hes
  exact ⟨knows_of_entry he, hsettled.acyclic hnodup hmem⟩

/-- The fuel of the loop is enough wherever the loop comes to an end. -/
theorem indexing_eq_ok_iff {ix : Indexing} : s.indexing root = .ok ix ↔
    ∃ log, Rounds s.elements [.visit root] .empty log [] ix := by
  constructor
  · intro h
    obtain ⟨log, hrounds, -⟩ := run_eq_ok_iff.1 h
    exact ⟨log, hrounds⟩
  · rintro ⟨log, hrounds⟩
    obtain ⟨order, hnumbering⟩ := (traversable_of_rounds hrounds).exists_numbering
    obtain ⟨log', hrounds', -⟩ := run_eq_ok_iff.1 hnumbering.indexing
    rw [hnumbering.indexing, hrounds.functional hrounds']

/-- A traversal comes to an end exactly if all that is reached are nodes and none lies below
itself. -/
theorem traversable_iff : s.Traversable root ↔ ∃ ix, s.indexing root = .ok ix := by
  constructor
  · intro h
    obtain ⟨order, hnumbering⟩ := h.exists_numbering
    exact ⟨_, hnumbering.indexing⟩
  · rintro ⟨ix, h⟩
    obtain ⟨log, hrounds⟩ := indexing_eq_ok_iff.1 h
    exact traversable_of_rounds hrounds

theorem Closed.traversable (h : s.Closed) (hroot : s.Knows root) : s.Traversable root := by
  obtain ⟨order, hnumbering⟩ := Store.exists_numbering h hroot
  exact traversable_iff.2 ⟨_, hnumbering.indexing⟩

/-! ## Growing stores -/

/-- A node keeps what it refers to. -/
theorem Extends.refers_iff (h : s.Extends s') (ha : s.Knows a) : s'.Refers a b ↔ s.Refers a b := by
  obtain ⟨es, hes⟩ := exists_elements ha
  have hes' : s'.elements a = .ok es := h.elements hes
  simp only [Refers, hes, hes']

/-- What is reached from a traversable node in a store that has grown was reached before. -/
theorem Traversable.reaches_of_extends (h : s.Traversable root) (hext : s.Extends s')
    (hid : s'.Reaches root id) : s.Reaches root id := by
  induction hid with
  | refl => exact .refl
  | tail _ hstep ih => exact ih.tail ((hext.refers_iff (h _ ih).1).1 hstep)

theorem Traversable.transGen_of_extends (h : s.Traversable a) (hext : s.Extends s')
    (hab : Relation.TransGen s'.Refers a b) : Relation.TransGen s.Refers a b := by
  induction hab with
  | single hstep => exact .single ((hext.refers_iff h.knows).1 hstep)
  | tail _ hstep ih => exact ih.tail ((hext.refers_iff (h _ ih.to_reflTransGen).1).1 hstep)

/-- A traversable node stays traversable as the store grows. -/
theorem Traversable.mono (h : s.Traversable root) (hext : s.Extends s') : s'.Traversable root := by
  intro x hx
  have hreach := h.reaches_of_extends hext hx
  refine ⟨hext.knows (h x hreach).1, fun hcycle => ?_⟩
  exact (h x hreach).2 ((h.of_reaches hreach).transGen_of_extends hext hcycle)

/-- A new node over traversable ones is traversable. -/
theorem traversable_make (h : ∀ x ∈ nodesBelow n.elements, s.Traversable x) :
    (s.make n flag).Traversable ⟨s.numNodes⟩ := by
  have hext := extends_make s n flag
  have hself : (s.make n flag).elements ⟨s.numNodes⟩ = .ok n.elements :=
    elements_of_entry entry_make_self
  -- what the new node refers to was there before, so nothing leads back to it
  have hbelow : ∀ x, (s.make n flag).Refers ⟨s.numNodes⟩ x → s.Traversable x := by
    rintro x ⟨es, hes, hx⟩
    obtain rfl := Except.ok.inj (hself.symm.trans hes)
    exact h x hx
  intro x hx
  rcases hx.cases_head with rfl | ⟨y, hy, hx⟩
  · refine ⟨knows_of_entry entry_make_self, fun hcycle => ?_⟩
    obtain ⟨y, hy, hback⟩ := Relation.TransGen.head'_iff.1 hcycle
    have hreach := (hbelow y hy).reaches_of_extends hext hback
    exact Nat.lt_irrefl _ (hbelow y hy _ hreach).1
  · exact (hbelow y hy).mono hext x hx

end Sentential.Store
