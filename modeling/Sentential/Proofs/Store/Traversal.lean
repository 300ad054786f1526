import Sentential.Proofs.Store.Order

/-!
# The order of a traversal

`Store.indexing` works with a stack, and the nodes on it may be there many times. In a store that
was built from its own ids what comes out is the post-order of the recursion: every round of the
loop is accounted for, and the numbers that it gives are the places of the nodes in the order
(`Built.postOrdered`).
-/

namespace Sentential

theorem count_reduceOption {α : Type} [DecidableEq α] (log : List (Option α)) (a : α) :
    log.reduceOption.count a = log.count (some a) := by
  induction log with
  | nil => rfl
  | cons o log ih =>
    cases o with
    | none => rw [List.reduceOption_cons_of_none, ih, List.count_cons_of_ne (by simp)]
    | some b =>
      rw [List.reduceOption_cons_of_some, List.count_cons, List.count_cons, ih]
      simp

namespace Store

open Indexing

variable {W : Type} [Weight W] {s : Store W} {root : NodeId}

/-- What is known of the numbering of the nodes below a root. -/
structure PostOrdered (s : Store W) (root : NodeId) (ix : Indexing) : Prop where
  indexing : s.indexing root = .ok ix
  /-- The loop ends: there are rounds that empty the stack, all rounds from the start are the first
  of these, and together they expand every node that is reached once and no other. -/
  rounds : ∃ log, Rounds s.elements [.visit root] .empty log [] ix ∧
    (∀ log' tasks ix', Rounds s.elements [.visit root] .empty log' tasks ix' → log' <+: log) ∧
    (∀ id, s.Reaches root id → log.count (some id) = 1) ∧
    ∀ id, some id ∈ log → s.Reaches root id
  /-- The recursion lists the same order. -/
  recursion : ∀ depth, root.raw < depth →
    postOrder s.elements depth [] root = .ok ix.order.toList
  nodup : ix.order.toList.Nodup
  mem_iff : ∀ id, id ∈ ix.order.toList ↔ s.Reaches root id
  last : ix.order.toList.getLast? = some root
  below : ∀ (i : Nat) id es, ix.order[i]? = some id → s.elements id = .ok es → ∀ x ∈ nodesBelow es,
    ∃ j, j < i ∧ ix.order[j]? = some x
  indexOf?_eq_some : ∀ id (i : Nat), ix.indexOf? id = some i ↔ ix.order[i]? = some id
  indexOf?_eq_none : ∀ id, ix.indexOf? id = none ↔ ¬ s.Reaches root id

/-- The rounds of the loop are those of the walk. -/
theorem Numbering.exists_rounds {order : List NodeId} (h : s.Numbering root order) :
    ∃ log, Rounds s.elements [.visit root] .empty log [] (ofList order) ∧
      log.reduceOption.Perm order := by
  obtain ⟨added, log, rfl, hperm, -, hrounds⟩ := h.walks.rounds
  exact ⟨log, hrounds [], hperm⟩

/-- A node has no number if it is not in the order. -/
theorem Numbering.indexOf?_eq_none {order : List NodeId} (h : s.Numbering root order)
    (id : NodeId) : (ofList order).indexOf? id = none ↔ ¬ s.Reaches root id := by
  rw [← h.mem_iff, List.mem_iff_getElem?]
  constructor
  · rintro hnone ⟨i, hi⟩
    rw [(indexOf?_ofList h.nodup id i).2 hi] at hnone
    exact absurd hnone (by simp)
  · intro hnot
    cases hindex : (ofList order).indexOf? id with
    | none => rfl
    | some i => exact absurd ⟨i, (indexOf?_ofList h.nodup id i).1 hindex⟩ hnot

/-- Numbering the nodes below a root of a store that was built from its own ids comes to an end,
and the order is that of the recursion. -/
theorem Built.postOrdered (hs : s.Built) (hroot : s.Knows root) : ∃ ix, s.PostOrdered root ix := by
  obtain ⟨order, h⟩ := exists_numbering hs.closed hroot
  have hplaces : ∀ i : Nat, (ofList order).order[i]? = order[i]? := fun i => by
    rw [← Array.getElem?_toList, order_ofList]
  refine ⟨ofList order, ?_⟩
  constructor
  case indexing => exact h.indexing
  case rounds =>
    obtain ⟨log, hrounds, hperm⟩ := h.exists_rounds
    refine ⟨log, hrounds, fun _ _ _ hother => hrounds.sublog hother, fun id hid => ?_,
      fun id hid => ?_⟩
    · rw [← count_reduceOption, hperm.count_eq]
      exact List.count_eq_one_of_mem h.nodup ((h.mem_iff id).2 hid)
    · exact (h.mem_iff id).1 (hperm.subset (List.reduceOption_mem_iff.2 hid))
  case recursion =>
    intro depth hdepth
    have hfold := foldlM_postOrder h.walks NodeId.raw (fun _ _ => hs.closed) depth
      (by simpa using hdepth)
    rw [List.foldlM_cons] at hfold
    rw [order_ofList]
    exact (bind_pure _).symm.trans hfold
  case nodup => rw [order_ofList]; exact h.nodup
  case mem_iff => rw [order_ofList]; exact h.mem_iff
  case last =>
    obtain ⟨inner, rfl⟩ := h.ends
    rw [order_ofList, List.getLast?_concat]
  case below =>
    intro i id es hi hes x hx
    rw [hplaces] at hi
    obtain ⟨j, hlt, hj⟩ := h.settled.exists_lt hi hes hx
    exact ⟨j, hlt, by rw [hplaces, hj]⟩
  case indexOf?_eq_some =>
    intro id i
    rw [hplaces]
    exact indexOf?_ofList h.nodup id i
  case indexOf?_eq_none => exact h.indexOf?_eq_none

/-- The nodes below the last node of the sample. -/
theorem postOrdered_sample : sample.Knows ⟨8⟩ ∧ ∃ ix, sample.PostOrdered ⟨8⟩ ix ∧
    ix.order.toList = [⟨7⟩, ⟨3⟩, ⟨4⟩, .bottom, ⟨8⟩] := by
  have hroot : sample.Knows ⟨8⟩ := by decide
  obtain ⟨ix, h⟩ := built_sample.postOrdered hroot
  have hlist : postOrder sample.elements 9 [] ⟨8⟩ = .ok [⟨7⟩, ⟨3⟩, ⟨4⟩, .bottom, ⟨8⟩] := rfl
  exact ⟨hroot, ix, h, Except.ok.inj ((h.recursion 9 (by decide)).symm.trans hlist)⟩

end Store
end Sentential
