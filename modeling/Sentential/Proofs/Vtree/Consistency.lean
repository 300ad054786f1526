import Mathlib.Data.Set.Card
import Mathlib.Logic.Relation
import Sentential.Proofs.Vtree.Under

/-!
# Consistent vtrees

What the tables of a vtree promise to those that ask them (`Consistent`), said in terms of the
sides of nodes alone: every node is below the root, the parents are those of which a node is a
side, the number of variables is the number of leaves below, and every variable has one leaf. Every
proper vtree is consistent (`Proper.consistent`).
-/

namespace Sentential.Vtree

/-- The node `c` is a side of the node `p`. -/
def IsSide (v : Vtree) (p c : VtreeId) : Prop :=
  ∃ i l r, v.subtree? p = some (.fork i l r) ∧ (c = l.id ∨ c = r.id)

/-- The node `b` is the node `a` or can be reached from it by going to sides. -/
def Above (v : Vtree) : VtreeId → VtreeId → Prop := Relation.ReflTransGen v.IsSide

/-- The leaves below and including a node. -/
def leavesBelow (v : Vtree) (id : VtreeId) : Set VtreeId :=
  {leaf | v.Above id leaf ∧ ∃ i var, v.subtree? leaf = some (.leaf i var)}

/-- The tables of the vtree agree with its sides. -/
structure Consistent (v : Vtree) : Prop where
  above : ∀ id, id.raw < v.numNodes → v.Above v.root.id id
  parent_iff : ∀ p c, v.parent c = .ok (some p) ↔ v.IsSide p c
  orphan_iff : ∀ c, v.parent c = .ok none ↔ c = v.root.id
  varCount : ∀ id, id.raw < v.numNodes → v.varCount id = .ok (v.leavesBelow id).ncard
  leafOf : ∀ var, 1 ≤ var → var ≤ v.numVars → ∃ leaf, v.leafOf var = .ok leaf ∧
    ∀ id, (∃ i, v.subtree? id = some (.leaf i var)) ↔ id = leaf
  numNodes : v.numNodes + 1 = 2 * v.numVars

variable {v : Vtree} {a b c p : VtreeId} {t u : Tree}

theorem exists_subtree?_iff : (∃ t, v.subtree? a = some t) ↔ a.raw < v.numNodes := by
  unfold subtree? numNodes
  constructor
  · rintro ⟨t, ht⟩
    exact (Array.getElem?_eq_some_iff.1 ht).1
  · intro hlt
    exact ⟨_, Array.getElem?_eq_getElem hlt⟩

namespace Proper

variable (h : v.Proper)
include h

/-- A node has a parent, or none, as far as there are nodes. -/
theorem exists_subtree?_of_parent {o : Option VtreeId} (hp : v.parent c = .ok o) :
    ∃ t, v.subtree? c = some t := by
  rw [exists_subtree?_iff, h.numNodes_eq]
  obtain ⟨root, hroot, rfl⟩ := h
  unfold parent at hp
  rw [parents_ofTree] at hp
  by_contra hlt
  rw [Array.getElem?_eq_none (by rw [size_fill, Array.size_replicate]; exact Nat.le_of_not_lt hlt)] at hp
  exact absurd hp (by simp)

theorem parent_of_isSide (hside : v.IsSide p c) : v.parent c = .ok (some p) := by
  obtain ⟨i, l, r, hfork, hc⟩ := hside
  obtain rfl : i = p := h.id_eq hfork
  exact h.parent_side hfork hc

theorem exists_isSide (ht : v.subtree? c = some t) (hne : c ≠ v.root.id) : ∃ p, v.IsSide p c := by
  have hroot : t ≠ v.root := by
    rintro rfl
    exact hne (h.id_eq ht).symm
  obtain ⟨p, l, r, hfork, hside⟩ := h.exists_fork ht hroot
  rw [← h.id_eq ht]
  exact ⟨p, p, l, r, hfork, hside.imp (congrArg Tree.id) (congrArg Tree.id)⟩

theorem parent_iff : v.parent c = .ok (some p) ↔ v.IsSide p c := by
  refine ⟨fun hp => ?_, h.parent_of_isSide⟩
  obtain ⟨t, ht⟩ := h.exists_subtree?_of_parent hp
  have hne : c ≠ v.root.id := by
    rintro rfl
    exact absurd (hp.symm.trans h.parent_root) (by simp)
  obtain ⟨q, hq⟩ := h.exists_isSide ht hne
  obtain rfl : p = q :=
    Option.some_inj.1 (Except.ok.inj (hp.symm.trans (h.parent_of_isSide hq)))
  exact hq

theorem orphan_iff : v.parent c = .ok none ↔ c = v.root.id := by
  constructor
  · intro hp
    by_contra hne
    obtain ⟨t, ht⟩ := h.exists_subtree?_of_parent hp
    obtain ⟨q, hq⟩ := h.exists_isSide ht hne
    exact absurd (hp.symm.trans (h.parent_of_isSide hq)) (by simp)
  · rintro rfl
    exact h.parent_root

/-- What can be reached from a node is what its tree holds. -/
theorem above_iff (ht : v.subtree? a = some t) (hu : v.subtree? b = some u) :
    v.Above a b ↔ u ∈ t.subtrees := by
  constructor
  · intro hab
    induction hab generalizing u with
    | refl =>
      obtain rfl := Option.some_inj.1 (ht.symm.trans hu)
      exact t.self_mem_subtrees
    | tail _ hside ih =>
      obtain ⟨i, l, r, hfork, hc⟩ := hside
      obtain ⟨hl, hr⟩ := Tree.sides_mem (ih hfork)
      obtain ⟨hgetl, hgetr⟩ := h.subtree?_sides hfork
      rcases hc with rfl | rfl
      · rwa [← Option.some_inj.1 (hgetl.symm.trans hu)]
      · rwa [← Option.some_inj.1 (hgetr.symm.trans hu)]
  · intro hmem
    induction t generalizing a with
    | leaf id var =>
      rw [Tree.subtrees_leaf, List.mem_singleton] at hmem
      subst hmem
      rw [← h.id_eq ht, ← h.id_eq hu]
      exact .refl
    | fork id l r ihl ihr =>
      obtain ⟨hl, hr⟩ := h.subtree?_sides ht
      rw [Tree.subtrees_fork, List.mem_cons, List.mem_append] at hmem
      rcases hmem with rfl | hmem | hmem
      · rw [← h.id_eq ht, ← h.id_eq hu]
        exact .refl
      · exact .head ⟨id, l, r, ht, Or.inl rfl⟩ (ihl hl hmem)
      · exact .head ⟨id, l, r, ht, Or.inr rfl⟩ (ihr hr hmem)

theorem mem_leavesBelow (ht : v.subtree? a = some t) :
    b ∈ v.leavesBelow a ↔ b ∈ t.leaves.map Prod.snd := by
  rw [List.mem_map]
  constructor
  · rintro ⟨habove, i, var, hleaf⟩
    obtain rfl : i = b := h.id_eq hleaf
    exact ⟨(var, i), Tree.mem_leaves.2 ((h.above_iff ht hleaf).1 habove), rfl⟩
  · rintro ⟨⟨var, id⟩, hmem, rfl⟩
    have hleaf := h.subtree?_of_mem ht (Tree.mem_leaves.1 hmem)
    exact ⟨(h.above_iff ht hleaf).2 (Tree.mem_leaves.1 hmem), id, var, hleaf⟩

/-- The number of variables below a node is the number of leaves that can be reached from it. -/
theorem ncard_leavesBelow (ht : v.subtree? a = some t) : (v.leavesBelow a).ncard = t.varCount := by
  have hleaves : t.leaves.Nodup := by
    apply List.Nodup.of_map Prod.fst
    rw [Tree.map_fst_leaves]
    exact h.leafVars_nodup ht
  have hnodup : (t.leaves.map Prod.snd).Nodup := by
    refine hleaves.map_on fun x hx y hy hxy => ?_
    -- leaves of one name are one leaf
    have hgetx : v.subtree? x.2 = some (.leaf x.2 x.1) :=
      h.subtree?_of_mem ht (Tree.mem_leaves.1 hx)
    have hgety : v.subtree? y.2 = some (.leaf y.2 y.1) :=
      h.subtree?_of_mem ht (Tree.mem_leaves.1 hy)
    rw [hxy, hgety, Option.some_inj, Tree.leaf.injEq] at hgetx
    exact Prod.ext hgetx.2.symm hxy
  have hset : v.leavesBelow a = ↑(t.leaves.map Prod.snd).toFinset := by
    ext b
    rw [h.mem_leavesBelow ht, List.coe_toFinset]
    rfl
  rw [hset, Set.ncard_coe_finset, List.toFinset_card_of_nodup hnodup, ← Tree.length_leafVars,
    ← Tree.map_fst_leaves, List.length_map, List.length_map]

/-- The tables of a proper vtree agree with its sides. -/
theorem consistent : v.Consistent := by
  constructor
  case above =>
    intro id hlt
    obtain ⟨t, ht⟩ := exists_subtree?_iff.2 hlt
    exact (h.above_iff h.subtree?_root ht).2 (h.mem_root ht)
  case parent_iff => exact fun p c => h.parent_iff
  case orphan_iff => exact fun c => h.orphan_iff
  case varCount =>
    intro id hlt
    obtain ⟨t, ht⟩ := exists_subtree?_iff.2 hlt
    unfold varCount
    rw [subtree_eq_ok.2 ht, h.ncard_leavesBelow ht]
    rfl
  case leafOf =>
    intro var hpos hle
    obtain ⟨leaf, hleaf⟩ := h.exists_leafOf hpos hle
    refine ⟨leaf, hleaf, fun id => ⟨?_, ?_⟩⟩
    · rintro ⟨i, hget⟩
      obtain rfl : i = id := h.id_eq hget
      exact Except.ok.inj ((h.leafOf_iff.2 hget).symm.trans hleaf)
    · rintro rfl
      exact ⟨id, h.leafOf_iff.1 hleaf⟩
  case numNodes => rw [h.numNodes_eq, h.numVars_eq, v.root.size_add_one]

end Proper
end Sentential.Vtree
