import Mathlib.Order.Interval.Finset.Nat
import Sentential.Proofs.Format.Sdd
import Sentential.Proofs.Meaning.Assignment
import Sentential.Proofs.Vtree.Under

/-!
# The function of a node

A node stands for a Boolean function of the variables of its store (`Store.Holds`). The terminals
apart, every node belongs to a vtree node, and where all decisions keep to the sides of theirs, the
function of a node depends on the variables below its own vtree node only (`dependsOn_holds`).
-/

namespace Sentential

open Vtree

/-- The variables below a vtree node. -/
def Vtree.varsBelow (v : Vtree) (id : VtreeId) : Finset Nat :=
  match v.subtree? id with
  | some t => t.leafVars.toFinset
  | none => ∅

theorem Vtree.varsBelow_eq {v : Vtree} {id : VtreeId} {t : Tree} (ht : v.subtree? id = some t) :
    v.varsBelow id = t.leafVars.toFinset := by
  unfold varsBelow
  rw [ht]

/-- A proper vtree is over the variables from one to their number. -/
theorem Vtree.Proper.leafVars_root {v : Vtree} (h : v.Proper) :
    v.root.leafVars.toFinset = Finset.Icc 1 v.numVars := by
  rw [h.numVars_eq]
  obtain ⟨t, ht, rfl⟩ := h
  ext var
  rw [List.mem_toFinset, Finset.mem_Icc]
  constructor
  · exact ht.vars_range var
  · rintro ⟨hpos, hle⟩
    obtain ⟨id, hid⟩ := ht.exists_leaf hpos hle
    exact Tree.mem_leafVars.2 ⟨id, hid⟩

theorem Vtree.Proper.varsBelow_root {v : Vtree} (h : v.Proper) :
    v.varsBelow v.root.id = Finset.Icc 1 v.numVars :=
  (varsBelow_eq h.subtree?_root).trans h.leafVars_root

namespace Store

variable {W : Type} [Weight W] {s : Store W} {id root : NodeId} {T : Finset Nat}

/-- The node holds if the variables in `T` are true and all others are false. -/
inductive Holds (s : Store W) (T : Finset Nat) : NodeId → Prop
  | top {id : NodeId} {leaf : Option VtreeId} : s.kind id = .ok (.top leaf) → Holds s T id
  | literal {id : NodeId} {l : Literal} : s.kind id = .ok (.literal l) →
      (l.isPositive = true ↔ l.var ∈ T) → Holds s T id
  | decision {id : NodeId} {v : VtreeId} {es : List Element} {x : Element} :
      s.kind id = .ok (.decision v es) → x ∈ es → Holds s T x.prime → Holds s T x.sub →
      Holds s T id

theorem not_holds_bottom (hkind : s.kind id = .ok .bottom) : ¬ s.Holds T id := by
  intro h
  cases h with
  | top hk => exact absurd (hkind.symm.trans hk) (by simp)
  | literal hk => exact absurd (hkind.symm.trans hk) (by simp)
  | decision hk => exact absurd (hkind.symm.trans hk) (by simp)

theorem holds_literal {l : Literal} (hkind : s.kind id = .ok (.literal l)) :
    s.Holds T id ↔ (l.isPositive = true ↔ l.var ∈ T) := by
  refine ⟨fun h => ?_, .literal hkind⟩
  cases h with
  | top hk => exact absurd (hkind.symm.trans hk) (by simp)
  | literal hk hl =>
    obtain rfl := Kind.literal.inj (Except.ok.inj (hkind.symm.trans hk))
    exact hl
  | decision hk => exact absurd (hkind.symm.trans hk) (by simp)

theorem holds_decision {v : VtreeId} {es : List Element}
    (hkind : s.kind id = .ok (.decision v es)) :
    s.Holds T id ↔ ∃ x ∈ es, s.Holds T x.prime ∧ s.Holds T x.sub := by
  refine ⟨fun h => ?_, fun ⟨x, hx, hp, hq⟩ => .decision hkind hx hp hq⟩
  cases h with
  | top hk => exact absurd (hkind.symm.trans hk) (by simp)
  | literal hk => exact absurd (hkind.symm.trans hk) (by simp)
  | @decision _ _ _ x hk hx hp hq =>
    obtain ⟨-, rfl⟩ := Kind.decision.inj (Except.ok.inj (hkind.symm.trans hk))
    exact ⟨x, hx, hp, hq⟩

/-! ## The variables of a node -/

/-- The variables below the vtree node that a node belongs to. -/
def ownVars (s : Store W) (id : NodeId) : Finset Nat :=
  match s.vtreeOf id with
  | .ok (some v) => s.vtree.varsBelow v
  | _ => ∅

theorem ownVars_eq {v : VtreeId} {t : Tree} (hv : s.vtreeOf id = .ok (some v))
    (ht : s.vtree.subtree? v = some t) : s.ownVars id = t.leafVars.toFinset := by
  unfold ownVars
  rw [hv]
  exact varsBelow_eq ht

theorem ownVars_of_vtreeOf_none (hv : s.vtreeOf id = .ok none) : s.ownVars id = ∅ := by
  unfold ownVars
  rw [hv]

/-- A decision speaks of the variables of both sides of its vtree node. -/
theorem ownVars_decision {v i : VtreeId} {es : List Element} {l r : Tree}
    (hkind : s.kind id = .ok (.decision v es)) (hfork : s.vtree.subtree? v = some (.fork i l r)) :
    s.ownVars id = l.leafVars.toFinset ∪ r.leafVars.toFinset := by
  rw [ownVars_eq (vtreeOf_decision hkind) hfork, Tree.leafVars, List.toFinset_append]

namespace Sound

variable (hs : s.Sound)
include hs

/-- The two sides of a vtree node share no variables. -/
theorem disjoint_sides {v i : VtreeId} {l r : Tree}
    (hfork : s.vtree.subtree? v = some (.fork i l r)) :
    Disjoint l.leafVars.toFinset r.leafVars.toFinset :=
  List.disjoint_toFinset_iff_disjoint.2 (hs.vtree.sides_disjoint hfork)

/-- A literal speaks of its variable. -/
theorem ownVars_literal {l : Literal} (hkind : s.kind id = .ok (.literal l)) :
    s.ownVars id = {l.var} := by
  obtain ⟨leaf, hleaf⟩ := hs.exists_leafOf hkind
  rw [ownVars_eq (vtreeOf_literal hkind hleaf) (hs.vtree.leafOf_iff.1 hleaf)]
  rfl

/-- The variables of a node are among all variables. -/
theorem ownVars_subset_all (id : NodeId) : s.ownVars id ⊆ Finset.Icc 1 s.varCount := by
  unfold ownVars
  split
  · unfold varsBelow
    split
    · next t ht =>
      show _ ⊆ Finset.Icc 1 s.vtree.numVars
      rw [← hs.vtree.leafVars_root]
      intro var hvar
      rw [List.mem_toFinset] at hvar ⊢
      exact (Tree.leafVars_sublist (hs.vtree.mem_root ht)).subset hvar
    · exact Finset.empty_subset _
  · exact Finset.empty_subset _

theorem ownVars_subset_root (id : NodeId) : s.ownVars id ⊆ s.vtree.root.leafVars.toFinset := by
  rw [hs.vtree.leafVars_root]
  exact hs.ownVars_subset_all id

/-- A node that fits a side speaks of the variables of the side. -/
theorem ownVars_subset {side : VtreeId} {t : Tree} (hfits : s.fits side id = .ok true)
    (ht : s.vtree.subtree? side = some t) : s.ownVars id ⊆ t.leafVars.toFinset := by
  obtain ⟨own, hown, hfits⟩ := bind_eq_ok.1 hfits
  rcases hs.vtreeOf_cases (knows_of_vtreeOf hown) with hnone | ⟨v, u, hv, hu⟩
  · unfold ownVars
    rw [hnone]
    exact Finset.empty_subset _
  · obtain rfl := Except.ok.inj (hown.symm.trans hv)
    rw [ownVars_eq hv hu]
    have hmem := (hs.vtree.isUnder_iff hu ht).1 hfits
    intro var hvar
    rw [List.mem_toFinset] at hvar ⊢
    exact (Tree.leafVars_sublist hmem).subset hvar

end Sound

/-! ## What the function depends on -/

/-- Every decision below the root keeps to the sides of its vtree node. -/
def NormalizedFrom (s : Store W) (root : NodeId) : Prop :=
  ∀ id v es, s.Reaches root id → s.kind id = .ok (.decision v es) → s.Normalized v es

theorem NormalizedFrom.below (h : s.NormalizedFrom root) (hid : s.Reaches root id) :
    s.NormalizedFrom id := fun id' v es hid' => h id' v es (hid.trans hid')

theorem refers_of_mem {v : VtreeId} {es : List Element} (hkind : s.kind id = .ok (.decision v es))
    {x : NodeId} (hx : x ∈ Indexing.nodesBelow es) : s.Refers id x := by
  obtain ⟨e, he, hk⟩ := kind_eq_ok.1 hkind
  refine ⟨es, ?_, hx⟩
  rw [elements_of_entry he]
  show Except.ok e.kind.elements = _
  rw [hk]
  rfl

/-- The sides of a decision that keeps to them, and the variables of its primes and subs. -/
theorem Sound.sides (hs : s.Sound) {v : VtreeId} {es : List Element} (h : s.Normalized v es) :
    ∃ i l r, s.vtree.subtree? v = some (.fork i l r) ∧ ∀ x ∈ es,
      s.ownVars x.prime ⊆ l.leafVars.toFinset ∧ s.ownVars x.sub ⊆ r.leafVars.toFinset := by
  obtain ⟨i, l, r, hfork, hall⟩ := h
  obtain ⟨hl, hr⟩ := hs.vtree.subtree?_sides hfork
  refine ⟨i, l, r, hfork, fun x hx => ?_⟩
  obtain ⟨hp, hq⟩ := allElements_eq_true.1 hall x hx
  exact ⟨hs.ownVars_subset hp hl, hs.ownVars_subset hq hr⟩

/-- A node that holds keeps to hold when other variables than its own change. -/
theorem Holds.congr (hs : s.Sound) {T T' : Finset Nat} (h : s.Holds T id)
    (hnormal : s.NormalizedFrom id) (heq : T ∩ s.ownVars id = T' ∩ s.ownVars id) :
    s.Holds T' id := by
  induction h with
  | top hk => exact .top hk
  | @literal id l hk hl =>
    have hown : l.var ∈ s.ownVars id := by simp [hs.ownVars_literal hk]
    have hsame := congrArg (l.var ∈ ·) heq
    simp only [Finset.mem_inter, hown, and_true, eq_iff_iff] at hsame
    exact .literal hk (hl.trans hsame)
  | @decision id v es x hk hx _ _ ihp ihq =>
    obtain ⟨i, l, r, hfork, hsides⟩ := hs.sides (hnormal id v es .refl hk)
    obtain ⟨hprime, hsub⟩ := hsides x hx
    rw [ownVars_decision hk hfork] at heq
    have hrefers : ∀ y ∈ Indexing.nodesBelow es, s.NormalizedFrom y :=
      fun y hy => hnormal.below (.single (refers_of_mem hk hy))
    refine .decision hk hx ?_ ?_
    · apply ihp (hrefers _ (Indexing.prime_mem_nodesBelow hx))
      exact inter_eq_of_subset (hprime.trans Finset.subset_union_left) heq
    · apply ihq (hrefers _ (Indexing.sub_mem_nodesBelow hx))
      exact inter_eq_of_subset (hsub.trans Finset.subset_union_right) heq

/-- The function of a node depends on the variables of the node only. -/
theorem Sound.dependsOn_holds (hs : s.Sound) (hnormal : s.NormalizedFrom id) :
    DependsOn (fun T => s.Holds T id) (s.ownVars id) := by
  intro T
  have heq : T ∩ s.ownVars id ∩ s.ownVars id = T ∩ s.ownVars id := by
    rw [Finset.inter_assoc, Finset.inter_self]
  exact propext ⟨fun h => h.congr hs hnormal heq, fun h => h.congr hs hnormal heq.symm⟩

end Store
end Sentential
