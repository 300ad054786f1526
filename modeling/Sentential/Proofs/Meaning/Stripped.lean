import Sentential.Proofs.Meaning.ModelCount

/-!
# Diagrams without their weights

What is left of a diagram without its weights: the TRUE nodes are the terminal, whichever variable
they were bound to, and nodes that differ in their weights only are one node, so that the nodes
above them may become one as well (`Stripped`). The function stays the same (`Stripped.holds_iff`).

So does the number of models (`Stripped.modelCount_root`), although the counts that it is made of do
not. `Store.modelCount` counts a node over its own variables first, and a TRUE node has one variable
while it is bound and none afterwards. What stays the same is the count over given variables
(`countOver`): where a node is used, its count is shifted to the variables of the side that it is
used on.
-/

namespace Sentential

/-- The kind without the leaf that a TRUE node is bound to. -/
def Kind.unbound : Kind → Kind
  | .top _ => .top none
  | k => k

namespace Store

open Vtree Indexing

variable {W : Type} [Weight W] {s s' : Store W} {f : NodeId → NodeId} {id root : NodeId}
  {T : Finset Nat} {v : VtreeId} {es : List Element} {depth width : Nat}

/-- The nodes `f id` of `s'` are the nodes below the root of `s` without weights: what is bound is
not, and what is the same is one node. -/
structure Stripped (s s' : Store W) (f : NodeId → NodeId) (root : NodeId) : Prop where
  vtree : s'.vtree = s.vtree
  node : ∀ id, s.Reaches root id → ∃ k b, s.kind id = .ok k ∧
    s'.entry (f id) = .ok ⟨⟨k.unbound.map f, none⟩, b⟩
  merged : ∀ a b k k', s.Reaches root a → s.Reaches root b → s.kind a = .ok k → s.kind b = .ok k' →
    k.unbound.map f = k'.unbound.map f → f a = f b

theorem Stripped.exists_kinds (h : s.Stripped s' f root) (hid : s.Reaches root id) :
    ∃ k, s.kind id = .ok k ∧ s'.kind (f id) = .ok (k.unbound.map f) := by
  obtain ⟨k, b, hk, he⟩ := h.node id hid
  exact ⟨k, hk, kind_of_entry he⟩

/-! ## The function -/

/-- A diagram without its weights is the same function. -/
theorem Stripped.holds_iff (h : s.Stripped s' f root) (hclosed : s.Closed)
    (hid : s.Reaches root id) : s'.Holds T (f id) ↔ s.Holds T id := by
  -- the nodes of the elements have smaller ids
  induction hraw : id.raw using Nat.strong_induction_on generalizing id with
  | _ n ih =>
    subst hraw
    obtain ⟨k, hk, hk'⟩ := h.exists_kinds hid
    cases k with
    | bottom => exact iff_of_false (not_holds_bottom hk') (not_holds_bottom hk)
    | top leaf => exact iff_of_true (.top hk') (.top hk)
    | literal l => rw [holds_literal hk', holds_literal hk]
    | decision v es =>
      have hbelow : ∀ y ∈ nodesBelow es, s'.Holds T (f y) ↔ s.Holds T y := by
        intro y hy
        have hrefers := refers_of_mem hk hy
        have hless : y.raw < id.raw := hclosed.raw_lt hrefers
        exact ih y.raw hless (.tail hid hrefers) rfl
      have helement : ∀ x ∈ es, (s'.Holds T (f x.prime) ∧ s'.Holds T (f x.sub)) ↔
          (s.Holds T x.prime ∧ s.Holds T x.sub) := fun x hx =>
        and_congr (hbelow _ (prime_mem_nodesBelow hx)) (hbelow _ (sub_mem_nodesBelow hx))
      rw [holds_decision hk', holds_decision hk]
      constructor
      · rintro ⟨y, hy, hholds⟩
        obtain ⟨x, hx, rfl⟩ := List.mem_map.1 hy
        exact ⟨x, hx, (helement x hx).1 hholds⟩
      · rintro ⟨x, hx, hholds⟩
        exact ⟨x.map f, List.mem_map_of_mem hx, (helement x hx).2 hholds⟩

/-! ## Counts over given variables -/

/-- The count of a node over `width` variables, from the counts of its elements over the variables
of the sides and so on, `depth` nodes down. -/
def countOver (s : Store W) : Nat → Nat → NodeId → Nat
  | 0, _, _ => 0
  | depth + 1, width, id =>
    match s.kind id with
    | .ok .bottom => 0
    | .ok (.top _) => 2 ^ width
    | .ok (.literal _) => 2 ^ (width - 1)
    | .ok (.decision v es) =>
      match s.vtree.subtree? v with
      | some (.fork _ l r) =>
        (es.map fun x => s.countOver depth l.varCount x.prime
          * s.countOver depth r.varCount x.sub).sum * 2 ^ (width - (l.varCount + r.varCount))
      | _ => 0
    | .error _ => 0

theorem countOver_bottom (hkind : s.kind id = .ok .bottom) : s.countOver (depth + 1) width id = 0 := by
  rw [countOver, hkind]

theorem countOver_top {leaf : Option VtreeId} (hkind : s.kind id = .ok (.top leaf)) :
    s.countOver (depth + 1) width id = 2 ^ width := by
  rw [countOver, hkind]

theorem countOver_literal {l : Literal} (hkind : s.kind id = .ok (.literal l)) :
    s.countOver (depth + 1) width id = 2 ^ (width - 1) := by
  rw [countOver, hkind]

theorem countOver_decision (hkind : s.kind id = .ok (.decision v es)) {i : VtreeId} {l r : Tree}
    (hfork : s.vtree.subtree? v = some (.fork i l r)) : s.countOver (depth + 1) width id
      = (es.map fun x => s.countOver depth l.varCount x.prime
          * s.countOver depth r.varCount x.sub).sum * 2 ^ (width - (l.varCount + r.varCount)) := by
  rw [countOver, hkind]
  simp only [hfork]

/-- A diagram without its weights has the same counts over given variables. -/
theorem Stripped.countOver_eq (h : s.Stripped s' f root) (hid : s.Reaches root id) :
    s'.countOver depth width (f id) = s.countOver depth width id := by
  induction depth generalizing width id with
  | zero => rfl
  | succ depth ih =>
    obtain ⟨k, hk, hk'⟩ := h.exists_kinds hid
    cases k with
    | bottom => rw [countOver_bottom hk', countOver_bottom hk]
    | top leaf => rw [countOver_top hk', countOver_top hk]
    | literal l => rw [countOver_literal hk', countOver_literal hk]
    | decision v es =>
      have hbelow : ∀ y ∈ nodesBelow es, ∀ width,
          s'.countOver depth width (f y) = s.countOver depth width y :=
        fun y hy width => ih (.tail hid (refers_of_mem hk hy))
      have hk' : s'.kind (f id) = .ok (.decision v (es.map (Element.map f))) := hk'
      rw [countOver, countOver, hk, hk', h.vtree]
      simp only [List.map_map]
      split
      · -- elements that become equal keep their places, so the two sums have the same terms
        congr 2
        apply List.map_congr_left
        intro x hx
        exact congrArg₂ (· * ·) (hbelow _ (prime_mem_nodesBelow hx) _)
          (hbelow _ (sub_mem_nodesBelow hx) _)
      · rfl

/-! ## The number of models as a count over all variables -/

/-- A count over the own variables of a node, which doubles with each further variable. Everything
below a node has a lower rank, so it is enough to look as deep as the rank of the node. -/
def CountsOwn (s : Store W) (rank : NodeId → Nat) (id : NodeId) (n : Nat) : Prop :=
  ∀ depth, rank id ≤ depth → ∀ more,
    s.countOver (depth + 1) ((s.ownVars id).card + more) id = n * 2 ^ more

section

variable (hs : s.Sound) {rank : NodeId → Nat} {counts : Std.HashMap NodeId Nat}
include hs

/-- A count that is shifted to the variables of a tree is the count over them. -/
theorem Sound.lift_countOver (hid : s.Knows id)
    (hcount : ∃ n, counts[id]? = some n ∧ s.CountsOwn rank id n) {target : VtreeId} {t : Tree}
    (ht : s.vtree.subtree? target = some t) (hsub : s.ownVars id ⊆ t.leafVars.toFinset)
    (hdepth : rank id < depth) :
    s.lift counts id target = .ok (s.countOver depth t.varCount id) := by
  obtain ⟨n, hn, hown⟩ := hcount
  obtain ⟨more, hmore⟩ := Nat.exists_eq_add_of_le (Finset.card_le_card hsub)
  obtain ⟨k, rfl⟩ := Nat.exists_eq_add_of_lt hdepth
  rw [hs.lift_shift hid hn ht hsub, ← hs.card_leafVars ht, hmore,
    hown _ (Nat.le_add_right _ _), Nat.add_sub_cancel_left]

/-- The counts of the elements make a count over the variables of both sides. -/
theorem Sound.countElements_own (hkind : s.kind id = .ok (.decision v es)) {i : VtreeId} {l r : Tree}
    (hfork : s.vtree.subtree? v = some (.fork i l r))
    (hsides : ∀ x ∈ es, s.ownVars x.prime ⊆ l.leafVars.toFinset ∧
      s.ownVars x.sub ⊆ r.leafVars.toFinset)
    (hrank : ∀ x ∈ nodesBelow es, s.Knows x ∧ rank x < rank id)
    (hcounts : ∀ x ∈ nodesBelow es, ∃ n, counts[x]? = some n ∧ s.CountsOwn rank x n) :
    ∃ n, s.countElements counts l.id r.id es = .ok n ∧ s.CountsOwn rank id n := by
  obtain ⟨hl, hr⟩ := hs.vtree.subtree?_sides hfork
  have hlift : ∀ depth, rank id ≤ depth → ∀ x ∈ nodesBelow es, ∀ t : Tree,
      s.vtree.subtree? t.id = some t → s.ownVars x ⊆ t.leafVars.toFinset →
      s.lift counts x t.id = .ok (s.countOver depth t.varCount x) := by
    intro depth hdepth x hx t ht hsub
    obtain ⟨hknown, hless⟩ := hrank x hx
    exact hs.lift_countOver hknown (hcounts x hx) ht hsub (Nat.lt_of_lt_of_le hless hdepth)
  -- what the counts below add up to does not depend on the depth, as long as it is enough
  have hsum : ∀ depth, rank id ≤ depth → s.countElements counts l.id r.id es
      = .ok (es.map fun x => s.countOver depth l.varCount x.prime
          * s.countOver depth r.varCount x.sub).sum := fun depth hdepth =>
    countElements_eq_sum
      (fun x hx => hlift depth hdepth _ (prime_mem_nodesBelow hx) l hl (hsides x hx).1)
      (fun x hx => hlift depth hdepth _ (sub_mem_nodesBelow hx) r hr (hsides x hx).2)
  have hown : (s.ownVars id).card = l.varCount + r.varCount := by
    rw [ownVars_eq (vtreeOf_decision hkind) hfork, hs.card_leafVars hfork, Tree.varCount]
  refine ⟨_, hsum _ (Nat.le_refl _), fun depth hdepth more => ?_⟩
  have hsame := Except.ok.inj ((hsum depth hdepth).symm.trans (hsum _ (Nat.le_refl _)))
  rw [countOver_decision hkind hfork, hown, Nat.add_sub_cancel_left, hsame]

theorem Sound.countNode_own (hid : s.Knows id) (hnormal : s.NormalizedFrom id)
    (hrank : ∀ x, s.Refers id x → s.Knows x ∧ rank x < rank id)
    (hcounts : ∀ x, s.Refers id x → ∃ n, counts[x]? = some n ∧ s.CountsOwn rank x n) :
    ∃ n, s.countNode counts id = .ok n ∧ s.CountsOwn rank id n := by
  obtain ⟨k, hkind⟩ := knows_iff_kind.1 hid
  unfold countNode
  rw [hkind, ok_bind]
  cases k with
  | bottom =>
    refine ⟨0, rfl, fun depth _ more => ?_⟩
    rw [countOver_bottom hkind, Nat.zero_mul]
  | top leaf =>
    cases leaf with
    | none =>
      refine ⟨1, rfl, fun depth _ more => ?_⟩
      rw [countOver_top hkind, ownVars_of_vtreeOf_none (vtreeOf_top hkind), Finset.card_empty,
        Nat.zero_add, Nat.one_mul]
    | some leaf =>
      obtain ⟨var, hleaf⟩ := hs.exists_leaf hkind
      refine ⟨2, rfl, fun depth _ more => ?_⟩
      rw [countOver_top hkind, ownVars_eq (vtreeOf_top hkind) hleaf, hs.card_leafVars hleaf,
        Tree.varCount, Nat.pow_add, Nat.pow_one]
  | literal l =>
    refine ⟨1, rfl, fun depth _ more => ?_⟩
    rw [countOver_literal hkind, hs.ownVars_literal hkind, Finset.card_singleton,
      Nat.add_sub_cancel_left, Nat.one_mul]
  | decision v es =>
    obtain ⟨i, l, r, hfork, hsides⟩ := hs.sides (hnormal id v es .refl hkind)
    simp only [Vtree.subtree_eq_ok.2 hfork, ok_bind]
    exact hs.countElements_own hkind hfork hsides (fun x hx => hrank x (refers_of_mem hkind hx))
      fun x hx => hcounts x (refers_of_mem hkind hx)

/-- The number of models of a root is its count over all variables. -/
theorem Sound.modelCount_eq_countOver {order : List NodeId} (ho : s.Numbering root order)
    (hnormal : s.NormalizedFrom root)
    (hrank : ∀ a, s.Reaches root a → ∀ x, s.Refers a x → rank x < rank a)
    (hdepth : rank root < depth) :
    s.modelCount root = .ok (s.countOver depth s.vtree.root.varCount root) := by
  have hknown : ∀ a, s.Reaches root a → s.Knows a := fun a ha => ho.known a ((ho.mem_iff a).2 ha)
  obtain ⟨counts, hcount, hlift⟩ := ho.exists_lift fun id hid counts hbelow =>
    hs.countNode_own (hknown id hid) (hnormal.below hid)
      (fun x hx => ⟨hknown x (.tail hid hx), hrank id hid x hx⟩) hbelow
  rw [hlift]
  exact hs.lift_countOver (hknown root .refl) hcount hs.vtree.subtree?_root
    (hs.ownVars_subset_root root) hdepth

end

/-- A diagram without its weights has the same number of models. -/
theorem Stripped.modelCount_root (h : s.Stripped s' f root) (hs : s.Sound) (hs' : s'.Sound)
    {order order' : List NodeId} (ho : s.Numbering root order)
    (ho' : s'.Numbering (f root) order') (hnormal : s.NormalizedFrom root)
    (hnormal' : s'.NormalizedFrom (f root)) {rank rank' : NodeId → Nat}
    (hrank : ∀ a, s.Reaches root a → ∀ x, s.Refers a x → rank x < rank a)
    (hrank' : ∀ a, s'.Reaches (f root) a → ∀ x, s'.Refers a x → rank' x < rank' a) :
    s'.modelCount (f root) = s.modelCount root := by
  obtain ⟨depth, hdepth, hdepth'⟩ : ∃ depth, rank root < depth ∧ rank' (f root) < depth :=
    ⟨rank root + rank' (f root) + 1, by omega, by omega⟩
  rw [hs.modelCount_eq_countOver ho hnormal hrank hdepth,
    hs'.modelCount_eq_countOver ho' hnormal' hrank' hdepth', h.vtree, h.countOver_eq .refl]

end Store
end Sentential
