import Mathlib.Algebra.BigOperators.Group.Finset.Piecewise
import Sentential.Proofs.Meaning.Function
import Sentential.Store.ModelCount

/-!
# The number of models

If the decisions below a node keep to the sides of their vtree nodes and no two primes of one
decision hold under the same assignment, then `Store.modelCount` is the number of assignments to
all variables under which the node holds (`modelCount_eq`).

A node is counted over its own variables first. Over more variables its count doubles with each of
them (`lift_eq`), whatever the shape of the vtree in between. The elements of a decision hold under
different assignments, and the variables of the two sides have nothing in common, so the counts of
its elements are products and add up (`countElements_eq`, `sum_truth`).
-/

namespace Sentential.Store

open Vtree Indexing

variable {W : Type} [Weight W] {s : Store W} {id root : NodeId} {A : Finset Nat}

/-- No two primes of a decision below the root hold under the same assignment. -/
def ExclusiveFrom (s : Store W) (root : NodeId) : Prop :=
  ∀ id v es, s.Reaches root id → s.kind id = .ok (.decision v es) → es.Pairwise fun x y =>
    ∀ T ⊆ Finset.Icc 1 s.varCount, ¬ (s.Holds T x.prime ∧ s.Holds T y.prime)

noncomputable instance (T : Finset Nat) (id : NodeId) : Decidable (s.Holds T id) :=
  Classical.propDecidable _

/-- The assignments to some variables under which the node holds. -/
noncomputable def models (s : Store W) (A : Finset Nat) (id : NodeId) : Finset (Finset Nat) :=
  A.powerset.filter fun T => s.Holds T id

/-- One if the node holds under an assignment and zero if it does not. -/
noncomputable def truth (s : Store W) (id : NodeId) (T : Finset Nat) : Nat :=
  if s.Holds T id then 1 else 0

/-- The count of a node over its own variables. -/
noncomputable def ownCount (s : Store W) (id : NodeId) : Nat := (s.models (s.ownVars id) id).card

theorem card_models : (s.models A id).card = ∑ T ∈ A.powerset, s.truth id T :=
  Finset.card_filter _ _

theorem Sound.dependsOn_truth (hs : s.Sound) (hnormal : s.NormalizedFrom id) :
    DependsOn (s.truth id) (s.ownVars id) := by
  intro T
  exact if_congr (iff_of_eq (hs.dependsOn_holds hnormal T)) rfl rfl

/-! ## Terminals and literals -/

theorem card_models_bottom (hkind : s.kind id = .ok .bottom) : (s.models A id).card = 0 := by
  rw [Finset.card_eq_zero]
  exact Finset.filter_false_of_mem fun T _ => not_holds_bottom hkind

theorem card_models_top {leaf : Option VtreeId} (hkind : s.kind id = .ok (.top leaf)) :
    (s.models A id).card = 2 ^ A.card := by
  rw [← Finset.card_powerset]
  exact congrArg Finset.card (Finset.filter_true_of_mem fun T _ => .top hkind)

/-- A literal holds for one of the two values of its variable. -/
theorem card_models_literal {l : Literal} (hkind : s.kind id = .ok (.literal l)) :
    (s.models {l.var} id).card = 1 := by
  rw [card_models, sum_powerset_singleton]
  simp only [truth, holds_literal hkind]
  cases l.isPositive <;> simp

/-! ## More variables -/

/-- No variable stands at two leaves. -/
theorem Sound.card_leafVars (hs : s.Sound) {v : VtreeId} {t : Tree}
    (ht : s.vtree.subtree? v = some t) : t.leafVars.toFinset.card = t.varCount := by
  rw [List.toFinset_card_of_nodup (hs.vtree.leafVars_nodup ht), Tree.length_leafVars]

theorem Sound.varCount_eq (hs : s.Sound) {v : VtreeId} {t : Tree}
    (ht : s.vtree.subtree? v = some t) : s.vtree.varCount v = .ok t.leafVars.toFinset.card := by
  unfold Vtree.varCount Vtree.subtree
  rw [ht, hs.card_leafVars ht]
  rfl

theorem Sound.scope_eq (hs : s.Sound) (hid : s.Knows id) :
    s.scope id = .ok (s.ownVars id).card := by
  unfold scope
  rcases hs.vtreeOf_cases hid with hnone | ⟨v, t, hv, ht⟩
  · unfold ownVars
    rw [hnone]
    rfl
  · rw [ownVars_eq hv ht, hv, ok_bind]
    exact hs.varCount_eq ht

/-- A count over the variables of a node doubles with each further variable of a tree. -/
theorem Sound.lift_shift (hs : s.Sound) (hid : s.Knows id) {counts : Std.HashMap NodeId Nat}
    {n : Nat} (hcount : counts[id]? = some n) {target : VtreeId} {t : Tree}
    (ht : s.vtree.subtree? target = some t) (hsub : s.ownVars id ⊆ t.leafVars.toFinset) :
    s.lift counts id target = .ok (n * 2 ^ (t.leafVars.toFinset.card - (s.ownVars id).card)) := by
  have hle := Finset.card_le_card hsub
  unfold lift
  rw [hs.varCount_eq ht, ok_bind, hs.scope_eq hid, ok_bind, if_neg (by omega), hcount]
  rfl

/-- The count of a node over the variables of a tree that has those of the node. -/
theorem Sound.lift_eq (hs : s.Sound) (hid : s.Knows id) (hnormal : s.NormalizedFrom id)
    {counts : Std.HashMap NodeId Nat} (hcount : counts[id]? = some (s.ownCount id))
    {target : VtreeId} {t : Tree} (ht : s.vtree.subtree? target = some t)
    (hsub : s.ownVars id ⊆ t.leafVars.toFinset) :
    s.lift counts id target = .ok (s.models t.leafVars.toFinset id).card := by
  rw [hs.lift_shift hid hcount ht hsub, card_models,
    sum_assignments_of_subset hsub (hs.dependsOn_truth hnormal), ← card_models]
  rfl

/-! ## Elements -/

/-- If no two primes hold, the elements that hold are one or none. -/
theorem sum_truth {es : List Element} {T : Finset Nat}
    (h : es.Pairwise fun x y => ¬ (s.Holds T x.prime ∧ s.Holds T y.prime)) {v : VtreeId}
    (hkind : s.kind id = .ok (.decision v es)) :
    (es.map fun x => s.truth x.prime T * s.truth x.sub T).sum = s.truth id T := by
  have hsum : ∀ es : List Element,
      es.Pairwise (fun x y => ¬ (s.Holds T x.prime ∧ s.Holds T y.prime)) →
      (es.map fun x => s.truth x.prime T * s.truth x.sub T).sum
        = if ∃ x ∈ es, s.Holds T x.prime ∧ s.Holds T x.sub then 1 else 0 := by
    intro es h
    induction es with
    | nil => simp
    | cons x es ih =>
      obtain ⟨hx, hes⟩ := List.pairwise_cons.1 h
      rw [List.map_cons, List.sum_cons, ih hes]
      unfold truth
      by_cases hprime : s.Holds T x.prime
      · -- all further primes fail
        have hnone : ¬ ∃ y ∈ es, s.Holds T y.prime ∧ s.Holds T y.sub := by
          rintro ⟨y, hy, hp, -⟩
          exact hx y hy ⟨hprime, hp⟩
        simp [hprime, hnone]
      · simp [hprime]
  rw [hsum es h]
  exact if_congr (holds_decision hkind).symm rfl rfl

theorem countElements_eq_sum {counts : Std.HashMap NodeId Nat} {left right : VtreeId}
    {es : List Element} {p q : Element → Nat}
    (hprime : ∀ x ∈ es, s.lift counts x.prime left = .ok (p x))
    (hsub : ∀ x ∈ es, s.lift counts x.sub right = .ok (q x)) :
    s.countElements counts left right es = .ok (es.map fun x => p x * q x).sum := by
  induction es with
  | nil => rfl
  | cons x es ih =>
    obtain ⟨hp, hps⟩ := List.forall_mem_cons.1 hprime
    obtain ⟨hq, hqs⟩ := List.forall_mem_cons.1 hsub
    rw [countElements, hp, ok_bind, hq, ok_bind, ih hps hqs, ok_bind, pure_eq, List.map_cons,
      List.sum_cons]

theorem countElements_eq {counts : Std.HashMap NodeId Nat} {left right : VtreeId}
    {L R : Finset Nat} (hdisjoint : Disjoint L R) {es : List Element}
    (hprime : ∀ x ∈ es, s.lift counts x.prime left = .ok (s.models L x.prime).card ∧
      DependsOn (s.truth x.prime) L)
    (hsub : ∀ x ∈ es, s.lift counts x.sub right = .ok (s.models R x.sub).card ∧
      DependsOn (s.truth x.sub) R) :
    s.countElements counts left right es = .ok (∑ T ∈ (L ∪ R).powerset,
      (es.map fun x => s.truth x.prime T * s.truth x.sub T).sum) := by
  rw [countElements_eq_sum (fun x hx => (hprime x hx).1) fun x hx => (hsub x hx).1]
  congr 1
  induction es with
  | nil => simp
  | cons x es ih =>
    obtain ⟨⟨-, hpdep⟩, hps⟩ := List.forall_mem_cons.1 hprime
    obtain ⟨⟨-, hqdep⟩, hqs⟩ := List.forall_mem_cons.1 hsub
    simp only [List.map_cons, List.sum_cons]
    rw [Finset.sum_add_distrib, ← ih hps hqs, sum_assignments_union hdisjoint hpdep hqdep,
      card_models, card_models]

/-! ## Nodes -/

theorem Sound.exists_leaf (hs : s.Sound) {leaf : VtreeId}
    (hkind : s.kind id = .ok (.top (some leaf))) :
    ∃ var, s.vtree.subtree? leaf = some (.leaf leaf var) := by
  obtain ⟨⟨⟨kind, theta⟩, b⟩, he, rfl⟩ := kind_eq_ok.1 hkind
  cases hs.made_of_ne he (by simp) (by simp) (by simp) with
  | @top var _ _ hleaf _ => exact ⟨var, hs.vtree.leafOf_iff.1 hleaf⟩

/-- What the count of a node is about. -/
structure Countable (s : Store W) (id : NodeId) : Prop where
  known : s.Knows id
  normalized : s.NormalizedFrom id
  exclusive : s.ExclusiveFrom id

theorem Countable.below (h : s.Countable root) (hclosed : s.Closed) (hid : s.Reaches root id) :
    s.Countable id :=
  ⟨hclosed.knows_of_reaches h.known hid, h.normalized.below hid,
    fun id' v es hid' => h.exclusive id' v es (hid.trans hid')⟩

/-- The counts of the nodes of its elements, lifted to the sides, make the count of a decision. -/
theorem Sound.countElements_decision (hs : s.Sound) (hclosed : s.Closed) (h : s.Countable id)
    {v : VtreeId} {es : List Element} (hkind : s.kind id = .ok (.decision v es)) {i : VtreeId}
    {l r : Tree} (hfork : s.vtree.subtree? v = some (.fork i l r))
    (hsides : ∀ x ∈ es, s.ownVars x.prime ⊆ l.leafVars.toFinset ∧
      s.ownVars x.sub ⊆ r.leafVars.toFinset)
    {counts : Std.HashMap NodeId Nat}
    (hcounts : ∀ x, s.Refers id x → counts[x]? = some (s.ownCount x)) :
    s.countElements counts l.id r.id es = .ok (s.ownCount id) := by
  obtain ⟨hl, hr⟩ := hs.vtree.subtree?_sides hfork
  have hdisjoint := hs.disjoint_sides hfork
  have hown := ownVars_decision hkind hfork
  -- the children have their counts over their own variables
  have hlift : ∀ x ∈ nodesBelow es, ∀ t : Tree, s.vtree.subtree? t.id = some t →
      s.ownVars x ⊆ t.leafVars.toFinset →
      s.lift counts x t.id = .ok (s.models t.leafVars.toFinset x).card ∧
        DependsOn (s.truth x) t.leafVars.toFinset := by
    intro x hx t ht hsub
    have hrefers := refers_of_mem hkind hx
    have hx := h.below hclosed (.single hrefers)
    exact ⟨hs.lift_eq hx.known hx.normalized (hcounts x hrefers) ht hsub,
      (hs.dependsOn_truth hx.normalized).mono hsub⟩
  rw [countElements_eq hdisjoint
    (fun x hx => hlift _ (prime_mem_nodesBelow hx) l hl (hsides x hx).1)
    (fun x hx => hlift _ (sub_mem_nodesBelow hx) r hr (hsides x hx).2), ← hown]
  unfold ownCount
  rw [card_models]
  congr 1
  apply Finset.sum_congr rfl
  intro T hT
  have hvars := (Finset.mem_powerset.1 hT).trans (hs.ownVars_subset_all id)
  exact sum_truth ((h.exclusive id v es .refl hkind).imp fun hne => hne T hvars) hkind

theorem Sound.countNode_eq (hs : s.Sound) (hclosed : s.Closed) (h : s.Countable id)
    {counts : Std.HashMap NodeId Nat}
    (hcounts : ∀ x, s.Refers id x → counts[x]? = some (s.ownCount x)) :
    s.countNode counts id = .ok (s.ownCount id) := by
  obtain ⟨k, hkind⟩ := knows_iff_kind.1 h.known
  unfold countNode
  rw [hkind, ok_bind]
  cases k with
  | bottom => exact congrArg Except.ok (card_models_bottom hkind).symm
  | top leaf =>
    unfold ownCount
    rw [card_models_top hkind]
    cases leaf with
    | none =>
      unfold ownVars
      rw [vtreeOf_top hkind]
      rfl
    | some leaf =>
      obtain ⟨var, hleaf⟩ := hs.exists_leaf hkind
      rw [ownVars_eq (vtreeOf_top hkind) hleaf]
      rfl
  | literal l =>
    unfold ownCount
    rw [hs.ownVars_literal hkind]
    exact congrArg Except.ok (card_models_literal hkind).symm
  | decision v es =>
    obtain ⟨i, l, r, hfork, hsides⟩ := hs.sides (h.normalized id v es .refl hkind)
    simp only [Vtree.subtree_eq_ok.2 hfork, ok_bind]
    exact hs.countElements_decision hclosed h hkind hfork hsides hcounts

/-- If each node of a list has the nodes below it in front of it, what the count of a node has
whenever the counts below it have it is had by all counts. -/
theorem countAll_of_step {P : NodeId → Nat → Prop} {order : List NodeId}
    (hsettled : Settled s.elements order)
    (hstep : ∀ id ∈ order, ∀ counts : Std.HashMap NodeId Nat,
      (∀ x, s.Refers id x → ∃ n, counts[x]? = some n ∧ P x n) →
      ∃ n, s.countNode counts id = .ok n ∧ P id n) :
    ∃ counts, s.countAll order = .ok counts ∧ ∀ id ∈ order, ∃ n, counts[id]? = some n ∧ P id n := by
  -- by induction on what is left, with the counts of what came before as the invariant
  have hrest : ∀ (rest before : List NodeId) (counts : Std.HashMap NodeId Nat),
      order = before ++ rest → (∀ id ∈ before, ∃ n, counts[id]? = some n ∧ P id n) →
      ∃ counts', rest.foldlM (fun counts id => return counts.insert id (← s.countNode counts id))
        counts = .ok counts' ∧ ∀ id ∈ order, ∃ n, counts'[id]? = some n ∧ P id n := by
    intro rest
    induction rest with
    | nil =>
      intro before counts horder hcounts
      rw [List.append_nil] at horder
      exact ⟨counts, rfl, horder ▸ hcounts⟩
    | cons id rest ih =>
      intro before counts horder hcounts
      have hmem : id ∈ order := by simp [horder]
      have hbelow : ∀ x, s.Refers id x → ∃ n, counts[x]? = some n ∧ P x n := by
        rintro x ⟨es, hes, hx⟩
        rw [horder] at hsettled
        exact hcounts x (hsettled.below hes x hx)
      obtain ⟨n, hcount, hn⟩ := hstep id hmem counts hbelow
      rw [List.foldlM_cons, hcount, ok_bind, pure_eq, ok_bind]
      apply ih (before ++ [id]) _ (by simp [horder])
      intro x hx
      rw [Std.HashMap.getElem?_insert]
      split
      · next heq => exact ⟨n, rfl, eq_of_beq heq ▸ hn⟩
      · next hne =>
        rcases List.mem_append.1 hx with hx | hx
        · exact hcounts x hx
        · exact absurd (beq_iff_eq.2 (List.mem_singleton.1 hx).symm) hne
  exact hrest order [] ∅ rfl (by simp)

/-- The number of models is the count of the root, shifted to all variables. What the count of a node
has whenever the counts below it have it is had by the count of the root. -/
theorem Numbering.exists_lift {P : NodeId → Nat → Prop} {order : List NodeId}
    (ho : s.Numbering root order)
    (hstep : ∀ id, s.Reaches root id → ∀ counts : Std.HashMap NodeId Nat,
      (∀ x, s.Refers id x → ∃ n, counts[x]? = some n ∧ P x n) →
      ∃ n, s.countNode counts id = .ok n ∧ P id n) :
    ∃ counts, (∃ n, counts[root]? = some n ∧ P root n) ∧
      s.modelCount root = s.lift counts root s.vtree.root.id := by
  obtain ⟨counts, hall, hcounts⟩ :=
    countAll_of_step ho.settled fun id hid => hstep id ((ho.mem_iff id).1 hid)
  refine ⟨counts, hcounts root ((ho.mem_iff root).2 .refl), ?_⟩
  unfold modelCount
  rw [ho.indexing, ok_bind, order_ofList, hall, ok_bind]

/-! ## Roots -/

/-- In a closed store the number of models is the number of the assignments to all variables under
which the root holds. -/
theorem Sound.modelCount_card (hs : s.Sound) (hclosed : s.Closed) (h : s.Countable root) :
    s.modelCount root = .ok (s.models (Finset.Icc 1 s.varCount) root).card := by
  obtain ⟨order, ho⟩ := exists_numbering hclosed h.known
  -- every node below the root is counted over its own variables
  have hstep : ∀ id, s.Reaches root id → ∀ counts : Std.HashMap NodeId Nat,
      (∀ x, s.Refers id x → ∃ n, counts[x]? = some n ∧ n = s.ownCount x) →
      ∃ n, s.countNode counts id = .ok n ∧ n = s.ownCount id := by
    intro id hid counts hbelow
    refine ⟨_, hs.countNode_eq hclosed (h.below hclosed hid) fun x hx => ?_, rfl⟩
    obtain ⟨n, hn, rfl⟩ := hbelow x hx
    exact hn
  obtain ⟨counts, ⟨n, hcount, rfl⟩, heq⟩ := ho.exists_lift hstep
  have hvars : s.vtree.root.leafVars.toFinset = Finset.Icc 1 s.varCount := by
    rw [← varsBelow_eq hs.vtree.subtree?_root]
    exact hs.vtree.varsBelow_root
  rw [heq, ← hvars]
  exact hs.lift_eq h.known h.normalized hcount hs.vtree.subtree?_root
    (hvars ▸ hs.ownVars_subset_all root)

/-- The number of models is the number of the assignments to all variables under which the root
holds. -/
theorem Built.modelCount_eq (h : s.Built) (hroot : s.Knows root) (hnormal : s.NormalizedFrom root)
    (hexclusive : s.ExclusiveFrom root) :
    s.modelCount root = .ok (s.models (Finset.Icc 1 s.varCount) root).card :=
  h.sound.modelCount_card h.closed ⟨hroot, hnormal, hexclusive⟩

theorem modelCount_conjunction : sample.modelCount ⟨6⟩
    = .ok (sample.models (Finset.Icc 1 sample.varCount) ⟨6⟩).card := by
  have hmem : ∀ id, sample.Reaches ⟨6⟩ id → id ∈ [⟨6⟩, ⟨2⟩, ⟨3⟩, ⟨4⟩, NodeId.bottom] :=
    fun id hid => hid.mem (by decide) (by decide)
  -- the one decision below is the root itself
  have hroot : ∀ id v es, sample.Reaches ⟨6⟩ id → sample.kind id = .ok (.decision v es) →
      v = ⟨1⟩ ∧ es = conjunction := by
    intro id v es hid hkind
    have hid := hmem id hid
    simp only [List.mem_cons, List.not_mem_nil, or_false] at hid
    rcases hid with rfl | rfl | rfl | rfl | rfl
    · obtain ⟨rfl, rfl⟩ := Kind.decision.inj (Except.ok.inj hkind)
      exact ⟨rfl, rfl⟩
    all_goals exact nomatch hkind
  refine built_sample.modelCount_eq (by decide) ?_ ?_
  · intro id v es hid hkind
    obtain ⟨rfl, rfl⟩ := hroot id v es hid hkind
    exact ⟨_, _, _, rfl, by decide⟩
  · intro id v es hid hkind
    obtain ⟨rfl, rfl⟩ := hroot id v es hid hkind
    refine List.pairwise_pair.2 fun T _ hboth => ?_
    have hpositive := (holds_literal (l := ⟨1, by decide⟩) rfl).1 hboth.1
    have hnegative := (holds_literal (l := ⟨-1, by decide⟩) rfl).1 hboth.2
    simp [Literal.isPositive, Literal.var] at hpositive hnegative
    exact hnegative hpositive

end Sentential.Store
