import Sentential.Proofs.Meaning.ModelCount
import Sentential.Proofs.Store.Coherent

/-!
# Nodes that never hold

Whether a node never holds is decided once, when the node is made, from the answers for the parts
of its elements alone. `Built.isFalse_iff_unsatisfiable`: where all decisions keep to the sides of
their vtree nodes, the answer is yes exactly for the nodes whose function has no model, and these
are the nodes whose count is zero. Primes may overlap; the count may then be too large, but it is
not zero by mistake.

A yes is right whatever the vtree nodes (`Holds.not_isFalse`). That a no is right needs the sides:
a model of a prime and one of its sub speak of different variables, so together they are a model of
both (`Sound.exists_holds`).
-/

namespace Sentential.Store

open Vtree Indexing

variable {W : Type} [Weight W] {s : Store W} {id root : NodeId} {T : Finset Nat}

/-! ## Flags and models -/

/-- A node that holds under some assignment is not said never to hold. -/
theorem Holds.not_isFalse (h : s.Holds T id) (hs : s.Sound) (hclosed : s.Closed) :
    ¬ s.isFalse id = .ok true := by
  induction h with
  | top hkind =>
    rw [hs.isFalse_iff hclosed hkind]
    simp
  | literal hkind =>
    rw [hs.isFalse_iff hclosed hkind]
    simp
  | decision hkind hx _ _ ihp ihq =>
    rw [hs.isFalse_decision hclosed hkind]
    intro hall
    exact (hall _ hx).elim ihp ihq

theorem Holds.knows (h : s.Holds T id) : s.Knows id := by
  cases h with
  | top hkind => exact knows_of_kind hkind
  | literal hkind => exact knows_of_kind hkind
  | decision hkind => exact knows_of_kind hkind

theorem Holds.isFalse (h : s.Holds T id) (hs : s.Sound) (hclosed : s.Closed) :
    s.isFalse id = .ok false := isFalse_of_not h.knows (h.not_isFalse hs hclosed)

/-- A literal holds when its variable has the sign of the literal. -/
theorem exists_holds_literal {l : Literal} (hkind : s.kind id = .ok (.literal l)) :
    ∃ T ⊆ ({l.var} : Finset Nat), s.Holds T id := by
  by_cases hpositive : l.isPositive = true
  · exact ⟨{l.var}, Finset.Subset.refl _, .literal hkind (by simp [hpositive])⟩
  · exact ⟨∅, Finset.empty_subset _, .literal hkind (by simp [hpositive])⟩

/-- A node that is not said never to hold does so under some assignment to its own variables. -/
theorem Sound.exists_holds (hs : s.Sound) (hclosed : s.Closed) (hid : s.Knows id)
    (hnormal : s.NormalizedFrom id) (hholds : ¬ s.isFalse id = .ok true) :
    ∃ T ⊆ s.ownVars id, s.Holds T id := by
  -- the parts of the elements have smaller ids
  induction hraw : id.raw using Nat.strong_induction_on generalizing id with
  | _ n ih =>
    subst hraw
    obtain ⟨k, hkind⟩ := knows_iff_kind.1 hid
    cases k with
    | bottom => exact absurd ((hs.isFalse_iff hclosed hkind).2 (Or.inl rfl)) hholds
    | top leaf => exact ⟨∅, Finset.empty_subset _, .top hkind⟩
    | literal l =>
      rw [hs.ownVars_literal hkind]
      exact exists_holds_literal hkind
    | decision v es =>
      obtain ⟨i, l, r, hfork, hsides⟩ := hs.sides (hnormal id v es .refl hkind)
      have hdisjoint := hs.disjoint_sides hfork
      have hbelow : ∀ y ∈ nodesBelow es, s.NormalizedFrom y ∧
          (¬ s.isFalse y = .ok true → ∃ T ⊆ s.ownVars y, s.Holds T y) := by
        intro y hy
        have hrefers := refers_of_mem hkind hy
        have hknown := hclosed.knows_of_reaches hid (.single hrefers)
        have hnormal' := hnormal.below (.single hrefers)
        have hless : y.raw < id.raw := hclosed.raw_lt hrefers
        exact ⟨hnormal', fun hy' => ih y.raw hless hknown hnormal' hy' rfl⟩
      -- one of the elements has two parts that can hold
      rw [hs.isFalse_decision hclosed hkind] at hholds
      push Not at hholds
      obtain ⟨x, hx, hprime, hsub⟩ := hholds
      obtain ⟨hpnormal, hp⟩ := hbelow _ (prime_mem_nodesBelow hx)
      obtain ⟨hqnormal, hq⟩ := hbelow _ (sub_mem_nodesBelow hx)
      obtain ⟨P, hPown, hP⟩ := hp hprime
      obtain ⟨Q, hQown, hQ⟩ := hq hsub
      obtain ⟨hpl, hqr⟩ := hsides x hx
      have hPQ := union_inter_of_disjoint (T := P) (hdisjoint.mono_left hpl) (hQown.trans hqr)
      have hQP := union_inter_of_disjoint (T := Q) (hdisjoint.symm.mono_left hqr) (hPown.trans hpl)
      rw [Finset.union_comm] at hQP
      refine ⟨P ∪ Q, ?_, .decision hkind hx (hP.congr hs hpnormal hPQ.symm)
        (hQ.congr hs hqnormal hQP.symm)⟩
      rw [ownVars_decision hkind hfork]
      exact Finset.union_subset_union (hPown.trans hpl) (hQown.trans hqr)

/-! ## Flags and counts -/

/-- The count of a node is zero exactly if the node is said never to hold. -/
def CountsFalsity (s : Store W) (id : NodeId) (n : Nat) : Prop := n = 0 ↔ s.isFalse id = .ok true

/-- Further variables leave a count zero or not zero. -/
theorem Sound.lift_falsity (hs : s.Sound) (hid : s.Knows id) {counts : Std.HashMap NodeId Nat}
    (hcount : ∃ n, counts[id]? = some n ∧ s.CountsFalsity id n) {target : VtreeId} {t : Tree}
    (ht : s.vtree.subtree? target = some t) (hsub : s.ownVars id ⊆ t.leafVars.toFinset) :
    ∃ n, s.lift counts id target = .ok n ∧ s.CountsFalsity id n := by
  obtain ⟨n, hn, hfalse⟩ := hcount
  refine ⟨_, hs.lift_shift hid hn ht hsub, ?_⟩
  unfold CountsFalsity at hfalse ⊢
  rw [← hfalse, Nat.mul_eq_zero, or_iff_left (Nat.two_pow_pos _).ne']

/-- The count of some elements is zero exactly if each has a part that never holds. -/
theorem countElements_falsity {counts : Std.HashMap NodeId Nat} {left right : VtreeId}
    {es : List Element}
    (hprime : ∀ x ∈ es, ∃ n, s.lift counts x.prime left = .ok n ∧ s.CountsFalsity x.prime n)
    (hsub : ∀ x ∈ es, ∃ n, s.lift counts x.sub right = .ok n ∧ s.CountsFalsity x.sub n) :
    ∃ n, s.countElements counts left right es = .ok n ∧
      (n = 0 ↔ ∀ x ∈ es, s.isFalse x.prime = .ok true ∨ s.isFalse x.sub = .ok true) := by
  choose! p hp hpfalse using hprime
  choose! q hq hqfalse using hsub
  refine ⟨_, countElements_eq_sum hp hq, ?_⟩
  -- a sum of naturals is zero only if each of its terms is
  rw [List.sum_eq_zero_iff, List.forall_mem_map]
  refine forall₂_congr fun x hx => ?_
  rw [Nat.mul_eq_zero]
  exact or_congr (hpfalse x hx) (hqfalse x hx)

theorem Sound.countNode_falsity (hs : s.Sound) (hclosed : s.Closed) (hid : s.Knows id)
    (hnormal : s.NormalizedFrom id) {counts : Std.HashMap NodeId Nat}
    (hcounts : ∀ x, s.Refers id x → ∃ n, counts[x]? = some n ∧ s.CountsFalsity x n) :
    ∃ n, s.countNode counts id = .ok n ∧ s.CountsFalsity id n := by
  obtain ⟨k, hkind⟩ := knows_iff_kind.1 hid
  have hfalse := hs.isFalse_iff hclosed hkind
  unfold CountsFalsity countNode
  rw [hkind, ok_bind]
  cases k with
  | bottom => exact ⟨0, rfl, by simp [hfalse]⟩
  | top leaf =>
    cases leaf with
    | none => exact ⟨1, rfl, by simp [hfalse]⟩
    | some leaf => exact ⟨2, rfl, by simp [hfalse]⟩
  | literal l => exact ⟨1, rfl, by simp [hfalse]⟩
  | decision v es =>
    obtain ⟨i, l, r, hfork, hsides⟩ := hs.sides (hnormal id v es .refl hkind)
    obtain ⟨hl, hr⟩ := hs.vtree.subtree?_sides hfork
    have hlift : ∀ x ∈ nodesBelow es, ∀ t : Tree, s.vtree.subtree? t.id = some t →
        s.ownVars x ⊆ t.leafVars.toFinset →
        ∃ n, s.lift counts x t.id = .ok n ∧ s.CountsFalsity x n := by
      intro x hx t ht hsub
      have hrefers := refers_of_mem hkind hx
      exact hs.lift_falsity (hclosed.knows_of_reaches hid (.single hrefers)) (hcounts x hrefers)
        ht hsub
    simp only [Vtree.subtree_eq_ok.2 hfork, ok_bind]
    rw [hs.isFalse_decision hclosed hkind]
    exact countElements_falsity
      (fun x hx => hlift _ (prime_mem_nodesBelow hx) l hl (hsides x hx).1)
      (fun x hx => hlift _ (sub_mem_nodesBelow hx) r hr (hsides x hx).2)

/-! ## Roots -/

theorem Sound.modelCount_falsity (hs : s.Sound) (hclosed : s.Closed) (hroot : s.Knows root)
    (hnormal : s.NormalizedFrom root) :
    ∃ n, s.modelCount root = .ok n ∧ s.CountsFalsity root n := by
  obtain ⟨order, ho⟩ := exists_numbering hclosed hroot
  obtain ⟨counts, hcount, hlift⟩ := ho.exists_lift fun id hid counts hbelow =>
    hs.countNode_falsity hclosed (hclosed.knows_of_reaches hroot hid) (hnormal.below hid) hbelow
  rw [hlift]
  exact hs.lift_falsity hroot hcount hs.vtree.subtree?_root (hs.ownVars_subset_root root)

/-- If the decisions below a node keep to the sides of their vtree nodes, the store says that the
node never holds exactly if no assignment to its variables is a model, and exactly if it counts no
models. -/
theorem Built.isFalse_iff_unsatisfiable (h : s.Built) (hid : s.Knows id)
    (hnormal : s.NormalizedFrom id) : ∃ b n, s.isFalse id = .ok b ∧ s.modelCount id = .ok n ∧
      (b = true ↔ ∀ T ⊆ Finset.Icc 1 s.varCount, ¬ s.Holds T id) ∧ (b = true ↔ n = 0) := by
  have hs := h.sound
  obtain ⟨b, hb⟩ := exists_isFalse hid
  obtain ⟨n, hn, hzero⟩ := hs.modelCount_falsity h.closed hid hnormal
  have hflag : b = true ↔ s.isFalse id = .ok true := by simp [hb]
  refine ⟨b, n, hb, hn, ?_, hflag.trans hzero.symm⟩
  rw [hflag]
  constructor
  · intro hfalse T _ hholds
    exact hholds.not_isFalse hs h.closed hfalse
  · intro hnone
    by_contra hpossible
    obtain ⟨T, hT, hholds⟩ := hs.exists_holds h.closed hid hnormal hpossible
    exact hnone T (hT.trans (hs.ownVars_subset_all id)) hholds

theorem normalizedFrom_sample : sample.NormalizedFrom ⟨8⟩ := by
  intro id v es hid hkind
  have hid := mem_of_reaches_sample hid
  simp only [List.mem_cons, List.not_mem_nil, or_false] at hid
  rcases hid with rfl | rfl | rfl | rfl | rfl
  · obtain ⟨rfl, rfl⟩ := Kind.decision.inj (Except.ok.inj hkind)
    exact ⟨_, _, _, rfl, by decide⟩
  all_goals exact nomatch hkind

/-- The primes of the decision are a TRUE node and a literal, so they overlap. -/
theorem isFalse_iff_unsatisfiable_sample : ∃ b n, sample.isFalse ⟨8⟩ = .ok b ∧
    sample.modelCount ⟨8⟩ = .ok n ∧
    (b = true ↔ ∀ T ⊆ Finset.Icc 1 sample.varCount, ¬ sample.Holds T ⟨8⟩) ∧ (b = true ↔ n = 0) :=
  built_sample.isFalse_iff_unsatisfiable (by decide) normalizedFrom_sample

end Sentential.Store
