import Sentential.Proofs.Meaning.Function

/-!
# Diagrams without sharing

A diagram without weights that is followed from a node down is a tree (`Unfolding`). Looking a
decision up answers with a node for the tree that its elements make, whether the store has the node
already or not (`Sound.unfolds_lookup`), and no tree has two nodes (`Unfolds.unique`): what nodes
there are beside it has no part in what an answer stands for. Whether a node fits a side of a vtree
node can be seen from its tree as well (`Unfolds.fits_iff`).
-/

namespace Sentential

open Vtree Indexing

/-! ## Lists -/

section

variable {α β : Type} {R : α → β → Prop} {as as' : List α} {bs : List β}

/-- Lists that are related to one list are the same if the relation leaves no choice. -/
theorem eq_of_forall₂ (h : List.Forall₂ (fun a b => ∀ a', R a' b → a = a') as bs)
    (h' : List.Forall₂ R as' bs) : as = as' := by
  induction h generalizing as' with
  | nil => exact (List.forall₂_nil_right_iff.1 h').symm
  | cons hab _ ih =>
    cases h' with
    | cons hab' h' => rw [hab _ hab', ih h']

/-- What every related pair of members has something between is chosen pair by pair. -/
theorem exists_between {γ : Type} {P : α → γ → Prop} {Q : β → γ → Prop} (h : List.Forall₂ R as bs)
    (hex : ∀ a b, R a b → ∃ c, P a c ∧ Q b c) :
    ∃ cs, List.Forall₂ P as cs ∧ List.Forall₂ Q bs cs := by
  induction h with
  | nil => exact ⟨[], .nil, .nil⟩
  | cons hab _ ih =>
    obtain ⟨c, hP, hQ⟩ := hex _ _ hab
    obtain ⟨cs, hPs, hQs⟩ := ih
    exact ⟨c :: cs, .cons hP hPs, .cons hQ hQs⟩

/-- The members of some pairs in order. -/
def parts (xs : List (α × α)) : List α := xs.flatMap fun x => [x.1, x.2]

theorem length_parts (xs : List (α × α)) : (parts xs).length = 2 * xs.length := by
  induction xs with
  | nil => rfl
  | cons x xs ih =>
    show (parts xs).length + 2 = _
    rw [ih, List.length_cons]
    omega

/-- An even number of values are the members of pairs. -/
theorem exists_parts {k : Nat} (h : as.length = 2 * k) :
    ∃ xs : List (α × α), parts xs = as ∧ xs.length = k := by
  induction k generalizing as with
  | zero => exact ⟨[], (List.length_eq_zero_iff.1 h).symm, rfl⟩
  | succ k ih =>
    match as, h with
    | a :: b :: as, h =>
      have heven : as.length = 2 * k := by
        simp only [List.length_cons] at h
        omega
      obtain ⟨xs, rfl, hlen⟩ := ih heven
      exact ⟨(a, b) :: xs, rfl, congrArg (· + 1) hlen⟩

end

/-! ## The nodes of elements -/

theorem parts_pair (es : List Element) :
    parts (es.map fun e => (e.prime, e.sub)) = nodesBelow es := by
  unfold parts nodesBelow
  rw [List.flatMap_map]

theorem nodesBelow_inj {es es' : List Element} (h : nodesBelow es = nodesBelow es') : es = es' := by
  induction es generalizing es' with
  | nil =>
    cases es' with
    | nil => rfl
    | cons e' es' => exact absurd h (by simp [nodesBelow])
  | cons e es ih =>
    cases es' with
    | nil => exact absurd h (by simp [nodesBelow])
    | cons e' es' =>
      obtain ⟨hprime, hsub, hrest⟩ : e.prime = e'.prime ∧ e.sub = e'.sub ∧
          nodesBelow es = nodesBelow es' := by simpa [nodesBelow] using h
      obtain ⟨prime, sub⟩ := e
      obtain rfl := hprime
      obtain rfl := hsub
      rw [ih hrest]

theorem exists_nodesBelow {ids : List NodeId} {k : Nat} (h : ids.length = 2 * k) :
    ∃ es, nodesBelow es = ids ∧ es.length = k := by
  obtain ⟨xs, rfl, hlen⟩ := exists_parts h
  refine ⟨xs.map fun x => ⟨x.1, x.2⟩, ?_, by rw [List.length_map, hlen]⟩
  rw [← parts_pair, List.map_map]
  simp [Function.comp_def]

/-! ## Trees -/

/-- A diagram without weights and without sharing. -/
inductive Unfolding where
  | bottom
  | top
  | literal (l : Literal)
  | decision (v : VtreeId) (elements : List (Unfolding × Unfolding))

namespace Unfolding

/-- The tree belongs to no vtree node outside a side; terminals belong to none. -/
def FitsUnder (side : Tree) : Unfolding → Prop
  | bottom => True
  | top => True
  | literal l => l.var ∈ side.leafVars
  | decision v _ => ∃ t ∈ side.subtrees, t.id = v

end Unfolding

namespace Store

variable {W : Type} [Weight W] {s s' : Store W} {id id' : NodeId} {u : Unfolding}

/-- Followed down from the node, the diagram is the tree. -/
inductive Unfolds (s : Store W) : NodeId → Unfolding → Prop
  | bottom {id : NodeId} {b : Bool} : s.entry id = .ok ⟨⟨.bottom, none⟩, b⟩ → Unfolds s id .bottom
  | top {id : NodeId} {b : Bool} : s.entry id = .ok ⟨⟨.top none, none⟩, b⟩ → Unfolds s id .top
  | literal {id : NodeId} {l : Literal} {b : Bool} :
      s.entry id = .ok ⟨⟨.literal l, none⟩, b⟩ → Unfolds s id (.literal l)
  | decision {id : NodeId} {v : VtreeId} {es : List Element} {xs : List (Unfolding × Unfolding)}
      {b : Bool} : s.entry id = .ok ⟨⟨.decision v es, none⟩, b⟩ → es.length = xs.length →
      (∀ a u, (a, u) ∈ (nodesBelow es).zip (parts xs) → Unfolds s a u) →
      Unfolds s id (.decision v xs)

/-- The parts of the elements unfold to the parts of those of the tree. -/
def UnfoldsBelow (s : Store W) (es : List Element) (xs : List (Unfolding × Unfolding)) : Prop :=
  List.Forall₂ s.Unfolds (nodesBelow es) (parts xs)

theorem UnfoldsBelow.length {es : List Element} {xs : List (Unfolding × Unfolding)}
    (h : s.UnfoldsBelow es xs) : es.length = xs.length := by
  have hlen := List.Forall₂.length_eq h
  rw [length_nodesBelow, length_parts] at hlen
  omega

theorem unfolds_decision_iff {v : VtreeId} {xs : List (Unfolding × Unfolding)} :
    s.Unfolds id (.decision v xs) ↔
      ∃ es b, s.entry id = .ok ⟨⟨.decision v es, none⟩, b⟩ ∧ s.UnfoldsBelow es xs := by
  constructor
  · intro h
    cases h with
    | @decision _ _ es _ b he hlen hbelow =>
      refine ⟨es, b, he, List.forall₂_iff_zip.2 ⟨?_, fun {a u} => hbelow a u⟩⟩
      rw [length_nodesBelow, length_parts, hlen]
  · rintro ⟨es, b, he, hbelow⟩
    exact .decision he hbelow.length fun a u => (List.forall₂_iff_zip.1 hbelow).2

theorem Unfolds.exists_entry (h : s.Unfolds id u) : ∃ e, s.entry id = .ok e := by
  cases h with
  | bottom he => exact ⟨_, he⟩
  | top he => exact ⟨_, he⟩
  | literal he => exact ⟨_, he⟩
  | decision he => exact ⟨_, he⟩

theorem Unfolds.knows (h : s.Unfolds id u) : s.Knows id := knows_iff.2 h.exists_entry

/-- A node keeps to stand for its tree when nodes are made. -/
theorem Unfolds.mono (h : s.Unfolds id u) (hext : s.Extends s') : s'.Unfolds id u := by
  induction h with
  | bottom he => exact .bottom (hext.entry he)
  | top he => exact .top (hext.entry he)
  | literal he => exact .literal (hext.entry he)
  | decision he hlen _ ih => exact .decision (hext.entry he) hlen ih

/-- Two nodes without weights that unfold to one tree are one node. -/
theorem Unfolds.unique (h : s.Unfolds id u) (hs : s.Sound) (h' : s.Unfolds id' u) : id = id' := by
  induction h generalizing id' with
  | bottom he =>
    cases h' with
    | bottom he' => exact hs.eq_of_kind_eq he he'
  | top he =>
    cases h' with
    | top he' => exact hs.eq_of_kind_eq he he'
  | literal he =>
    cases h' with
    | literal he' => exact hs.eq_of_kind_eq he he'
  | @decision id v es xs b he hlen hbelow ih =>
    obtain ⟨es', b', he', hbelow'⟩ := unfolds_decision_iff.1 h'
    -- the elements are the same one by one
    have hzip : List.Forall₂ (fun a u => ∀ a', s.Unfolds a' u → a = a') (nodesBelow es)
        (parts xs) := List.forall₂_iff_zip.2
        ⟨by rw [length_nodesBelow, length_parts, hlen], fun {a u} hmem a' ha' => ih a u hmem ha'⟩
    obtain rfl := nodesBelow_inj (eq_of_forall₂ hzip hbelow')
    exact hs.eq_of_kind_eq he he'

/-! ## Looking decisions up -/

/-- A decision that is looked up stands for the tree that its elements make. -/
theorem Sound.unfolds_lookup (hs : s.Sound) {v : VtreeId} {es : List Element}
    {xs : List (Unfolding × Unfolding)} (hfork : s.vtree.IsFork v) (hes : s.UnfoldsBelow es xs) :
    ∃ id s', s.lookup es v = (.ok id, s') ∧ s'.Unfolds id (.decision v xs) := by
  have hknown : s.KnowsBelow es := by
    intro a ha
    obtain ⟨u, -, hu⟩ := exists_right_of_mem hes ha
    exact hu.knows
  obtain ⟨id, s', b, hlookup, hext, he⟩ := hs.exists_lookup hfork hknown
  exact ⟨id, s', hlookup,
    unfolds_decision_iff.2 ⟨es, b, he, hes.imp fun a u h => h.mono hext⟩⟩

/-! ## Sides -/

/-- Whether a node fits a side depends on its tree alone. -/
theorem Unfolds.fits_iff (h : s.Unfolds id u) (hs : s.Sound) {side : Tree}
    (hside : s.vtree.subtree? side.id = some side) :
    s.fits side.id id = .ok true ↔ u.FitsUnder side := by
  unfold fits
  cases h with
  | bottom he =>
    rw [vtreeOf_bottom (kind_of_entry he)]
    simp [Unfolding.FitsUnder]
  | top he =>
    rw [vtreeOf_top (kind_of_entry he)]
    simp [Unfolding.FitsUnder]
  | @literal _ l _ he =>
    obtain ⟨leaf, hleaf⟩ := hs.exists_leafOf (kind_of_entry he)
    rw [vtreeOf_literal (kind_of_entry he) hleaf]
    show s.vtree.isUnder leaf side.id = .ok true ↔ l.var ∈ side.leafVars
    rw [hs.vtree.isUnder_iff (hs.vtree.leafOf_iff.1 hleaf) hside, Tree.mem_leafVars]
    refine ⟨fun hmem => ⟨leaf, hmem⟩, ?_⟩
    rintro ⟨leaf', hmem⟩
    have hleaf' := hs.vtree.leafOf_iff.2 (hs.vtree.subtree?_of_mem hside hmem)
    obtain rfl := Except.ok.inj (hleaf.symm.trans hleaf')
    exact hmem
  | @decision _ v _ _ _ he =>
    have hown := vtreeOf_decision (kind_of_entry he)
    obtain ⟨t, hv⟩ : ∃ t, s.vtree.subtree? v = some t := by
      rcases hs.vtreeOf_cases (knows_of_entry he) with hnone | ⟨v', t, hv', ht⟩
      · exact absurd (hown.symm.trans hnone) (by simp)
      · obtain rfl := Option.some_inj.1 (Except.ok.inj (hown.symm.trans hv'))
        exact ⟨t, ht⟩
    rw [hown]
    show s.vtree.isUnder v side.id = .ok true ↔ ∃ t ∈ side.subtrees, t.id = v
    rw [hs.vtree.isUnder_iff hv hside]
    refine ⟨fun hmem => ⟨_, hmem, hs.vtree.id_eq hv⟩, ?_⟩
    rintro ⟨t', hmem, rfl⟩
    obtain rfl := Option.some_inj.1 (hv.symm.trans (hs.vtree.subtree?_of_mem hside hmem))
    exact hmem

/-- Whether elements keep to two sides depends on the trees of their parts alone. -/
theorem UnfoldsBelow.allElements_iff {es : List Element} {xs : List (Unfolding × Unfolding)}
    (h : s.UnfoldsBelow es xs) (hs : s.Sound) {left right : Tree}
    (hleft : s.vtree.subtree? left.id = some left)
    (hright : s.vtree.subtree? right.id = some right) :
    allElements (s.fits left.id) (s.fits right.id) es = .ok true ↔
      ∀ x ∈ xs, x.1.FitsUnder left ∧ x.2.FitsUnder right := by
  rw [allElements_eq_true]
  induction es generalizing xs with
  | nil =>
    obtain rfl := List.length_eq_zero_iff.1 h.length.symm
    simp
  | cons e es ih =>
    cases xs with
    | nil => exact absurd h.length (by simp)
    | cons x xs =>
      have hparts : List.Forall₂ s.Unfolds (e.prime :: e.sub :: nodesBelow es)
          (x.1 :: x.2 :: parts xs) := h
      cases hparts with
      | cons hprime hparts =>
        cases hparts with
        | cons hsub hrest =>
          rw [List.forall_mem_cons, List.forall_mem_cons, hprime.fits_iff hs hleft,
            hsub.fits_iff hs hright, ih hrest]

end Store
end Sentential
