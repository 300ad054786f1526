import Mathlib.Logic.Relation
import Sentential.Proofs.Store.Sound

/-!
# Making nodes

Every operation of a store makes nodes one after the other, and none does anything else to the
store (`Step`). So what one new node keeps is kept by every operation; the operations that are
given a list of elements are told apart by what is known about the list (`allowed`).
-/

namespace Sentential.Store

variable {W : Type} [Weight W] {s s' : Store W} {id : NodeId}

/-! ## One new node -/

/-- The table of decisions without weights with a new node. -/
def noted (s : Store W) : Node W → Std.HashMap (VtreeId × List Element) NodeId
  | ⟨.decision v es, none⟩ => s.unique.insert (v, es) ⟨s.numNodes⟩
  | _ => s.unique

/-- The store with one more node, whose flag is given. -/
def make (s : Store W) (n : Node W) (b : Bool) : Store W := { s.append n b with unique := s.noted n }

/-- One node is made. A node without weights is made only if there is none of its kind. -/
inductive Step (allowed : Store W → List Element → Prop) : Store W → Store W → Prop
  | make {s : Store W} {n : Node W} {b : Bool} :
      n.Made s.vtree → s.neverHolds n.kind = .ok b → allowed s n.elements →
      (n.theta = none → s.canonical? n.kind = none) → Step allowed s (s.make n b)

/-- Nodes are made one after the other. -/
def Steps (allowed : Store W → List Element → Prop) : Store W → Store W → Prop :=
  Relation.ReflTransGen (Step allowed)

/-- Nodes are made whose elements may name any ids. -/
abbrev AnySteps (s s' : Store W) : Prop := Steps (fun _ _ => True) s s'

variable {n : Node W} {b : Bool}

theorem extends_make (s : Store W) (n : Node W) (b : Bool) : s.Extends (s.make n b) := by
  have h := extends_append s n b
  exact ⟨h.vtree, h.kept⟩

theorem numNodes_make : (s.make n b).numNodes = s.numNodes + 1 := Array.size_push _

theorem entry_make_self : (s.make n b).entry ⟨s.numNodes⟩ = .ok ⟨n, b⟩ := entry_append_self

/-- A node of the longer store is the new one or an old one. -/
theorem entry_make {e : Entry W} (h : (s.make n b).entry id = .ok e) :
    (id = ⟨s.numNodes⟩ ∧ e = ⟨n, b⟩) ∨ s.entry id = .ok e := entry_append h

theorem unique_make_self {v : VtreeId} {es : List Element} :
    (s.make ⟨.decision v es, none⟩ b).unique[(v, es)]? = some ⟨s.numNodes⟩ :=
  Std.HashMap.getElem?_insert_self

theorem unique_make_of_ne {v : VtreeId} {es : List Element} (h : n ≠ ⟨.decision v es, none⟩) :
    (s.make n b).unique[(v, es)]? = s.unique[(v, es)]? := by
  show (s.noted n)[(v, es)]? = _
  unfold noted
  split
  · next v' es' =>
    rw [Std.HashMap.getElem?_insert, if_neg]
    intro heq
    obtain ⟨rfl, rfl⟩ := Prod.mk.inj (eq_of_beq heq)
    exact h rfl
  · rfl

/-- The table of decisions without weights is still right with a new node. -/
theorem Sound.shared_make (h : s.Sound) (hfresh : n.theta = none → s.canonical? n.kind = none)
    (v : VtreeId) (es : List Element) (id : NodeId) : (s.make n b).unique[(v, es)]? = some id ↔
      ∃ b', (s.make n b).entry id = .ok ⟨⟨.decision v es, none⟩, b'⟩ := by
  have hold := h.shared v es id
  -- the table changes only if the new node is a decision without weights
  by_cases hnew : n = ⟨.decision v es, none⟩
  · subst hnew
    have hnone : s.unique[(v, es)]? = none := hfresh rfl
    rw [unique_make_self, Option.some_inj]
    constructor
    · intro hid
      subst hid
      exact ⟨b, entry_make_self⟩
    · intro hid
      obtain ⟨b', he⟩ := hid
      rcases entry_make he with ⟨hid, -⟩ | hentry
      · exact hid.symm
      · exact absurd (hnone.symm.trans (hold.2 ⟨b', hentry⟩)) (by simp)
  · rw [unique_make_of_ne hnew, hold]
    constructor
    · intro hid
      obtain ⟨b', he⟩ := hid
      exact ⟨b', (extends_make s n b).entry he⟩
    · intro hid
      obtain ⟨b', he⟩ := hid
      rcases entry_make he with ⟨-, heq⟩ | hentry
      · exact absurd (congrArg Entry.toNode heq).symm hnew
      · exact ⟨b', hentry⟩

theorem Sound.make (h : s.Sound) (hmade : n.Made s.vtree) (hflag : s.neverHolds n.kind = .ok b)
    (hfresh : n.theta = none → s.canonical? n.kind = none) : (s.make n b).Sound := by
  have hext := extends_make s n b
  constructor
  case vtree => exact h.vtree
  case base => exact h.base.trans hext
  case made =>
    intro id e he hle
    rcases entry_make he with ⟨-, rfl⟩ | hold
    · exact hmade
    · exact h.made hold hle
  case flags =>
    intro id e he
    rcases entry_make he with ⟨-, rfl⟩ | hold
    · exact hext.neverHolds hflag
    · exact hext.neverHolds (h.flags hold)
  case shared => exact h.shared_make hfresh

theorem Closed.make (h : s.Closed) (hknown : ∀ x ∈ Indexing.nodesBelow n.elements, s.Knows x) :
    (s.make n b).Closed := by
  intro id es hes x hx
  obtain ⟨e, he, rfl⟩ := elements_eq_ok.1 hes
  rcases entry_make he with ⟨rfl, rfl⟩ | hold
  · exact hknown x hx
  · exact h (elements_eq_ok.2 ⟨e, hold, rfl⟩) x hx

/-! ## Many new nodes -/

/-- All elements refer to nodes of the store. -/
def KnowsBelow (s : Store W) (es : List Element) : Prop :=
  ∀ x ∈ Indexing.nodesBelow es, s.Knows x

instance (s : Store W) (es : List Element) : Decidable (s.KnowsBelow es) :=
  inferInstanceAs (Decidable (∀ x ∈ Indexing.nodesBelow es, s.Knows x))

variable {allowed : Store W → List Element → Prop}

theorem Step.extends (h : Step allowed s s') : s.Extends s' := by
  cases h with
  | make _ _ _ _ => exact extends_make s _ _

theorem Steps.extends (h : Steps allowed s s') : s.Extends s' := by
  induction h with
  | refl => exact .refl s
  | tail _ hstep ih => exact ih.trans hstep.extends

theorem Steps.sound (h : Steps allowed s s') (hs : s.Sound) : s'.Sound := by
  induction h with
  | refl => exact hs
  | tail _ hstep ih =>
    cases hstep with
    | make hmade hflag _ hfresh => exact ih.make hmade hflag hfresh

theorem Steps.closed (h : Steps KnowsBelow s s') (hs : s.Closed) : s'.Closed := by
  induction h with
  | refl => exact hs
  | tail _ hstep ih =>
    cases hstep with
    | make _ _ hknown _ => exact ih.make hknown

/-! ## The operations that make nodes

For each operation: what it makes when it is not refused, and that it does nothing else. -/

theorem expectFork_eq_ok {v : VtreeId} : s.expectFork v = .ok () ↔ s.vtree.IsFork v := by
  unfold expectFork Vtree.subtree Vtree.IsFork
  cases s.vtree.subtree? v with
  | none => simp
  | some t => cases t <;> simp [Vtree.Tree.isLeaf]

theorem lookup_found {es : List Element} {v : VtreeId} (hfork : s.vtree.IsFork v)
    (hid : s.unique[(v, es)]? = some id) : s.lookup es v = (.ok id, s) := by
  unfold lookup
  rw [expectFork_eq_ok.2 hfork, hid]

theorem lookup_made {es : List Element} {v : VtreeId} (hfork : s.vtree.IsFork v)
    (hnone : s.unique[(v, es)]? = none) (hflag : s.nonePositive es = .ok b) :
    s.lookup es v = (.ok ⟨s.numNodes⟩, s.make ⟨.decision v es, none⟩ b) := by
  unfold lookup
  rw [expectFork_eq_ok.2 hfork, hnone, push_eq]
  simp only [neverHolds, hflag]
  rfl

/-- A new decision is refused if its elements name ids that have no node to be looked at. -/
theorem lookup_refused {es : List Element} {v : VtreeId} {e : Fault} (hfork : s.vtree.IsFork v)
    (hnone : s.unique[(v, es)]? = none) (hflag : s.nonePositive es = .error e) :
    s.lookup es v = (.error e, s) := by
  unfold lookup
  rw [expectFork_eq_ok.2 hfork, hnone, push_eq]
  simp only [neverHolds, hflag]

/-- A lookup that answers has found the decision, or has made it. -/
theorem lookup_cases {es : List Element} {v : VtreeId} (h : s.lookup es v = (.ok id, s')) :
    s.vtree.IsFork v ∧ ((s.unique[(v, es)]? = some id ∧ s' = s) ∨
      (s.unique[(v, es)]? = none ∧ id = ⟨s.numNodes⟩ ∧
        ∃ b, s.nonePositive es = .ok b ∧ s' = s.make ⟨.decision v es, none⟩ b)) := by
  cases hexpect : s.expectFork v with
  | error e =>
    unfold lookup at h
    rw [hexpect] at h
    exact absurd h (by simp)
  | ok _ =>
    have hfork := expectFork_eq_ok.1 hexpect
    refine ⟨hfork, ?_⟩
    cases hid : s.unique[(v, es)]? with
    | some found =>
      rw [lookup_found hfork hid, Prod.mk.injEq, Except.ok.injEq] at h
      exact Or.inl ⟨congrArg some h.1, h.2.symm⟩
    | none =>
      cases hflag : s.nonePositive es with
      | error e =>
        rw [lookup_refused hfork hid hflag] at h
        exact absurd h (by simp)
      | ok b =>
        rw [lookup_made hfork hid hflag, Prod.mk.injEq, Except.ok.injEq] at h
        exact Or.inr ⟨rfl, h.1.symm, b, rfl, h.2.symm⟩

theorem newTop_made {var : Nat} {leaf : VtreeId} {θ : Theta W} (hleaf : s.vtree.leafOf var = .ok leaf)
    (hθ : θ.length = 2) :
    s.newTop var θ = (.ok ⟨s.numNodes⟩, s.make ⟨.top (some leaf), some θ⟩ false) := by
  unfold newTop
  rw [if_neg (not_not.2 hθ), hleaf]
  rfl

theorem newDecision_made {es : List Element} {v : VtreeId} {θ : Theta W} (hfork : s.vtree.IsFork v)
    (hθ : θ.length = es.length) (hflag : s.nonePositive es = .ok b) :
    s.newDecision es v θ = (.ok ⟨s.numNodes⟩, s.make ⟨.decision v es, some θ⟩ b) := by
  unfold newDecision
  rw [if_neg (not_not.2 hθ), expectFork_eq_ok.2 hfork, push_eq]
  simp only [neverHolds, hflag]
  rfl

theorem newDecision_refused {es : List Element} {v : VtreeId} {θ : Theta W} {e : Fault}
    (hfork : s.vtree.IsFork v) (hθ : θ.length = es.length) (hflag : s.nonePositive es = .error e) :
    s.newDecision es v θ = (.error e, s) := by
  unfold newDecision
  rw [if_neg (not_not.2 hθ), expectFork_eq_ok.2 hfork, push_eq]
  simp only [neverHolds, hflag]

/-- A decision with weights is always made. -/
theorem newDecision_cases {es : List Element} {v : VtreeId} {θ : Theta W}
    (h : s.newDecision es v θ = (.ok id, s')) : θ.length = es.length ∧ s.vtree.IsFork v ∧
      id = ⟨s.numNodes⟩ ∧
      ∃ b, s.nonePositive es = .ok b ∧ s' = s.make ⟨.decision v es, some θ⟩ b := by
  by_cases hθ : θ.length = es.length
  · cases hexpect : s.expectFork v with
    | error e =>
      unfold newDecision at h
      rw [if_neg (not_not.2 hθ), hexpect] at h
      exact absurd h (by simp)
    | ok _ =>
      have hfork := expectFork_eq_ok.1 hexpect
      cases hflag : s.nonePositive es with
      | error e =>
        rw [newDecision_refused hfork hθ hflag] at h
        exact absurd h (by simp)
      | ok b =>
        rw [newDecision_made hfork hθ hflag, Prod.mk.injEq, Except.ok.injEq] at h
        exact ⟨hθ, hfork, h.1.symm, b, rfl, h.2.symm⟩
  · unfold newDecision at h
    rw [if_pos hθ] at h
    exact absurd h (by simp)

/-- A TRUE node that was made is the last node of the store. -/
theorem newTop_eq_ok {var : Nat} {θ : Theta W} (h : s.newTop var θ = (.ok id, s')) :
    id = ⟨s.numNodes⟩ ∧ ∃ leaf b, s.vtree.leafOf var = .ok leaf ∧
      s'.entry id = .ok ⟨⟨.top (some leaf), some θ⟩, b⟩ := by
  by_cases hθ : θ.length = 2
  · cases hleaf : s.vtree.leafOf var with
    | error e =>
      unfold newTop at h
      rw [if_neg (not_not.2 hθ), hleaf] at h
      exact absurd h (by simp)
    | ok leaf =>
      rw [newTop_made hleaf hθ, Prod.mk.injEq, Except.ok.injEq] at h
      obtain ⟨rfl, rfl⟩ := h
      exact ⟨rfl, leaf, false, rfl, entry_make_self⟩
  · unfold newTop at h
    rw [if_pos hθ] at h
    exact absurd h (by simp)

/-- A decision with weights that was made is the last node of the store. -/
theorem newDecision_eq_ok {es : List Element} {v : VtreeId} {θ : Theta W}
    (h : s.newDecision es v θ = (.ok id, s')) :
    id = ⟨s.numNodes⟩ ∧ θ.length = es.length ∧
      ∃ b, s'.entry id = .ok ⟨⟨.decision v es, some θ⟩, b⟩ := by
  obtain ⟨hθ, -, rfl, b, -, rfl⟩ := newDecision_cases h
  exact ⟨rfl, hθ, b, entry_make_self⟩

/-- The outcome of an operation: nodes have been made, and the answer, if there is one, names a
node. -/
def Delivers {ε : Type} (allowed : Store W → List Element → Prop) (s : Store W)
    (outcome : Except ε NodeId × Store W) : Prop :=
  Steps allowed s outcome.2 ∧ ∀ id, outcome.1 = .ok id → outcome.2.Knows id

theorem delivers_error {ε : Type} (s : Store W) (e : ε) : Delivers allowed s (.error e, s) :=
  ⟨.refl, fun id h => absurd h (by simp)⟩

theorem delivers_make (hmade : n.Made s.vtree) (hflag : s.neverHolds n.kind = .ok b)
    (hallowed : allowed s n.elements) (hfresh : n.theta = none → s.canonical? n.kind = none) :
    Delivers allowed s ((.ok ⟨s.numNodes⟩ : Except Fault NodeId), s.make n b) := by
  refine ⟨.single (.make hmade hflag hallowed hfresh), fun id hid => ?_⟩
  obtain rfl := Except.ok.inj hid
  exact knows_of_entry entry_make_self

theorem lookup_delivers (hs : s.Sound) {es : List Element} (v : VtreeId) (h : allowed s es) :
    Delivers allowed s (s.lookup es v) := by
  cases hfork : s.expectFork v with
  | error e =>
    unfold lookup
    rw [hfork]
    exact delivers_error s e
  | ok _ =>
    have hfork := expectFork_eq_ok.1 hfork
    cases hid : s.unique[(v, es)]? with
    | some id =>
      rw [lookup_found hfork hid]
      obtain ⟨b, he⟩ := (hs.shared v es id).1 hid
      refine ⟨.refl, fun id' hid' => ?_⟩
      obtain rfl := Except.ok.inj hid'
      exact knows_of_entry he
    | none =>
      -- elements that name unknown ids have no flag, and then nothing is made
      cases hflag : s.nonePositive es with
      | error e =>
        rw [lookup_refused hfork hid hflag]
        exact delivers_error s e
      | ok b =>
        rw [lookup_made hfork hid hflag]
        exact delivers_make (.decision hfork fun θ hθ => absurd hθ (by simp)) hflag h fun _ => hid

theorem newTop_delivers (var : Nat) (θ : Theta W) (h : allowed s []) :
    Delivers allowed s (s.newTop var θ) := by
  by_cases hθ : θ.length = 2
  · cases hleaf : s.vtree.leafOf var with
    | error e =>
      unfold newTop
      rw [if_neg (not_not.2 hθ), hleaf]
      exact delivers_error s e
    | ok leaf =>
      rw [newTop_made hleaf hθ]
      exact delivers_make (.top hleaf hθ) rfl h fun hnone => absurd hnone (by simp)
  · unfold newTop
    rw [if_pos hθ]
    exact delivers_error s _

theorem newDecision_delivers {es : List Element} (v : VtreeId) (θ : Theta W) (h : allowed s es) :
    Delivers allowed s (s.newDecision es v θ) := by
  by_cases hθ : θ.length = es.length
  · cases hfork : s.expectFork v with
    | error e =>
      unfold newDecision
      rw [if_neg (not_not.2 hθ), hfork]
      exact delivers_error s e
    | ok _ =>
      have hfork := expectFork_eq_ok.1 hfork
      cases hflag : s.nonePositive es with
      | error e =>
        rw [newDecision_refused hfork hθ hflag]
        exact delivers_error s e
      | ok b =>
        rw [newDecision_made hfork hθ hflag]
        refine delivers_make (.decision hfork fun θ' hθ' => ?_) hflag h fun hnone => ?_
        · obtain rfl := Option.some_inj.1 hθ'
          exact hθ
        · exact absurd hnone (by simp)
  · unfold newDecision
    rw [if_pos hθ]
    exact delivers_error s _

theorem Sound.anySteps_lookup (hs : s.Sound) {es : List Element} {v : VtreeId}
    (h : s.lookup es v = (.ok id, s')) : AnySteps s s' := by
  have hdelivers : Delivers (fun _ _ => True) s (s.lookup es v) := lookup_delivers hs v trivial
  rw [h] at hdelivers
  exact hdelivers.1

theorem anySteps_newDecision {es : List Element} {v : VtreeId} {θ : Theta W}
    (h : s.newDecision es v θ = (.ok id, s')) : AnySteps s s' := by
  have hdelivers : Delivers (fun _ _ => True) s (s.newDecision es v θ) :=
    newDecision_delivers v θ trivial
  rw [h] at hdelivers
  exact hdelivers.1

end Sentential.Store
