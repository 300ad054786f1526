import Sentential.Proofs.Store.Base
import Sentential.Proofs.Walk.PostOrder

/-!
# Sound stores

What is true of a store at all times, whatever it is asked for (`Sound`):

* the first nodes are the terminals and the literals, all others are decisions at forks and bound
  TRUE nodes, with as many weights as they need;
* the flag of a node agrees with its elements;
* the table of decisions without weights lists exactly these.

If operations are only given ids that the store knows, every element of a node also refers to
smaller ids (`Closed`), so nothing lies below itself.
-/

namespace Sentential

/-- The vtree node has two sides. -/
def Vtree.IsFork (v : Vtree) (id : VtreeId) : Prop :=
  ∃ i l r, v.subtree? id = some (.fork i l r)

/-- The nodes that can be made over a vtree. -/
inductive Node.Made {W : Type} [Weight W] (vtree : Vtree) : Node W → Prop
  | top {var : Nat} {leaf : VtreeId} {θ : Theta W} :
      vtree.leafOf var = .ok leaf → θ.length = 2 → Made vtree ⟨.top (some leaf), some θ⟩
  | decision {v : VtreeId} {es : List Element} {theta : Option (Theta W)} :
      vtree.IsFork v → (∀ θ, theta = some θ → θ.length = es.length) →
      Made vtree ⟨.decision v es, theta⟩

namespace Store

variable {W : Type} [Weight W] {s : Store W} {id : NodeId}

/-- What is true of a store at all times. -/
structure Sound (s : Store W) : Prop where
  vtree : s.vtree.Proper
  base : s.HasBase
  made : ∀ {id : NodeId} {e : Entry W}, s.entry id = .ok e → s.baseCount ≤ id.raw →
    e.toNode.Made s.vtree
  flags : ∀ {id : NodeId} {e : Entry W}, s.entry id = .ok e → s.neverHolds e.kind = .ok e.isFalse
  shared : ∀ (v : VtreeId) (es : List Element) (id : NodeId), s.unique[(v, es)]? = some id ↔
    ∃ b, s.entry id = .ok ⟨⟨.decision v es, none⟩, b⟩

/-- The elements of every node refer to smaller ids. -/
def Closed (s : Store W) : Prop :=
  ∀ {id : NodeId} {es : List Element}, s.elements id = .ok es →
    ∀ x ∈ Indexing.nodesBelow es, x.raw < id.raw

/-- The node without weights that the store has for a kind. -/
def canonical? (s : Store W) : Kind → Option NodeId
  | .bottom => some .bottom
  | .top none => some .top
  | .top (some _) => none
  | .literal l => s.literal? l.value
  | .decision v es => s.unique[(v, es)]?

namespace Sound

/-- A node is a terminal, a literal or one that was made. -/
theorem cases (h : s.Sound) {e : Entry W} (he : s.entry id = .ok e) :
    (id = .bottom ∧ e = ⟨⟨.bottom, none⟩, true⟩) ∨ (id = .top ∧ e = ⟨⟨.top none, none⟩, false⟩) ∨
    (∃ l, s.literal? l.value = some id ∧ e = ⟨⟨.literal l, none⟩, false⟩) ∨
    (s.baseCount ≤ id.raw ∧ e.toNode.Made s.vtree) := by
  by_cases hlt : id.raw < s.baseCount
  · rcases h.base.cases he hlt with hb | ht | hl
    · exact Or.inl hb
    · exact Or.inr (Or.inl ht)
    · exact Or.inr (Or.inr (Or.inl hl))
  · have hle : s.baseCount ≤ id.raw := Nat.le_of_not_lt hlt
    exact Or.inr (Or.inr (Or.inr ⟨hle, h.made he hle⟩))

/-- A node that is neither a terminal nor a literal was made. -/
theorem made_of_ne (h : s.Sound) {e : Entry W} (he : s.entry id = .ok e) (hbottom : e.kind ≠ .bottom)
    (htop : e.kind ≠ .top none) (hliteral : ∀ l, e.kind ≠ .literal l) : e.toNode.Made s.vtree := by
  rcases h.cases he with ⟨-, rfl⟩ | ⟨-, rfl⟩ | ⟨l, -, rfl⟩ | ⟨-, hmade⟩
  · exact absurd rfl hbottom
  · exact absurd rfl htop
  · exact absurd rfl (hliteral l)
  · exact hmade

/-- Nodes with weights stand behind the terminals and literals. -/
theorem baseCount_le (h : s.Sound) {e : Entry W} {θ : Theta W} (he : s.entry id = .ok e)
    (hθ : e.theta = some θ) : s.baseCount ≤ id.raw := by
  rcases h.cases he with ⟨-, rfl⟩ | ⟨-, rfl⟩ | ⟨l, -, rfl⟩ | ⟨hle, -⟩
  · exact absurd hθ (by simp)
  · exact absurd hθ (by simp)
  · exact absurd hθ (by simp)
  · exact hle

/-- A node that can hold is not the terminal that never does. -/
theorem ne_bottom (h : s.Sound) (hholds : s.isFalse id = .ok false) : id ≠ .bottom := by
  rintro rfl
  have hbottom : s.isFalse .bottom = .ok true := isFalse_eq_ok.2 ⟨_, h.base.entry_bottom, rfl⟩
  exact absurd (hholds.symm.trans hbottom) (by simp)

/-- A decision with weights has one for each of its elements. -/
theorem length_theta (h : s.Sound) {v : VtreeId} {es : List Element} {θ : Theta W} {b : Bool}
    (he : s.entry id = .ok ⟨⟨.decision v es, some θ⟩, b⟩) : θ.length = es.length := by
  cases h.made he (h.baseCount_le he rfl) with
  | decision _ hθ => exact hθ θ rfl

/-- Only bound TRUE nodes and decisions have weights. -/
theorem entry_of_kind (h : s.Sound) {k : Kind} (hkind : s.kind id = .ok k)
    (htop : ∀ leaf, k ≠ .top (some leaf)) (hdecision : ∀ v es, k ≠ .decision v es) :
    ∃ b, s.entry id = .ok ⟨⟨k, none⟩, b⟩ := by
  obtain ⟨⟨⟨kind, theta⟩, b⟩, he, rfl⟩ := kind_eq_ok.1 hkind
  cases theta with
  | none => exact ⟨b, he⟩
  | some θ =>
    have hmade := h.made he (h.baseCount_le he rfl)
    cases hmade with
    | @top _ leaf _ _ _ => exact absurd rfl (htop leaf)
    | @decision v es _ _ _ => exact absurd rfl (hdecision v es)

/-- A literal is at its id. -/
theorem literal?_of_kind (h : s.Sound) {l : Literal} (hkind : s.kind id = .ok (.literal l)) :
    s.literal? l.value = some id := by
  obtain ⟨e, he, hk⟩ := kind_eq_ok.1 hkind
  rcases h.cases he with ⟨-, rfl⟩ | ⟨-, rfl⟩ | ⟨l', hl', rfl⟩ | ⟨-, hmade⟩
  · exact absurd hk (by simp)
  · exact absurd hk (by simp)
  · obtain rfl := Kind.literal.inj hk
    exact hl'
  · obtain ⟨⟨kind, theta⟩, b⟩ := e
    obtain rfl : kind = .literal l := hk
    cases hmade

/-- The node without weights of a kind, where there is one. -/
theorem canonical?_eq_some (h : s.Sound) {k : Kind} :
    s.canonical? k = some id ↔ ∃ b, s.entry id = .ok ⟨⟨k, none⟩, b⟩ := by
  constructor
  · intro hid
    cases k with
    | bottom =>
      obtain rfl := Option.some_inj.1 hid
      exact ⟨true, h.base.entry_bottom⟩
    | top leaf =>
      cases leaf with
      | none =>
        obtain rfl := Option.some_inj.1 hid
        exact ⟨false, h.base.entry_top⟩
      | some leaf => exact absurd hid (by simp [canonical?])
    | literal l => exact ⟨false, h.base.entry_literal hid⟩
    | decision v es => exact (h.shared v es id).1 hid
  · intro hid
    obtain ⟨b, he⟩ := hid
    -- without weights there are terminals, literals and decisions, each where it is looked for
    rcases h.cases he with ⟨rfl, heq⟩ | ⟨rfl, heq⟩ | ⟨l, hl, heq⟩ | ⟨-, hm⟩
    · obtain rfl : k = .bottom := congrArg (fun e => e.kind) heq
      rfl
    · obtain rfl : k = .top none := congrArg (fun e => e.kind) heq
      rfl
    · obtain rfl : k = .literal l := congrArg (fun e => e.kind) heq
      exact hl
    · cases hm with
      | @decision v es => exact (h.shared v es id).2 ⟨b, he⟩

/-- Two nodes without weights of one kind are one node. -/
theorem eq_of_kind_eq (h : s.Sound) {id' : NodeId} {k : Kind} {b b' : Bool}
    (he : s.entry id = .ok ⟨⟨k, none⟩, b⟩) (he' : s.entry id' = .ok ⟨⟨k, none⟩, b'⟩) : id = id' := by
  have hid := h.canonical?_eq_some.2 ⟨b, he⟩
  have hid' := h.canonical?_eq_some.2 ⟨b', he'⟩
  rw [hid] at hid'
  exact Option.some_inj.1 hid'

/-- Every literal that is a node belongs to the leaf of its variable. -/
theorem exists_leafOf (h : s.Sound) {l : Literal} (hkind : s.kind id = .ok (.literal l)) :
    ∃ leaf, s.vtree.leafOf l.var = .ok leaf := by
  obtain ⟨hnonzero, hle⟩ := exists_literal?.1 ⟨id, h.literal?_of_kind hkind⟩
  exact h.vtree.exists_leafOf (Int.natAbs_pos.2 hnonzero) hle

/-- A known node belongs to no vtree node or to one of the vtree. -/
theorem vtreeOf_cases (h : s.Sound) (hid : s.Knows id) : s.vtreeOf id = .ok none ∨
    ∃ v t, s.vtreeOf id = .ok (some v) ∧ s.vtree.subtree? v = some t := by
  obtain ⟨e, he⟩ := knows_iff.1 hid
  have hkind := kind_of_entry he
  rcases h.cases he with ⟨-, rfl⟩ | ⟨-, rfl⟩ | ⟨l, -, rfl⟩ | ⟨-, hmade⟩
  · exact Or.inl (vtreeOf_bottom hkind)
  · exact Or.inl (vtreeOf_top hkind)
  · obtain ⟨leaf, hleaf⟩ := h.exists_leafOf hkind
    exact Or.inr ⟨leaf, _, vtreeOf_literal hkind hleaf, h.vtree.leafOf_iff.1 hleaf⟩
  · obtain ⟨⟨kind, theta⟩, b⟩ := e
    cases hmade with
    | top hleaf hθ => exact Or.inr ⟨_, _, vtreeOf_top hkind, h.vtree.leafOf_iff.1 hleaf⟩
    | decision hfork hθ =>
      obtain ⟨i, l, r, hsub⟩ := hfork
      exact Or.inr ⟨_, _, vtreeOf_decision hkind, hsub⟩

end Sound
end Store
end Sentential
