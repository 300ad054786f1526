import Sentential.Proofs.Store.InStep
import Sentential.Proofs.Store.Order

/-!
# Coherent stores

A store keeps what it knows in several places: the nodes, the flags, the table of decisions
without weights and the ids of the literals. `Coherent` says how the places hang together, in
terms of what a caller can ask for. Every store that was built from its own ids is coherent,
whatever calls it went through and whether they succeeded (`Built.coherent`).

A node and its flag are one entry of the store, and the ids of the literals are computed. That this
loses nothing is said of the four tables as the operations write them, one after the other
(`Tables.Made`, `Tables.InStep`).
-/

namespace Sentential.Store

variable {W : Type} [Weight W] {s : Store W} {id : NodeId}

/-- The places in which a store keeps its nodes agree with one another and with the vtree. -/
structure Coherent (s : Store W) : Prop where
  /-- The four tables have been written step by step. -/
  made : s.tables.Made
  /-- There is one flag for each node, and the table of literals has the node of every literal. -/
  inStep : s.tables.InStep
  /-- Asking the tables for a literal finds its node, which is the only one that they have. -/
  found_iff : ∀ (l : Literal) (id : NodeId),
    (Effect.literal l.value).run s.tables = (.ok id, s.tables) ↔
      s.tables.nodes[id.raw]? = some ⟨.literal l, none⟩
  bottom : s.entry ⟨0⟩ = .ok ⟨⟨.bottom, none⟩, true⟩
  top : s.entry ⟨1⟩ = .ok ⟨⟨.top none, none⟩, false⟩
  positive : ∀ l : Literal, l.isPositive = true → l.var ≤ s.varCount →
    s.entry ⟨l.var + 1⟩ = .ok ⟨⟨.literal l, none⟩, false⟩
  negative : ∀ l : Literal, l.isNegative = true → l.var ≤ s.varCount →
    s.entry ⟨s.varCount + 1 + l.var⟩ = .ok ⟨⟨.literal l, none⟩, false⟩
  literal_iff : ∀ (l : Literal) (id : NodeId),
    s.literal? l.value = some id ↔ s.kind id = .ok (.literal l)
  /-- All further nodes are decisions and bound TRUE nodes. -/
  later : ∀ (id : NodeId) (k : Kind), s.kind id = .ok k → 2 * s.varCount + 2 ≤ id.raw →
    k ≠ .bottom ∧ k ≠ .top none ∧ ∀ l, k ≠ .literal l
  older : ∀ (id : NodeId) (es : List Element), s.elements id = .ok es →
    ∀ x ∈ es, x.prime.raw < id.raw ∧ x.sub.raw < id.raw
  flagged : ∀ id : NodeId, (∃ b, s.isFalse id = .ok b) ↔ id.raw < s.numNodes
  isFalse_iff : ∀ (id : NodeId) (k : Kind), s.kind id = .ok k →
    (s.isFalse id = .ok true ↔ k = .bottom ∨ ∃ v es, k = .decision v es ∧
      ∀ x ∈ es, s.isFalse x.prime = .ok true ∨ s.isFalse x.sub = .ok true)
  unique_iff : ∀ (v : VtreeId) (es : List Element) (id : NodeId),
    s.unique[(v, es)]? = some id ↔ ∃ b, s.entry id = .ok ⟨⟨.decision v es, none⟩, b⟩
  unique_inj : ∀ (key key' : VtreeId × List Element) (id : NodeId),
    s.unique[key]? = some id → s.unique[key']? = some id → key = key'
  decision : ∀ (id : NodeId) (v : VtreeId) (es : List Element) (theta : Option (Theta W))
    (b : Bool), s.entry id = .ok ⟨⟨.decision v es, theta⟩, b⟩ →
      s.vtree.IsFork v ∧ ∀ θ, theta = some θ →
      θ.weights.length = es.length ∧ ∀ w ∈ θ.weights, Weight.isNonneg w = true
  bound : ∀ (id : NodeId) (leaf : VtreeId) (theta : Option (Theta W)) (b : Bool),
    s.entry id = .ok ⟨⟨.top (some leaf), theta⟩, b⟩ →
      (∃ var, s.vtree.subtree? leaf = some (.leaf leaf var)) ∧
      ∃ θ, theta = some θ ∧ θ.weights.length = 2 ∧ ∀ w ∈ θ.weights, Weight.isNonneg w = true

/-! ## Flags -/

/-- None of some known elements is positive if and only if each has a part that never holds. -/
theorem nonePositive_iff {es : List Element} (h : s.KnowsBelow es) :
    s.nonePositive es = .ok true ↔
      ∀ x ∈ es, s.isFalse x.prime = .ok true ∨ s.isFalse x.sub = .ok true := by
  have hnot : ∀ x ∈ es, s.positive x = false ↔
      s.isFalse x.prime = .ok true ∨ s.isFalse x.sub = .ok true := by
    intro x hx
    obtain ⟨p, hp⟩ := exists_isFalse (h _ (Indexing.prime_mem_nodesBelow hx))
    obtain ⟨q, hq⟩ := exists_isFalse (h _ (Indexing.sub_mem_nodesBelow hx))
    unfold positive
    rw [isPositive_eq hp hq, hp, hq]
    cases p <;> cases q <;> simp
  rw [nonePositive_known h, Except.ok.injEq, Bool.not_eq_true', List.any_eq_false]
  constructor
  · intro hall x hx
    exact (hnot x hx).1 (Bool.eq_false_of_not_eq_true (hall x hx))
  · intro hall x hx
    rw [(hnot x hx).2 (hall x hx)]
    exact Bool.false_ne_true

/-- A node never holds if it is the terminal for that or has no element that can hold. -/
theorem Sound.isFalse_iff (h : s.Sound) (hclosed : s.Closed) {k : Kind}
    (hkind : s.kind id = .ok k) : s.isFalse id = .ok true ↔ k = .bottom ∨ ∃ v es, k = .decision v es ∧
      ∀ x ∈ es, s.isFalse x.prime = .ok true ∨ s.isFalse x.sub = .ok true := by
  obtain ⟨e, he, rfl⟩ := kind_eq_ok.1 hkind
  have hflag := h.flags he
  have hfalse : s.isFalse id = .ok e.isFalse := isFalse_eq_ok.2 ⟨e, he, rfl⟩
  rw [hfalse, ← hflag]
  obtain ⟨⟨kind, theta⟩, b⟩ := e
  cases kind with
  | bottom => simp [neverHolds]
  | top leaf => simp [neverHolds]
  | literal l => simp [neverHolds]
  | decision v es =>
    have hbelow : s.KnowsBelow es := hclosed.knowsBelow (elements_of_entry he)
    show s.nonePositive es = .ok true ↔ _
    rw [nonePositive_iff hbelow]
    constructor
    · intro hall
      exact Or.inr ⟨v, es, rfl, hall⟩
    · rintro (hbottom | ⟨v', es', heq, hall⟩)
      · exact absurd hbottom (by simp)
      · obtain ⟨rfl, rfl⟩ := Kind.decision.inj heq
        exact hall

/-- A decision never holds if each of its elements has a part that never does. -/
theorem Sound.isFalse_decision (hs : s.Sound) (hclosed : s.Closed) {v : VtreeId} {es : List Element}
    (hkind : s.kind id = .ok (.decision v es)) : s.isFalse id = .ok true ↔
      ∀ x ∈ es, s.isFalse x.prime = .ok true ∨ s.isFalse x.sub = .ok true := by
  rw [hs.isFalse_iff hclosed hkind]
  simp

/-! ## Ids -/

/-- The literals of the variables in order, the positive ones before the negative ones. -/
theorem literal?_eq {l : Literal} (hl : l.var ≤ s.varCount) : s.literal? l.value
    = some ⟨if l.isPositive then l.var + 1 else s.varCount + 1 + l.var⟩ := by
  obtain ⟨value, hnonzero⟩ := l
  have hvar : value.natAbs ≤ s.varCount := hl
  unfold literal?
  simp only
  rw [if_neg (by omega)]
  unfold Literal.isPositive Literal.var
  simp only [decide_eq_true_eq]
  congr 2
  split <;> omega

/-- Behind the literals there are only nodes that were made. -/
theorem Sound.made_kind (h : s.Sound) {k : Kind} (hkind : s.kind id = .ok k)
    (hle : s.baseCount ≤ id.raw) : k ≠ .bottom ∧ k ≠ .top none ∧ ∀ l, k ≠ .literal l := by
  obtain ⟨⟨⟨kind, theta⟩, b⟩, he, rfl⟩ := kind_eq_ok.1 hkind
  cases h.made he hle <;> simp

/-! ## Every history -/

/-- A store that was built from its own ids is coherent. -/
theorem Built.coherent (h : s.Built) : s.Coherent := by
  have hs := h.sound
  have hclosed : s.Closed := h.closed
  constructor
  case made => exact h.reached.made
  case inStep => exact h.reached.made.inStep
  case found_iff => exact fun l id => h.reached.made.inStep.run_literal
  case bottom => exact hs.base.entry_bottom
  case top => exact hs.base.entry_top
  case positive =>
    intro l hpositive hl
    apply hs.base.entry_literal
    rw [literal?_eq hl, if_pos hpositive]
  case negative =>
    intro l hnegative hl
    have hnot : ¬ l.isPositive = true := by
      unfold Literal.isPositive Literal.isNegative at *
      rw [decide_eq_true_eq] at *
      omega
    apply hs.base.entry_literal
    rw [literal?_eq hl, if_neg hnot]
  case literal_iff =>
    intro l id
    exact ⟨fun hl => kind_of_entry (hs.base.entry_literal hl), hs.literal?_of_kind⟩
  case later => exact fun id k hkind => hs.made_kind hkind
  case older =>
    intro id es hes x hx
    have hbelow := hclosed hes
    exact ⟨hbelow _ (Indexing.prime_mem_nodesBelow hx), hbelow _ (Indexing.sub_mem_nodesBelow hx)⟩
  case flagged => exact fun id => ⟨fun ⟨b, hb⟩ => knows_of_isFalse hb, exists_isFalse⟩
  case isFalse_iff => exact fun id k => hs.isFalse_iff hclosed
  case unique_iff => exact hs.shared
  case unique_inj =>
    intro ⟨v, es⟩ ⟨v', es'⟩ id hkey hkey'
    obtain ⟨b, he⟩ := (hs.shared v es id).1 hkey
    obtain ⟨b', he'⟩ := (hs.shared v' es' id).1 hkey'
    -- both keys are read off the one node
    rw [he] at he'
    simp only [Except.ok.injEq, Entry.mk.injEq, Node.mk.injEq, Kind.decision.injEq] at he'
    rw [he'.1.1.1, he'.1.1.2]
  case decision =>
    intro id v es theta b he
    cases hs.made_of_ne he (by simp) (by simp) (by simp) with
    | decision hfork hθ => exact ⟨hfork, fun θ heq => ⟨hθ θ heq, θ.nonneg⟩⟩
  case bound =>
    intro id leaf theta b he
    cases hs.made_of_ne he (by simp) (by simp) (by simp) with
    | @top var _ θ hleaf hθ =>
      exact ⟨⟨var, hs.vtree.leafOf_iff.1 hleaf⟩, θ, rfl, hθ, θ.nonneg⟩

theorem coherent_sample : sample.Built ∧ sample.Coherent := ⟨built_sample, built_sample.coherent⟩

end Sentential.Store
