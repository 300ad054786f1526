import Sentential.Proofs.Circuit.Value

/-!
# How a circuit is wired

Where the opcodes of a node stand in a finished circuit, what they refer to, and which weights
their parameters have (`Wired`). An emission only appends opcodes and only gives weights to new
parameters, so what is wired for one node stays wired (`Wired.mono`), and in a finished circuit it
is wired for every node of the order (`Compiled.wired`).
-/

namespace Sentential

namespace Emission

variable {V : Type} {e e' : Emission V} {n i : Nat} {w : V}

theorem Leads.getElem? (h : e.Leads e') {op : Opcode} (hop : e.ops[i]? = some op) :
    e'.ops[i]? = some op := by
  obtain ⟨rest, hrest⟩ := h.ops
  rw [← Array.getElem?_toList] at hop ⊢
  rw [hrest, List.getElem?_append_left (List.getElem?_eq_some_iff.1 hop).1]
  exact hop

/-- The opcode at position `i` is a parameter with the weight `w`, behind the literals of `n`
variables. -/
def Parameter (e : Emission V) (n i : Nat) (w : V) : Prop :=
  ∃ p : Nat, e.ops[i]? = some (.literal p) ∧ n < p ∧ p < e.next ∧ e.weights.get p = w

/-- The opcode at position `i` is the product of the item's weight with its prime and its sub. -/
def Term (e : Emission V) (n : Nat) (x : Item V) (i : Nat) : Prop :=
  ∃ a, e.Parameter n a x.weight ∧ e.ops[i]? = some (.product [a, x.prime, x.sub])

theorem Parameter.mono (h : e.Parameter n i w) (hleads : e.Leads e') : e'.Parameter n i w := by
  obtain ⟨p, hop, hn, hp, hw⟩ := h
  refine ⟨p, hleads.getElem? hop, hn, Nat.lt_of_lt_of_le hp hleads.next, ?_⟩
  rw [hleads.weights p hp, hw]

theorem Term.mono {x : Item V} (h : e.Term n x i) (hleads : e.Leads e') : e'.Term n x i := by
  obtain ⟨a, ha, hop⟩ := h
  exact ⟨a, ha.mono hleads, hleads.getElem? hop⟩

theorem parameter_self (h : n < e.next) : (e.parameter w).Parameter n e.ops.size w := by
  refine ⟨e.next, Array.getElem?_push_size, h, Nat.lt_succ_self _, ?_⟩
  show (e.weights.set e.next w).get e.next = w
  rw [get_set, if_pos rfl]

theorem getElem?_push_self (e : Emission V) (op : Opcode) :
    (e.push op).ops[e.ops.size]? = some op := Array.getElem?_push_size

theorem term_element (h : n < e.next) (x : Item V) :
    (e.element x.weight x.prime x.sub).Term n x (e.ops.size + 1) := by
  refine ⟨e.ops.size, (parameter_self h).mono (leads_push _ _), ?_⟩
  rw [← size_parameter e x.weight]
  exact getElem?_push_self _ _

/-- The products of some elements stand where the sum of a decision looks for them. -/
theorem terms_items (h : n < e.next) (xs : List (Item V)) :
    List.Forall₂ ((e.items xs).Term n) xs (products e.ops.size xs.length) := by
  induction xs generalizing e with
  | nil => exact .nil
  | cons x xs ih =>
    have hnext : n < (e.element x.weight x.prime x.sub).next := Nat.lt_succ_of_lt h
    have hrest := ih hnext
    rw [size_element] at hrest
    exact .cons ((term_element h x).mono (leads_items _ xs)) hrest

/-- The products and the sum of a TRUE node stand behind its two parameters. -/
theorem getElem?_top (e : Emission V) (w₀ w₁ : V) (negative positive : Nat) :
    (e.top w₀ w₁ negative positive).ops[e.ops.size + 2]? = some (.product [e.ops.size, negative]) ∧
    (e.top w₀ w₁ negative positive).ops[e.ops.size + 3]?
      = some (.product [e.ops.size + 1, positive]) ∧
    (e.top w₀ w₁ negative positive).ops[e.ops.size + 4]?
      = some (.sum [e.ops.size + 2, e.ops.size + 3]) := by
  simp [top, push, parameter, Array.getElem_push]

theorem parameters_top (h : n < e.next) (w₀ w₁ : V) (negative positive : Nat) :
    (e.top w₀ w₁ negative positive).Parameter n e.ops.size w₀ ∧
    (e.top w₀ w₁ negative positive).Parameter n (e.ops.size + 1) w₁ := by
  have hleads : ((e.parameter w₀).parameter w₁).Leads (e.top w₀ w₁ negative positive) :=
    ((leads_push _ _).trans (leads_push _ _)).trans (leads_push _ _)
  refine ⟨((parameter_self h).mono (leads_parameter _ w₁)).mono hleads, ?_⟩
  rw [← size_parameter e w₀]
  exact (parameter_self (Nat.lt_succ_of_lt h)).mono hleads

end Emission

namespace Store

variable {W : Type} [Weight W] {s : Store W} {l : Layout} {e e' : Emission W} {id : NodeId}
  {order : List NodeId}

/-- The opcodes of a node: those of a TRUE node and of a decision end with its head, and the head
of a literal is an indicator. -/
inductive Wired (s : Store W) (l : Layout) (e : Emission W) (id : NodeId) : Prop
  | literal (lit : Literal) : s.entry id = .ok ⟨⟨.literal lit, none⟩, false⟩ → Wired s l e id
  | top (leaf : VtreeId) (var : Nat) (θ : Theta W) (w₀ w₁ : W) (no yes : NodeId)
      (negative positive a₀ a₁ p₀ p₁ h : Nat) :
      s.entry id = .ok ⟨⟨.top (some leaf), some θ⟩, false⟩ → s.vtree.leafOf var = .ok leaf →
      θ.weights = [w₀, w₁] → s.literal? (-(var : Int)) = some no → s.literal? var = some yes →
      l.head? no = some negative → l.head? yes = some positive → l.head? id = some h →
      e.ops[h]? = some (.sum [p₀, p₁]) → e.ops[p₀]? = some (.product [a₀, negative]) →
      e.ops[p₁]? = some (.product [a₁, positive]) → e.Parameter s.varCount a₀ w₀ →
      e.Parameter s.varCount a₁ w₁ → Wired s l e id
  | decision (v : VtreeId) (es : List Element) (θ : Theta W) (xs : List (Emission.Item W))
      (h : Nat) (ps : List Nat) :
      s.entry id = .ok ⟨⟨.decision v es, some θ⟩, false⟩ →
      List.Forall₂ (ItemOf l ⟨.decision v es, some θ⟩) (es.filter s.positive) xs →
      l.head? id = some h → e.ops[h]? = some (.sum ps) →
      List.Forall₂ (e.Term s.varCount) xs ps → Wired s l e id

theorem Wired.mono (h : s.Wired l e id) (hleads : e.Leads e') : s.Wired l e' id := by
  cases h with
  | literal lit he => exact .literal lit he
  | top leaf var θ w₀ w₁ no yes negative positive a₀ a₁ p₀ p₁ h he hleaf hw hno hyes hneg hpos hhead
      hsum hp₀ hp₁ ha₀ ha₁ =>
    exact .top leaf var θ w₀ w₁ no yes negative positive a₀ a₁ p₀ p₁ h he hleaf hw hno hyes hneg
      hpos hhead (hleads.getElem? hsum) (hleads.getElem? hp₀) (hleads.getElem? hp₁)
      (ha₀.mono hleads) (ha₁.mono hleads)
  | decision v es θ xs h ps he hxs hhead hsum hps =>
    exact .decision v es θ xs h ps he hxs hhead (hleads.getElem? hsum)
      (hps.imp fun _ _ hterm => hterm.mono hleads)

/-- What is emitted for a node is wired. -/
theorem Emits.wired (h : s.Emits l id e e') (hnext : s.varCount < e.next) : s.Wired l e' id := by
  cases h with
  | literal lit he => exact .literal lit he
  | top leaf var θ w₀ w₁ no yes negative positive he hleaf hw hno hyes hneg hpos hhead =>
    obtain ⟨hp₀, hp₁, hsum⟩ := Emission.getElem?_top e w₀ w₁ negative positive
    obtain ⟨ha₀, ha₁⟩ := Emission.parameters_top hnext w₀ w₁ negative positive
    exact .top leaf var θ w₀ w₁ no yes negative positive _ _ _ _ _ he hleaf hw hno hyes hneg hpos
      hhead hsum hp₀ hp₁ ha₀ ha₁
  | decision v es θ xs he hθ hbelow hxs hhead =>
    refine .decision v es θ xs _ _ he hxs hhead ?_
      ((Emission.terms_items hnext xs).imp fun _ _ hterm => hterm.mono (Emission.leads_push _ _))
    rw [← Emission.size_items]
    exact Emission.getElem?_push_self _ _

theorem EmitsAll.wired (h : s.EmitsAll l order e e') (hnext : s.varCount < e.next) :
    ∀ id ∈ order, s.Wired l e' id := by
  induction h with
  | nil e => exact fun id hid => absurd hid (by simp)
  | @cons id order e e₁ e' hid hrest ih =>
    have hnext₁ := Nat.lt_of_lt_of_le hnext hid.leads.next
    intro x hx
    rcases List.mem_cons.1 hx with rfl | hx
    · exact (hid.wired hnext).mono hrest.leads
    · exact ih hnext₁ x hx

/-- In a finished circuit every node is wired. -/
theorem Compiled.wired (h : s.Compiled order l e) : ∀ id ∈ order, s.Wired l e id :=
  h.emits.wired (Nat.lt_succ_self _)

/-- In a finished circuit a decision is a sum of one product for each of its positive elements. -/
theorem Compiled.wired_decision (h : s.Compiled order l e) (hid : id ∈ order) {v : VtreeId}
    {es : List Element} {θ : Theta W} {b : Bool}
    (he : s.entry id = .ok ⟨⟨.decision v es, some θ⟩, b⟩) : ∃ xs head ps,
      List.Forall₂ (ItemOf l ⟨.decision v es, some θ⟩) (es.filter s.positive) xs ∧
      l.head? id = some head ∧ e.ops[head]? = some (.sum ps) ∧
      List.Forall₂ (e.Term s.varCount) xs ps := by
  cases h.wired id hid with
  | literal lit he' => exact absurd (he.symm.trans he') (by simp)
  | top leaf var θ' w₀ w₁ no yes negative positive a₀ a₁ p₀ p₁ h he' =>
    exact absurd (he.symm.trans he') (by simp)
  | decision v' es' θ' xs head ps he' hxs hhead hsum hps =>
    have heq := Except.ok.inj (he.symm.trans he')
    simp only [Entry.mk.injEq, Node.mk.injEq, Kind.decision.injEq, Option.some.injEq] at heq
    obtain ⟨⟨⟨rfl, rfl⟩, rfl⟩, -⟩ := heq
    exact ⟨xs, head, ps, hxs, hhead, hsum, hps⟩

/-- The head of a literal is its indicator. -/
theorem Compiled.indicator (h : s.Compiled order l e) {v : Int} (hid : s.literal? v = some id) :
    ∃ i, l.head? id = some i ∧ e.ops[i]? = some (.literal v) := by
  obtain ⟨i, hi⟩ := List.mem_iff_getElem?.1 (mem_indicators.2 (exists_literal?.1 ⟨id, hid⟩))
  refine ⟨i, h.indicators id i v hi hid, h.emits.leads.getElem? ?_⟩
  rw [← Array.getElem?_toList, toList_ofIndicators, List.getElem?_map, hi]
  rfl

end Store
end Sentential
