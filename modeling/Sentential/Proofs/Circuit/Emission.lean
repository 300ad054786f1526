import Sentential.Circuit.Compile
import Sentential.Proofs.Circuit.Layout

/-!
# What is emitted for one node

`Store.emitNode` looks heads and weights up on the way. `Emits` says what it emits once they are
found: nothing for a literal, five opcodes for a TRUE node, and for a decision a parameter and a
product for every positive element and the sum of the products.
-/

namespace Sentential

namespace Emission

variable {V : Type}

/-- What the opcodes of an element are made from: its weight and the heads of prime and sub. -/
structure Item (V : Type) where
  weight : V
  prime : Nat
  sub : Nat

/-- Emits elements one after the other. -/
def items (e : Emission V) (xs : List (Item V)) : Emission V :=
  xs.foldl (fun e x => e.element x.weight x.prime x.sub) e

/-- The positions of the products of so many elements that are emitted from `b` on. -/
def products (b : Nat) : Nat → List Nat
  | 0 => []
  | k + 1 => (b + 1) :: products (b + 2) k

theorem length_products (b k : Nat) : (products b k).length = k := by
  induction k generalizing b with
  | zero => rfl
  | succ k ih =>
    unfold products
    rw [List.length_cons, ih]

theorem lt_of_mem_products {b k i : Nat} (h : i ∈ products b k) : i < b + 2 * k := by
  induction k generalizing b with
  | zero => exact absurd h (by simp [products])
  | succ k ih =>
    rcases List.mem_cons.1 h with rfl | h
    · omega
    · have := ih h
      omega

theorem size_element (e : Emission V) (w : V) (prime sub : Nat) :
    (e.element w prime sub).ops.size = e.ops.size + 2 := by
  simp [element, push, parameter]

theorem size_items (e : Emission V) (xs : List (Item V)) :
    (e.items xs).ops.size = e.ops.size + 2 * xs.length := by
  induction xs generalizing e with
  | nil => rfl
  | cons x xs ih =>
    show ((e.element x.weight x.prime x.sub).items xs).ops.size = _
    rw [ih, size_element, List.length_cons]
    omega

theorem size_top (e : Emission V) (w₀ w₁ : V) (negative positive : Nat) :
    (e.top w₀ w₁ negative positive).ops.size = e.ops.size + 5 := by
  simp [top, push, parameter]

/-! ## Sizes, edges and operands -/

/-- All operands of the opcodes are positions of earlier opcodes. -/
def Earlier (e : Emission V) : Prop :=
  ∀ (i : Nat) (op : Opcode), e.ops[i]? = some op → ∀ j ∈ op.operands, j < i

/-- The number of operands of all opcodes. -/
def edgeCount (e : Emission V) : Nat := Circuit.countEdges e.ops.toList

theorem countEdges_append (as bs : List Opcode) :
    Circuit.countEdges (as ++ bs) = Circuit.countEdges as + Circuit.countEdges bs := by
  induction as with
  | nil => exact (Nat.zero_add _).symm
  | cons op as ih =>
    rw [List.cons_append, Circuit.countEdges, ih, Circuit.countEdges]
    omega

theorem edgeCount_push (e : Emission V) (op : Opcode) :
    (e.push op).edgeCount = e.edgeCount + op.operands.length := by
  unfold edgeCount push
  rw [Array.toList_push, countEdges_append]
  rfl

theorem edgeCount_parameter (e : Emission V) (w : V) : (e.parameter w).edgeCount = e.edgeCount :=
  edgeCount_push e (.literal e.next)

theorem size_push (e : Emission V) (op : Opcode) : (e.push op).ops.size = e.ops.size + 1 :=
  Array.size_push op

theorem size_parameter (e : Emission V) (w : V) : (e.parameter w).ops.size = e.ops.size + 1 :=
  Array.size_push _

theorem Earlier.push {e : Emission V} (h : e.Earlier) {op : Opcode}
    (hop : ∀ j ∈ op.operands, j < e.ops.size) : (e.push op).Earlier := by
  intro i op' hi j hj
  have hi' : (e.ops.push op)[i]? = some op' := hi
  rw [Array.getElem?_push] at hi'
  split at hi'
  · next heq =>
    obtain rfl := Option.some_inj.1 hi'
    rw [heq]
    exact hop j hj
  · exact h i op' hi' j hj

theorem Earlier.parameter {e : Emission V} (h : e.Earlier) (w : V) : (e.parameter w).Earlier := by
  have hpush : (e.push (.literal e.next)).Earlier :=
    h.push fun j hj => absurd hj (by simp [Opcode.operands])
  exact hpush

theorem edgeCount_element (e : Emission V) (w : V) (prime sub : Nat) :
    (e.element w prime sub).edgeCount = e.edgeCount + 3 := by
  unfold element
  rw [edgeCount_push, edgeCount_parameter]
  rfl

theorem Earlier.element {e : Emission V} (h : e.Earlier) (w : V) {prime sub : Nat}
    (hprime : prime < e.ops.size) (hsub : sub < e.ops.size) : (e.element w prime sub).Earlier := by
  apply (h.parameter w).push
  intro j hj
  rw [size_parameter]
  have hmem : j ∈ [e.ops.size, prime, sub] := hj
  simp only [List.mem_cons, List.not_mem_nil, or_false] at hmem
  omega

theorem edgeCount_items (e : Emission V) (xs : List (Item V)) :
    (e.items xs).edgeCount = e.edgeCount + 3 * xs.length := by
  induction xs generalizing e with
  | nil => rfl
  | cons x xs ih =>
    show ((e.element x.weight x.prime x.sub).items xs).edgeCount = _
    rw [ih, edgeCount_element, List.length_cons]
    omega

theorem next_items (e : Emission V) (xs : List (Item V)) :
    (e.items xs).next = e.next + xs.length := by
  induction xs generalizing e with
  | nil => rfl
  | cons x xs ih =>
    show ((e.element x.weight x.prime x.sub).items xs).next = _
    rw [ih, List.length_cons]
    show e.next + 1 + xs.length = _
    omega

theorem Earlier.items {e : Emission V} (h : e.Earlier) {xs : List (Item V)}
    (hxs : ∀ x ∈ xs, x.prime < e.ops.size ∧ x.sub < e.ops.size) : (e.items xs).Earlier := by
  induction xs generalizing e with
  | nil => exact h
  | cons x xs ih =>
    obtain ⟨hprime, hsub⟩ := hxs x List.mem_cons_self
    apply ih (h.element x.weight hprime hsub)
    intro y hy
    have hold := hxs y (List.mem_cons_of_mem _ hy)
    rw [size_element]
    omega

theorem edgeCount_top (e : Emission V) (w₀ w₁ : V) (negative positive : Nat) :
    (e.top w₀ w₁ negative positive).edgeCount = e.edgeCount + 6 := by
  unfold top
  simp only [edgeCount_push, edgeCount_parameter, Opcode.operands, List.length_cons, List.length_nil]

theorem Earlier.top {e : Emission V} (h : e.Earlier) (w₀ w₁ : V) {negative positive : Nat}
    (hneg : negative < e.ops.size) (hpos : positive < e.ops.size) :
    (e.top w₀ w₁ negative positive).Earlier := by
  unfold Emission.top
  have h₂ := (h.parameter w₀).parameter w₁
  have hsize : ((e.parameter w₀).parameter w₁).ops.size = e.ops.size + 2 := by
    rw [size_parameter, size_parameter]
  refine ((h₂.push ?_).push ?_).push ?_
  all_goals
    intro j hj
    simp only [Opcode.operands, List.mem_cons, List.not_mem_nil, or_false] at hj
    simp only [size_push, hsize]
    omega

end Emission

namespace Store

variable {W : Type} [Weight W] {s : Store W} {id : NodeId}

/-- The item of an element of a node under a layout. -/
structure ItemOf (l : Layout) (node : Node W) (x : Element) (item : Emission.Item W) : Prop where
  weight : node.elementWeight x = some item.weight
  prime : l.head? x.prime = some item.prime
  sub : l.head? x.sub = some item.sub

/-- What the node `id` turns the emission `e` into, given the heads of a layout. The head of the
node is the last opcode that is emitted. -/
inductive Emits (s : Store W) (l : Layout) (id : NodeId) (e : Emission W) : Emission W → Prop
  | literal (lit : Literal) :
      s.entry id = .ok ⟨⟨.literal lit, none⟩, false⟩ → Emits s l id e e
  | top (leaf : VtreeId) (var : Nat) (θ : Theta W) (w₀ w₁ : W) (no yes : NodeId)
      (negative positive : Nat) :
      s.entry id = .ok ⟨⟨.top (some leaf), some θ⟩, false⟩ → s.vtree.leafOf var = .ok leaf →
      θ.weights = [w₀, w₁] → s.literal? (-(var : Int)) = some no → s.literal? var = some yes →
      l.head? no = some negative → l.head? yes = some positive →
      l.head? id = some (e.ops.size + 4) → Emits s l id e (e.top w₀ w₁ negative positive)
  | decision (v : VtreeId) (es : List Element) (θ : Theta W) (xs : List (Emission.Item W)) :
      s.entry id = .ok ⟨⟨.decision v es, some θ⟩, false⟩ → θ.length = es.length →
      s.KnowsBelow es → List.Forall₂ (ItemOf l ⟨.decision v es, some θ⟩) (es.filter s.positive) xs →
      l.head? id = some (e.ops.size + 2 * xs.length) →
      Emits s l id e ((e.items xs).push (.sum (Emission.products e.ops.size xs.length)))

theorem head_eq_ok {l : Layout} {h : Nat} : l.head id = .ok h ↔ l.head? id = some h := by
  unfold Layout.head
  cases l.head? id <;> simp

theorem emitElements_eq {l : Layout} {node : Node W} {ps : List Element}
    {xs : List (Emission.Item W)} (h : List.Forall₂ (ItemOf l node) ps xs) (e : Emission W) :
    emitElements l id node ps e = .ok (Emission.products e.ops.size xs.length, e.items xs) := by
  induction h generalizing e with
  | nil => rfl
  | @cons p x ps xs hx _ ih =>
    unfold emitElements
    rw [hx.weight]
    simp only
    rw [head_eq_ok.2 hx.prime, head_eq_ok.2 hx.sub, compile_liftM_ok, compile_liftM_ok, ok_bind,
      ok_bind, ih, ok_bind, Emission.size_element]
    rfl

/-- An element of a decision has a weight. -/
theorem exists_elementWeight {v : VtreeId} {es : List Element} {θ : Theta W}
    (hθ : θ.length = es.length) {x : Element} (hx : x ∈ es) :
    ∃ i w, es.findIdx? (· == x) = some i ∧ θ.weights[i]? = some w ∧
      (⟨.decision v es, some θ⟩ : Node W).elementWeight x = some w := by
  have hsome : (es.findIdx? (· == x)).isSome := by
    rw [List.findIdx?_isSome, List.any_eq_true]
    exact ⟨x, hx, beq_self_eq_true x⟩
  obtain ⟨i, hi⟩ := Option.isSome_iff_exists.1 hsome
  have hlt : i < θ.weights.length := by
    have := (List.findIdx?_eq_some_iff_getElem.1 hi).1
    unfold Theta.length at hθ
    omega
  refine ⟨i, θ.weights[i], hi, List.getElem?_eq_getElem hlt, ?_⟩
  show (es.findIdx? (· == x)).bind (fun i => θ.weights[i]?) = _
  rw [hi]
  exact List.getElem?_eq_getElem hlt

/-- Once heads and weights are found and the layout agrees on the head, the node is emitted. -/
theorem Emits.emitNode {l : Layout} {e e' : Emission W} (h : s.Emits l id e e') (hs : s.Sound) :
    s.emitNode l e id = .ok e' := by
  -- the check compares the last position with the head that was laid out
  have hcheck : ∀ {e'' : Emission W} {h : Nat}, l.head? id = some h → e''.ops.size = h + 1 →
      checkHead l id e'' = .ok e'' := by
    intro e'' h hid hsize
    unfold checkHead
    rw [hsize, Nat.add_sub_cancel, if_pos hid]
  unfold Store.emitNode
  cases h with
  | literal lit he =>
    rw [he]
    rfl
  | top leaf var θ w₀ w₁ no yes negative positive he hleaf hw hno hyes hneg hpos hhead =>
    have hsubtree := Vtree.subtree_eq_ok.2 (hs.vtree.leafOf_iff.1 hleaf)
    have h₀ : θ.weight 0 = .ok w₀ := by
      unfold Theta.weight
      rw [hw]
      rfl
    have h₁ : θ.weight 1 = .ok w₁ := by
      unfold Theta.weight
      rw [hw]
      rfl
    have hliteral : ∀ {v : Int} {x : NodeId}, s.literal? v = some x → s.literal v = .ok x := by
      intro v x hx
      unfold Store.literal
      rw [hx]
    rw [he, compile_liftM_ok, ok_bind]
    simp only [hsubtree, Vtree.Tree.var?, h₀, h₁, hliteral hno, hliteral hyes, head_eq_ok.2 hneg,
      head_eq_ok.2 hpos, compile_liftM_ok, ok_bind, hcheck hhead (Emission.size_top ..)]
  | decision v es θ xs he hθ hbelow hxs hhead =>
    have hps : s.positiveElements id = .ok (es.filter s.positive) :=
      positiveElements_known hbelow (elements_of_entry he)
    rw [he, compile_liftM_ok, ok_bind]
    simp only [hps, compile_liftM_ok, ok_bind]
    rw [emitElements_eq hxs, ok_bind]
    have hsize : ((e.items xs).push (.sum (Emission.products e.ops.size xs.length))).ops.size
        = e.ops.size + 2 * xs.length + 1 := by
      rw [Emission.size_push, Emission.size_items]
    simp only [hcheck hhead hsize, compile_liftM_ok]

/-! ## In step with the layout -/

/-- The emission so far has the sizes of the layout so far, and its operands are earlier
opcodes. -/
structure InStep (l : Layout) (e : Emission W) : Prop where
  nodes : l.nodeCount = e.ops.size
  edges : l.edgeCount = e.edgeCount
  literals : l.literalCount + 1 = e.next
  earlier : e.Earlier

omit [Weight W] in
/-- A TRUE node over placed indicators is placed and emitted alike. -/
theorem InStep.top {l : Layout} {e : Emission W} (h : InStep l e) {negative positive : Nat}
    (hneg : negative < l.nodeCount) (hpos : positive < l.nodeCount) (w₀ w₁ : W) :
    InStep (l.add id 5 6 2) (e.top w₀ w₁ negative positive) := by
  constructor
  case nodes => exact (congrArg (· + 5) h.nodes).trans (e.size_top w₀ w₁ negative positive).symm
  case edges => exact (congrArg (· + 6) h.edges).trans (e.edgeCount_top w₀ w₁ negative positive).symm
  case literals =>
    have hliterals := h.literals
    show l.literalCount + 2 + 1 = e.next + 1 + 1
    omega
  case earlier => exact h.earlier.top w₀ w₁ (h.nodes ▸ hneg) (h.nodes ▸ hpos)

omit [Weight W] in
/-- A decision whose items are placed is placed and emitted alike. -/
theorem InStep.decision {l : Layout} {e : Emission W} (h : InStep l e)
    {xs : List (Emission.Item W)} (hxs : ∀ x ∈ xs, x.prime < l.nodeCount ∧ x.sub < l.nodeCount) :
    InStep (l.add id (2 * xs.length + 1) (4 * xs.length) xs.length)
      ((e.items xs).push (.sum (Emission.products e.ops.size xs.length))) := by
  constructor
  case nodes =>
    rw [Emission.size_push, Emission.size_items, ← h.nodes]
    rfl
  case edges =>
    have hedges := h.edges
    rw [Emission.edgeCount_push, Emission.edgeCount_items]
    -- the sum reads every product once, and every product three opcodes
    show l.edgeCount + 4 * _ = _ + (Emission.products e.ops.size xs.length).length
    rw [Emission.length_products]
    omega
  case literals =>
    have hliterals := h.literals
    show l.literalCount + xs.length + 1 = (e.items xs).next
    rw [Emission.next_items]
    omega
  case earlier =>
    have hitems : (e.items xs).Earlier := by
      apply h.earlier.items
      rw [← h.nodes]
      exact hxs
    apply hitems.push
    intro j hj
    rw [Emission.size_items]
    exact Emission.lt_of_mem_products hj

/-- The items of positive elements whose nodes are laid out. -/
theorem exists_items {l l' : Layout} {done : List NodeId} (hl : s.Laid done l)
    (hwithin : l.Within l') {v : VtreeId} {es ps : List Element} {θ : Theta W}
    (hθ : θ.length = es.length) (hsub : ps ⊆ es)
    (hdone : ∀ x ∈ Indexing.nodesBelow ps, x ∈ done) :
    ∃ xs : List (Emission.Item W), List.Forall₂ (ItemOf l' ⟨.decision v es, some θ⟩) ps xs ∧
      ∀ x ∈ xs, x.prime < l.nodeCount ∧ x.sub < l.nodeCount := by
  induction ps with
  | nil => exact ⟨[], .nil, fun x hx => absurd hx (by simp)⟩
  | cons p ps ih =>
    have hbelow : ∀ x ∈ Indexing.nodesBelow ps, x ∈ done :=
      fun x hx => hdone x (List.mem_append_right [p.prime, p.sub] hx)
    obtain ⟨xs, hxs, hlt⟩ := ih (fun x hx => hsub (List.mem_cons_of_mem _ hx)) hbelow
    obtain ⟨_, w, -, -, hw⟩ := exists_elementWeight (v := v) hθ (hsub List.mem_cons_self)
    obtain ⟨prime, hprime⟩ := (hl.covers p.prime).2 (Or.inr (hdone _ (by simp [Indexing.nodesBelow])))
    obtain ⟨sub, hsub'⟩ := (hl.covers p.sub).2 (Or.inr (hdone _ (by simp [Indexing.nodesBelow])))
    refine ⟨⟨w, prime, sub⟩ :: xs, .cons ⟨hw, hwithin _ _ hprime, hwithin _ _ hsub'⟩ hxs, ?_⟩
    intro x hx
    rcases List.mem_cons.1 hx with rfl | hx
    · exact ⟨hl.lt _ _ hprime, hl.lt _ _ hsub'⟩
    · exact hlt x hx

/-- A node whose positive elements are laid out is emitted in step with the layout. -/
theorem Compilable.emits (h : s.Compilable id) (hs : s.Sound)
    {done : List NodeId} {l l₁ l' : Layout} {e : Emission W} (hl : s.Laid done l)
    (hl₁ : s.layoutNode l id = .ok l₁) (hwithin : l.Within l') (hwithin₁ : l₁.Within l')
    (hstep : InStep l e)
    (hdone : ∀ ps, s.positiveElements id = .ok ps → ∀ x ∈ Indexing.nodesBelow ps, x ∈ done) :
    ∃ e', s.Emits l' id e e' ∧ s.emitNode l' e id = .ok e' ∧ InStep l₁ e' := by
  -- the head of a node that was just placed is the last opcode so far
  have hhead : ∀ {nodes edges literals : Nat}, l₁ = l.add id (nodes + 1) edges literals →
      l'.head? id = some (e.ops.size + nodes) := by
    intro nodes edges literals heq
    apply hwithin₁
    rw [heq, head?_add, if_pos rfl, hstep.nodes]
    rfl
  cases h with
  | literal lit he hlit =>
    obtain rfl : l = l₁ := Except.ok.inj ((layoutNode_literal he l).symm.trans hl₁)
    have hemits : s.Emits l' id e e := .literal lit he
    exact ⟨e, hemits, hemits.emitNode hs, hstep⟩
  | top leaf var θ w₀ w₁ he hleaf hw hle =>
    have heq : l₁ = l.add id 5 6 2 := Except.ok.inj (hl₁.symm.trans (layoutNode_top he l))
    -- both indicators of the variable have been placed before all nodes
    obtain ⟨hpos, hle'⟩ := hs.vtree.leafOf_range hleaf
    have hn : var ≤ s.varCount := hle'
    obtain ⟨no, hno⟩ : ∃ no, s.literal? (-(var : Int)) = some no := exists_literal?.2 (by omega)
    obtain ⟨yes, hyes⟩ : ∃ yes, s.literal? (var : Int) = some yes := exists_literal?.2 (by omega)
    obtain ⟨negative, hneg⟩ := (hl.covers no).2 (Or.inl ⟨_, hno⟩)
    obtain ⟨positive, hposi⟩ := (hl.covers yes).2 (Or.inl ⟨_, hyes⟩)
    have hemits : s.Emits l' id e (e.top w₀ w₁ negative positive) :=
      .top leaf var θ w₀ w₁ no yes negative positive he hleaf hw hno hyes (hwithin _ _ hneg)
        (hwithin _ _ hposi) (hhead heq)
    exact ⟨_, hemits, hemits.emitNode hs,
      heq ▸ hstep.top (hl.lt _ _ hneg) (hl.lt _ _ hposi) w₀ w₁⟩
  | decision v es θ he hθ hbelow hle =>
    have hps : s.positiveElements id = .ok (es.filter s.positive) :=
      positiveElements_known hbelow (elements_of_entry he)
    have heq := Except.ok.inj (hl₁.symm.trans (layoutNode_decision he hps l))
    obtain ⟨xs, hxs, hlt⟩ := exists_items (v := v) hl hwithin hθ
      (fun x hx => List.mem_of_mem_filter hx) (hdone _ hps)
    have hlen : (es.filter s.positive).length = xs.length := hxs.length_eq
    rw [hlen] at heq
    have hemits := Emits.decision v es θ xs he hθ hbelow hxs (hhead heq)
    exact ⟨_, hemits, hemits.emitNode hs, heq ▸ hstep.decision hlt⟩

end Store
end Sentential
