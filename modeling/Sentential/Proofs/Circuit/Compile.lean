import Sentential.Proofs.Circuit.Emission

/-!
# Compilation

The two passes of `Store.compile` agree on every diagram: the first pass fails at the first node
that cannot be turned into opcodes and otherwise fixes sizes and heads, and the second pass never
fails and finds exactly these sizes and heads.
-/

namespace Sentential.Store

variable {W : Type} [Weight W] {s : Store W} {root : NodeId}

/-! ## The second pass -/

/-- What a list of nodes turns an emission into. -/
inductive EmitsAll (s : Store W) (l : Layout) : List NodeId → Emission W → Emission W → Prop
  | nil (e : Emission W) : EmitsAll s l [] e e
  | cons {id : NodeId} {ids : List NodeId} {e e₁ e' : Emission W} :
      s.Emits l id e e₁ → EmitsAll s l ids e₁ e' → EmitsAll s l (id :: ids) e e'

theorem toList_ofIndicators (W : Type) [Weight W] (n : Nat) :
    (Emission.ofIndicators n : Emission W).ops.toList = (indicators n).map Opcode.literal := by
  show (List.toArray _).toList = _
  rw [List.toList_toArray]

theorem inStep_ofIndicators {l : Layout} (h : s.Indicated (indicators s.varCount) l) :
    InStep l (.ofIndicators s.varCount : Emission W) := by
  have hops := toList_ofIndicators W s.varCount
  have hedges : ∀ vs : List Int, Circuit.countEdges (vs.map Opcode.literal) = 0 := by
    intro vs
    induction vs with
    | nil => rfl
    | cons v vs ih =>
      rw [List.map_cons, Circuit.countEdges, ih]
      rfl
  constructor
  case nodes => rw [h.nodes, ← Array.length_toList, hops, List.length_map]
  case edges =>
    unfold Emission.edgeCount
    rw [hops, hedges, h.edges]
  case literals => exact congrArg (· + 1) h.literals
  case earlier =>
    intro i op hi j hj
    rw [← Array.getElem?_toList, hops, List.getElem?_map] at hi
    obtain ⟨v, -, rfl⟩ := Option.map_eq_some_iff.1 hi
    exact absurd hj (by simp [Opcode.operands])

/-- The second pass goes through the nodes in step with the first. -/
theorem exists_emission_rest (hs : s.Sound) (rest : List NodeId)
    (hrest : ∀ id ∈ rest, s.Compilable id) (done : List NodeId) (hnodup : (done ++ rest).Nodup)
    (hsettled : Indexing.Settled s.positiveElements (done ++ rest)) (l l' : Layout)
    (hl : s.Laid done l) (hl' : rest.foldlM s.layoutNode l = .ok l') (e : Emission W)
    (hstep : InStep l e) :
    ∃ e', rest.foldlM (s.emitNode l') e = .ok e' ∧ s.EmitsAll l' rest e e' ∧ InStep l' e' := by
  induction rest generalizing done l e with
  | nil =>
    obtain rfl := Except.ok.inj hl'
    exact ⟨e, rfl, .nil e, hstep⟩
  | cons id rest ih =>
    have hid := hrest id List.mem_cons_self
    have hrest' : ∀ x ∈ rest, s.Compilable x := fun x hx => hrest x (List.mem_cons_of_mem _ hx)
    have hnew : id ∉ done := fun h => (List.nodup_append.1 hnodup).2.2 id h id (by simp) rfl
    have hnodup' : ((done ++ [id]) ++ rest).Nodup := by simpa using hnodup
    have hsettled' : Indexing.Settled s.positiveElements ((done ++ [id]) ++ rest) := by
      simpa using hsettled
    obtain ⟨l₁, hl₁, hlaid₁, hwithin₁, -⟩ := hid.layoutNode hl hnew
    rw [List.foldlM_cons, hl₁, ok_bind] at hl'
    -- the heads that are there already are those of the final layout
    obtain ⟨l₂, hl₂, -, hwithin₂, -⟩ :=
      exists_layout_rest rest hrest' (done ++ [id]) hnodup' l₁ hlaid₁
    obtain rfl : l' = l₂ := Except.ok.inj (hl'.symm.trans hl₂)
    obtain ⟨e₁, hemits, hnode, hstep₁⟩ := hid.emits hs hl hl₁
      (fun x h hx => hwithin₂ x h (hwithin₁ x h hx)) hwithin₂ hstep fun ps => hsettled.below
    obtain ⟨e', hfold, hall, hstep'⟩ :=
      ih hrest' (done ++ [id]) hnodup' hsettled' l₁ hlaid₁ hl' e₁ hstep₁
    refine ⟨e', ?_, .cons hemits hall, hstep'⟩
    rw [List.foldlM_cons, hnode, ok_bind, hfold]

/-! ## Both passes -/

/-- The circuit that an emission becomes. -/
def circuitOf (s : Store W) (e : Emission W) (head : Option Nat) : Circuit W where
  varCount := s.varCount
  ops := e.ops
  weights := e.weights
  literalCount := e.next - 1
  root := head

/-- The course of a compilation: the layout of the nodes in their order, and what is emitted for
them. -/
structure Compiled (s : Store W) (order : List NodeId) (l : Layout) (e : Emission W) : Prop where
  layout : s.layout order = .ok l
  laid : s.Laid order l
  nodes : l.nodeCount = 2 * s.varCount + 5 * (s.boundTops order).length
    + (s.decisions order).length + 2 * s.positiveTotal order
  edges : l.edgeCount = 6 * (s.boundTops order).length + 4 * s.positiveTotal order
  literals : l.literalCount = s.varCount + 2 * (s.boundTops order).length + s.positiveTotal order
  indicators : ∀ id h v, (Sentential.indicators s.varCount)[h]? = some v →
    s.literal? v = some id → l.head? id = some h
  emits : s.EmitsAll l order (.ofIndicators s.varCount) e
  inStep : InStep l e

theorem Positive.exists_compiled {b : Bool} {order : List NodeId} (hp : s.Positive root b order)
    (hs : s.Sound) (horder : ∀ id ∈ order, s.Compilable id) :
    ∃ l e, s.Compiled order l e ∧
      s.compile root = .ok (s.circuitOf e (if b then none else l.head? root)) := by
  obtain ⟨l₀, hl₀, hind⟩ := s.exists_indicatorLayout
  obtain ⟨l, hl, hlaid, hwithin, hgrown⟩ :=
    exists_layout_rest order horder [] hp.nodup l₀ hind.laid
  obtain ⟨e, he, hall, hstep⟩ := exists_emission_rest hs order horder [] hp.nodup hp.settled l₀
    l hind.laid hl (.ofIndicators s.varCount) (inStep_ofIndicators hind)
  have hlayout : s.layout order = .ok l := by
    unfold layout
    rw [hl₀]
    exact hl
  refine ⟨l, e, ⟨hlayout, hlaid, ?_, ?_, ?_, ?_, hall, hstep⟩, ?_⟩
  · rw [hgrown.nodes, hind.nodes, length_indicators]
  · rw [hgrown.edges, hind.edges]
    omega
  · rw [hgrown.literals, hind.literals]
  · exact fun id h v hv hid => hwithin id h ((hind.heads id h).2 ⟨v, hv, hid⟩)
  · unfold compile
    rw [hp.positiveOrder, compile_liftM_ok, ok_bind, hlayout, ok_bind, he, ok_bind, hp.isFalse,
      compile_liftM_ok, ok_bind]
    -- what is left is the comparison of the three counts
    have hnodes : (s.circuitOf e (if b then none else l.head? root)).nodeCount = l.nodeCount :=
      hstep.nodes.symm
    have hedges : (s.circuitOf e (if b then none else l.head? root)).edgeCount = l.edgeCount :=
      hstep.edges.symm
    have hliterals : (s.circuitOf e (if b then none else l.head? root)).literalCount
        = l.literalCount := by
      have hnext := hstep.literals
      show e.next - 1 = _
      omega
    exact if_neg (not_or.2 ⟨not_not.2 hnodes, not_or.2 ⟨not_not.2 hedges, not_not.2 hliterals⟩⟩)

/-- The circuit is as large as the layout of its nodes says, its operands are earlier opcodes, and
every literal and every node has a head of its own. -/
structure Fits (s : Store W) (order : List NodeId) (l : Layout) (c : Circuit W) : Prop where
  opcodes : c.nodeCount = 2 * s.varCount + 5 * (s.boundTops order).length
    + (s.decisions order).length + 2 * s.positiveTotal order
  edges : c.edgeCount = 6 * (s.boundTops order).length + 4 * s.positiveTotal order
  literals : c.literalCount = s.varCount + 2 * (s.boundTops order).length + s.positiveTotal order
  earlier : ∀ (i : Nat) (op : Opcode), c.ops[i]? = some op → ∀ j ∈ op.operands, j < i
  heads : ∀ id, s.IsLiteral id ∨ id ∈ order → ∃ h, l.head? id = some h ∧ h < c.nodeCount
  distinct : ∀ id id' h, l.head? id = some h → l.head? id' = some h → id = id'

theorem Compiled.fits {order : List NodeId} {l : Layout} {e : Emission W}
    (h : s.Compiled order l e) (head : Option Nat) : s.Fits order l (s.circuitOf e head) := by
  have hsize : (s.circuitOf e head).nodeCount = l.nodeCount := h.inStep.nodes.symm
  constructor
  case opcodes => rw [hsize, h.nodes]
  case edges => exact h.inStep.edges.symm.trans h.edges
  case literals =>
    have hnext := h.inStep.literals
    rw [h.literals] at hnext
    show e.next - 1 = _
    omega
  case earlier => exact h.inStep.earlier
  case heads =>
    intro id hid
    obtain ⟨i, hi⟩ := (h.laid.covers id).2 hid
    exact ⟨i, hi, hsize ▸ h.laid.lt id i hi⟩
  case distinct => exact h.laid.distinct

/-- A compilation fails at the first node of the order that is refused. -/
theorem Positive.compile_refused {b : Bool} {order : List NodeId} (hp : s.Positive root b order)
    (hs : s.Sound) (hclosed : s.Closed) {e : CompileError}
    (hrefusal : order.findSome? s.refusal? = some e) : s.compile root = .error e := by
  obtain ⟨l₀, hl₀, -⟩ := s.exists_indicatorLayout
  have hlayout : s.layout order = .error e := by
    unfold layout
    rw [hl₀]
    exact layout_refused hs hclosed order hp.holds hrefusal l₀
  unfold compile
  rw [hp.positiveOrder, compile_liftM_ok, ok_bind, hlayout]
  rfl

theorem Positive.compilable {b : Bool} {order : List NodeId} (hp : s.Positive root b order)
    (hs : s.Sound) (hclosed : s.Closed) (hrefusal : order.findSome? s.refusal? = none) :
    ∀ id ∈ order, s.Compilable id := by
  intro id hid
  exact hs.compilable (fun es => hclosed.knowsBelow) (hp.holds id hid)
    (List.findSome?_eq_none_iff.1 hrefusal id hid)

/-- A diagram none of whose nodes is refused becomes a circuit. -/
theorem Built.exists_circuit (h : s.Built) (hroot : s.Knows root)
    (hnone : ∀ id, s.Reaches root id → s.refusal? id = none) : ∃ c, s.compile root = .ok c := by
  obtain ⟨b, order, hp⟩ := exists_positive h.closed hroot
  have hrefusal : order.findSome? s.refusal? = none := by
    rw [List.findSome?_eq_none_iff]
    exact fun id hid => hnone id (hp.reached id hid)
  obtain ⟨l, e, -, hcompile⟩ := hp.exists_compiled h.sound (hp.compilable h.sound h.closed hrefusal)
  exact ⟨_, hcompile⟩

theorem knows_of_compile {c : Circuit W} (h : s.compile root = .ok c) : s.Knows root := by
  obtain ⟨order, horder, -⟩ := bind_eq_ok.1 h
  obtain ⟨b, hb, -⟩ := bind_eq_ok.1 (compile_liftM_eq_ok.1 horder)
  exact knows_of_isFalse hb

/-- The course of a compilation that succeeded. -/
theorem Built.exists_compiled (h : s.Built) {c : Circuit W}
    (hcompile : s.compile root = .ok c) : ∃ b order l e, s.Positive root b order ∧
      s.Compiled order l e ∧ c = s.circuitOf e (if b then none else l.head? root) := by
  obtain ⟨b, order, hp⟩ := exists_positive h.closed (knows_of_compile hcompile)
  cases hrefusal : order.findSome? s.refusal? with
  | some e =>
    rw [hp.compile_refused h.sound h.closed hrefusal] at hcompile
    exact absurd hcompile (by simp)
  | none =>
    obtain ⟨l, e, hcompiled, hcompile'⟩ :=
      hp.exists_compiled h.sound (hp.compilable h.sound h.closed hrefusal)
    exact ⟨b, order, l, e, hp, hcompiled, Except.ok.inj (hcompile.symm.trans hcompile')⟩

/-- Compilation answers for every root of a store that was built from its own ids, and it fails
only at a node that has no opcodes: at the first unbound TRUE node or decision without weights in
the order of the nodes. -/
theorem compile_passes_agree (h : s.Built) (hroot : s.Knows root) :
    ∃ order, s.positiveOrder root = .ok order ∧
      match order.findSome? s.refusal? with
      | some e => s.compile root = .error e
      | none => ∃ c l, s.compile root = .ok c ∧ s.layout order = .ok l ∧ s.Fits order l c := by
  obtain ⟨b, order, hp⟩ := exists_positive h.closed hroot
  refine ⟨order, hp.positiveOrder, ?_⟩
  cases hrefusal : order.findSome? s.refusal? with
  | some e => exact hp.compile_refused h.sound h.closed hrefusal
  | none =>
    obtain ⟨l, e, hcompiled, hcompile⟩ :=
      hp.exists_compiled h.sound (hp.compilable h.sound h.closed hrefusal)
    exact ⟨_, l, hcompile, hcompiled.layout, hcompiled.fits _⟩

theorem compile_sample_passes_agree : sample.Built ∧ sample.Knows ⟨8⟩ ∧
    ∃ order, sample.positiveOrder ⟨8⟩ = .ok order ∧
      match order.findSome? sample.refusal? with
      | some e => sample.compile ⟨8⟩ = .error e
      | none => ∃ c l, sample.compile ⟨8⟩ = .ok c ∧ sample.layout order = .ok l ∧
          sample.Fits order l c :=
  have hroot : sample.Knows ⟨8⟩ := by decide
  ⟨built_sample, hroot, compile_passes_agree built_sample hroot⟩

end Sentential.Store
