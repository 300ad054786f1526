import Sentential.Proofs.Circuit.Compile
import Sentential.Proofs.Circuit.Evaluation

/-!
# The value of a diagram

`Store.value` is the value of a node by recursion over its elements: an indicator for a literal,
the weighted sum of the two indicators for a TRUE node, and for a decision the weighted sum over
its positive elements. The circuit of a diagram evaluates to it, operation by operation.
-/

namespace Sentential.Store

variable {W : Type} [Weight W] {s : Store W} {id root : NodeId} (evidence : List Int)

/-! ## Values by recursion -/

/-- The value of a literal: zero if the evidence holds the opposite literal. -/
def indicator (evidence : List Int) (l : Int) : W :=
  if -l ∈ evidence then Arithmetic.zero else Arithmetic.one

/-- The elements of a list that are positive, each with the weight at its position. -/
def weighted (s : Store W) (es : List Element) (ws : List W) : List (Element × W) :=
  (es.zip ws).filter fun x => s.positive x.1

/-- The value of a node under the observed literals. Elements refer to smaller ids wherever the
store was built from its own ids; an element that does not is worth nothing. -/
def value (s : Store W) (evidence : List Int) (id : NodeId) : W :=
  match s.entries[id.raw]? with
  | some ⟨⟨.literal l, _⟩, _⟩ => indicator evidence l.value
  | some ⟨⟨.top (some leaf), some θ⟩, _⟩ =>
    match s.vtree.subtree? leaf, θ.weights with
    | some (.leaf _ var), [w₀, w₁] =>
      Arithmetic.sum [Arithmetic.product [w₀, indicator evidence (-(var : Int))],
        Arithmetic.product [w₁, indicator evidence var]]
    | _, _ => Arithmetic.zero
  | some ⟨⟨.decision _ es, some θ⟩, _⟩ =>
    Arithmetic.sum ((s.weighted es θ.weights).map fun x =>
      Arithmetic.product [x.2,
        if x.1.prime.raw < id.raw then s.value evidence x.1.prime else Arithmetic.zero,
        if x.1.sub.raw < id.raw then s.value evidence x.1.sub else Arithmetic.zero])
  | _ => Arithmetic.zero
termination_by id.raw

/-- The value of a diagram: zero if its root never holds. -/
def rootValue (s : Store W) (evidence : List Int) (root : NodeId) : W :=
  match s.isFalse root with
  | .ok false => s.value evidence root
  | _ => Arithmetic.zero

theorem value_literal {l : Literal} {b : Bool} (he : s.entry id = .ok ⟨⟨.literal l, none⟩, b⟩) :
    s.value evidence id = indicator evidence l.value := by
  unfold value
  rw [entry_eq_ok.1 he]

theorem value_of_literal? (hs : s.Sound) {l : Int} (h : s.literal? l = some id) :
    s.value evidence id = indicator evidence l := by
  have hnonzero : l ≠ 0 := (exists_literal?.1 ⟨id, h⟩).1
  exact value_literal evidence (hs.base.entry_literal (l := ⟨l, hnonzero⟩) h)

theorem value_top (hs : s.Sound) {leaf : VtreeId} {var : Nat} {θ : Theta W} {w₀ w₁ : W} {b : Bool}
    (he : s.entry id = .ok ⟨⟨.top (some leaf), some θ⟩, b⟩) (hleaf : s.vtree.leafOf var = .ok leaf)
    (hw : θ.weights = [w₀, w₁]) : s.value evidence id =
      Arithmetic.sum [Arithmetic.product [w₀, indicator evidence (-(var : Int))],
        Arithmetic.product [w₁, indicator evidence var]] := by
  unfold value
  rw [entry_eq_ok.1 he]
  simp only
  rw [(hs.vtree.leafOf_iff).1 hleaf, hw]

theorem value_decision (hclosed : s.Closed) {v : VtreeId} {es : List Element} {θ : Theta W} {b : Bool}
    (he : s.entry id = .ok ⟨⟨.decision v es, some θ⟩, b⟩) : s.value evidence id =
      Arithmetic.sum ((s.weighted es θ.weights).map fun x =>
        Arithmetic.product [x.2, s.value evidence x.1.prime, s.value evidence x.1.sub]) := by
  rw [value, entry_eq_ok.1 he]
  simp only
  congr 1
  apply List.map_congr_left
  intro x hx
  have hmem : x.1 ∈ es := (List.of_mem_zip (List.mem_of_mem_filter hx)).1
  have hbelow := hclosed (elements_of_entry he)
  rw [if_pos (hbelow _ (Indexing.prime_mem_nodesBelow hmem)),
    if_pos (hbelow _ (Indexing.sub_mem_nodesBelow hmem))]

/-! ## Weights by element and by position -/

/-- Among different elements the weight that is found for an element is the one at its place. -/
theorem elementWeight_of_mem_zip {v : VtreeId} {es : List Element} (hnodup : es.Nodup) {θ : Theta W}
    {x : Element} {w : W} (h : (x, w) ∈ es.zip θ.weights) :
    (⟨.decision v es, some θ⟩ : Node W).elementWeight x = some w := by
  obtain ⟨i, hi⟩ := List.mem_iff_getElem?.1 h
  obtain ⟨hx, hw⟩ := List.getElem?_zip_eq_some.1 hi
  have hlt := (List.getElem?_eq_some_iff.1 hx).1
  have hfind : es.findIdx? (· == x) = some i := by
    rw [List.findIdx?_eq_some_iff_getElem]
    refine ⟨hlt, ?_, fun j hj => ?_⟩
    · rw [beq_iff_eq]
      exact (List.getElem?_eq_some_iff.1 hx).2
    · rw [Bool.not_eq_true, beq_eq_false_iff_ne]
      intro heq
      have hj' : es[j]? = es[i]? := by
        rw [hx, List.getElem?_eq_getElem (Nat.lt_trans hj hlt), heq]
      exact absurd hj' (List.nodup_iff_getElem?_ne_getElem?.1 hnodup j i hj hlt)
  show (es.findIdx? (· == x)).bind (fun i => θ.weights[i]?) = some w
  rw [hfind]
  exact hw

theorem map_fst_weighted {es : List Element} {ws : List W} (h : ws.length = es.length) :
    (s.weighted es ws).map Prod.fst = es.filter s.positive := by
  unfold weighted
  rw [← Function.comp_def, ← List.filter_map, List.map_fst_zip (Nat.le_of_eq h.symm)]

theorem map_eq_of_forall₂ {α β γ : Type} {r : α → β → Prop} {f : α → γ} {g : β → γ} {as : List α}
    {bs : List β} (h : List.Forall₂ r as bs) (hr : ∀ a ∈ as, ∀ b, r a b → f a = g b) :
    as.map f = bs.map g := by
  induction h with
  | nil => rfl
  | cons hab _ ih =>
    rw [List.map_cons, List.map_cons, hr _ List.mem_cons_self _ hab,
      ih fun a ha => hr a (List.mem_cons_of_mem _ ha)]

theorem exists_of_forall₂_right {α β : Type} {r : α → β → Prop} {as : List α} {bs : List β}
    (h : List.Forall₂ r as bs) {b : β} (hb : b ∈ bs) : ∃ a ∈ as, r a b := by
  induction h with
  | nil => exact absurd hb (by simp)
  | cons hab _ ih =>
    rcases List.mem_cons.1 hb with rfl | hb
    · exact ⟨_, List.mem_cons_self, hab⟩
    · obtain ⟨a, ha, hr⟩ := ih hb
      exact ⟨a, List.mem_cons_of_mem _ ha, hr⟩

/-! ## The circuit computes the value -/

/-- The heads of the literals and of the nodes in `done` have their values. -/
def Evaluates (s : Store W) (evidence : List Int) (l : Layout) (c : Circuit W) (done : List NodeId)
    (e : Emission W) : Prop :=
  ∀ id h, s.IsLiteral id ∨ id ∈ done → l.head? id = some h →
    (e.values c evidence)[h]? = some (s.value evidence id)

theorem Emits.leads {l : Layout} {e e' : Emission W} (h : s.Emits l id e e') : e.Leads e' := by
  cases h with
  | literal lit he => exact .refl e
  | top leaf var θ w₀ w₁ no yes negative positive => exact Emission.leads_top e w₀ w₁ negative positive
  | decision v es θ xs => exact (Emission.leads_items e xs).trans (Emission.leads_push _ _)

theorem EmitsAll.leads {l : Layout} {ids : List NodeId} {e e' : Emission W}
    (h : s.EmitsAll l ids e e') : e.Leads e' := by
  induction h with
  | nil e => exact .refl e
  | cons h _ ih => exact h.leads.trans ih

variable {evidence} {l : Layout} {c : Circuit W} {done : List NodeId} {e e' : Emission W}

theorem Evaluates.lt (h : s.Evaluates evidence l c done e) {i : Nat}
    (hid : s.IsLiteral id ∨ id ∈ done) (hi : l.head? id = some i) : i < e.ops.size := by
  have hget := h id i hid hi
  rw [← Emission.size_values c evidence]
  exact (Array.getElem?_eq_some_iff.1 hget).1

theorem Evaluates.getD (h : s.Evaluates evidence l c done e) {i : Nat}
    (hid : s.IsLiteral id ∨ id ∈ done) (hi : l.head? id = some i) :
    (e.values c evidence).getD i Arithmetic.zero = s.value evidence id := by
  rw [Array.getD_eq_getD_getElem?, h id i hid hi]
  rfl

/-- Opcodes that follow change no value; a new node has to have its own. -/
theorem Evaluates.concat (h : s.Evaluates evidence l c done e) (hleads : e.Leads e')
    (hnew : ∀ i, l.head? id = some i → (e'.values c evidence)[i]? = some (s.value evidence id)) :
    s.Evaluates evidence l c (done ++ [id]) e' := by
  intro x i hx hi
  by_cases hid : x = id
  · rw [hid] at hi ⊢
    exact hnew i hi
  · have hold : s.IsLiteral x ∨ x ∈ done := by
      rw [List.mem_append, List.mem_singleton] at hx
      exact hx.imp_right fun hor => hor.resolve_right hid
    rw [Emission.getElem?_values_leads c evidence hleads (h.lt hold hi)]
    exact h x i hold hi

/-- The items of a decision over nodes that are done refer to opcodes that are there. -/
theorem Evaluates.items_lt (h : s.Evaluates evidence l c done e) {node : Node W} {ps : List Element}
    {xs : List (Emission.Item W)} (hxs : List.Forall₂ (ItemOf l node) ps xs)
    (hps : ∀ x ∈ Indexing.nodesBelow ps, x ∈ done) :
    ∀ item ∈ xs, item.prime < e.ops.size ∧ item.sub < e.ops.size := by
  intro item hmem
  obtain ⟨p, hp, hitem⟩ := exists_of_forall₂_right hxs hmem
  exact ⟨h.lt (Or.inr (hps _ (Indexing.prime_mem_nodesBelow hp))) hitem.prime,
    h.lt (Or.inr (hps _ (Indexing.sub_mem_nodesBelow hp))) hitem.sub⟩

/-- Among different elements an item has the weight, and its operands the values, that the value of
the decision speaks of. -/
theorem Evaluates.map_itemValue (h : s.Evaluates evidence l c done e) {v : VtreeId}
    {es : List Element} (hnodup : es.Nodup) {θ : Theta W} (hθ : θ.length = es.length)
    {xs : List (Emission.Item W)}
    (hxs : List.Forall₂ (ItemOf l ⟨.decision v es, some θ⟩) (es.filter s.positive) xs)
    (hps : ∀ x ∈ Indexing.nodesBelow (es.filter s.positive), x ∈ done) :
    (s.weighted es θ.weights).map (fun x =>
        Arithmetic.product [x.2, s.value evidence x.1.prime, s.value evidence x.1.sub])
      = xs.map (Emission.itemValue (e.values c evidence)) := by
  rw [← map_fst_weighted hθ] at hxs hps
  rw [List.forall₂_map_left_iff] at hxs
  refine map_eq_of_forall₂ hxs fun x hx item hitem => ?_
  have hmem : x.1 ∈ (s.weighted es θ.weights).map Prod.fst := List.mem_map_of_mem hx
  have hprime := hps _ (Indexing.prime_mem_nodesBelow hmem)
  have hsub := hps _ (Indexing.sub_mem_nodesBelow hmem)
  have hweight := elementWeight_of_mem_zip (v := v) hnodup (List.mem_of_mem_filter hx)
  unfold Emission.itemValue
  rw [h.getD (Or.inr hprime) hitem.prime, h.getD (Or.inr hsub) hitem.sub,
    Option.some_inj.1 (hitem.weight.symm.trans hweight)]

/-- The opcodes of a node compute the value of the node from those of the nodes before it. -/
theorem Emits.evaluates (hs : s.Sound) (hclosed : s.Closed) (h : s.Emits l id e e')
    (hinto : e'.Into c) (hnext : c.varCount < e.next) (hdone : s.Evaluates evidence l c done e)
    (hbelow : ∀ ps, s.positiveElements id = .ok ps → ∀ x ∈ Indexing.nodesBelow ps, x ∈ done)
    (hdistinct : ∀ v es, s.kind id = .ok (.decision v es) → es.Nodup) :
    s.Evaluates evidence l c (done ++ [id]) e' := by
  have hleads := h.leads
  cases h with
  | literal lit he =>
    -- a literal is an indicator, which has its value from the start
    refine hdone.concat hleads fun i hi => hdone id i (Or.inl ⟨lit.value, ?_⟩) hi
    exact hs.canonical?_eq_some.2 ⟨false, he⟩
  | top leaf var θ w₀ w₁ no yes negative positive he hleaf hw hno hyes hneg hpos hhead =>
    refine hdone.concat hleads fun i hi => ?_
    obtain rfl : e.ops.size + 4 = i := Option.some_inj.1 (hhead.symm.trans hi)
    have hlitno : s.IsLiteral no := ⟨_, hno⟩
    have hlityes : s.IsLiteral yes := ⟨_, hyes⟩
    rw [Emission.values_top c evidence hinto hnext (hdone.lt (Or.inl hlitno) hneg)
      (hdone.lt (Or.inl hlityes) hpos), hdone.getD (Or.inl hlitno) hneg,
      hdone.getD (Or.inl hlityes) hpos, value_top evidence hs he hleaf hw,
      value_of_literal? evidence hs hno, value_of_literal? evidence hs hyes]
  | decision v es θ xs he hθ hknown hxs hhead =>
    refine hdone.concat hleads fun i hi => ?_
    obtain rfl : e.ops.size + 2 * xs.length = i := Option.some_inj.1 (hhead.symm.trans hi)
    have hps := hbelow _ (positiveElements_known hknown (elements_of_entry he))
    have hnodup := hdistinct v es (kind_of_entry he)
    rw [value_decision evidence hclosed he, hdone.map_itemValue hnodup hθ hxs hps]
    exact Emission.values_sum c evidence xs hinto hnext (hdone.items_lt hxs hps)

/-- All nodes of a list are evaluated in turn. -/
theorem EmitsAll.evaluates (hs : s.Sound) (hclosed : s.Closed) {rest : List NodeId}
    (h : s.EmitsAll l rest e e') (hinto : e'.Into c) (hnext : c.varCount < e.next)
    (hdone : s.Evaluates evidence l c done e)
    (hsettled : Indexing.Settled s.positiveElements (done ++ rest))
    (hdistinct : ∀ id ∈ rest, ∀ v es, s.kind id = .ok (.decision v es) → es.Nodup) :
    s.Evaluates evidence l c (done ++ rest) e' := by
  induction h generalizing done with
  | nil e => simpa using hdone
  | @cons id rest e e₁ e' hid hrest ih =>
    have hnext₁ : c.varCount < e₁.next := Nat.lt_of_lt_of_le hnext hid.leads.next
    have hone := hid.evaluates hs hclosed (hinto.of_leads hrest.leads hnext₁) hnext hdone
      (fun ps => hsettled.below) (hdistinct id List.mem_cons_self)
    have hall := ih hinto hnext₁ hone (by simpa using hsettled)
      fun x hx => hdistinct x (List.mem_cons_of_mem _ hx)
    simpa using hall

/-- The indicators are worth what the literals are worth. -/
theorem evaluates_ofIndicators (hs : s.Sound) (hn : c.varCount = s.varCount)
    (hheads : ∀ id h v, (indicators s.varCount)[h]? = some v → s.literal? v = some id →
      l.head? id = some h) :
    s.Evaluates evidence l c [] (.ofIndicators s.varCount) := by
  intro id i hid hi
  obtain ⟨v, hv⟩ := hid.resolve_right (by simp)
  have hrange := exists_literal?.1 ⟨id, hv⟩
  obtain ⟨j, hj⟩ := List.mem_iff_getElem?.1 (mem_indicators.2 hrange)
  obtain rfl : j = i := Option.some_inj.1 ((hheads id j v hj hv).symm.trans hi)
  -- an indicator stands for itself, whatever stands before it
  obtain ⟨before, after, happend, hlen⟩ : ∃ before after,
      indicators s.varCount = before ++ v :: after ∧ before.length = j := by
    obtain ⟨hlt, hget⟩ := List.getElem?_eq_some_iff.1 hj
    refine ⟨(indicators s.varCount).take j, (indicators s.varCount).drop (j + 1), ?_, ?_⟩
    · rw [← hget, List.getElem_cons_drop, List.take_append_drop]
    · rw [List.length_take]
      omega
  unfold Emission.values
  rw [toList_ofIndicators, happend, List.map_append, List.map_cons, List.append_cons,
    Circuit.getElem?_valuesOf_append _ _ (by simp [hlen]), Circuit.valuesOf_concat]
  have hsize : (c.valuesOf evidence (before.map Opcode.literal)).size = j := by
    rw [Circuit.size_valuesOf, List.length_map, hlen]
  rw [← hsize, Array.getElem?_push_size, value_of_literal? evidence hs hv]
  show some (if v.natAbs ≤ c.varCount then indicator evidence v else _) = _
  rw [if_pos (hn ▸ hrange.2)]

/-- The circuit of a diagram evaluates to the value of the diagram. -/
theorem evaluate_compile (h : s.Built) {c : Circuit W} (hcompile : s.compile root = .ok c)
    (hdistinct : ∀ id v es, s.Reaches root id → s.kind id = .ok (.decision v es) → es.Nodup)
    (evidence : List Int) : c.evaluate evidence = s.rootValue evidence root := by
  obtain ⟨b, order, l, e, hp, hcompiled, rfl⟩ := h.exists_compiled hcompile
  unfold rootValue Circuit.evaluate
  rw [hp.isFalse]
  cases b with
  | true => rfl
  | false =>
    obtain ⟨i, hi⟩ := (hcompiled.laid.covers root).2 (Or.inr hp.root_mem)
    -- the circuit is what the emission has grown into in the end
    generalize hc : s.circuitOf e _ = c
    have hroot : c.root = some i := by
      rw [← hc]
      exact hi
    have hinto : e.Into c :=
      ⟨e, .refl e, hc ▸ rfl, hc ▸ Nat.lt_of_lt_of_le (Nat.lt_succ_self _) hcompiled.emits.leads.next⟩
    have hn : c.varCount = s.varCount := hc ▸ rfl
    have hindicators : s.Evaluates evidence l c [] (.ofIndicators s.varCount) :=
      evaluates_ofIndicators h.sound hn hcompiled.indicators
    have hevaluates : s.Evaluates evidence l c ([] ++ order) e :=
      hcompiled.emits.evaluates h.sound h.closed hinto (hn ▸ Nat.lt_succ_self _) hindicators
        hp.settled (fun id hid v es => hdistinct id v es (hp.reached id hid))
    have hops : c.ops = e.ops := hc ▸ rfl
    rw [hroot]
    show (c.values evidence).getD i Arithmetic.zero = s.value evidence root
    rw [Circuit.values_eq, hops]
    exact hevaluates.getD (Or.inr hp.root_mem) hi

theorem evaluate_compile_sample : ∃ c, sample.compile ⟨8⟩ = .ok c ∧
    ∀ evidence, c.evaluate evidence = sample.rootValue evidence ⟨8⟩ := by
  have hnone : ∀ a ∈ [⟨8⟩, ⟨7⟩, ⟨3⟩, ⟨4⟩, NodeId.bottom], sample.refusal? a = none := by decide
  have hnodup : ∀ a ∈ [⟨8⟩, ⟨7⟩, ⟨3⟩, ⟨4⟩, NodeId.bottom], ∀ k ∈ (sample.kind a).toOption,
      k.elements.Nodup := by decide
  have hroot : sample.Knows ⟨8⟩ := by decide
  obtain ⟨c, hc⟩ := built_sample.exists_circuit hroot fun id hid =>
    hnone id (mem_of_reaches_sample hid)
  refine ⟨c, hc, evaluate_compile built_sample hc fun id v es hid hkind => ?_⟩
  apply hnodup id (mem_of_reaches_sample hid) (.decision v es)
  rw [hkind]
  rfl

end Sentential.Store
