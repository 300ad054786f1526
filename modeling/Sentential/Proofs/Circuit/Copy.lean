import Sentential.Proofs.Store.Copy

/-!
# Circuits of copies

A copy of a diagram is compiled into the circuit of the diagram. The heads of copied nodes agree,
because the two emissions are alike in their opcodes; with the heads the weights agree, because an
element of a copied node stands where the element stands that it is a copy of. So what is emitted
for a node is emitted for its copy (`Emits.copied`), and a refusal is that of the copied node.
-/

namespace Sentential

/-- The error about the renamed node. -/
def CompileError.renamed (f : NodeId → NodeId) : CompileError → CompileError
  | missingTheta id => missingTheta (f id)
  | unboundTop id => unboundTop (f id)
  | e => e

/-- The weight of an element does not change when the nodes are renamed injectively. -/
theorem Node.elementWeight_map {W : Type} [Weight W] {f : NodeId → NodeId} {v : VtreeId}
    {es : List Element} {theta : Option (Theta W)} {x : Element}
    (hf : ∀ e ∈ es, e.map f = x.map f → e = x) :
    (⟨.decision v (es.map (Element.map f)), theta⟩ : Node W).elementWeight (x.map f)
      = (⟨.decision v es, theta⟩ : Node W).elementWeight x := by
  have hfind : (es.map (Element.map f)).findIdx? (· == x.map f) = es.findIdx? (· == x) := by
    induction es with
    | nil => rfl
    | cons e es ih =>
      have hiff : e.map f = x.map f ↔ e = x := ⟨hf e List.mem_cons_self, fun h => h ▸ rfl⟩
      rw [List.map_cons, List.findIdx?_cons, List.findIdx?_cons,
        ih fun y hy => hf y (List.mem_cons_of_mem _ hy)]
      simp only [beq_iff_eq, hiff]
  unfold elementWeight elements Kind.elements
  simp only [hfind]

namespace Store

open Indexing

variable {W : Type} [Weight W] {s s' : Store W} {id root root' : NodeId} {f : NodeId → NodeId}
  {l l' : Layout}

/-- What some nodes are turned into is found by going through them. -/
theorem EmitsAll.foldlM_eq {ids : List NodeId} {e e' : Emission W} (h : s.EmitsAll l ids e e')
    (hs : s.Sound) : ids.foldlM (s.emitNode l) e = .ok e' := by
  induction h with
  | nil e => rfl
  | cons hid _ ih => rw [List.foldlM_cons, hid.emitNode hs, ok_bind, ih]

namespace Copies

variable {order : List NodeId} {figs : List Figure} (h : Copies f s root s' root')
  (ho : s.Outlines root order figs) (hs : s.Sound) (hs' : s'.Sound)
include h ho hs hs'

theorem refusal? (hid : id ∈ order) :
    s'.refusal? (f id) = (s.refusal? id).map (CompileError.renamed f) := by
  obtain ⟨⟨⟨kind, theta⟩, b⟩, he⟩ := knows_iff.1 (ho.known id hid)
  unfold Store.refusal?
  rw [he, h.entry ho hs hs' hid he]
  unfold Entry.map Kind.map
  cases kind with
  | top leaf => cases leaf <;> rfl
  | decision v es => cases theta <;> rfl
  | _ => rfl

theorem findSome?_refusal? {ids : List NodeId} (hids : ids ⊆ order) :
    (ids.map f).findSome? s'.refusal?
      = (ids.findSome? s.refusal?).map (CompileError.renamed f) := by
  induction ids with
  | nil => rfl
  | cons id ids ih =>
    rw [List.map_cons, List.findSome?_cons, List.findSome?_cons,
      h.refusal? ho hs hs' (hids List.mem_cons_self),
      ih fun x hx => hids (List.mem_cons_of_mem _ hx)]
    cases s.refusal? id <;> rfl

omit hs hs' in
theorem items {v : VtreeId} {es ps : List Element} {θ : Theta W} {xs : List (Emission.Item W)}
    (hes : ∀ x ∈ nodesBelow es, x ∈ order) (hps : ps ⊆ es)
    (hheads : ∀ x ∈ nodesBelow ps, l'.head? (f x) = l.head? x)
    (hxs : List.Forall₂ (ItemOf l ⟨.decision v es, some θ⟩) ps xs) :
    List.Forall₂ (ItemOf l' ⟨.decision v (es.map (Element.map f)), some θ⟩)
      (ps.map (Element.map f)) xs := by
  induction hxs with
  | nil => exact .nil
  | @cons p x ps xs hx _ ih =>
    have hp := hps List.mem_cons_self
    obtain ⟨⟨hprime, hsub⟩, hrest⟩ := forall_nodesBelow_cons.1 hheads
    refine .cons ⟨?_, ?_, ?_⟩ (ih (fun y hy => hps (List.mem_cons_of_mem _ hy)) hrest)
    · -- a renamed element is found where the element is found
      rw [Node.elementWeight_map, hx.weight]
      intro e he heq
      obtain ⟨hpr, hsu⟩ := Element.mk.inj heq
      have hlisted : ∀ {y : NodeId}, y ∈ nodesBelow es → s.Reaches root y :=
        fun hy => ho.mem_iff.1 (hes _ hy)
      have hprimes := h.injective _ _ (hlisted (prime_mem_nodesBelow he))
        (hlisted (prime_mem_nodesBelow hp)) hpr
      have hsubs := h.injective _ _ (hlisted (sub_mem_nodesBelow he))
        (hlisted (sub_mem_nodesBelow hp)) hsu
      cases e
      cases p
      exact congrArg₂ Element.mk hprimes hsubs
    · exact hprime.trans hx.prime
    · exact hsub.trans hx.sub

/-- What is emitted for a node is emitted for its copy. -/
theorem emits {e e₁ : Emission W} (hid : id ∈ order)
    (hliterals : ∀ id, s.IsLiteral id → l'.head? id = l.head? id)
    (hhead : l'.head? (f id) = l.head? id)
    (hheads : ∀ ps, s.positiveElements id = .ok ps →
      ∀ x ∈ nodesBelow ps, l'.head? (f x) = l.head? x)
    (hemits : s.Emits l id e e₁) : s'.Emits l' (f id) e e₁ := by
  have hliteral : ∀ v, s'.literal? v = s.literal? v :=
    fun v => literal?_congr (congrArg Vtree.numVars h.vtree) v
  cases hemits with
  | literal lit he => exact .literal lit (h.entry ho hs hs' hid he)
  | top leaf var θ w₀ w₁ no yes negative positive he hleaf hw hno hyes hneg hpos hh =>
    refine .top leaf var θ w₀ w₁ no yes negative positive (h.entry ho hs hs' hid he) ?_ hw
      ((hliteral _).trans hno) ((hliteral _).trans hyes) ((hliterals no ⟨_, hno⟩).trans hneg)
      ((hliterals yes ⟨_, hyes⟩).trans hpos) (hhead.trans hh)
    rw [h.vtree]
    exact hleaf
  | decision v es θ xs he hθ hknown hxs hh =>
    have hlisted := ho.listed hid (elements_of_entry he)
    have hps := positiveElements_known hknown (elements_of_entry he)
    have he' := h.entry ho hs hs' hid he
    have hknown' : s'.KnowsBelow (es.map (Element.map f)) := by
      have hcopied : f id ∈ order.map f := List.mem_map_of_mem hid
      intro x hx
      exact (h.outlines ho).known x ((h.outlines ho).listed hcopied (elements_of_entry he') x hx)
    have hfilter : (es.map (Element.map f)).filter s'.positive
        = (es.filter s.positive).map (Element.map f) := by
      have hps' := positiveElements_known hknown' (elements_of_entry he')
      exact Except.ok.inj (hps'.symm.trans (h.positiveElements ho hs hs' hid hps))
    refine .decision v _ θ xs he' (hθ.trans (List.length_map _).symm) hknown' ?_ (hhead.trans hh)
    rw [hfilter]
    exact h.items ho hlisted (fun x hx => List.mem_of_mem_filter hx) (hheads _ hps) hxs

theorem emitsAll {rest : List NodeId} {e e₁ : Emission W} (hrest : rest ⊆ order)
    (hliterals : ∀ id, s.IsLiteral id → l'.head? id = l.head? id)
    (hheads : ∀ id ∈ rest, l'.head? (f id) = l.head? id)
    (hbelow : ∀ id ∈ rest, ∀ ps, s.positiveElements id = .ok ps →
      ∀ x ∈ nodesBelow ps, l'.head? (f x) = l.head? x)
    (hall : s.EmitsAll l rest e e₁) : s'.EmitsAll l' (rest.map f) e e₁ := by
  induction hall with
  | nil e => exact .nil e
  | @cons id rest e e₂ e₁ hid _ ih =>
    refine .cons (h.emits ho hs hs' (hrest List.mem_cons_self) hliterals
      (hheads id List.mem_cons_self) (hbelow id List.mem_cons_self) hid) ?_
    exact ih (fun x hx => hrest (List.mem_cons_of_mem _ hx))
      (fun x hx => hheads x (List.mem_cons_of_mem _ hx))
      fun x hx => hbelow x (List.mem_cons_of_mem _ hx)

/-- The heads of copies are the heads of the nodes, and the same is emitted. -/
theorem compiled {b : Bool} {order₀ : List NodeId} {e e' : Emission W}
    (hp : s.Positive root b order₀) (hc : s.Compiled order₀ l e) (hc' : s'.Compiled (order₀.map f) l' e') :
    (∀ x ∈ order₀, l'.head? (f x) = l.head? x) ∧ e' = e := by
  have hmem : ∀ id ∈ order₀, id ∈ order := fun id hid => ho.mem_iff.2 (hp.reached id hid)
  have hrenamed : order₀.map (Store.counterpart order (order.map f)) = order₀.map f :=
    List.map_congr_left fun id hid => counterpart ho f (hmem id hid)
  have hcount : s'.varCount = s.varCount := congrArg Vtree.numVars h.vtree
  have hliterals : ∀ id, s.IsLiteral id → l'.head? id = l.head? id :=
    fun id => hc.head?_literal hc' h.vtree
  have hstart : (.ofIndicators s.varCount : Emission W).Alike (.ofIndicators s'.varCount) := by
    rw [hcount]
    exact ⟨rfl, rfl⟩
  have hall' := hc'.emits
  rw [← hrenamed] at hall'
  have hheads : ∀ x ∈ order₀, l'.head? (f x) = l.head? x := by
    intro x hx
    have hhead := (EmitsAll.alike ho (h.outlines ho) hs hs' h.vtree hliterals [] hmem hc.emits hall'
      hstart (by simp) hp.settled).2 x hx
    rw [counterpart ho f (hmem x hx)] at hhead
    exact hhead
  have hemits := h.emitsAll ho hs hs' hmem hliterals hheads
    (fun id hid ps hps x hx => hheads x (hp.settled.mem hid hps x hx)) hc.emits
  refine ⟨hheads, ?_⟩
  -- what is emitted is found by one computation
  have hfold := hc'.emits.foldlM_eq hs'
  rw [hcount, hemits.foldlM_eq hs'] at hfold
  exact (Except.ok.inj hfold).symm

/-- The copy is compiled into the same circuit, or refused at the copy of the refused node. -/
theorem compile (hclosed : s.Closed) (hclosed' : s'.Closed) :
    s'.compile root' = (s.compile root).mapError (CompileError.renamed f) := by
  obtain ⟨b, order₀, hp⟩ := exists_positive hclosed (ho.known root (ho.mem_iff.2 .refl))
  have hp' := h.positive ho hs hs' hp
  have hmem : ∀ id ∈ order₀, id ∈ order := fun id hid => ho.mem_iff.2 (hp.reached id hid)
  have hrefusals := h.findSome?_refusal? ho hs hs' hmem
  cases hrefusal : order₀.findSome? s.refusal? with
  | some e =>
    rw [hrefusal] at hrefusals
    rw [hp.compile_refused hs hclosed hrefusal, hp'.compile_refused hs' hclosed' hrefusals]
    rfl
  | none =>
    rw [hrefusal] at hrefusals
    obtain ⟨l, e, hc, hcompile⟩ := hp.exists_compiled hs (hp.compilable hs hclosed hrefusal)
    obtain ⟨l', e', hc', hcompile'⟩ :=
      hp'.exists_compiled hs' (hp'.compilable hs' hclosed' hrefusals)
    obtain ⟨hheads, hsame⟩ := h.compiled ho hs hs' hp hc hc'
    rw [hcompile, hcompile', hsame, ← h.apply_root]
    -- the head of the root is asked for only if the root is among the nodes
    have hcircuit : ∀ head, s'.circuitOf e head = s.circuitOf e head := by
      intro head
      unfold circuitOf varCount
      rw [h.vtree]
    cases b with
    | true => exact congrArg Except.ok (hcircuit none)
    | false =>
      simp only [Bool.false_eq_true, if_false]
      rw [hheads root hp.root_mem, hcircuit]
      rfl

end Copies

/-! ## What keeps a diagram from being compiled -/

theorem refusal?_cases {e : CompileError} (h : s.refusal? id = some e) :
    e = .unboundTop id ∨ e = .missingTheta id := by
  unfold refusal? at h
  split at h
  · exact Or.inl (Option.some_inj.1 h).symm
  · exact Or.inr (Option.some_inj.1 h).symm
  · exact absurd h (by simp)

/-- A diagram is compiled, or one of its nodes has no opcodes. -/
theorem Sound.compile_cases (hs : s.Sound) (hclosed : s.Closed) (hroot : s.Knows root) :
    (∃ c, s.compile root = .ok c) ∨ ∃ id, s.Reaches root id ∧
      (s.compile root = .error (.unboundTop id) ∨ s.compile root = .error (.missingTheta id)) := by
  obtain ⟨b, order₀, hp⟩ := exists_positive hclosed hroot
  cases hrefusal : order₀.findSome? s.refusal? with
  | none =>
    obtain ⟨l, e, -, hcompile⟩ := hp.exists_compiled hs (hp.compilable hs hclosed hrefusal)
    exact Or.inl ⟨_, hcompile⟩
  | some e =>
    obtain ⟨id, hid, hrefused⟩ := List.exists_of_findSome?_eq_some hrefusal
    have hcompile := hp.compile_refused hs hclosed hrefusal
    refine Or.inr ⟨id, hp.reached id hid, ?_⟩
    rcases refusal?_cases hrefused with rfl | rfl
    · exact Or.inl hcompile
    · exact Or.inr hcompile

end Store
end Sentential
