import Sentential.Proofs.Circuit.Compile
import Sentential.Proofs.Store.Outline

/-!
# Circuits of diagrams with one outline

The opcodes of a diagram do not depend on the ids of its nodes, and not on their weights either.
If two diagrams over the same vtree have the same outline, each node can hold if and only if its
counterpart can, so the two orders of nodes are counterparts of each other (`Outlines.positive`),
the two emissions agree in every opcode (`EmitsAll.alike`), and in the end so do the circuits
(`Outlines.compile_alike`).
-/

namespace Sentential

/-! ## Emissions with the same opcodes -/

namespace Emission

variable {V : Type} {e e' : Emission V}

/-- The emissions differ in nothing but the weights of their parameters. -/
structure Alike (e e' : Emission V) : Prop where
  ops : e'.ops = e.ops
  next : e'.next = e.next

theorem Alike.push (h : e.Alike e') (op : Opcode) : (e.push op).Alike (e'.push op) := by
  refine ⟨?_, h.next⟩
  show e'.ops.push op = e.ops.push op
  rw [h.ops]

theorem Alike.parameter (h : e.Alike e') (w w' : V) : (e.parameter w).Alike (e'.parameter w') := by
  constructor
  · show e'.ops.push (.literal e'.next) = e.ops.push (.literal e.next)
    rw [h.ops, h.next]
  · exact congrArg (· + 1) h.next

theorem Alike.top (h : e.Alike e') (w₀ w₁ w₀' w₁' : V) (negative positive : Nat) :
    (e.top w₀ w₁ negative positive).Alike (e'.top w₀' w₁' negative positive) := by
  unfold Emission.top
  rw [h.ops]
  exact ((((h.parameter w₀ w₀').parameter w₁ w₁').push _).push _).push _

theorem Alike.element (h : e.Alike e') (w w' : V) (prime sub : Nat) :
    (e.element w prime sub).Alike (e'.element w' prime sub) := by
  unfold Emission.element
  rw [h.ops]
  exact (h.parameter w w').push _

/-- The items agree in all but their weights. -/
def Item.Alike (x x' : Item V) : Prop := x'.prime = x.prime ∧ x'.sub = x.sub

theorem Alike.items {xs xs' : List (Item V)} (hxs : List.Forall₂ Item.Alike xs xs')
    (h : e.Alike e') : (e.items xs).Alike (e'.items xs') := by
  induction hxs generalizing e e' with
  | nil => exact h
  | @cons x x' xs xs' hx _ ih =>
    apply ih
    show (e.element x.weight x.prime x.sub).Alike (e'.element x'.weight x'.prime x'.sub)
    rw [hx.1, hx.2]
    exact h.element x.weight x'.weight x.prime x.sub

end Emission

namespace Store

open Indexing

variable {W : Type} [Weight W] {s s' : Store W} {id root root' : NodeId}
  {order order' ids : List NodeId} {figs : List Figure}

/-! ## What can hold -/

theorem Sound.isFalse_eq (hs : s.Sound) {k : Kind} (hkind : s.kind id = .ok k) :
    s.isFalse id = s.neverHolds k := by
  obtain ⟨e, he, rfl⟩ := kind_eq_ok.1 hkind
  rw [hs.flags he]
  exact isFalse_eq_ok.2 ⟨e, he, rfl⟩

theorem isPositive_congr {a b : Element} (hprime : s'.isFalse b.prime = s.isFalse a.prime)
    (hsub : s'.isFalse b.sub = s.isFalse a.sub) : s'.isPositive b = s.isPositive a := by
  unfold isPositive
  rw [hprime, hsub]

theorem nonePositive_map {es : List Element} {f : Element → Element}
    (h : ∀ e ∈ es, s'.isPositive (f e) = s.isPositive e) :
    s'.nonePositive (es.map f) = s.nonePositive es := by
  induction es with
  | nil => rfl
  | cons e es ih =>
    rw [List.map_cons, nonePositive, nonePositive, h e List.mem_cons_self,
      ih fun x hx => h x (List.mem_cons_of_mem _ hx)]

theorem positives_map {es ps : List Element} {f : Element → Element}
    (h : ∀ e ∈ es, s'.isPositive (f e) = s.isPositive e) (hps : s.positives es = .ok ps) :
    s'.positives (es.map f) = .ok (ps.map f) := by
  induction es generalizing ps with
  | nil =>
    obtain rfl := Except.ok.inj hps
    rfl
  | cons e es ih =>
    obtain ⟨b, hb, hps⟩ := bind_eq_ok.1 hps
    obtain ⟨qs, hqs, hps⟩ := bind_eq_ok.1 hps
    obtain rfl := Except.ok.inj hps
    rw [List.map_cons, positives, h e List.mem_cons_self, hb, ok_bind,
      ih (fun x hx => h x (List.mem_cons_of_mem _ hx)) hqs, ok_bind]
    cases b <;> rfl

section

variable (h : s.Outlines root order figs) (h' : s'.Outlines root' order' figs)
include h h'

theorem Outlines.length_eq : order'.length = order.length := h'.length.symm.trans h.length

theorem Outlines.kind_counterpart (hid : id ∈ order) {k : Kind} (hkind : s.kind id = .ok k) :
    s'.kind (counterpart order order' id) = .ok (k.map (counterpart order order')) := by
  obtain ⟨i, hi⟩ := List.mem_iff_getElem?.1 hid
  obtain ⟨fig, hfig, hk, hwithin⟩ := h.exists_figure hi
  obtain rfl := Except.ok.inj (hk.symm.trans hkind)
  have hlt := (List.getElem?_eq_some_iff.1 hi).1
  have hi' := getElem?_counterpart (h.length_eq h') h.nodup hi
  rw [(h'.kinds i _ fig hi' hfig).1, kind_renamed h.nodup order' (hwithin.mono (Nat.le_of_lt hlt))]

variable (hs : s.Sound) (hs' : s'.Sound)
include hs hs'

/-- A node never holds if and only if its counterpart does. -/
theorem Outlines.isFalse_eq (hid : id ∈ order) :
    s'.isFalse (counterpart order order' id) = s.isFalse id := by
  obtain ⟨i, hi⟩ := List.mem_iff_getElem?.1 hid
  clear hid
  -- the flag of a node depends on those of smaller numbers
  induction i using Nat.strongRecOn generalizing id with
  | ind i ih =>
    obtain ⟨fig, -, hkind, hwithin⟩ := h.exists_figure hi
    have hlt := (List.getElem?_eq_some_iff.1 hi).1
    rw [hs.isFalse_eq hkind, hs'.isFalse_eq (h.kind_counterpart h' (List.mem_of_getElem? hi) hkind)]
    cases fig with
    | decision v es =>
      apply nonePositive_map
      intro e he
      obtain ⟨x, hx, rfl⟩ := List.mem_map.1 he
      obtain ⟨hprime, hsub⟩ := hwithin x hx
      apply isPositive_congr
      · exact ih x.1 hprime (getElem?_of_lt (Nat.lt_trans hprime hlt))
      · exact ih x.2 hsub (getElem?_of_lt (Nat.lt_trans hsub hlt))
    | _ => rfl

theorem Outlines.positiveElements_eq (hid : id ∈ order) {ps : List Element}
    (hps : s.positiveElements id = .ok ps) : s'.positiveElements (counterpart order order' id)
      = .ok (ps.map (Element.map (counterpart order order'))) := by
  obtain ⟨es, hes, hps⟩ := bind_eq_ok.1 hps
  have hkind : ∃ k, s.kind id = .ok k := by
    obtain ⟨e, he, -⟩ := elements_eq_ok.1 hes
    exact ⟨_, kind_of_entry he⟩
  obtain ⟨k, hkind⟩ := hkind
  unfold positiveElements
  rw [elements_renamed hkind (h.kind_counterpart h' hid hkind) hes, ok_bind]
  refine positives_map (fun e he => ?_) hps
  have hlisted := h.listed hid hes
  apply isPositive_congr
  · exact h.isFalse_eq h' hs hs' (hlisted _ (prime_mem_nodesBelow he))
  · exact h.isFalse_eq h' hs hs' (hlisted _ (sub_mem_nodesBelow he))

/-- The two orders of the nodes of a circuit are counterparts of each other. -/
theorem Outlines.positive {b : Bool} {order₀ : List NodeId} (hp : s.Positive root b order₀) :
    s'.Positive root' b (order₀.map (counterpart order order')) := by
  have hlen := h.length_eq h'
  have hroot : counterpart order order' root = root' := h.counterpart_root hlen h'.last
  have hmem : ∀ id ∈ order₀, id ∈ order := fun id hid => h.mem_iff.2 (hp.reached id hid)
  apply positive_of_walks
  · rw [← hroot, h.isFalse_eq h' hs hs' (h.mem_iff.2 .refl)]
    exact hp.isFalse
  · have hwalks := hp.walks.map (counterpart order order')
      (fun a ha b hb => counterpart_injective hlen h.nodup h'.nodup (hmem a ha) (hmem b hb))
      fun id hid ps hps => h.positiveElements_eq h' hs hs' (hmem id hid) hps
    cases b with
    | true => exact hwalks
    | false =>
      rw [← hroot]
      exact hwalks

end

/-! ## What is emitted -/

/-- A literal is its own counterpart. -/
theorem Outlines.counterpart_literal (h : s.Outlines root order figs)
    (h' : s'.Outlines root' order' figs) (hs : s.Sound) (hs' : s'.Sound) (hvtree : s'.vtree = s.vtree)
    {l : Literal} (hid : id ∈ order) (hkind : s.kind id = .ok (.literal l)) :
    counterpart order order' id = id := by
  have hone := hs.literal?_of_kind hkind
  have htwo := hs'.literal?_of_kind (h.kind_counterpart h' hid hkind)
  rw [literal?_congr (congrArg Vtree.numVars hvtree), hone] at htwo
  exact (Option.some_inj.1 htwo).symm

section

variable {l : Layout} {e e' : Emission W} (h : s.Emits l id e e')
include h

theorem Emits.of_literal {lit : Literal} (hkind : s.kind id = .ok (.literal lit)) : e' = e := by
  cases h with
  | literal _ _ => rfl
  | top _ _ _ _ _ _ _ _ _ he => exact absurd (hkind.symm.trans (kind_of_entry he)) (by simp)
  | decision _ _ _ _ he => exact absurd (hkind.symm.trans (kind_of_entry he)) (by simp)

theorem Emits.of_top {leaf : VtreeId} (hkind : s.kind id = .ok (.top (some leaf))) :
    ∃ var w₀ w₁ no yes negative positive, s.vtree.leafOf var = .ok leaf ∧
      s.literal? (-(var : Int)) = some no ∧ s.literal? var = some yes ∧
      l.head? no = some negative ∧ l.head? yes = some positive ∧
      l.head? id = some (e.ops.size + 4) ∧ e' = e.top w₀ w₁ negative positive := by
  cases h with
  | literal _ he => exact absurd (hkind.symm.trans (kind_of_entry he)) (by simp)
  | top leaf' var θ w₀ w₁ no yes negative positive he hleaf hw hno hyes hneg hpos hhead =>
    have heq := Except.ok.inj (hkind.symm.trans (kind_of_entry he))
    obtain rfl : leaf = leaf' := by simpa using heq
    exact ⟨var, w₀, w₁, no, yes, negative, positive, hleaf, hno, hyes, hneg, hpos, hhead, rfl⟩
  | decision _ _ _ _ he => exact absurd (hkind.symm.trans (kind_of_entry he)) (by simp)

theorem Emits.of_decision {v : VtreeId} {es : List Element}
    (hkind : s.kind id = .ok (.decision v es)) :
    ∃ θ xs ps, s.positiveElements id = .ok ps ∧ List.Forall₂ (ItemOf l ⟨.decision v es, some θ⟩) ps xs ∧
      l.head? id = some (e.ops.size + 2 * xs.length) ∧
      e' = (e.items xs).push (.sum (Emission.products e.ops.size xs.length)) := by
  cases h with
  | literal _ he => exact absurd (hkind.symm.trans (kind_of_entry he)) (by simp)
  | top _ _ _ _ _ _ _ _ _ he => exact absurd (hkind.symm.trans (kind_of_entry he)) (by simp)
  | decision v' es' θ xs he hθ hknown hxs hhead =>
    obtain ⟨rfl, rfl⟩ := Kind.decision.inj (Except.ok.inj (hkind.symm.trans (kind_of_entry he)))
    exact ⟨θ, xs, _, positiveElements_known hknown (elements_of_entry he), hxs, hhead, rfl⟩

end

/-- Items of the same elements agree in all but their weights if the heads agree. -/
theorem items_alike {l l' : Layout} {node node' : Node W} {f : NodeId → NodeId} {ps : List Element}
    {xs xs' : List (Emission.Item W)} (h : List.Forall₂ (ItemOf l node) ps xs)
    (h' : List.Forall₂ (ItemOf l' node') (ps.map (Element.map f)) xs')
    (hheads : ∀ x ∈ nodesBelow ps, l'.head? (f x) = l.head? x) :
    List.Forall₂ Emission.Item.Alike xs xs' := by
  induction h generalizing xs' with
  | nil =>
    cases h'
    exact .nil
  | @cons p x ps xs hx _ ih =>
    cases h' with
    | @cons _ x' _ xs' hx' hrest =>
      refine .cons ⟨?_, ?_⟩ (ih hrest fun y hy => hheads y (List.mem_append_right [p.prime, p.sub] hy))
      · have hprime : l'.head? (f p.prime) = some x'.prime := hx'.prime
        rw [hheads p.prime (prime_mem_nodesBelow List.mem_cons_self), hx.prime] at hprime
        exact (Option.some_inj.1 hprime).symm
      · have hsub : l'.head? (f p.sub) = some x'.sub := hx'.sub
        rw [hheads p.sub (sub_mem_nodesBelow List.mem_cons_self), hx.sub] at hsub
        exact (Option.some_inj.1 hsub).symm

section

variable (h : s.Outlines root order figs) (h' : s'.Outlines root' order' figs) (hs : s.Sound)
  (hs' : s'.Sound) (hvtree : s'.vtree = s.vtree) {l l' : Layout}
  (hliterals : ∀ id, s.IsLiteral id → l'.head? id = l.head? id)
include h h' hs hs' hvtree hliterals

/-- Counterparts are emitted alike, and they get the same heads. -/
theorem Emits.alike {e e₁ e' e₁' : Emission W} (hid : id ∈ order) (hemits : s.Emits l id e e₁)
    (hemits' : s'.Emits l' (counterpart order order' id) e' e₁') (halike : e.Alike e')
    (hheads : ∀ ps, s.positiveElements id = .ok ps →
      ∀ x ∈ nodesBelow ps, l'.head? (counterpart order order' x) = l.head? x) :
    e₁.Alike e₁' ∧ l'.head? (counterpart order order' id) = l.head? id := by
  have hkind' : ∀ {k : Kind}, s.kind id = .ok k → s'.kind (counterpart order order' id)
      = .ok (k.map (counterpart order order')) := fun hkind => h.kind_counterpart h' hid hkind
  have hliteral : ∀ v, s'.literal? v = s.literal? v :=
    fun v => literal?_congr (congrArg Vtree.numVars hvtree) v
  cases hemits with
  | literal lit he =>
    have hkind := kind_of_entry he
    obtain rfl := hemits'.of_literal (hkind' hkind)
    rw [h.counterpart_literal h' hs hs' hvtree hid hkind]
    exact ⟨halike, hliterals id ⟨_, hs.literal?_of_kind hkind⟩⟩
  | top leaf var θ w₀ w₁ no yes negative positive he hleaf hw hno hyes hneg hpos hhead =>
    obtain ⟨var', w₀', w₁', no', yes', negative', positive', hleaf', hno', hyes', hneg', hpos', hhead',
      rfl⟩ := hemits'.of_top (hkind' (kind_of_entry he))
    -- one leaf holds one variable, and its literals have the same ids in both stores
    have hsub := hs'.vtree.leafOf_iff.1 hleaf'
    rw [hvtree, hs.vtree.leafOf_iff.1 hleaf] at hsub
    obtain rfl : var = var' := by simpa using hsub
    rw [hliteral, hno] at hno'
    rw [hliteral, hyes] at hyes'
    obtain rfl := Option.some_inj.1 hno'
    obtain rfl := Option.some_inj.1 hyes'
    rw [hliterals no ⟨_, hno⟩, hneg] at hneg'
    rw [hliterals yes ⟨_, hyes⟩, hpos] at hpos'
    obtain rfl := Option.some_inj.1 hneg'
    obtain rfl := Option.some_inj.1 hpos'
    refine ⟨halike.top w₀ w₁ w₀' w₁' negative positive, ?_⟩
    rw [hhead, hhead', halike.ops]
  | decision v es θ xs he hθ hknown hxs hhead =>
    obtain ⟨θ', xs', ps', hps', hxs', hhead', rfl⟩ := hemits'.of_decision (hkind' (kind_of_entry he))
    have hps : s.positiveElements id = .ok (es.filter s.positive) :=
      positiveElements_known hknown (elements_of_entry he)
    -- the elements that are emitted there are the counterparts of those that are emitted here
    obtain rfl := Except.ok.inj (hps'.symm.trans (h.positiveElements_eq h' hs hs' hid hps))
    have hitems := items_alike hxs hxs' (hheads _ hps)
    rw [hhead, hhead', halike.ops, ← hitems.length_eq]
    exact ⟨(halike.items hitems).push _, rfl⟩

/-- Two emissions of counterparts agree in every opcode. -/
theorem EmitsAll.alike (done : List NodeId) {rest : List NodeId} {e e₁ e' e₁' : Emission W}
    (hrest : rest ⊆ order) (hall : s.EmitsAll l rest e e₁)
    (hall' : s'.EmitsAll l' (rest.map (counterpart order order')) e' e₁') (halike : e.Alike e')
    (hheads : ∀ x ∈ done, l'.head? (counterpart order order' x) = l.head? x)
    (hsettled : Settled s.positiveElements (done ++ rest)) :
    e₁.Alike e₁' ∧ ∀ x ∈ done ++ rest, l'.head? (counterpart order order' x) = l.head? x := by
  induction hall generalizing done e' with
  | nil e =>
    cases hall'
    exact ⟨halike, by simpa using hheads⟩
  | @cons id rest e e₂ e₁ hid hrest' ih =>
    cases hall' with
    | @cons _ _ _ e₂' _ hid' hrest'' =>
      have hbelow : ∀ ps, s.positiveElements id = .ok ps → ∀ x ∈ nodesBelow ps,
          l'.head? (counterpart order order' x) = l.head? x := by
        intro ps hps x hx
        exact hheads x (hsettled.below hps x hx)
      obtain ⟨halike', hhead⟩ := Emits.alike h h' hs hs' hvtree hliterals (hrest List.mem_cons_self)
        hid hid' halike hbelow
      have hheads' : ∀ x ∈ done ++ [id], l'.head? (counterpart order order' x) = l.head? x := by
        intro x hx
        rcases List.mem_append.1 hx with hx | hx
        · exact hheads x hx
        · rw [List.mem_singleton.1 hx]
          exact hhead
      have hsettled' : Settled s.positiveElements ((done ++ [id]) ++ rest) := by simpa using hsettled
      have hdone := ih (done ++ [id]) (fun x hx => hrest (List.mem_cons_of_mem _ hx)) hrest''
        halike' hheads' hsettled'
      simpa using hdone

end

/-! ## The circuits -/

theorem Outlines.knowsBelow (h : s.Outlines root order figs) (hid : id ∈ order) {es : List Element}
    (hes : s.elements id = .ok es) : s.KnowsBelow es :=
  fun x hx => h.known x (h.listed hid hes x hx)

/-- The heads of the literals depend on the number of variables only. -/
theorem Compiled.head?_literal {order₀ order₀' : List NodeId} {l l' : Layout} {e e' : Emission W}
    (hc : s.Compiled order₀ l e) (hc' : s'.Compiled order₀' l' e') (hvtree : s'.vtree = s.vtree)
    (hid : s.IsLiteral id) : l'.head? id = l.head? id := by
  have hcount : s'.varCount = s.varCount := congrArg Vtree.numVars hvtree
  obtain ⟨v, hv⟩ := hid
  have hmem := mem_indicators.2 (exists_literal?.1 ⟨id, hv⟩)
  obtain ⟨i, hi⟩ := List.mem_iff_getElem?.1 hmem
  rw [hc.indicators id i v hi hv]
  apply hc'.indicators id i v
  · rw [hcount]
    exact hi
  · rw [literal?_congr hcount]
    exact hv

/-- Diagrams with the same outline over the same vtree, every node of which can be turned into
opcodes, become circuits with the same opcodes. -/
theorem Outlines.compile_alike (h : s.Outlines root order figs) (h' : s'.Outlines root' order' figs)
    (hs : s.Sound) (hs' : s'.Sound) (hvtree : s'.vtree = s.vtree) {b : Bool} {order₀ : List NodeId}
    (hp : s.Positive root b order₀) (hnone : ∀ id ∈ order, s.refusal? id = none)
    (hnone' : ∀ id ∈ order', s'.refusal? id = none) :
    ∃ c c', s.compile root = .ok c ∧ s'.compile root' = .ok c' ∧ c'.ops = c.ops ∧
      c'.literalCount = c.literalCount ∧ c'.root = c.root := by
  have hp' := h.positive h' hs hs' hp
  have hmem : ∀ id ∈ order₀, id ∈ order := fun id hid => h.mem_iff.2 (hp.reached id hid)
  have hmem' : ∀ id ∈ order₀.map (counterpart order order'), id ∈ order' :=
    fun id hid => h'.mem_iff.2 (hp'.reached id hid)
  obtain ⟨l, e, hc, hcompile⟩ := hp.exists_compiled hs fun id hid =>
    hs.compilable (fun es => h.knowsBelow (hmem id hid)) (hp.holds id hid) (hnone id (hmem id hid))
  obtain ⟨l', e', hc', hcompile'⟩ := hp'.exists_compiled hs' fun id hid =>
    hs'.compilable (fun es => h'.knowsBelow (hmem' id hid)) (hp'.holds id hid)
      (hnone' id (hmem' id hid))
  have hcount : s'.varCount = s.varCount := congrArg Vtree.numVars hvtree
  have hstart : (.ofIndicators s.varCount : Emission W).Alike (.ofIndicators s'.varCount) := by
    rw [hcount]
    exact ⟨rfl, rfl⟩
  obtain ⟨halike, hheads⟩ := EmitsAll.alike h h' hs hs' hvtree
    (fun id => hc.head?_literal hc' hvtree) [] hmem hc.emits hc'.emits hstart (by simp) hp.settled
  refine ⟨_, _, hcompile, hcompile', halike.ops, congrArg (· - 1) halike.next, ?_⟩
  cases b with
  | true => rfl
  | false =>
    have hroot := hheads root hp.root_mem
    rw [h.counterpart_root (h.length_eq h') h'.last] at hroot
    exact hroot

end Store
end Sentential
