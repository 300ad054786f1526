import Sentential.Proofs.Circuit.Wiring
import Sentential.Proofs.Dot.Drawing
import Sentential.Proofs.Format.Psdd

/-!
# Which weight belongs to an element

The weights of a decision belong to its elements by position. The writer and the drawings take the
weight at the position in question (`WritesShare`, `DrawsShare`), while a compilation goes through
the positive elements and looks for each of them in the decision, so it takes the weight at the
first position where the element stands (`RecordsWeight`). The two are the same weight wherever an
element stands for the first time (`Built.weight_of_element`). Where an element stands again, its
own weight is written and drawn, but the circuit has the weight of the first one once more.
-/

namespace Sentential

open Format Text

/-- The `k`-th product below the sum at the position `h`: the weight of its parameter and the two
other opcodes that it multiplies. -/
def Circuit.term? {V : Type} (c : Circuit V) (h k : Nat) : Option (Emission.Item V) :=
  match c.ops[h]? with
  | some (.sum ps) =>
    match ps[k]?.bind (c.ops[·]?) with
    | some (.product [a, prime, sub]) =>
      match c.ops[a]? with
      | some (.literal p) => some ⟨c.weights.get p, prime, sub⟩
      | _ => none
    | _ => none
  | _ => none

/-- The label that a drawing has at an element with the weight `w`. -/
def Theta.shareLabel {W : Type} [Weight W] (θ : Theta W) (w : W) : String :=
  if Weight.same w θ.sum then "1" else String.ofList (Weight.placesText (Weight.div w θ.sum))

theorem getElem?_filter_countP {α : Type} {p : α → Bool} {as : List α} {i : Nat} {a : α}
    (ha : as[i]? = some a) (hp : p a = true) :
    (as.filter p)[(as.take i).countP p]? = some a := by
  obtain ⟨hlt, hget⟩ := List.getElem?_eq_some_iff.1 ha
  have hsplit : as.filter p = (as.take i).filter p ++ a :: (as.drop (i + 1)).filter p := by
    rw [← List.filter_cons_of_pos hp, ← List.filter_append, ← hget, List.getElem_cons_drop,
      List.take_append_drop]
  rw [hsplit, List.countP_eq_length_filter, List.getElem?_append_right (Nat.le_refl _),
    Nat.sub_self]
  rfl

theorem exists_getElem?_of_forall₂ {α β : Type} {r : α → β → Prop} {as : List α} {bs : List β}
    (h : List.Forall₂ r as bs) {i : Nat} {a : α} (ha : as[i]? = some a) :
    ∃ b, bs[i]? = some b ∧ r a b := by
  induction h generalizing i with
  | nil => exact absurd ha (by simp)
  | cons hab _ ih =>
    cases i with
    | zero =>
      obtain rfl := Option.some_inj.1 ha
      exact ⟨_, rfl, hab⟩
    | succ i => exact ih ha

theorem idxOf_eq_of_first {α : Type} [DecidableEq α] {as : List α} {i : Nat} {a : α}
    (ha : as[i]? = some a) (hfirst : ∀ j < i, as[j]? ≠ some a) : as.idxOf a = i := by
  obtain ⟨hlt, hget⟩ := List.getElem?_eq_some_iff.1 ha
  refine (List.findIdx_eq hlt).2 ⟨beq_iff_eq.2 hget, fun j hj => ?_⟩
  have hne := hfirst j hj
  rw [List.getElem?_eq_getElem (Nat.lt_trans hj hlt)] at hne
  exact beq_eq_false_iff_ne.2 fun heq => hne (congrArg some heq)

namespace Store

variable {W : Type} [Weight W] {s : Store W} {l : Layout} {e : Emission W} {root id : NodeId}
  {order : List NodeId} {figs : List Figure} {v : VtreeId} {es : List Element} {θ : Theta W}
  {b : Bool} {i n : Nat} {x : Element} {w : W}

/-! ## The circuit -/

/-- The place of the element at position `i` among the terms of the decision's sum: only positive
elements have terms. -/
def termIndex (s : Store W) (es : List Element) (i : Nat) : Nat := (es.take i).countP s.positive

/-- The weight of an element is looked for at the first position where the element stands. -/
theorem elementWeight_eq_idxOf (hθ : θ.length = es.length) (hx : x ∈ es) :
    (⟨.decision v es, some θ⟩ : Node W).elementWeight x = θ.weights[es.idxOf x]? := by
  obtain ⟨j, w, hj, hw, hweight⟩ := exists_elementWeight (v := v) hθ hx
  have hidx : es.idxOf x = j := (List.findIdx?_eq_some_iff_findIdx_eq.1 hj).2
  rw [hweight, hidx, hw]

/-- The term of the circuit for the element `x` at position `i` of the decision `id` multiplies the
heads of its prime and its sub with the weight `w`. -/
def RecordsWeight (s : Store W) (root id : NodeId) (c : Circuit W) (es : List Element) (i : Nat)
    (x : Element) (w : W) : Prop :=
  ∃ order l head prime sub, s.positiveOrder root = .ok order ∧ s.layout order = .ok l ∧
    l.head? id = some head ∧ l.head? x.prime = some prime ∧ l.head? x.sub = some sub ∧
    c.term? head (s.termIndex es i) = some ⟨w, prime, sub⟩

/-- There is one weight that a circuit has for an element. -/
theorem RecordsWeight.unique {c : Circuit W} {w' : W} (h : s.RecordsWeight root id c es i x w)
    (h' : s.RecordsWeight root id c es i x w') : w = w' := by
  obtain ⟨order, l, head, prime, sub, horder, hl, hhead, -, -, hterm⟩ := h
  obtain ⟨order', l', head', prime', sub', horder', hl', hhead', -, -, hterm'⟩ := h'
  obtain rfl := Except.ok.inj (horder.symm.trans horder')
  obtain rfl := Except.ok.inj (hl.symm.trans hl')
  obtain rfl := Option.some_inj.1 (hhead.symm.trans hhead')
  exact congrArg Emission.Item.weight (Option.some_inj.1 (hterm.symm.trans hterm'))

/-- The circuit has the weight at the first position of an element. -/
theorem Compiled.recordsWeight (h : s.Compiled order l e) (hs : s.Sound)
    (horder : s.positiveOrder root = .ok order) (hid : id ∈ order)
    (he : s.entry id = .ok ⟨⟨.decision v es, some θ⟩, b⟩) (hx : es[i]? = some x)
    (hpos : s.positive x = true) (hw : θ.weights[es.idxOf x]? = some w) (head : Option Nat) :
    s.RecordsWeight root id (s.circuitOf e head) es i x w := by
  obtain ⟨xs, h', ps, hxs, hhead, hsum, hps⟩ := h.wired_decision hid he
  -- the element is one of those that are filtered, its item is at the same place, and so is the
  -- product of the item
  obtain ⟨⟨w', prime, sub⟩, hitem, hof⟩ :=
    exists_getElem?_of_forall₂ hxs (getElem?_filter_countP hx hpos)
  obtain ⟨p, hp, a, ⟨q, ha, -, -, hq⟩, hop⟩ := exists_getElem?_of_forall₂ hps hitem
  obtain rfl : w' = w := by
    have hweight := elementWeight_eq_idxOf (v := v) (hs.length_theta he) (List.mem_of_getElem? hx)
    exact Option.some_inj.1 (hof.weight.symm.trans (hweight.trans hw))
  refine ⟨order, l, h', prime, sub, horder, h.layout, hhead, hof.prime, hof.sub, ?_⟩
  unfold Circuit.term? circuitOf termIndex
  simp only [hsum, hp, Option.bind_some, hop, ha, hq]

/-! ## The file and the drawing -/

/-- The line of the decision `id` has the logarithm of the weight's share at the element at
position `i`, and the line stands in the file if the file is written. -/
def WritesShare (s : Store W) (root id : NodeId) (θ : Theta W) (i : Nat) (w : W) : Prop :=
  ∃ ix n fs, s.indexing root = .ok ix ∧ ix.indexOf id = .ok n ∧ s.psddLine ix n id = .ok fs ∧
    fs[3 * i + 6]? = some (Weight.text (Weight.log (Weight.div w θ.sum))) ∧
    ∀ text, s.psddText root = .ok text → ∃ rows, rows[n]? = some fs ∧
      text = fileOf psddComments (["psdd".toList, natField ix.size] :: rows)

/-- The edge to the element `x` at position `i` of the decision `id` is labelled with the weight's
share, and the edge is in the drawing if there is a drawing. -/
def DrawsShare (s : Store W) (root id : NodeId) (θ : Theta W) (i : Nat) (x : Element) (w : W) :
    Prop :=
  ∀ sub config, ∃ color, (s.weightedLook sub config).paint id i x
      = .ok (some ⟨θ.shareLabel w, color⟩) ∧
    ∀ items, s.draw config (s.weightedLook sub config) root = .ok items →
      ∃ ix n, s.indexing root = .ok ix ∧ ix.indexOf id = .ok n ∧
        .tie n i (some ⟨θ.shareLabel w, color⟩) ∈ items

theorem Outlines.psddLine_decision (h : s.Outlines root order figs) (hs : s.Sound)
    (hid : order[n]? = some id) (he : s.entry id = .ok ⟨⟨.decision v es, some θ⟩, b⟩) :
    ∃ ns : List (Nat × Nat), ns.length = es.length ∧ s.psddLine (.ofList order) n id
      = .ok (['D'] :: natField n :: natField v.raw :: natField ns.length ::
          Figure.weightedFields ns θ.logs) := by
  obtain ⟨fig, -, hkind, hwithin⟩ := h.exists_figure hid
  have hlt := (List.getElem?_eq_some_iff.1 hid).1
  have hfig : fig.kind order = .decision v es :=
    Except.ok.inj (hkind.symm.trans (kind_of_entry he))
  cases fig with
  | decision v' ns =>
    obtain ⟨rfl, rfl⟩ := Kind.decision.inj hfig
    have hlen : θ.length = ns.length := (hs.length_theta he).trans (List.length_map _)
    have hentry : s.entry id = .ok ⟨⟨(Figure.decision v' ns).kind order, some θ⟩, b⟩ := he
    exact ⟨ns, (List.length_map _).symm, psddLine_eq hs h.nodup hentry
      (hwithin.mono (Nat.le_of_lt hlt)) (.decision v' ns θ hlen)⟩
  | _ => exact absurd hfig (by simp [Figure.kind])

/-- The writer takes the weight at the position of the element. -/
theorem Outlines.writesShare (h : s.Outlines root order figs) (hs : s.Sound) (hid : id ∈ order)
    (he : s.entry id = .ok ⟨⟨.decision v es, some θ⟩, b⟩) (hw : θ.weights[i]? = some w) :
    s.WritesShare root id θ i w := by
  obtain ⟨n, hn⟩ := List.mem_iff_getElem?.1 hid
  obtain ⟨ns, hlen, hline⟩ := h.psddLine_decision hs hn he
  have hlogs : θ.logs[i]? = some (Weight.log (Weight.div w θ.sum)) := by
    unfold Theta.logs Theta.normalized
    simp [hw]
  have hcount : θ.logs.length = ns.length := by
    rw [Theta.length_logs, hlen]
    exact hs.length_theta he
  refine ⟨_, n, _, h.indexing, indexOf_ofList h.nodup hn, hline, ?_, fun text htext => ?_⟩
  · -- four fields stand before those of the elements
    exact Figure.getElem?_weightedFields hcount hlogs
  · obtain ⟨rows, hrows, rfl⟩ := psddText_eq_ok htext h.indexing
    rw [Indexing.order_ofList] at hrows
    obtain ⟨fs, hfs, hget⟩ := getElem?_psddLines hrows hn
    rw [Nat.zero_add, hline] at hfs
    exact ⟨rows, Except.ok.inj hfs ▸ hget, rfl⟩

/-- Drawings take the weight at the position of the element. -/
theorem Outlines.drawsShare (h : s.Outlines root order figs) (hid : id ∈ order)
    (he : s.entry id = .ok ⟨⟨.decision v es, some θ⟩, false⟩) (hx : es[i]? = some x)
    (hw : θ.weights[i]? = some w) : s.DrawsShare root id θ i x w := by
  intro sub config
  have hlabel : edgeLabel ⟨⟨.decision v es, some θ⟩, false⟩ i = θ.shareLabel w := by
    unfold edgeLabel
    simp only [hw]
    rfl
  obtain ⟨color, hpaint⟩ : ∃ color, (s.weightedLook sub config).paint id i x
      = .ok (some ⟨θ.shareLabel w, color⟩) := by
    unfold weightedLook
    simp only [he, ok_bind, hlabel, vtreeOf_decision (kind_of_entry he)]
    exact ⟨_, rfl⟩
  refine ⟨color, hpaint, fun items hitems => ?_⟩
  have hmem : id ∈ (Indexing.ofList order).order.toList := by rwa [Indexing.order_ofList]
  obtain ⟨n, paint, hn, hpaint', htie⟩ :=
    tie_mem_draw hitems h.indexing hmem (kind_of_entry he) hx
  obtain rfl := Except.ok.inj (hpaint.symm.trans hpaint')
  exact ⟨_, n, h.indexing, hn, htie⟩

/-! ## An element that stands twice -/

/-- The elements of `x₁ ∧ x₂`, which is stated twice. -/
def repeated : List Element := [⟨⟨2⟩, ⟨3⟩⟩, ⟨⟨2⟩, ⟨3⟩⟩]

theorem isNonneg_oneZero : ∀ w ∈ [Extreme.one, .zero], Weight.isNonneg w = true := by
  decide

/-- All weight is that of the first element. -/
def allFirst : Theta Extreme := ⟨[.one, .zero], isNonneg_oneZero⟩

/-- A store over two variables with a decision at id 6 that has one element at two positions. -/
def twice : Store Extreme :=
  (ofVtree .pair).make ⟨.decision ⟨1⟩ repeated, some allFirst⟩ false

theorem newDecision_twice :
    (ofVtree .pair).newDecision repeated ⟨1⟩ allFirst = (.ok ⟨6⟩, twice) :=
  newDecision_made ⟨_, _, _, rfl⟩ rfl rfl

theorem built_twice : twice.Built := by
  have hstart : (ofVtree Vtree.pair : Store Extreme).Built := .start (.balanced Vtree.balanced_two)
  have hcall := ReachedBy.call (.newDecision repeated ⟨1⟩ allFirst) hstart (by decide)
  have hstore : ((ofVtree .pair).newDecision repeated ⟨1⟩ allFirst).2 = twice := by
    rw [newDecision_twice]
  exact hstore ▸ hcall

theorem exists_circuit_twice : ∃ c, twice.compile ⟨6⟩ = .ok c := by
  have hnone : ∀ a ∈ [⟨6⟩, ⟨2⟩, (⟨3⟩ : NodeId)], twice.refusal? a = none := by decide
  refine built_twice.exists_circuit (by decide) fun id hid => hnone id ?_
  exact hid.mem (by decide) (by decide)

/-- The second of two equal elements has no weight, but the circuit has that of the first for it. -/
theorem recordsWeight_twice : twice.Built ∧
    (ofVtree .pair).newDecision repeated ⟨1⟩ allFirst = (.ok ⟨6⟩, twice) ∧
    ∃ c, twice.compile ⟨6⟩ = .ok c ∧ repeated[1]? = some ⟨⟨2⟩, ⟨3⟩⟩ ∧
      twice.positive ⟨⟨2⟩, ⟨3⟩⟩ = true ∧ allFirst.weights[1]? = some .zero ∧
      twice.RecordsWeight ⟨6⟩ ⟨6⟩ c repeated 1 ⟨⟨2⟩, ⟨3⟩⟩ .one ∧
      ¬ twice.RecordsWeight ⟨6⟩ ⟨6⟩ c repeated 1 ⟨⟨2⟩, ⟨3⟩⟩ .zero := by
  obtain ⟨c, hc⟩ := exists_circuit_twice
  obtain ⟨b, order, l, e, hp, hcompiled, rfl⟩ := built_twice.exists_compiled hc
  obtain rfl : b = false := Except.ok.inj (hp.isFalse.symm.trans rfl)
  have hone := hcompiled.recordsWeight (i := 1) (w := Extreme.one) built_twice.sound
    hp.positiveOrder hp.root_mem entry_make_self rfl (by decide) rfl (l.head? ⟨6⟩)
  exact ⟨built_twice, newDecision_twice, _, hc, rfl, by decide, rfl, hone,
    fun hzero => absurd (hone.unique hzero) (by decide)⟩

/-! ## Where the three agree -/

/-- The circuit has the weight at the first position of an element, the file and the drawing have
the weight at the position of the element itself. They agree where the element stands for the first
time. -/
theorem Built.weight_of_element (h : s.Built) {c : Circuit W} (hcompile : s.compile root = .ok c)
    (horder : s.positiveOrder root = .ok order) (hid : id ∈ order)
    (he : s.entry id = .ok ⟨⟨.decision v es, some θ⟩, b⟩) (hx : es[i]? = some x)
    (hpos : s.positive x = true) : ∃ w u, θ.weights[es.idxOf x]? = some w ∧
      θ.weights[i]? = some u ∧ s.RecordsWeight root id c es i x w ∧ s.WritesShare root id θ i u ∧
      s.DrawsShare root id θ i x u ∧ ((∀ j < i, es[j]? ≠ some x) → w = u) := by
  obtain ⟨b', order', l, e, hp, hcompiled, rfl⟩ := h.exists_compiled hcompile
  obtain rfl := Except.ok.inj (hp.positiveOrder.symm.trans horder)
  have hlen : θ.weights.length = es.length := h.sound.length_theta he
  obtain ⟨w, hw⟩ : ∃ w, θ.weights[es.idxOf x]? = some w :=
    ⟨_, List.getElem?_eq_getElem (hlen ▸ List.idxOf_lt_length_of_mem (List.mem_of_getElem? hx))⟩
  obtain ⟨u, hu⟩ : ∃ u, θ.weights[i]? = some u :=
    ⟨_, List.getElem?_eq_getElem (hlen ▸ (List.getElem?_eq_some_iff.1 hx).1)⟩
  obtain ⟨all, figs, hall⟩ := exists_outlines h.closed (knows_of_compile hcompile)
  have hmem : id ∈ all := hall.mem_iff.2 (hp.reached id hid)
  -- what a circuit is made of can hold, so its drawing has labels
  obtain rfl : b = false := by
    obtain ⟨e', he', hfalse⟩ := isFalse_eq_ok.1 (hp.holds id hid)
    obtain rfl := Except.ok.inj (he.symm.trans he')
    exact hfalse
  refine ⟨w, u, hw, hu, hcompiled.recordsWeight h.sound horder hid he hx hpos hw _,
    hall.writesShare h.sound hmem he hu, hall.drawsShare hmem he hx hu, fun hfirst => ?_⟩
  rw [idxOf_eq_of_first hx hfirst, hu] at hw
  exact (Option.some_inj.1 hw).symm

theorem weight_of_element_twice : ∃ c w u, twice.compile ⟨6⟩ = .ok c ∧
    allFirst.weights[repeated.idxOf ⟨⟨2⟩, ⟨3⟩⟩]? = some w ∧ allFirst.weights[1]? = some u ∧
    twice.RecordsWeight ⟨6⟩ ⟨6⟩ c repeated 1 ⟨⟨2⟩, ⟨3⟩⟩ w ∧
    twice.WritesShare ⟨6⟩ ⟨6⟩ allFirst 1 u ∧ twice.DrawsShare ⟨6⟩ ⟨6⟩ allFirst 1 ⟨⟨2⟩, ⟨3⟩⟩ u := by
  obtain ⟨c, hc⟩ := exists_circuit_twice
  obtain ⟨b, order, l, e, hp, -⟩ := built_twice.exists_compiled hc
  obtain rfl : b = false := Except.ok.inj (hp.isFalse.symm.trans rfl)
  obtain ⟨w, u, hw, hu, hrecords, hwrites, hdraws, -⟩ := built_twice.weight_of_element (i := 1) hc
    hp.positiveOrder hp.root_mem entry_make_self rfl (by decide)
  exact ⟨c, w, u, hc, hw, hu, hrecords, hwrites, hdraws⟩

end Store
end Sentential
