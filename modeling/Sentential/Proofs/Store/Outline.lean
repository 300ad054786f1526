import Mathlib.Data.List.GetD
import Sentential.Proofs.Store.Order

/-!
# Outlines

The outline of a diagram is what is left of it when ids are forgotten: the nodes in their order,
and for each of them what it is, with the numbers of its elements' nodes in place of their ids.
Two diagrams have the same outline if and only if they are the same diagram under other ids, node
by node in their orders.

* `Store.outline` computes the outline, `Outlines` says what it is of;
* `Outlines.transport`: a list of nodes of the same kinds, read with its own numbers, is the order
  of a diagram with the same outline.
-/

namespace Sentential

/-- The kind with the nodes of its elements renamed. -/
def Kind.map (f : NodeId → NodeId) : Kind → Kind
  | .decision v es => .decision v (es.map (Element.map f))
  | k => k

theorem Kind.elements_map (f : NodeId → NodeId) (k : Kind) :
    (k.map f).elements = k.elements.map (Element.map f) := by
  cases k <;> rfl

/-- What a node is, with the numbers of the nodes of its elements in place of their ids. -/
inductive Figure where
  | bottom
  | top (leaf : Option VtreeId)
  | literal (l : Literal)
  | decision (vtree : VtreeId) (elements : List (Nat × Nat))
deriving DecidableEq, Repr

namespace Figure

/-- The numbers of the elements; nodes other than decisions have none. -/
def elements : Figure → List (Nat × Nat)
  | decision _ es => es
  | _ => []

/-- The element whose prime and sub have these numbers in a list of nodes. -/
def element (ids : List NodeId) (x : Nat × Nat) : Element :=
  ⟨ids.getD x.1 .bottom, ids.getD x.2 .bottom⟩

/-- What the node is if the numbers are those of a list of nodes. -/
def kind (ids : List NodeId) : Figure → Kind
  | bottom => .bottom
  | top leaf => .top leaf
  | literal l => .literal l
  | decision v es => .decision v (es.map (element ids))

/-- All numbers are below `n`. -/
def Within (n : Nat) (fig : Figure) : Prop := ∀ x ∈ fig.elements, x.1 < n ∧ x.2 < n

theorem Within.mono {m n : Nat} {fig : Figure} (h : fig.Within m) (hle : m ≤ n) : fig.Within n :=
  fun x hx => ⟨Nat.lt_of_lt_of_le (h x hx).1 hle, Nat.lt_of_lt_of_le (h x hx).2 hle⟩

theorem elements_kind (ids : List NodeId) (fig : Figure) :
    (fig.kind ids).elements = fig.elements.map (element ids) := by
  cases fig <;> rfl

/-- Only the nodes whose numbers occur matter. -/
theorem kind_congr {ids ids' : List NodeId} {n : Nat} {fig : Figure} (h : fig.Within n)
    (hids : ∀ i < n, ids.getD i .bottom = ids'.getD i .bottom) : fig.kind ids = fig.kind ids' := by
  cases fig with
  | decision v es =>
    have hes : es.map (element ids) = es.map (element ids') := by
      apply List.map_congr_left
      intro x hx
      obtain ⟨hp, hs⟩ := h x hx
      unfold element
      rw [hids _ hp, hids _ hs]
    exact congrArg (Kind.decision v) hes
  | _ => rfl

theorem kind_append {ids : List NodeId} {fig : Figure} (h : fig.Within ids.length)
    (more : List NodeId) : fig.kind (ids ++ more) = fig.kind ids := by
  apply kind_congr h
  intro i hi
  rw [List.getD_append _ _ _ _ hi]

theorem kind_take {ids : List NodeId} {n : Nat} {fig : Figure} (h : fig.Within n) :
    fig.kind (ids.take n) = fig.kind ids := by
  apply kind_congr h
  intro i hi
  rw [List.getD_eq_getElem?_getD, List.getD_eq_getElem?_getD, List.getElem?_take_of_lt hi]

theorem getD_injective {ids : List NodeId} (hids : ids.Nodup) {i j : Nat} (hi : i < ids.length)
    (hj : j < ids.length) (h : ids.getD i .bottom = ids.getD j .bottom) : i = j := by
  rw [List.getD_eq_getElem _ _ hi, List.getD_eq_getElem _ _ hj] at h
  exact (List.Nodup.getElem_inj_iff hids).1 h

theorem map_element_injective {ids : List NodeId} (hids : ids.Nodup) {es es' : List (Nat × Nat)}
    (h : ∀ x ∈ es, x.1 < ids.length ∧ x.2 < ids.length)
    (h' : ∀ x ∈ es', x.1 < ids.length ∧ x.2 < ids.length)
    (heq : es.map (element ids) = es'.map (element ids)) : es = es' := by
  induction es generalizing es' with
  | nil => exact (List.map_eq_nil_iff.1 heq.symm).symm
  | cons x es ih =>
    cases es' with
    | nil => exact absurd heq (by simp)
    | cons y es' =>
      obtain ⟨hx, hes⟩ := List.cons.inj heq
      have hmem : ∀ z ∈ es, z.1 < ids.length ∧ z.2 < ids.length :=
        fun z hz => h z (List.mem_cons_of_mem _ hz)
      have hmem' : ∀ z ∈ es', z.1 < ids.length ∧ z.2 < ids.length :=
        fun z hz => h' z (List.mem_cons_of_mem _ hz)
      obtain ⟨hp, hs⟩ := Element.mk.inj hx
      have hxin := h x List.mem_cons_self
      have hyin := h' y List.mem_cons_self
      have hxy : x = y :=
        Prod.ext (getD_injective hids hxin.1 hyin.1 hp) (getD_injective hids hxin.2 hyin.2 hs)
      rw [hxy, ih hmem hmem' hes]

/-- Different figures over different nodes are different kinds of nodes. -/
theorem kind_injective {ids : List NodeId} (hids : ids.Nodup) {fig fig' : Figure}
    (h : fig.Within ids.length) (h' : fig'.Within ids.length) (heq : fig.kind ids = fig'.kind ids) :
    fig = fig' := by
  cases fig with
  | decision v es =>
    cases fig' with
    | decision v' es' =>
      obtain ⟨rfl, hes⟩ := Kind.decision.inj heq
      have hlists : es = es' := map_element_injective hids h h' hes
      rw [hlists]
    | _ => exact absurd heq (by simp [kind])
  | _ => cases fig' <;> simp_all [kind]

end Figure

/-! ## The outline of a diagram -/

/-- A list can be chosen place by place. -/
theorem exists_list {α β : Type} (as : List α) {p : Nat → α → β → Prop}
    (h : ∀ i a, as[i]? = some a → ∃ b, p i a b) : ∃ bs : List β, bs.length = as.length ∧
      ∀ i a b, as[i]? = some a → bs[i]? = some b → p i a b := by
  induction as generalizing p with
  | nil => exact ⟨[], rfl, by simp⟩
  | cons a as ih =>
    obtain ⟨b, hb⟩ := h 0 a rfl
    obtain ⟨bs, hlen, hbs⟩ := ih fun i a ha => h (i + 1) a ha
    refine ⟨b :: bs, congrArg (· + 1) hlen, fun i a' b' ha' hb' => ?_⟩
    cases i with
    | zero =>
      obtain rfl := Option.some_inj.1 ha'
      obtain rfl := Option.some_inj.1 hb'
      exact hb
    | succ i => exact hbs i a' b' ha' hb'

namespace Store

variable {W : Type} [Weight W] {s s' : Store W} {id root root' : NodeId}

/-- The numbers of the nodes of some elements. -/
def numberElements (ix : Indexing) : List Element → Except Fault (List (Nat × Nat))
  | [] => .ok []
  | e :: es => do
    let prime ← ix.indexOf e.prime
    let sub ← ix.indexOf e.sub
    return (prime, sub) :: (← numberElements ix es)

/-- The figure of a node in a numbering. -/
def figure (s : Store W) (ix : Indexing) (id : NodeId) : Except Fault Figure := do
  match ← s.kind id with
  | .bottom => return .bottom
  | .top leaf => return .top leaf
  | .literal l => return .literal l
  | .decision v es => return .decision v (← numberElements ix es)

/-- The figures of some nodes. -/
def figures (s : Store W) (ix : Indexing) : List NodeId → Except Fault (List Figure)
  | [] => .ok []
  | id :: ids => do
    let fig ← s.figure ix id
    return fig :: (← s.figures ix ids)

/-- The outline of the diagram below a root. -/
def outline (s : Store W) (root : NodeId) : Except Fault (List Figure) := do
  let ix ← s.indexing root
  s.figures ix ix.order.toList

/-- The nodes below a root in their order, and their figures. -/
structure Outlines (s : Store W) (root : NodeId) (order : List NodeId) (figs : List Figure) :
    Prop where
  indexing : s.indexing root = .ok (Indexing.ofList order)
  walks : Indexing.Walks s.elements [root] [] order
  nodup : order.Nodup
  last : order.getLast? = some root
  length : figs.length = order.length
  kinds : ∀ (i : Nat) (id : NodeId) (fig : Figure), order[i]? = some id → figs[i]? = some fig →
    s.kind id = .ok (fig.kind order) ∧ fig.Within i

/-! ### Numbers and nodes -/

theorem indexOf_ofList {order : List NodeId} (h : order.Nodup) {i : Nat} (hi : order[i]? = some id) :
    (Indexing.ofList order).indexOf id = .ok i := by
  unfold Indexing.indexOf
  rw [(Indexing.indexOf?_ofList h id i).2 hi]

theorem getElem?_of_lt {order : List NodeId} {i : Nat} (h : i < order.length) :
    order[i]? = some (order.getD i .bottom) := by
  rw [List.getD_eq_getElem _ _ h, List.getElem?_eq_getElem h]

/-- The nodes of an element that is made of numbers have these numbers. -/
theorem indexOf_element {order : List NodeId} (h : order.Nodup) {x : Nat × Nat}
    (hx : x.1 < order.length ∧ x.2 < order.length) :
    (Indexing.ofList order).indexOf (Figure.element order x).prime = .ok x.1 ∧
      (Indexing.ofList order).indexOf (Figure.element order x).sub = .ok x.2 :=
  ⟨indexOf_ofList h (getElem?_of_lt hx.1), indexOf_ofList h (getElem?_of_lt hx.2)⟩

theorem numberElements_ofList {order : List NodeId} (h : order.Nodup) {es : List (Nat × Nat)}
    (hes : ∀ x ∈ es, x.1 < order.length ∧ x.2 < order.length) :
    numberElements (Indexing.ofList order) (es.map (Figure.element order)) = .ok es := by
  induction es with
  | nil => rfl
  | cons x es ih =>
    obtain ⟨hprime, hsub⟩ := indexOf_element h (hes x List.mem_cons_self)
    rw [List.map_cons, numberElements, hprime, hsub, ok_bind, ok_bind,
      ih fun y hy => hes y (List.mem_cons_of_mem _ hy)]
    rfl

/-- The elements of nodes that are listed have numbers. -/
theorem exists_numbers {order : List NodeId} {n : Nat} {es : List Element}
    (h : ∀ x ∈ Indexing.nodesBelow es, ∃ i < n, order[i]? = some x) :
    ∃ ns : List (Nat × Nat), es = ns.map (Figure.element order) ∧ ∀ x ∈ ns, x.1 < n ∧ x.2 < n := by
  induction es with
  | nil => exact ⟨[], rfl, by simp⟩
  | cons e es ih =>
    obtain ⟨ns, hns, hlt⟩ := ih fun x hx => h x (List.mem_append_right [e.prime, e.sub] hx)
    obtain ⟨i, hi, hprime⟩ := h e.prime (by simp [Indexing.nodesBelow])
    obtain ⟨j, hj, hsub⟩ := h e.sub (by simp [Indexing.nodesBelow])
    refine ⟨(i, j) :: ns, ?_, ?_⟩
    · rw [List.map_cons, ← hns]
      unfold Figure.element
      rw [List.getD_eq_getElem?_getD, List.getD_eq_getElem?_getD, hprime, hsub]
      rfl
    · intro x hx
      rcases List.mem_cons.1 hx with rfl | hx
      · exact ⟨hi, hj⟩
      · exact hlt x hx

/-! ### What an outline is of -/

theorem Numbering.exists_figure {order : List NodeId} (h : s.Numbering root order) {i : Nat}
    (hid : order[i]? = some id) : ∃ fig : Figure, s.kind id = .ok (fig.kind order) ∧ fig.Within i := by
  obtain ⟨hlt, hget⟩ := List.getElem?_eq_some_iff.1 hid
  have hsplit : order = order.take i ++ id :: order.drop (i + 1) := by
    rw [← hget, List.getElem_cons_drop, List.take_append_drop]
  obtain ⟨es, hes, hbelow⟩ := h.settled _ id _ hsplit
  obtain ⟨⟨⟨kind, theta⟩, b⟩, he, rfl⟩ := elements_eq_ok.1 hes
  -- the nodes below a node have smaller numbers
  have hlisted : ∀ x ∈ Indexing.nodesBelow kind.elements, ∃ j < i, order[j]? = some x := by
    intro x hx
    obtain ⟨j, hj⟩ := List.mem_iff_getElem?.1 (hbelow x hx)
    have hlen := (List.getElem?_eq_some_iff.1 hj).1
    rw [List.length_take] at hlen
    have hji : j < i := by omega
    rw [List.getElem?_take_of_lt hji] at hj
    exact ⟨j, hji, hj⟩
  have hkind : s.kind id = .ok kind := kind_eq_ok.2 ⟨_, he, rfl⟩
  rw [hkind]
  cases kind with
  | bottom => exact ⟨.bottom, rfl, by simp [Figure.Within, Figure.elements]⟩
  | top leaf => exact ⟨.top leaf, rfl, by simp [Figure.Within, Figure.elements]⟩
  | literal l => exact ⟨.literal l, rfl, by simp [Figure.Within, Figure.elements]⟩
  | decision v es =>
    obtain ⟨ns, hns, hlt'⟩ := exists_numbers hlisted
    exact ⟨.decision v ns, congrArg (fun es => Except.ok (Kind.decision v es)) hns, hlt'⟩

/-- Numbered nodes have figures. -/
theorem Numbering.exists_outlines {order : List NodeId} (h : s.Numbering root order) :
    ∃ figs, s.Outlines root order figs := by
  obtain ⟨inner, hends⟩ := h.ends
  obtain ⟨figs, hlen, hfigs⟩ := exists_list order fun i id hid => h.exists_figure hid
  refine ⟨figs, h.indexing, h.walks, h.nodup, ?_, hlen, hfigs⟩
  rw [hends, List.getLast?_concat]

/-- The diagram below a node of a closed store has an outline. -/
theorem exists_outlines (h : s.Closed) (hroot : s.Knows root) :
    ∃ order figs, s.Outlines root order figs := by
  obtain ⟨order, hn⟩ := exists_numbering h hroot
  exact ⟨order, hn.exists_outlines⟩

section

variable {order : List NodeId} {figs : List Figure} (h : s.Outlines root order figs)
include h

theorem Outlines.getElem {fig : Figure} {i : Nat} (hfig : figs[i]? = some fig) :
    ∃ id, order[i]? = some id := by
  have hlt := (List.getElem?_eq_some_iff.1 hfig).1
  rw [h.length] at hlt
  exact ⟨_, List.getElem?_eq_getElem hlt⟩

theorem Outlines.exists_figure {i : Nat} (hid : order[i]? = some id) : ∃ fig : Figure,
    figs[i]? = some fig ∧ s.kind id = .ok (fig.kind order) ∧ fig.Within i := by
  have hlt : i < figs.length := by
    rw [h.length]
    exact (List.getElem?_eq_some_iff.1 hid).1
  have hfig : figs[i]? = some figs[i] := List.getElem?_eq_getElem hlt
  exact ⟨figs[i], hfig, h.kinds i id _ hid hfig⟩

theorem Outlines.known : ∀ id ∈ order, s.Knows id := by
  intro id hid
  obtain ⟨i, hi⟩ := List.mem_iff_getElem?.1 hid
  obtain ⟨fig, -, hkind, -⟩ := h.exists_figure hi
  exact knows_of_kind hkind

theorem Outlines.within {i n : Nat} {fig : Figure} (hfig : figs[i]? = some fig) (hi : i ≤ n) :
    fig.Within n := by
  obtain ⟨id, hid⟩ := h.getElem hfig
  exact (h.kinds i id fig hid hfig).2.mono hi

/-- The nodes below a listed node are listed. -/
theorem Outlines.listed (hid : id ∈ order) {es : List Element} (hes : s.elements id = .ok es) :
    ∀ x ∈ Indexing.nodesBelow es, x ∈ order :=
  (h.walks.settled (Indexing.settled_nil _)).mem hid hes

/-- The listed nodes are those that are reached from the root. -/
theorem Outlines.mem_iff : id ∈ order ↔ s.Reaches root id := mem_iff_of_walks h.walks

end

theorem figure_eq {order : List NodeId} (h : order.Nodup) {fig : Figure}
    (hkind : s.kind id = .ok (fig.kind order)) (hwithin : fig.Within order.length) :
    s.figure (Indexing.ofList order) id = .ok fig := by
  unfold figure
  rw [hkind, ok_bind]
  cases fig with
  | decision v es =>
    have hnumbers : numberElements (Indexing.ofList order) (es.map (Figure.element order)) = .ok es :=
      numberElements_ofList h hwithin
    show (do return Figure.decision v (← numberElements _ (es.map (Figure.element order)))) = _
    rw [hnumbers]
    rfl
  | _ => rfl

theorem figures_eq {ix : Indexing} {ids : List NodeId} {figs : List Figure}
    (hlen : figs.length = ids.length) (h : ∀ (i : Nat) (id : NodeId) (fig : Figure),
      ids[i]? = some id → figs[i]? = some fig → s.figure ix id = .ok fig) :
    s.figures ix ids = .ok figs := by
  induction ids generalizing figs with
  | nil =>
    obtain rfl := List.length_eq_zero_iff.1 hlen
    rfl
  | cons x ids ih =>
    cases figs with
    | nil => exact absurd hlen (by simp)
    | cons fig figs =>
      rw [figures, h 0 x fig rfl rfl, ok_bind,
        ih (Nat.succ.inj hlen) fun i id fig hid hfig => h (i + 1) id fig hid hfig]
      rfl

theorem Outlines.outline {order : List NodeId} {figs : List Figure} (h : s.Outlines root order figs) :
    s.outline root = .ok figs := by
  unfold Store.outline
  rw [h.indexing, ok_bind, Indexing.order_ofList]
  refine figures_eq h.length fun i id fig hid hfig => ?_
  obtain ⟨hkind, hwithin⟩ := h.kinds i id fig hid hfig
  have hlt := (List.getElem?_eq_some_iff.1 hid).1
  exact figure_eq h.nodup hkind (hwithin.mono (Nat.le_of_lt hlt))

/-! ## Counterparts -/

/-- The node at the place in `ids'` that `id` has in `ids`. -/
def counterpart (ids ids' : List NodeId) (id : NodeId) : NodeId := ids'.getD (ids.idxOf id) .bottom

section

variable {ids ids' : List NodeId} (hlen : ids'.length = ids.length) (hids : ids.Nodup)
include hids

theorem counterpart_eq (ids' : List NodeId) {i : Nat} (h : ids[i]? = some id) :
    counterpart ids ids' id = ids'.getD i .bottom := by
  obtain ⟨hlt, rfl⟩ := List.getElem?_eq_some_iff.1 h
  unfold counterpart
  rw [hids.idxOf_getElem i hlt]

/-- A figure stands for a renamed node if its numbers are read in the renamed list. -/
theorem kind_renamed (ids' : List NodeId) {fig : Figure} (h : fig.Within ids.length) :
    fig.kind ids' = (fig.kind ids).map (counterpart ids ids') := by
  cases fig with
  | decision v es =>
    have hes : es.map (Figure.element ids')
        = (es.map (Figure.element ids)).map (Element.map (counterpart ids ids')) := by
      rw [List.map_map]
      apply List.map_congr_left
      intro x hx
      obtain ⟨hp, hs⟩ := h x hx
      have hprime := counterpart_eq hids ids' (getElem?_of_lt hp)
      have hsub := counterpart_eq hids ids' (getElem?_of_lt hs)
      exact congrArg₂ Element.mk hprime.symm hsub.symm
    exact congrArg (Kind.decision v) hes
  | _ => rfl

include hlen

theorem map_counterpart : ids.map (counterpart ids ids') = ids' := by
  apply List.ext_getElem (by rw [List.length_map, hlen])
  intro i hi hi'
  have hlt : i < ids.length := by simpa using hi
  rw [List.getElem_map, counterpart_eq hids ids' (List.getElem?_eq_getElem hlt),
    List.getD_eq_getElem _ _ hi']

theorem counterpart_injective (hids' : ids'.Nodup) {a b : NodeId} (ha : a ∈ ids) (hb : b ∈ ids)
    (h : counterpart ids ids' a = counterpart ids ids' b) : a = b := by
  obtain ⟨i, hi⟩ := List.mem_iff_getElem?.1 ha
  obtain ⟨j, hj⟩ := List.mem_iff_getElem?.1 hb
  rw [counterpart_eq hids ids' hi, counterpart_eq hids ids' hj] at h
  have hlti := (List.getElem?_eq_some_iff.1 hi).1
  have hltj := (List.getElem?_eq_some_iff.1 hj).1
  obtain rfl := Figure.getD_injective hids' (hlen ▸ hlti) (hlen ▸ hltj) h
  exact Option.some_inj.1 (hi.symm.trans hj)

end

theorem getElem?_counterpart {order ids : List NodeId} (hlen : ids.length = order.length)
    (horder : order.Nodup) {i : Nat} (hid : order[i]? = some id) :
    ids[i]? = some (counterpart order ids id) := by
  have hlt := (List.getElem?_eq_some_iff.1 hid).1
  rw [counterpart_eq horder ids hid]
  exact getElem?_of_lt (hlen ▸ hlt)

/-- The elements of a renamed node are those of the node with their nodes renamed. -/
theorem elements_renamed {f : NodeId → NodeId} {id' : NodeId} {k : Kind} (hkind : s.kind id = .ok k)
    (hkind' : s'.kind id' = .ok (k.map f)) {es : List Element} (hes : s.elements id = .ok es) :
    s'.elements id' = .ok (es.map (Element.map f)) := by
  obtain ⟨e, he, rfl⟩ := kind_eq_ok.1 hkind
  obtain ⟨e', he', hk⟩ := kind_eq_ok.1 hkind'
  obtain rfl := Except.ok.inj ((elements_of_entry he).symm.trans hes)
  refine elements_eq_ok.2 ⟨e', he', ?_⟩
  show e'.kind.elements = e.kind.elements.map (Element.map f)
  rw [hk, Kind.elements_map]

theorem Outlines.counterpart_root {order ids : List NodeId} {figs : List Figure}
    (h : s.Outlines root order figs) (hlen : ids.length = order.length)
    (hlast : ids.getLast? = some root') : counterpart order ids root = root' := by
  have hlast' : (order.map (counterpart order ids)).getLast? = some root' := by
    rw [map_counterpart hlen h.nodup, hlast]
  rw [List.getLast?_map, h.last] at hlast'
  exact Option.some_inj.1 hlast'

/-- Nodes that are what the figures say, with the numbers read in their own list, are the order of
a diagram with these figures. -/
theorem Outlines.transport {order ids : List NodeId} {figs : List Figure}
    (h : s.Outlines root order figs) (hlen : ids.length = order.length) (hids : ids.Nodup)
    (hlast : ids.getLast? = some root') (hkinds : ∀ (i : Nat) (id : NodeId) (fig : Figure),
      ids[i]? = some id → figs[i]? = some fig → s'.kind id = .ok (fig.kind ids)) :
    s'.Outlines root' ids figs := by
  have hlt : ∀ {i : Nat} {id : NodeId}, ids[i]? = some id → i < order.length := by
    intro i id hid
    rw [← hlen]
    exact (List.getElem?_eq_some_iff.1 hid).1
  have hknown : ∀ id ∈ ids, s'.Knows id := by
    intro id hid
    obtain ⟨i, hi⟩ := List.mem_iff_getElem?.1 hid
    have hltfig : i < figs.length := h.length ▸ hlt hi
    exact knows_of_kind (hkinds i id _ hi (List.getElem?_eq_getElem hltfig))
  -- elements of counterparts are counterparts, so the walk from `root'` is the renamed walk
  have helements : ∀ id ∈ order, ∀ es, s.elements id = .ok es →
      s'.elements (counterpart order ids id) = .ok (es.map (Element.map (counterpart order ids))) := by
    intro id hid es hes
    obtain ⟨i, hi⟩ := List.mem_iff_getElem?.1 hid
    obtain ⟨fig, hfig, hkind, hwithin⟩ := h.exists_figure hi
    have hid' := getElem?_counterpart hlen h.nodup hi
    have hkind' := hkinds i _ fig hid' hfig
    rw [kind_renamed h.nodup ids (hwithin.mono (Nat.le_of_lt (hlt hid')))] at hkind'
    exact elements_renamed hkind hkind' hes
  have hwalks : Indexing.Walks s'.elements ([root].map (counterpart order ids)) []
      (order.map (counterpart order ids)) :=
    h.walks.map (counterpart order ids)
      (fun a ha b hb => counterpart_injective hlen h.nodup hids ha hb) helements
  rw [map_counterpart hlen h.nodup, List.map_singleton, h.counterpart_root hlen hlast] at hwalks
  refine ⟨indexing_of_walks hwalks hids hknown, hwalks, hids, hlast, h.length.trans hlen.symm, ?_⟩
  intro i id fig hid hfig
  exact ⟨hkinds i id fig hid hfig, (h.kinds i _ fig (List.getElem?_eq_getElem (hlt hid)) hfig).2⟩

end Store
end Sentential
