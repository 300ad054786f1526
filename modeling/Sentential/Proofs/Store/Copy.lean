import Sentential.Proofs.Circuit.SameOutline
import Sentential.Store.ModelCount

/-!
# Copies of a diagram

A diagram in one store is a copy of a diagram in another if it is the same diagram under other ids:
some renaming `f` gives every node an id of its own, under which there is the same node over the
renamed elements and with the same weights (`Copies`). The other nodes of the two stores do not
matter, and neither does the order in which any of them were made.

Between stores that were built from their own ids the copy of a node is all that the node is, the
flag included (`Copies.entry`), and every walk over the copy is the renamed walk over the diagram
(`Copies.outlines`, `Copies.positive`). What is computed along these walks is then found by
comparing what is done at one node.
-/

namespace Sentential

/-- A list of elements with its nodes renamed, where only the nodes of the list matter. -/
theorem Element.map_congr {f g : NodeId → NodeId} {es : List Element}
    (h : ∀ x ∈ Indexing.nodesBelow es, f x = g x) :
    es.map (Element.map f) = es.map (Element.map g) := by
  apply List.map_congr_left
  intro e he
  unfold Element.map
  rw [h _ (Indexing.prime_mem_nodesBelow he), h _ (Indexing.sub_mem_nodesBelow he)]

theorem Kind.map_congr {f g : NodeId → NodeId} {k : Kind}
    (h : ∀ x ∈ Indexing.nodesBelow k.elements, f x = g x) : k.map f = k.map g := by
  cases k with
  | decision v es => exact congrArg (Kind.decision v) (Element.map_congr h)
  | _ => rfl

theorem Kind.map_self (k : Kind) : k.map (fun x => x) = k := by
  cases k with
  | decision v es => exact congrArg (Kind.decision v) (List.map_id es)
  | _ => rfl

/-- The entry over renamed elements. -/
def Entry.map {W : Type} [Weight W] (f : NodeId → NodeId) (e : Entry W) : Entry W :=
  ⟨⟨e.kind.map f, e.theta⟩, e.isFalse⟩

namespace Store

open Indexing

variable {W : Type} [Weight W] {s s' : Store W} {id root root' : NodeId} {f : NodeId → NodeId}

/-- The diagram below `root'` is the diagram below `root` with its nodes renamed. -/
structure Copies (f : NodeId → NodeId) (s : Store W) (root : NodeId) (s' : Store W)
    (root' : NodeId) : Prop where
  vtree : s'.vtree = s.vtree
  apply_root : f root = root'
  injective : ∀ a b, s.Reaches root a → s.Reaches root b → f a = f b → a = b
  node : ∀ id e, s.Reaches root id → s.entry id = .ok e →
    ∃ b, s'.entry (f id) = .ok ⟨⟨e.kind.map f, e.theta⟩, b⟩

/-- A diagram is a copy of itself in every store that holds all nodes of its own. -/
theorem Extends.copies (h : s.Extends s') (root : NodeId) :
    Copies (fun x => x) s root s' root := by
  refine ⟨h.vtree, rfl, fun a b _ _ hab => hab, fun a e _ he => ⟨e.isFalse, ?_⟩⟩
  rw [Kind.map_self]
  exact h.entry he

namespace Copies

section

variable (h : Copies f s root s' root')
include h

theorem kind {k : Kind} (hid : s.Reaches root id) (hkind : s.kind id = .ok k) :
    s'.kind (f id) = .ok (k.map f) := by
  obtain ⟨e, he, rfl⟩ := kind_eq_ok.1 hkind
  obtain ⟨b, he'⟩ := h.node id e hid he
  exact kind_of_entry he'

/-! ### The order of the nodes -/

variable {order : List NodeId} {figs : List Figure} (ho : s.Outlines root order figs)
include ho

omit h in
theorem counterpart (f : NodeId → NodeId) (hid : id ∈ order) :
    counterpart order (order.map f) id = f id := by
  obtain ⟨i, hi⟩ := List.mem_iff_getElem?.1 hid
  rw [counterpart_eq ho.nodup _ hi, List.getD_eq_getElem?_getD, List.getElem?_map, hi]
  rfl

theorem nodup : (order.map f).Nodup := by
  refine List.Nodup.map_on (fun a ha b hb hab => ?_) ho.nodup
  exact h.injective a b (ho.mem_iff.1 ha) (ho.mem_iff.1 hb) hab

/-- The copy has the same outline, and its nodes come in the same order. -/
theorem outlines : s'.Outlines root' (order.map f) figs := by
  refine ho.transport (List.length_map f) (h.nodup ho) ?_ fun i id' fig hid' hfig => ?_
  · rw [List.getLast?_map, ho.last, ← h.apply_root]
    rfl
  · obtain ⟨id, hid⟩ := ho.getElem hfig
    obtain ⟨hkind, hwithin⟩ := ho.kinds i id fig hid hfig
    have hlt := (List.getElem?_eq_some_iff.1 hid).1
    have hmem := List.mem_of_getElem? hid
    obtain rfl : f id = id' := by
      rw [List.getElem?_map, hid] at hid'
      exact Option.some_inj.1 hid'
    rw [h.kind (ho.mem_iff.1 hmem) hkind,
      kind_renamed ho.nodup (order.map f) (hwithin.mono (Nat.le_of_lt hlt))]
    -- the elements of a node are listed, so their nodes are renamed as counterparts are
    refine congrArg Except.ok (Kind.map_congr fun x hx => ?_)
    exact (counterpart ho f (ho.listed hmem (elements_of_kind hkind) x hx)).symm

/-! ### The nodes -/

theorem indexOf (hid : id ∈ order) :
    (ofList (order.map f)).indexOf (f id) = (ofList order).indexOf id := by
  obtain ⟨i, hi⟩ := List.mem_iff_getElem?.1 hid
  have hi' : (order.map f)[i]? = some (f id) := by
    rw [List.getElem?_map, hi]
    rfl
  rw [indexOf_ofList ho.nodup hi, indexOf_ofList (h.nodup ho) hi']

theorem vtreeOf (hid : id ∈ order) : s'.vtreeOf (f id) = s.vtreeOf id := by
  obtain ⟨k, hkind⟩ := knows_iff_kind.1 (ho.known id hid)
  unfold Store.vtreeOf
  rw [hkind, h.kind (ho.mem_iff.1 hid) hkind, h.vtree]
  cases k <;> rfl

variable (hs : s.Sound) (hs' : s'.Sound)
include hs hs'

theorem isFalse (hid : id ∈ order) : s'.isFalse (f id) = s.isFalse id := by
  rw [← counterpart ho f hid]
  exact ho.isFalse_eq (h.outlines ho) hs hs' hid

/-- Nothing is known of a node that is not known of its copy. -/
theorem entry {e : Entry W} (hid : id ∈ order) (he : s.entry id = .ok e) :
    s'.entry (f id) = .ok (e.map f) := by
  obtain ⟨b, he'⟩ := h.node id e (ho.mem_iff.1 hid) he
  have hflag := h.isFalse ho hs hs' hid
  rw [isFalse_eq_ok.2 ⟨_, he', rfl⟩, isFalse_eq_ok.2 ⟨_, he, rfl⟩] at hflag
  obtain rfl : b = e.isFalse := Except.ok.inj hflag
  exact he'

theorem positiveElements {ps : List Element} (hid : id ∈ order)
    (hps : s.positiveElements id = .ok ps) :
    s'.positiveElements (f id) = .ok (ps.map (Element.map f)) := by
  have hlisted : ∀ x ∈ nodesBelow ps, x ∈ order := by
    obtain ⟨es, hes, rfl⟩ := positiveElements_eq_ok hps
    exact fun x hx => ho.listed hid hes x (mem_nodesBelow_filter hx).1
  have hcopied := ho.positiveElements_eq (h.outlines ho) hs hs' hid hps
  rw [counterpart ho f hid] at hcopied
  rw [hcopied, Element.map_congr fun x hx => counterpart ho f (hlisted x hx)]

/-- The nodes of the circuit of the copy are those of the circuit of the diagram. -/
theorem positive {b : Bool} {order₀ : List NodeId} (hp : s.Positive root b order₀) :
    s'.Positive root' b (order₀.map f) := by
  have hrenamed : order₀.map (Store.counterpart order (order.map f)) = order₀.map f :=
    List.map_congr_left fun id hid => counterpart ho f (ho.mem_iff.2 (hp.reached id hid))
  rw [← hrenamed]
  exact ho.positive (h.outlines ho) hs hs' hp

omit hs hs'

/-! ### Counting -/

/-- The counts of the nodes of the diagram are those of the nodes of the copy. -/
def SameCounts (f : NodeId → NodeId) (order : List NodeId)
    (counts counts' : Std.HashMap NodeId Nat) : Prop :=
  ∀ id ∈ order, counts'[f id]? = counts[id]?

variable {counts counts' : Std.HashMap NodeId Nat}

theorem SameCounts.insert (hcounts : SameCounts f order counts counts') (hid : id ∈ order)
    (n : Nat) : SameCounts f order (counts.insert id n) (counts'.insert (f id) n) := by
  intro x hx
  rw [Std.HashMap.getElem?_insert, Std.HashMap.getElem?_insert, hcounts x hx]
  have hiff : f id = f x ↔ id = x :=
    ⟨h.injective id x (ho.mem_iff.1 hid) (ho.mem_iff.1 hx), congrArg f⟩
  simp only [beq_iff_eq, hiff]

theorem lift (hcounts : SameCounts f order counts counts') (hid : id ∈ order) (target : VtreeId) :
    s'.lift counts' (f id) target = s.lift counts id target := by
  unfold Store.lift scope
  rw [h.vtreeOf ho hid, h.vtree, hcounts id hid]

theorem countElements (hcounts : SameCounts f order counts counts') (left right : VtreeId)
    {es : List Element} (hes : ∀ x ∈ nodesBelow es, x ∈ order) :
    s'.countElements counts' left right (es.map (Element.map f))
      = s.countElements counts left right es := by
  induction es with
  | nil => rfl
  | cons e es ih =>
    obtain ⟨⟨hprime, hsub⟩, hrest⟩ := forall_nodesBelow_cons.1 hes
    rw [List.map_cons, Store.countElements, Store.countElements, ih hrest]
    unfold Element.map
    rw [h.lift ho hcounts hprime, h.lift ho hcounts hsub]

theorem countNode (hcounts : SameCounts f order counts counts') (hid : id ∈ order) :
    s'.countNode counts' (f id) = s.countNode counts id := by
  obtain ⟨k, hkind⟩ := knows_iff_kind.1 (ho.known id hid)
  unfold Store.countNode
  rw [hkind, h.kind (ho.mem_iff.1 hid) hkind, ok_bind, ok_bind]
  cases k with
  | decision v es =>
    have hes : ∀ x ∈ nodesBelow es, x ∈ order := ho.listed hid (elements_of_kind hkind)
    simp only [Kind.map, h.vtree, h.countElements ho hcounts _ _ hes]
  | top leaf => cases leaf <;> rfl
  | _ => rfl

/-- Counting along the two orders keeps the counts the same, and it fails where counting the
diagram fails. -/
theorem countAll {rest : List NodeId} (hrest : rest ⊆ order)
    (hcounts : SameCounts f order counts counts') (hid : id ∈ order) (target : VtreeId) :
    ((rest.map f).foldlM (fun c x => return c.insert x (← s'.countNode c x)) counts' >>=
        fun c => s'.lift c (f id) target)
      = (rest.foldlM (fun c x => return c.insert x (← s.countNode c x)) counts >>=
        fun c => s.lift c id target) := by
  induction rest generalizing counts counts' with
  | nil => exact h.lift ho hcounts hid target
  | cons x rest ih =>
    have hx : x ∈ order := hrest List.mem_cons_self
    rw [List.map_cons, List.foldlM_cons, List.foldlM_cons, h.countNode ho hcounts hx]
    cases s.countNode counts x with
    | error e => rfl
    | ok n => exact ih (fun y hy => hrest (List.mem_cons_of_mem _ hy)) (hcounts.insert h ho hx n)

theorem modelCount : s'.modelCount root' = s.modelCount root := by
  have hroot : root ∈ order := ho.mem_iff.2 .refl
  have hcounts : SameCounts f order (∅ : Std.HashMap NodeId Nat) ∅ := by
    intro x _
    rw [Std.HashMap.getElem?_empty, Std.HashMap.getElem?_empty]
  unfold Store.modelCount Store.countAll
  rw [ho.indexing, (h.outlines ho).indexing, ok_bind, ok_bind, order_ofList, order_ofList, h.vtree,
    ← h.apply_root]
  exact h.countAll ho (fun x hx => hx) hcounts hroot _

end

end Copies
end Store
end Sentential
