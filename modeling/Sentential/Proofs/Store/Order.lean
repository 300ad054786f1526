import Mathlib.Data.List.Perm.Subperm
import Mathlib.Algebra.Order.BigOperators.Group.List
import Mathlib.Algebra.Order.Group.Nat
import Sentential.Proofs.Store.History
import Sentential.Proofs.Walk.Rounds

/-!
# The orders of the nodes below a root

In a closed store both walks from a root come to an end within their fuel, and what they list is
known: `Store.indexing` numbers exactly the nodes that are reached from the root, and
`Store.positiveOrder` lists nodes that can hold only, each behind the nodes of its positive
elements.
-/

namespace Sentential.Store

open Indexing

variable {W : Type} [Weight W] {s : Store W} {id root : NodeId}

/-! ## Looking at known nodes -/

/-- The node `b` is the prime or the sub of an element of `a`. -/
def Refers (s : Store W) (a b : NodeId) : Prop := ∃ es, s.elements a = .ok es ∧ b ∈ nodesBelow es

/-- The node `b` is reached from `a` through elements. -/
def Reaches (s : Store W) : NodeId → NodeId → Prop := Relation.ReflTransGen s.Refers

/-- The nodes that a node refers to. -/
def referred (s : Store W) (id : NodeId) : List NodeId :=
  match s.elements id with
  | .ok es => nodesBelow es
  | .error _ => []

/-- Nodes that refer to nobody else are all that is reached from one of them. -/
theorem Reaches.mem {ids : List NodeId} (h : s.Reaches root id) (hroot : root ∈ ids)
    (hids : ∀ a ∈ ids, ∀ x ∈ s.referred a, x ∈ ids) : id ∈ ids := by
  induction h with
  | refl => exact hroot
  | @tail a b _ hstep ih =>
    obtain ⟨es, hes, hb⟩ := hstep
    apply hids a ih
    unfold referred
    rw [hes]
    exact hb

theorem mem_of_reaches_sample {id : NodeId} (h : sample.Reaches ⟨8⟩ id) :
    id ∈ [⟨8⟩, ⟨7⟩, ⟨3⟩, ⟨4⟩, NodeId.bottom] := h.mem (by decide) (by decide)

/-- A walk from a node lists what is reached from it. -/
theorem mem_iff_of_walks {order : List NodeId} (h : Walks s.elements [root] [] order) :
    id ∈ order ↔ s.Reaches root id := h.mem_iff

/-- Whether prime and sub of an element can both hold; no element of unknown nodes can. -/
def positive (s : Store W) (e : Element) : Bool :=
  match s.isPositive e with
  | .ok b => b
  | .error _ => false

theorem exists_isFalse (h : s.Knows id) : ∃ b, s.isFalse id = .ok b := by
  obtain ⟨e, he⟩ := knows_iff.1 h
  exact ⟨e.isFalse, isFalse_eq_ok.2 ⟨e, he, rfl⟩⟩

/-- A known node that is not flagged has the other flag. -/
theorem isFalse_of_not (h : s.Knows id) (hnot : ¬ s.isFalse id = .ok true) :
    s.isFalse id = .ok false := by
  obtain ⟨b, hb⟩ := exists_isFalse h
  cases b with
  | false => exact hb
  | true => exact absurd hb hnot

theorem isPositive_eq {e : Element} {p q : Bool} (hp : s.isFalse e.prime = .ok p)
    (hq : s.isFalse e.sub = .ok q) : s.isPositive e = .ok (!p && !q) := by
  unfold isPositive
  rw [hp, ok_bind]
  cases p with
  | true => rfl
  | false =>
    simp only [Bool.false_eq_true, if_false]
    rw [hq]
    rfl

theorem isPositive_known {e : Element} (hp : s.Knows e.prime) (hq : s.Knows e.sub) :
    s.isPositive e = .ok (s.positive e) := by
  obtain ⟨p, hp⟩ := exists_isFalse hp
  obtain ⟨q, hq⟩ := exists_isFalse hq
  unfold positive
  rw [isPositive_eq hp hq]

/-- An element is positive if and only if neither its prime nor its sub never holds. -/
theorem positive_iff {e : Element} :
    s.positive e = true ↔ s.isFalse e.prime = .ok false ∧ s.isFalse e.sub = .ok false := by
  constructor
  · intro h
    unfold positive isPositive at h
    cases hp : s.isFalse e.prime with
    | error e => simp [hp] at h
    | ok p =>
      cases hq : s.isFalse e.sub with
      | error e => cases p <;> simp [hp, hq] at h
      | ok q => cases p <;> cases q <;> simp_all
  · intro h
    unfold positive
    rw [isPositive_eq h.1 h.2]
    rfl

theorem positives_known {es : List Element} (h : s.KnowsBelow es) :
    s.positives es = .ok (es.filter s.positive) := by
  induction es with
  | nil => rfl
  | cons e es ih =>
    obtain ⟨⟨hp, hq⟩, hes⟩ := knowsBelow_cons.1 h
    unfold positives
    rw [isPositive_known hp hq, ok_bind, ih hes, ok_bind, List.filter_cons]
    rfl

theorem nonePositive_known {es : List Element} (h : s.KnowsBelow es) :
    s.nonePositive es = .ok (!es.any s.positive) := by
  induction es with
  | nil => rfl
  | cons e es ih =>
    obtain ⟨⟨hp, hq⟩, hes⟩ := knowsBelow_cons.1 h
    unfold nonePositive
    rw [isPositive_known hp hq, ok_bind, ih hes, List.any_cons]
    cases s.positive e <;> rfl

/-- A decision over known nodes can be looked up at a fork: the answer is the one without weights
that the store has, or a new one. -/
theorem Sound.exists_lookup (hs : s.Sound) {v : VtreeId} {es : List Element}
    (hfork : s.vtree.IsFork v) (hknown : s.KnowsBelow es) : ∃ id s' b, s.lookup es v = (.ok id, s') ∧
      s.Extends s' ∧ s'.entry id = .ok ⟨⟨.decision v es, none⟩, b⟩ := by
  cases hid : s.unique[(v, es)]? with
  | some id =>
    obtain ⟨b, he⟩ := (hs.shared v es id).1 hid
    exact ⟨id, s, b, lookup_found hfork hid, .refl s, he⟩
  | none =>
    exact ⟨_, _, _, lookup_made hfork hid (nonePositive_known hknown), extends_make s _ _,
      entry_make_self⟩

/-! ## Closed stores -/

theorem Closed.raw_lt (h : s.Closed) {x : NodeId} (hx : s.Refers id x) : x.raw < id.raw := by
  obtain ⟨es, hes, hmem⟩ := hx
  exact h hes x hmem

theorem Closed.knowsBelow (h : s.Closed) {es : List Element} (hes : s.elements id = .ok es) :
    s.KnowsBelow es := by
  intro x hx
  obtain ⟨e, he, -⟩ := elements_eq_ok.1 hes
  exact Nat.lt_trans (h hes x hx) (knows_of_entry he)

theorem positiveElements_known {es : List Element} (h : s.KnowsBelow es)
    (hes : s.elements id = .ok es) : s.positiveElements id = .ok (es.filter s.positive) := by
  unfold positiveElements
  rw [hes, ok_bind]
  exact positives_known h

/-- What `positives` answers, if it does, are the elements that can hold. -/
theorem positives_eq_ok {es ps : List Element} (h : s.positives es = .ok ps) :
    ps = es.filter s.positive := by
  induction es generalizing ps with
  | nil => exact (Except.ok.inj h).symm
  | cons e es ih =>
    obtain ⟨b, hb, h⟩ := bind_eq_ok.1 h
    obtain ⟨qs, hqs, h⟩ := bind_eq_ok.1 h
    have hpositive : s.positive e = b := by
      unfold positive
      rw [hb]
    rw [List.filter_cons, hpositive, ← ih hqs]
    exact (Except.ok.inj h).symm

theorem positiveElements_eq_ok {ps : List Element} (h : s.positiveElements id = .ok ps) :
    ∃ es, s.elements id = .ok es ∧ ps = es.filter s.positive := by
  obtain ⟨es, hes, h⟩ := bind_eq_ok.1 h
  exact ⟨es, hes, positives_eq_ok h⟩

theorem mem_nodesBelow_filter {es : List Element} {x : NodeId}
    (hx : x ∈ nodesBelow (es.filter s.positive)) :
    x ∈ nodesBelow es ∧ s.isFalse x = .ok false := by
  obtain ⟨e, he, hor⟩ := mem_nodesBelow.1 hx
  obtain ⟨hmem, hpos⟩ := List.mem_filter.1 he
  obtain ⟨hp, hq⟩ := positive_iff.1 hpos
  refine ⟨mem_nodesBelow.2 ⟨e, hmem, hor⟩, ?_⟩
  rcases hor with rfl | rfl
  · exact hp
  · exact hq

theorem exists_elements (h : s.Knows id) : ∃ es, s.elements id = .ok es := by
  obtain ⟨e, he⟩ := knows_iff.1 h
  exact ⟨e.elements, elements_eq_ok.2 ⟨e, he, rfl⟩⟩

/-- What is reached from a node of a closed store is a node of the store. -/
theorem Closed.knows_of_reaches (h : s.Closed) (hroot : s.Knows root) (hid : s.Reaches root id) :
    s.Knows id := by
  induction hid with
  | refl => exact hroot
  | tail _ hstep _ =>
    obtain ⟨es, hes, hx⟩ := hstep
    exact h.knowsBelow hes _ hx

/-! ## Fuel -/

/-- The number of tasks that the node at a position puts on the stack. -/
def tasksAt (s : Store W) (i : Nat) : Nat :=
  match s.entries[i]? with
  | some e => 2 * e.elements.length + 1
  | none => 0

theorem walkLength_eq (s : Store W) :
    s.walkLength = 1 + ((List.range s.numNodes).map s.tasksAt).sum := by
  have hfold : ∀ (es : List (Entry W)) (n : Nat),
      es.foldl (fun n e => n + (2 * e.elements.length + 1)) n
        = n + (es.map fun e => 2 * e.elements.length + 1).sum := by
    intro es
    induction es with
    | nil => intro n; rfl
    | cons e es ih =>
      intro n
      rw [List.foldl_cons, ih, List.map_cons, List.sum_cons]
      omega
  have hmap : (List.range s.numNodes).map s.tasksAt
      = s.entries.toList.map fun e => 2 * e.elements.length + 1 := by
    apply List.ext_getElem
    · simp [numNodes]
    · intro i hi hi'
      have hlt : i < s.entries.size := by simpa using hi'
      simp [tasksAt, Array.getElem?_eq_getElem hlt]
  unfold walkLength
  rw [← Array.foldl_toList, hfold, hmap]

/-- Different nodes of a store are among all nodes of the store. -/
theorem subperm_range {order : List NodeId} (hnodup : order.Nodup)
    (hknown : ∀ id ∈ order, s.Knows id) :
    (order.map NodeId.raw).Subperm (List.range s.numNodes) := by
  have hinj : Function.Injective NodeId.raw := by
    intro a b hab
    cases a
    cases b
    exact congrArg NodeId.mk hab
  apply List.Nodup.subperm (hnodup.map hinj)
  intro i hi
  obtain ⟨id, hid, rfl⟩ := List.mem_map.1 hi
  exact List.mem_range.2 (hknown id hid)

theorem length_le_of_known {order : List NodeId} (hnodup : order.Nodup)
    (hknown : ∀ id ∈ order, s.Knows id) : order.length ≤ s.numNodes := by
  have hsub := subperm_range hnodup hknown
  simpa using hsub.length_le

/-- The tasks of different nodes are at most the tasks of all nodes. -/
theorem tasksOf_lt_walkLength {elements : NodeId → Except Fault (List Element)}
    (hle : ∀ id es, elements id = .ok es → 2 * es.length + 1 ≤ s.tasksAt id.raw)
    {order : List NodeId} (hnodup : order.Nodup) (hknown : ∀ id ∈ order, s.Knows id) :
    1 + tasksOf elements order ≤ s.walkLength := by
  rw [walkLength_eq]
  apply Nat.add_le_add_left
  have hone : tasksOf elements order ≤ ((order.map NodeId.raw).map s.tasksAt).sum := by
    rw [tasksOf, List.map_map]
    apply List.sum_le_sum
    intro id _
    unfold taskCount
    cases hes : elements id with
    | error e => exact Nat.zero_le _
    | ok es => exact hle id es hes
  -- the positions of the nodes are picked from all positions, in some order
  obtain ⟨picked, hperm, hsublist⟩ := subperm_range hnodup hknown
  refine Nat.le_trans hone ?_
  rw [← (hperm.map s.tasksAt).sum_eq]
  exact (hsublist.map s.tasksAt).sum_le_sum fun _ _ => Nat.zero_le _

/-! ## The two orders -/

theorem tasksAt_of_elements {es : List Element} (hes : s.elements id = .ok es) :
    2 * es.length + 1 ≤ s.tasksAt id.raw := by
  obtain ⟨e, he, rfl⟩ := elements_eq_ok.1 hes
  unfold tasksAt
  rw [entry_eq_ok.1 he]

/-- Everything about the order in which the nodes below a root are numbered. -/
structure Numbering (s : Store W) (root : NodeId) (order : List NodeId) : Prop where
  indexing : s.indexing root = .ok (ofList order)
  walks : Walks s.elements [root] [] order
  nodup : order.Nodup
  settled : Settled s.elements order
  ends : ∃ inner, order = inner ++ [root]
  mem_iff : ∀ id, id ∈ order ↔ s.Reaches root id
  known : ∀ id ∈ order, s.Knows id

/-- A walk that lists different nodes of the store is found within the fuel. -/
theorem indexing_of_walks {order : List NodeId} (h : Walks s.elements [root] [] order)
    (hnodup : order.Nodup) (hknown : ∀ id ∈ order, s.Knows id) :
    s.indexing root = .ok (ofList order) := by
  apply run_root h
  exact tasksOf_lt_walkLength (fun id es => tasksAt_of_elements) hnodup hknown

/-- Below a node whose elements are made of nodes of the same kind `p` and lower rank, and so on
below these, the nodes can be numbered. -/
theorem exists_numbering_of (rank : NodeId → Nat) {p : NodeId → Prop}
    (hknows : ∀ id, p id → s.Knows id)
    (hp : ∀ id es, p id → s.elements id = .ok es → ∀ x ∈ nodesBelow es, p x ∧ rank x < rank id)
    (hroot : p root) : ∃ order, s.Numbering root order ∧ ∀ id ∈ order, p id := by
  have hbelow : ∀ id, p id → ∃ es, s.elements id = .ok es ∧
      ∀ x ∈ nodesBelow es, p x ∧ rank x < rank id := by
    intro id hid
    obtain ⟨es, hes⟩ := exists_elements (hknows id hid)
    exact ⟨es, hes, hp id es hid hes⟩
  obtain ⟨order, hwalks, -⟩ := exists_walks rank hbelow (rank root + 1) [root] []
    (by simp [hroot])
  have hkind : ∀ id ∈ order, p id := by
    refine hwalks.forall_mem (fun a es ha hes x hx => (hp a es ha hes x hx).1) ?_ (by simp)
    simp [hroot]
  have hknown : ∀ id ∈ order, s.Knows id := fun id hid => hknows id (hkind id hid)
  have hnodup := hwalks.nodup List.nodup_nil
  exact ⟨order, ⟨indexing_of_walks hwalks hnodup hknown, hwalks, hnodup,
    hwalks.settled (settled_nil _), hwalks.eq_concat (by simp), fun id => mem_iff_of_walks hwalks,
    hknown⟩, hkind⟩

theorem exists_numbering (h : s.Closed) (hroot : s.Knows root) :
    ∃ order, s.Numbering root order := by
  obtain ⟨order, hnumbering, -⟩ := exists_numbering_of NodeId.raw (p := s.Knows)
    (fun id hid => hid) (fun id es _ hes x hx => ⟨h.knowsBelow hes x hx, h hes x hx⟩) hroot
  exact ⟨order, hnumbering⟩

/-- Everything about the order of the nodes that a circuit is made of: the nodes that are reached
through positive elements, or none if the root never holds (`b`). -/
structure Positive (s : Store W) (root : NodeId) (b : Bool) (order : List NodeId) : Prop where
  isFalse : s.isFalse root = .ok b
  positiveOrder : s.positiveOrder root = .ok order
  walks : Walks s.positiveElements (if b then [] else [root]) [] order
  nodup : order.Nodup
  settled : Settled s.positiveElements order
  reached : ∀ id ∈ order, s.Reaches root id
  holds : ∀ id ∈ order, s.isFalse id = .ok false

theorem knows_of_isFalse {b : Bool} (h : s.isFalse id = .ok b) : s.Knows id := by
  obtain ⟨e, he, -⟩ := isFalse_eq_ok.1 h
  exact knows_of_entry he

/-- A walk through positive elements is the order of the nodes of a circuit. -/
theorem positive_of_walks {b : Bool} {order : List NodeId} (hb : s.isFalse root = .ok b)
    (hwalks : Walks s.positiveElements (if b then [] else [root]) [] order) :
    s.Positive root b order := by
  -- nodes of positive elements can hold, so the walk stays among nodes that can
  have hreached : ∀ id ∈ order, s.Reaches root id ∧ s.isFalse id = .ok false := by
    refine hwalks.forall_mem (fun a ps ha hps x hx => ?_) ?_ (by simp)
    · obtain ⟨es, hes, rfl⟩ := positiveElements_eq_ok hps
      obtain ⟨hmem, hx⟩ := mem_nodesBelow_filter hx
      exact ⟨.tail ha.1 ⟨es, hes, hmem⟩, hx⟩
    · intro id hid
      cases b with
      | true => exact absurd hid (by simp)
      | false =>
        have hid : id ∈ [root] := hid
        rw [List.mem_singleton.1 hid]
        exact ⟨.refl, hb⟩
  have hnodup := hwalks.nodup List.nodup_nil
  refine ⟨hb, ?_, hwalks, hnodup, hwalks.settled (settled_nil _), fun id hid => (hreached id hid).1,
    fun id hid => (hreached id hid).2⟩
  unfold Store.positiveOrder
  rw [hb, ok_bind]
  cases b with
  | true =>
    cases hwalks
    rfl
  | false =>
    have hrun : run s.positiveElements s.walkLength [.visit root] .empty = .ok (ofList order) := by
      apply run_root hwalks
      refine tasksOf_lt_walkLength (fun id ps hps => ?_) hnodup fun id hid =>
        knows_of_isFalse (hreached id hid).2
      obtain ⟨es, hes, rfl⟩ := positiveElements_eq_ok hps
      have hlen : (es.filter s.positive).length ≤ es.length := List.length_filter_le _ _
      have htasks := tasksAt_of_elements hes
      omega
    simp only [Bool.false_eq_true, if_false]
    rw [hrun, ok_bind, order_ofList]
    rfl

/-- Below nodes whose elements are made of nodes of the same kind `p` and lower rank there is an
order. -/
theorem exists_positive_of (rank : NodeId → Nat) {p : NodeId → Prop}
    (hknows : ∀ id, p id → s.Knows id)
    (hp : ∀ id es, p id → s.elements id = .ok es → ∀ x ∈ nodesBelow es, p x ∧ rank x < rank id)
    (hroot : p root) : ∃ b order, s.Positive root b order ∧ ∀ id ∈ order, p id := by
  obtain ⟨b, hb⟩ := exists_isFalse (hknows root hroot)
  have hbelow : ∀ id, p id → ∃ es, s.positiveElements id = .ok es ∧
      ∀ x ∈ nodesBelow es, p x ∧ rank x < rank id := by
    intro id hid
    obtain ⟨es, hes⟩ := exists_elements (hknows id hid)
    have hknown : s.KnowsBelow es := fun x hx => hknows x (hp id es hid hes x hx).1
    refine ⟨_, positiveElements_known hknown hes, fun x hx => ?_⟩
    exact hp id es hid hes x (mem_nodesBelow_filter hx).1
  obtain ⟨order, hwalks, -⟩ := exists_walks rank hbelow (rank root + 1)
    (if b then [] else [root]) [] (by cases b <;> simp [hroot])
  refine ⟨b, order, positive_of_walks hb hwalks, ?_⟩
  refine hwalks.forall_mem (fun a ps ha hps x hx => ?_) ?_ (by simp)
  · obtain ⟨es, hes, rfl⟩ := positiveElements_eq_ok hps
    exact (hp a es ha hes x (mem_nodesBelow_filter hx).1).1
  · cases b <;> simp [hroot]

theorem exists_positive (h : s.Closed) (hroot : s.Knows root) :
    ∃ b order, s.Positive root b order := by
  obtain ⟨b, order, hp, -⟩ := exists_positive_of NodeId.raw (p := s.Knows) (fun id hid => hid)
    (fun id es _ hes x hx => ⟨h.knowsBelow hes x hx, h hes x hx⟩) hroot
  exact ⟨b, order, hp⟩

/-- The root of a diagram that can hold is among the nodes. -/
theorem Positive.root_mem {order : List NodeId} (h : s.Positive root false order) : root ∈ order :=
  h.walks.todo_subset (List.mem_singleton_self root)

end Sentential.Store
