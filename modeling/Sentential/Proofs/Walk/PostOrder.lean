import Mathlib.Algebra.BigOperators.Group.List.Basic
import Mathlib.Algebra.Ring.Nat
import Mathlib.Data.List.Induction
import Mathlib.Data.List.Nodup
import Mathlib.Logic.Relation
import Sentential.Store.Indexing

/-!
# Walks in post-order

`Indexing.run` keeps a stack of tasks. This module states what it computes without the stack:
`Walks elements todo seen order` is the recursive walk that visits the nodes of `todo` in turn,
passes over those that it has seen, and lists every other node behind the nodes below it.

* `Walks.nodup`, `Walks.settled`, `Walks.forall_mem`: what the order of a walk is like;
* `exists_walks`: there is a walk wherever the nodes below a node have a lower rank;
* `Walks.map`: an injective renaming of nodes renames the order and nothing else.
-/

namespace Sentential

theorem getElem?_concat_eq_some {α : Type} {as : List α} {a b : α} {i : Nat} :
    (as ++ [a])[i]? = some b ↔ as[i]? = some b ∨ (i = as.length ∧ b = a) := by
  rcases Nat.lt_trichotomy i as.length with hlt | rfl | hgt
  · rw [List.getElem?_append_left hlt]
    exact ⟨Or.inl, fun h => h.resolve_right fun hi => absurd hi.1 (Nat.ne_of_lt hlt)⟩
  · rw [List.getElem?_concat_length, List.getElem?_eq_none (Nat.le_refl _), Option.some_inj]
    simp [eq_comm]
  · rw [List.getElem?_eq_none (by simp; omega), List.getElem?_eq_none (Nat.le_of_lt hgt)]
    simp [Nat.ne_of_gt hgt]

/-- The element with its two nodes renamed. -/
def Element.map (f : NodeId → NodeId) (e : Element) : Element := ⟨f e.prime, f e.sub⟩

namespace Indexing

/-- The nodes of some elements in order, the prime of each before its sub. -/
def nodesBelow (es : List Element) : List NodeId := es.flatMap fun e => [e.prime, e.sub]

theorem mem_nodesBelow {es : List Element} {id : NodeId} :
    id ∈ nodesBelow es ↔ ∃ e ∈ es, id = e.prime ∨ id = e.sub := by
  simp [nodesBelow]

theorem prime_mem_nodesBelow {es : List Element} {e : Element} (h : e ∈ es) : e.prime ∈ nodesBelow es :=
  mem_nodesBelow.2 ⟨e, h, Or.inl rfl⟩

theorem sub_mem_nodesBelow {es : List Element} {e : Element} (h : e ∈ es) : e.sub ∈ nodesBelow es :=
  mem_nodesBelow.2 ⟨e, h, Or.inr rfl⟩

theorem nodesBelow_map (f : NodeId → NodeId) (es : List Element) :
    nodesBelow (es.map (Element.map f)) = (nodesBelow es).map f := by
  simp [nodesBelow, List.flatMap_map, List.map_flatMap, Element.map]

theorem length_nodesBelow (es : List Element) : (nodesBelow es).length = 2 * es.length := by
  induction es with
  | nil => rfl
  | cons e es ih =>
    have h : nodesBelow (e :: es) = e.prime :: e.sub :: nodesBelow es := rfl
    rw [h, List.length_cons, List.length_cons, List.length_cons, ih]
    omega

theorem visits_eq (es : List Element) : visits es = (nodesBelow es).map Task.visit := by
  simp [visits, nodesBelow, List.map_flatMap]

/-! ## The indexing of a list -/

/-- The indexing that numbers the nodes of a list in order. -/
def ofList (order : List NodeId) : Indexing := order.foldl push empty

theorem ofList_concat (order : List NodeId) (id : NodeId) :
    ofList (order ++ [id]) = (ofList order).push id := by
  rw [ofList, List.foldl_append]
  rfl

@[simp] theorem order_ofList (order : List NodeId) : (ofList order).order.toList = order := by
  induction order using List.reverseRecOn with
  | nil => rfl
  | append_singleton order id ih =>
    rw [ofList_concat, push, Array.toList_push, ih]

@[simp] theorem size_ofList (order : List NodeId) : (ofList order).size = order.length := by
  rw [size, ← Array.length_toList, order_ofList]

theorem contains_ofList (order : List NodeId) (id : NodeId) :
    (ofList order).positions.contains id ↔ id ∈ order := by
  induction order using List.reverseRecOn with
  | nil => simp [ofList, empty]
  | append_singleton order x ih =>
    rw [ofList_concat, push, Std.HashMap.contains_insert, Bool.or_eq_true, ih, beq_iff_eq,
      List.mem_append, List.mem_singleton]
    exact ⟨fun h => h.elim (fun h => Or.inr h.symm) Or.inl,
      fun h => h.elim Or.inr (fun h => Or.inl h.symm)⟩

/-- In a list without repetition the number of a node is its position. -/
theorem indexOf?_ofList {order : List NodeId} (h : order.Nodup) (id : NodeId) (i : Nat) :
    (ofList order).indexOf? id = some i ↔ order[i]? = some id := by
  induction order using List.reverseRecOn generalizing i with
  | nil => simp [ofList, empty, indexOf?]
  | append_singleton order x ih =>
    have hx : x ∉ order := fun hx => (List.nodup_append.1 h).2.2 x hx x (by simp) rfl
    have ih := ih (List.nodup_append.1 h).1 i
    have hsize : (ofList order).order.size = order.length := size_ofList order
    rw [indexOf?, ofList_concat, push, Std.HashMap.getElem?_insert, hsize]
    rw [getElem?_concat_eq_some]
    by_cases hid : x = id
    · subst hid
      have hnone : order[i]? ≠ some x := fun hi => hx (List.mem_of_getElem? hi)
      rw [if_pos (beq_self_eq_true x), Option.some_inj]
      exact ⟨fun hi => Or.inr ⟨hi.symm, rfl⟩, fun h => (h.resolve_left hnone).1.symm⟩
    · rw [if_neg (by simpa using hid)]
      exact Iff.trans ih ⟨Or.inl, fun h => h.resolve_right fun hi => hid hi.2.symm⟩

/-! ## The recursive walk -/

/-- The walk that visits the nodes of `todo` in turn, having listed `seen` before, and ends with
`order`. A node that has been listed is passed over; every other node is listed once the nodes
below it are, which the node itself must not be among. -/
inductive Walks (elements : NodeId → Except Fault (List Element)) :
    List NodeId → List NodeId → List NodeId → Prop
  | done (seen : List NodeId) : Walks elements [] seen seen
  | skip {id : NodeId} {todo seen order : List NodeId} :
      id ∈ seen → Walks elements todo seen order → Walks elements (id :: todo) seen order
  | enter {id : NodeId} {es : List Element} {todo seen inner order : List NodeId} :
      id ∉ seen → elements id = .ok es → Walks elements (nodesBelow es) seen inner → id ∉ inner →
      Walks elements todo (inner ++ [id]) order → Walks elements (id :: todo) seen order

/-- The number of tasks that a visit of a node puts on the stack. -/
def taskCount (elements : NodeId → Except Fault (List Element)) (id : NodeId) : Nat :=
  match elements id with
  | .ok es => 2 * es.length + 1
  | .error _ => 0

/-- The number of tasks that the visits of some nodes put on the stack. -/
def tasksOf (elements : NodeId → Except Fault (List Element)) (ids : List NodeId) : Nat :=
  (ids.map (taskCount elements)).sum

theorem tasksOf_append (elements : NodeId → Except Fault (List Element)) (as bs : List NodeId) :
    tasksOf elements (as ++ bs) = tasksOf elements as + tasksOf elements bs := by
  rw [tasksOf, List.map_append, List.sum_append]
  rfl

theorem tasksOf_singleton {elements : NodeId → Except Fault (List Element)} {id : NodeId}
    {es : List Element} (h : elements id = .ok es) :
    tasksOf elements [id] = 2 * es.length + 1 := by
  simp [tasksOf, taskCount, h]

namespace Walks

variable {elements : NodeId → Except Fault (List Element)} {todo seen order : List NodeId}

/-- A walk appends to what it has listed before. -/
theorem appends (h : Walks elements todo seen order) : ∃ added, order = seen ++ added := by
  induction h with
  | done seen => exact ⟨[], (List.append_nil seen).symm⟩
  | skip _ _ ih => exact ih
  | @enter id es todo seen inner order _ _ _ _ _ ihb iht =>
    obtain ⟨inside, rfl⟩ := ihb
    obtain ⟨rest, rfl⟩ := iht
    exact ⟨inside ++ [id] ++ rest, by simp⟩

theorem subset (h : Walks elements todo seen order) : seen ⊆ order := by
  obtain ⟨added, rfl⟩ := h.appends
  exact List.subset_append_left seen added

/-- A walk lists all nodes that it was to visit. -/
theorem todo_subset (h : Walks elements todo seen order) : todo ⊆ order := by
  induction h with
  | done seen => exact List.nil_subset seen
  | skip hid hw ih => exact List.cons_subset.2 ⟨hw.subset hid, ih⟩
  | enter _ _ _ _ hw _ iht =>
    exact List.cons_subset.2 ⟨hw.subset (List.mem_append_right _ (List.mem_singleton_self _)), iht⟩

/-- A walk lists no node twice. -/
theorem nodup (h : Walks elements todo seen order) (hseen : seen.Nodup) : order.Nodup := by
  induction h with
  | done seen => exact hseen
  | skip _ _ ih => exact ih hseen
  | enter _ _ _ hid _ ihb iht =>
    exact iht ((List.nodup_append_comm.1 (List.nodup_cons.2 ⟨hid, ihb hseen⟩)))

/-- A property of the nodes to visit that passes from a node to those below it holds of all nodes
that are listed. -/
theorem forall_mem (h : Walks elements todo seen order) {p : NodeId → Prop}
    (hp : ∀ id es, p id → elements id = .ok es → ∀ x ∈ nodesBelow es, p x)
    (htodo : ∀ id ∈ todo, p id) (hseen : ∀ id ∈ seen, p id) : ∀ id ∈ order, p id := by
  induction h with
  | done seen => exact hseen
  | skip _ _ ih => exact ih (fun id hid => htodo id (List.mem_cons_of_mem _ hid)) hseen
  | @enter id es todo seen inner order _ hes _ _ _ ihb iht =>
    have hinner := ihb (hp id es (htodo id List.mem_cons_self) hes) hseen
    refine iht (fun x hx => htodo x (List.mem_cons_of_mem _ hx)) fun x hx => ?_
    rcases List.mem_append.1 hx with hx | hx
    · exact hinner x hx
    · rw [List.mem_singleton.1 hx]
      exact htodo id List.mem_cons_self

/-- The walk from one node that has not been listed ends with that node. -/
theorem eq_concat {id : NodeId} (h : Walks elements [id] seen order) (hid : id ∉ seen) :
    ∃ inner, order = inner ++ [id] := by
  cases h with
  | skip hmem _ => exact absurd hmem hid
  | @enter _ _ _ _ inner _ _ _ _ _ hw =>
    cases hw
    exact ⟨inner, rfl⟩

end Walks

/-! ## The order of a walk -/

/-- Every node of the list has its elements, and the nodes of these stand before it. -/
def Settled (elements : NodeId → Except Fault (List Element)) (order : List NodeId) : Prop :=
  ∀ before id after, order = before ++ id :: after →
    ∃ es, elements id = .ok es ∧ ∀ x ∈ nodesBelow es, x ∈ before

theorem settled_nil (elements : NodeId → Except Fault (List Element)) : Settled elements [] :=
  fun before id after h => absurd h (by simp)

/-- The nodes below a node of the list stand before it. -/
theorem Settled.below {elements : NodeId → Except Fault (List Element)} {before after : List NodeId}
    {id : NodeId} (h : Settled elements (before ++ id :: after)) {es : List Element}
    (hes : elements id = .ok es) : ∀ x ∈ nodesBelow es, x ∈ before := by
  obtain ⟨es', hes', hmem⟩ := h before id after rfl
  obtain rfl := Except.ok.inj (hes.symm.trans hes')
  exact hmem

/-- The nodes below a node of the list are in the list. -/
theorem Settled.mem {elements : NodeId → Except Fault (List Element)} {order : List NodeId}
    (h : Settled elements order) {id : NodeId} (hid : id ∈ order) {es : List Element}
    (hes : elements id = .ok es) : ∀ x ∈ nodesBelow es, x ∈ order := by
  obtain ⟨before, after, rfl⟩ := List.append_of_mem hid
  exact fun x hx => List.mem_append_left _ (h.below hes x hx)

/-- The nodes below a node of the list have smaller positions. -/
theorem Settled.exists_lt {elements : NodeId → Except Fault (List Element)} {order : List NodeId}
    (h : Settled elements order) {i : Nat} {id x : NodeId} (hi : order[i]? = some id)
    {es : List Element} (hes : elements id = .ok es) (hx : x ∈ nodesBelow es) :
    ∃ j, j < i ∧ order[j]? = some x := by
  obtain ⟨hlt, rfl⟩ := List.getElem?_eq_some_iff.1 hi
  have hsplit : order = order.take i ++ order[i] :: order.drop (i + 1) := by
    rw [← List.drop_eq_getElem_cons hlt, List.take_append_drop]
  obtain ⟨es', hes', hbelow⟩ := h _ _ _ hsplit
  obtain rfl := Except.ok.inj (hes.symm.trans hes')
  obtain ⟨j, hj⟩ := List.mem_iff_getElem?.1 (hbelow x hx)
  rw [List.getElem?_take] at hj
  split at hj
  · next hji => exact ⟨j, hji, hj⟩
  · exact absurd hj (by simp)

theorem Settled.concat {elements : NodeId → Except Fault (List Element)} {order : List NodeId}
    (h : Settled elements order) {id : NodeId} {es : List Element} (hes : elements id = .ok es)
    (hbelow : ∀ x ∈ nodesBelow es, x ∈ order) : Settled elements (order ++ [id]) := by
  intro before x after heq
  -- the node in question is the new one, or the list has it before the new one
  rcases List.eq_nil_or_concat after with rfl | ⟨after, y, rfl⟩
  · obtain ⟨rfl, hx⟩ := List.append_inj' heq rfl
    obtain rfl := List.head_eq_of_cons_eq hx
    exact ⟨es, hes, hbelow⟩
  · have heq' : order ++ [id] = (before ++ x :: after) ++ [y] := by simpa using heq
    exact h before x after (List.append_inj' heq' rfl).1

theorem Walks.settled {elements : NodeId → Except Fault (List Element)}
    {todo seen order : List NodeId} (h : Walks elements todo seen order)
    (hseen : Settled elements seen) : Settled elements order := by
  induction h with
  | done seen => exact hseen
  | skip _ _ ih => exact ih hseen
  | enter _ hes hw _ _ ihb iht => exact iht ((ihb hseen).concat hes hw.todo_subset)

/-! ## What a walk reaches -/

/-- The node `b` is among those of the elements of `a`. -/
def LiesBelow (elements : NodeId → Except Fault (List Element)) (a b : NodeId) : Prop :=
  ∃ es, elements a = .ok es ∧ b ∈ nodesBelow es

/-- What is reached from a node of the list is in the list. -/
theorem Settled.mem_of_reflTransGen {elements : NodeId → Except Fault (List Element)}
    {order : List NodeId} (h : Settled elements order) {id x : NodeId} (hid : id ∈ order)
    (hx : Relation.ReflTransGen (LiesBelow elements) id x) : x ∈ order := by
  induction hx with
  | refl => exact hid
  | tail _ hstep ih =>
    obtain ⟨es, hes, hx⟩ := hstep
    exact h.mem ih hes _ hx

/-- A walk from a node lists what is reached from it. -/
theorem Walks.mem_iff {elements : NodeId → Except Fault (List Element)} {root id : NodeId}
    {order : List NodeId} (h : Walks elements [root] [] order) :
    id ∈ order ↔ Relation.ReflTransGen (LiesBelow elements) root id := by
  constructor
  · refine h.forall_mem (fun a es ha hes x hx => ?_) ?_ (by simp) id
    · exact .tail ha ⟨es, hes, hx⟩
    · intro x hx
      obtain rfl := List.mem_singleton.1 hx
      exact .refl
  · exact (h.settled (settled_nil _)).mem_of_reflTransGen
      (h.todo_subset (List.mem_singleton_self root))

/-- What is reached from a node of the list in at least one step has a smaller position. -/
theorem Settled.exists_lt_of_transGen {elements : NodeId → Except Fault (List Element)}
    {order : List NodeId} (h : Settled elements order) {i : Nat} {id x : NodeId}
    (hi : order[i]? = some id) (hx : Relation.TransGen (LiesBelow elements) id x) :
    ∃ j, j < i ∧ order[j]? = some x := by
  induction hx with
  | single hstep =>
    obtain ⟨es, hes, hx⟩ := hstep
    exact h.exists_lt hi hes hx
  | tail _ hstep ih =>
    obtain ⟨j, hj, hget⟩ := ih
    obtain ⟨es, hes, hx⟩ := hstep
    obtain ⟨k, hk, hx⟩ := h.exists_lt hget hes hx
    exact ⟨k, Nat.lt_trans hk hj, hx⟩

/-- No node of the list is reached from itself. -/
theorem Settled.acyclic {elements : NodeId → Except Fault (List Element)} {order : List NodeId}
    (h : Settled elements order) (hnodup : order.Nodup) {id : NodeId} (hid : id ∈ order) :
    ¬ Relation.TransGen (LiesBelow elements) id id := by
  intro hcycle
  obtain ⟨i, hi⟩ := List.mem_iff_getElem?.1 hid
  obtain ⟨j, hlt, hj⟩ := h.exists_lt_of_transGen hi hcycle
  have hlength : j < order.length := (List.getElem?_eq_some_iff.1 hj).1
  exact Nat.ne_of_lt hlt ((List.getElem?_inj hlength hnodup).1 (hj.trans hi.symm))

/-! ## The existence of a walk -/

/-- If the elements of every node are made of nodes of the same kind `p` and lower rank, there is a
walk from any nodes of the kind. It lists nothing above the nodes that it starts from. -/
theorem exists_walks (rank : NodeId → Nat) {elements : NodeId → Except Fault (List Element)}
    {p : NodeId → Prop}
    (hp : ∀ id, p id → ∃ es, elements id = .ok es ∧ ∀ x ∈ nodesBelow es, p x ∧ rank x < rank id)
    (bound : Nat) (todo seen : List NodeId) (htodo : ∀ id ∈ todo, p id ∧ rank id < bound) :
    ∃ order, Walks elements todo seen order ∧ ∀ id ∈ order, id ∈ seen ∨ rank id < bound := by
  induction bound using Nat.strongRecOn generalizing todo seen with
  | ind bound ihbound =>
    induction todo generalizing seen with
    | nil => exact ⟨seen, .done seen, fun id hid => Or.inl hid⟩
    | cons id todo ihtodo =>
      have hrest : ∀ x ∈ todo, p x ∧ rank x < bound := fun x hx => htodo x (by simp [hx])
      obtain ⟨hid, hlt⟩ := htodo id List.mem_cons_self
      by_cases hseen : id ∈ seen
      · obtain ⟨order, hw, hmem⟩ := ihtodo seen hrest
        exact ⟨order, .skip hseen hw, hmem⟩
      · obtain ⟨es, hes, hbelow⟩ := hp id hid
        -- the nodes below `id` are visited with `id` as the bound, so `id` is not among them
        obtain ⟨inner, hwin, hin⟩ := ihbound (rank id) hlt (nodesBelow es) seen hbelow
        have hnot : id ∉ inner := fun h => (hin id h).elim hseen (Nat.lt_irrefl _)
        obtain ⟨order, hw, hmem⟩ := ihtodo (inner ++ [id]) hrest
        refine ⟨order, .enter hseen hes hwin hnot hw, fun x hx => ?_⟩
        rcases hmem x hx with hx | hx
        · rcases List.mem_append.1 hx with hx | hx
          · exact (hin x hx).imp_right fun h => Nat.lt_trans h hlt
          · rw [List.mem_singleton.1 hx]
            exact Or.inr hlt
        · exact Or.inr hx

/-- An injective renaming of nodes that renames the elements along with them renames the order
of a walk. -/
theorem Walks.map {elements elements' : NodeId → Except Fault (List Element)}
    {todo seen order : List NodeId} (h : Walks elements todo seen order) (f : NodeId → NodeId)
    (hinj : ∀ a ∈ order, ∀ b ∈ order, f a = f b → a = b)
    (hf : ∀ id ∈ order, ∀ es, elements id = .ok es →
      elements' (f id) = .ok (es.map (Element.map f))) :
    Walks elements' (todo.map f) (seen.map f) (order.map f) := by
  -- a node that is new to a list is new to the renamed list
  have hmem : ∀ {id : NodeId} {ids order : List NodeId}, ids ⊆ order → id ∈ order →
      (∀ a ∈ order, ∀ b ∈ order, f a = f b → a = b) → id ∉ ids → f id ∉ ids.map f := by
    intro id ids order hsub hid hinj hnot h
    obtain ⟨x, hx, heq⟩ := List.mem_map.1 h
    exact hnot (hinj x (hsub hx) id hid heq ▸ hx)
  induction h with
  | done seen => exact .done _
  | skip hid _ ih => exact .skip (List.mem_map_of_mem hid) (ih hinj hf)
  | @enter id es todo seen inner order hid hes hwin hnot hw ihin ih =>
    have hsub : inner ++ [id] ⊆ order := hw.subset
    have hinner : inner ⊆ order := fun x hx => hsub (List.mem_append_left _ hx)
    have hidmem : id ∈ order := hsub (List.mem_append_right _ (List.mem_singleton_self id))
    have hseen : seen ⊆ order := fun x hx => hinner (hwin.subset hx)
    have hin := ihin (fun a ha b hb => hinj a (hinner ha) b (hinner hb))
      (fun x hx => hf x (hinner hx))
    rw [← nodesBelow_map] at hin
    refine .enter (hmem hseen hidmem hinj hid) (hf id hidmem es hes) hin
      (hmem hinner hidmem hinj hnot) ?_
    have hrest := ih hinj hf
    rwa [List.map_append] at hrest

end Indexing
end Sentential
