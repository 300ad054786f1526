import Sentential.Proofs.Dot.Marks
import Sentential.Proofs.Dot.Totality
import Sentential.Proofs.Store.Traversal

/-!
# Drawings show the diagram and nothing else

The marks of a diagram are known from its nodes and the order in which these are numbered: every
decision has the circle of its number, every position of it a table, and the edges are those between
a circle and its tables and between a cell and the decision that it stands for (`Depicts`). Circles
stand in descending order of their numbers, and what is below a node has a smaller number than the
node, so that every circle comes after those of its parents.

Both drawings of a diagram are files with these marks (`Built.depicted`).
-/

namespace Sentential.Store

open Dot Text

variable {W : Type} [Weight W]

/-! ## What a drawing has to show -/

/-- The decision `id` with the elements `es` is below the root, and `n` is its number. -/
structure DrawnAs (s : Store W) (root : NodeId) (ix : Indexing) (n : Nat) (id : NodeId)
    (es : List Element) : Prop where
  reaches : s.Reaches root id
  decision : ∃ v, s.kind id = .ok (.decision v es)
  indexOf : ix.indexOf? id = some n

/-- The marks are a drawing of the diagram of a root: all of it, nothing else, and nothing twice. -/
structure Depicts (s : Store W) (root : NodeId) (ix : Indexing) (marks : List Mark) : Prop where
  circle_iff : ∀ n, .circle n ∈ marks ↔ ∃ id es, s.DrawnAs root ix n id es
  box_iff : ∀ n, .box n ∈ marks ↔
    ix.indexOf? root = some n ∧ ∀ v es, s.kind root ≠ .ok (.decision v es)
  table_iff : ∀ n i, .table n i ∈ marks ↔ ∃ id es, s.DrawnAs root ix n id es ∧ i < es.length
  tie_iff : ∀ n i, .tie n i ∈ marks ↔ ∃ id es, s.DrawnAs root ix n id es ∧ i < es.length
  link_iff : ∀ n i side m, .link n i side m ∈ marks ↔ ∃ id es x es',
    s.DrawnAs root ix n id es ∧ es[i]? = some x ∧ s.DrawnAs root ix m (side.node x) es'
  nodup : marks.Nodup
  names_nodup : (marks.filterMap Mark.name?).Nodup
  ends_declared : ∀ m ∈ marks, ∀ name ∈ m.statement.ends, name ∈ marks.filterMap Mark.name?
  /-- The items of the root are the first, and its box or circle is the first of these. -/
  root_first : ∃ n first own others, ix.indexOf? root = some n ∧ marks = first :: own ++ others ∧
    (first = .box n ∨ first = .circle n) ∧ (∀ m ∈ own, m.owner = n) ∧ ∀ m ∈ others, m.owner < n
  parents_first : ∀ n i side m, .link n i side m ∈ marks →
    ∃ before after, marks = before ++ .circle m :: after ∧ .circle n ∈ before

variable {s : Store W} {root id : NodeId} {ix : Indexing} {es : List Element} {n i : Nat} {m : Mark}

/-! ## The marks of a node -/

theorem mem_linkMarks {side : Side} {child : NodeId} : m ∈ s.linkMarks ix n i side child ↔
    ∃ v es k, s.kind child = .ok (.decision v es) ∧ ix.indexOf? child = some k ∧
      m = .link n i side k := by
  unfold linkMarks
  split
  · next hkind hindex => simp [hkind, hindex]
  · next hnot =>
    refine iff_of_false (by simp) ?_
    rintro ⟨v, es, k, hkind, hindex, -⟩
    exact hnot v es k hkind hindex

theorem mem_elementMarks {x : Element} : m ∈ s.elementMarks ix n i x ↔
    m = .table n i ∨ m = .tie n i ∨ ∃ side v es k,
      s.kind (side.node x) = .ok (.decision v es) ∧ ix.indexOf? (side.node x) = some k ∧
        m = .link n i side k := by
  unfold elementMarks
  rw [List.mem_cons, List.mem_cons, List.mem_append, mem_linkMarks, mem_linkMarks]
  refine or_congr_right (or_congr_right ⟨?_, ?_⟩)
  · rintro (h | h)
    · exact ⟨.left, h⟩
    · exact ⟨.right, h⟩
  · rintro ⟨_ | _, h⟩
    · exact Or.inl h
    · exact Or.inr h

theorem mem_nodeMarks : m ∈ s.nodeMarks ix id ↔
    ∃ v es n, s.kind id = .ok (.decision v es) ∧ ix.indexOf? id = some n ∧
      (m = .circle n ∨ ∃ (i : Nat) (x : Element), es[i]? = some x ∧ m ∈ s.elementMarks ix n i x) := by
  unfold nodeMarks
  split
  · next v es n hkind hindex =>
    have helements : m ∈ (es.zipIdx.flatMap fun x => s.elementMarks ix n x.2 x.1) ↔
        ∃ (i : Nat) (x : Element), es[i]? = some x ∧ m ∈ s.elementMarks ix n i x := by
      rw [List.mem_flatMap]
      constructor
      · rintro ⟨⟨x, i⟩, hx, hm⟩
        exact ⟨i, x, List.mk_mem_zipIdx_iff_getElem?.1 hx, hm⟩
      · rintro ⟨i, x, hx, hm⟩
        exact ⟨(x, i), List.mk_mem_zipIdx_iff_getElem?.2 hx, hm⟩
    rw [List.mem_cons, helements]
    constructor
    · exact fun h => ⟨v, es, n, hkind, hindex, h⟩
    · rintro ⟨v', es', n', hkind', hindex', h⟩
      obtain ⟨rfl, rfl⟩ := Kind.decision.inj (Except.ok.inj (hkind.symm.trans hkind'))
      obtain rfl := Option.some_inj.1 (hindex.symm.trans hindex')
      exact h
  · next hnot =>
    refine iff_of_false (by simp) ?_
    rintro ⟨v, es, n, hkind, hindex, -⟩
    exact hnot v es n hkind hindex

theorem owner_of_mem_elementMarks {x : Element} (h : m ∈ s.elementMarks ix n i x) :
    m.owner = n ∧ m.position? = some i := by
  rcases mem_elementMarks.1 h with rfl | rfl | ⟨side, v, es, k, -, -, rfl⟩ <;> exact ⟨rfl, rfl⟩

theorem owner_of_mem_nodeMarks (h : m ∈ s.nodeMarks ix id) : ix.indexOf? id = some m.owner := by
  obtain ⟨v, es, n, -, hindex, rfl | ⟨i, x, -, hm⟩⟩ := mem_nodeMarks.1 h
  · exact hindex
  · rw [(owner_of_mem_elementMarks hm).1]
    exact hindex

theorem mem_boxMarks : m ∈ s.boxMarks ix root ↔ ∃ n, ix.indexOf? root = some n ∧
    (∀ v es, s.kind root ≠ .ok (.decision v es)) ∧ m = .box n := by
  unfold boxMarks
  split
  · next hkind =>
    refine iff_of_false (by simp) ?_
    rintro ⟨n, -, hnot, -⟩
    exact hnot _ _ hkind
  · next n hindex hnot =>
    rw [List.mem_singleton]
    constructor
    · rintro rfl
      exact ⟨n, hindex, hnot, rfl⟩
    · rintro ⟨n', hindex', -, rfl⟩
      rw [Option.some_inj.1 (hindex.symm.trans hindex')]
  · next hindex _ => simp [hindex]

theorem nodup_linkMarks (side : Side) (child : NodeId) :
    (s.linkMarks ix n i side child).Nodup := by
  unfold linkMarks
  split <;> simp

theorem nodup_elementMarks (x : Element) : (s.elementMarks ix n i x).Nodup := by
  have hsides : (s.linkMarks ix n i .left x.prime).Disjoint (s.linkMarks ix n i .right x.sub) := by
    intro m hleft hright
    obtain ⟨-, -, k, -, -, rfl⟩ := mem_linkMarks.1 hleft
    obtain ⟨-, -, k', -, -, heq⟩ := mem_linkMarks.1 hright
    exact absurd heq (by simp)
  have hlinks := (nodup_linkMarks .left x.prime).append (nodup_linkMarks .right x.sub) hsides
  unfold elementMarks
  rw [List.nodup_cons, List.nodup_cons, List.mem_cons]
  simp only [List.mem_append, mem_linkMarks]
  refine ⟨?_, ?_, hlinks⟩ <;> simp

theorem nodup_nodeMarks : (s.nodeMarks ix id).Nodup := by
  unfold nodeMarks
  split
  · next v es n hkind hindex =>
    rw [List.nodup_cons, List.nodup_flatMap]
    refine ⟨?_, fun x _ => nodup_elementMarks x.1, ?_⟩
    · rw [List.mem_flatMap]
      rintro ⟨x, -, hm⟩
      exact absurd (owner_of_mem_elementMarks hm).2 (by simp [Mark.position?])
    · -- elements stand at different positions
      have hpositions : es.zipIdx.Pairwise fun a b => a.2 < b.2 := by
        rw [← List.pairwise_map, List.zipIdx_map_snd]
        exact List.pairwise_lt_range'
      refine hpositions.imp fun {a b} hlt m ha hb => ?_
      have heq := (owner_of_mem_elementMarks ha).2.symm.trans (owner_of_mem_elementMarks hb).2
      exact absurd (Option.some_inj.1 heq) (Nat.ne_of_lt hlt)
  · exact List.nodup_nil

/-! ## The marks of a diagram -/

namespace PostOrdered

variable (h : s.PostOrdered root ix)
include h

theorem indexOf_inj {id' : NodeId} (hid : ix.indexOf? id = some n) (hid' : ix.indexOf? id' = some n) :
    id = id' :=
  Option.some_inj.1 (((h.indexOf?_eq_some id n).1 hid).symm.trans ((h.indexOf?_eq_some id' n).1 hid'))

/-- Everything that is drawn is the box of the root or belongs to a decision below it. -/
theorem mem_marks : m ∈ s.marks ix root ↔ m ∈ s.boxMarks ix root ∨ ∃ n id es,
    s.DrawnAs root ix n id es ∧
      (m = .circle n ∨ ∃ (i : Nat) (x : Element), es[i]? = some x ∧ m ∈ s.elementMarks ix n i x) := by
  rw [marks, List.mem_append, List.mem_flatMap]
  refine or_congr_right ?_
  constructor
  · rintro ⟨id, hid, hm⟩
    obtain ⟨v, es, n, hkind, hindex, hm⟩ := mem_nodeMarks.1 hm
    exact ⟨n, id, es, ⟨(h.mem_iff id).1 (List.mem_reverse.1 hid), ⟨v, hkind⟩, hindex⟩, hm⟩
  · rintro ⟨n, id, es, ⟨hreaches, ⟨v, hkind⟩, hindex⟩, hm⟩
    exact ⟨id, List.mem_reverse.2 ((h.mem_iff id).2 hreaches),
      mem_nodeMarks.2 ⟨v, es, n, hkind, hindex, hm⟩⟩

theorem circle_mem_iff : .circle n ∈ s.marks ix root ↔ ∃ id es, s.DrawnAs root ix n id es := by
  simp only [h.mem_marks, mem_boxMarks, mem_elementMarks, Mark.circle.injEq, reduceCtorEq, and_false,
    exists_false, or_false, false_or]
  constructor
  · rintro ⟨n', id, es, hdrawn, rfl⟩
    exact ⟨id, es, hdrawn⟩
  · rintro ⟨id, es, hdrawn⟩
    exact ⟨n, id, es, hdrawn, rfl⟩

theorem box_mem_iff : .box n ∈ s.marks ix root ↔
    ix.indexOf? root = some n ∧ ∀ v es, s.kind root ≠ .ok (.decision v es) := by
  simp only [h.mem_marks, mem_boxMarks, mem_elementMarks, Mark.box.injEq, reduceCtorEq, and_false,
    exists_false, or_false]
  constructor
  · rintro ⟨n', hindex, hnot, rfl⟩
    exact ⟨hindex, hnot⟩
  · rintro ⟨hindex, hnot⟩
    exact ⟨n, hindex, hnot, rfl⟩

omit h in
/-- The places of the elements of a drawn decision. -/
theorem exists_place_iff : (∃ n' id es, s.DrawnAs root ix n' id es ∧
      ∃ (i' : Nat) (x : Element), es[i']? = some x ∧ n = n' ∧ i = i') ↔
    ∃ id es, s.DrawnAs root ix n id es ∧ i < es.length := by
  constructor
  · rintro ⟨n', id, es, hdrawn, i', x, hx, rfl, rfl⟩
    exact ⟨id, es, hdrawn, (List.getElem?_eq_some_iff.1 hx).1⟩
  · rintro ⟨id, es, hdrawn, hlt⟩
    exact ⟨n, id, es, hdrawn, i, _, List.getElem?_eq_getElem hlt, rfl, rfl⟩

theorem table_mem_iff : .table n i ∈ s.marks ix root ↔
    ∃ id es, s.DrawnAs root ix n id es ∧ i < es.length := by
  simp only [h.mem_marks, mem_boxMarks, mem_elementMarks, Mark.table.injEq, reduceCtorEq, and_false,
    exists_false, or_false, false_or]
  exact exists_place_iff

theorem tie_mem_iff : .tie n i ∈ s.marks ix root ↔
    ∃ id es, s.DrawnAs root ix n id es ∧ i < es.length := by
  simp only [h.mem_marks, mem_boxMarks, mem_elementMarks, Mark.tie.injEq, reduceCtorEq, and_false,
    exists_false, or_false, false_or]
  exact exists_place_iff

theorem link_mem_iff {side : Side} {k : Nat} : .link n i side k ∈ s.marks ix root ↔
    ∃ id es x es', s.DrawnAs root ix n id es ∧ es[i]? = some x ∧
      s.DrawnAs root ix k (side.node x) es' := by
  simp only [h.mem_marks, mem_boxMarks, mem_elementMarks, Mark.link.injEq, reduceCtorEq, and_false,
    exists_false, false_or]
  constructor
  · rintro ⟨n', id, es, hdrawn, i', x, hx, side', v, es', k', hkind, hindex, rfl, rfl, rfl, rfl⟩
    refine ⟨id, es, x, es', hdrawn, hx, ⟨?_, ⟨v, hkind⟩, hindex⟩⟩
    -- what a reached decision refers to is reached
    obtain ⟨u, hdecision⟩ := hdrawn.decision
    exact hdrawn.reaches.tail (refers_of_mem hdecision (side.node_mem (List.mem_of_getElem? hx)))
  · rintro ⟨id, es, x, es', hdrawn, hx, ⟨-, ⟨v, hkind⟩, hindex⟩⟩
    exact ⟨n, id, es, hdrawn, i, x, hx, side, v, es', k, hkind, hindex, rfl, rfl, rfl, rfl⟩

/-! ## Their order -/

/-- The nodes of the order stand at their numbers. -/
theorem pairwise_order : ix.order.toList.Pairwise fun a b =>
    ∀ i j, ix.indexOf? a = some i → ix.indexOf? b = some j → i < j := by
  have hplace : ∀ (i : Nat) (hi : i < ix.order.toList.length),
      ix.indexOf? ix.order.toList[i] = some i := by
    intro i hi
    rw [h.indexOf?_eq_some, ← Array.getElem?_toList, List.getElem?_eq_getElem hi]
  rw [List.pairwise_iff_getElem]
  intro i j hi hj hlt i' j' hi' hj'
  obtain rfl := Option.some_inj.1 ((hplace i hi).symm.trans hi')
  obtain rfl := Option.some_inj.1 ((hplace j hj).symm.trans hj')
  exact hlt

/-- The nodes below a decision have smaller numbers. -/
theorem lt_of_drawnAs {side : Side} {x : Element} {k : Nat} {es' : List Element}
    (hdrawn : s.DrawnAs root ix n id es) (hx : x ∈ es)
    (hchild : s.DrawnAs root ix k (side.node x) es') : k < n := by
  obtain ⟨v, hkind⟩ := hdrawn.decision
  obtain ⟨j, hlt, hj⟩ := h.below n id es ((h.indexOf?_eq_some id n).1 hdrawn.indexOf)
    (elements_of_kind hkind) _ (side.node_mem hx)
  have hindex := (h.indexOf?_eq_some _ j).2 hj
  rw [hchild.indexOf] at hindex
  rwa [Option.some_inj.1 hindex]

/-- The root has the largest number. -/
theorem indexOf_le_root (hid : ix.indexOf? id = some i) (hroot : ix.indexOf? root = some n) :
    i ≤ n ∧ (id ≠ root → i < n) := by
  obtain ⟨inner, hinner⟩ := List.getLast?_eq_some_iff.1 h.last
  have hplace : ∀ {a : NodeId} {j : Nat}, ix.indexOf? a = some j → (inner ++ [root])[j]? = some a := by
    intro a j ha
    rw [← hinner, Array.getElem?_toList]
    exact (h.indexOf?_eq_some a j).1 ha
  have hlast : ix.indexOf? root = some inner.length := by
    rw [h.indexOf?_eq_some, ← Array.getElem?_toList, hinner, List.getElem?_concat_length]
  obtain rfl := Option.some_inj.1 (hlast.symm.trans hroot)
  have hlt := (List.getElem?_eq_some_iff.1 (hplace hid)).1
  rw [List.length_append, List.length_singleton] at hlt
  refine ⟨by omega, fun hne => ?_⟩
  have hne' : i ≠ inner.length := by
    rintro rfl
    exact hne (h.indexOf_inj hid hlast)
  omega

theorem exists_indexOf_root : ∃ n, ix.indexOf? root = some n :=
  Option.ne_none_iff_exists'.1 fun hnone => (h.indexOf?_eq_none root).1 hnone .refl

omit h in
/-- A root has a box if it is no decision, and a circle with tables otherwise. -/
theorem exists_rootMarks (hn : ix.indexOf? root = some n) : ∃ first own,
    s.boxMarks ix root ++ s.nodeMarks ix root = first :: own ∧ (first = .box n ∨ first = .circle n) ∧
      own ⊆ s.nodeMarks ix root := by
  by_cases hdecision : ∃ v es, s.kind root = .ok (.decision v es)
  · obtain ⟨v, es, hkind⟩ := hdecision
    have hbox : s.boxMarks ix root = [] := by rw [boxMarks, hkind]
    have hnode : s.nodeMarks ix root
        = .circle n :: es.zipIdx.flatMap fun x => s.elementMarks ix n x.2 x.1 := by
      rw [nodeMarks, hkind, hn]
    rw [hbox, hnode]
    exact ⟨.circle n, _, rfl, Or.inr rfl, List.subset_cons_self _ _⟩
  · have hnot : ∀ v es, s.kind root ≠ .ok (.decision v es) := fun v es hkind =>
      hdecision ⟨v, es, hkind⟩
    have hbox : s.boxMarks ix root = [.box n] := by
      unfold boxMarks
      split
      · next hkind => exact absurd hkind (hnot _ _)
      · next n' hn' _ => rw [Option.some_inj.1 (hn.symm.trans hn')]
      · next hn' _ => exact absurd (hn.symm.trans hn') (by simp)
    have hnode : s.nodeMarks ix root = [] := by
      rw [List.eq_nil_iff_forall_not_mem]
      intro m hm
      obtain ⟨v, es, -, hkind, -⟩ := mem_nodeMarks.1 hm
      exact hnot v es hkind
    rw [hbox, hnode]
    exact ⟨.box n, [], rfl, Or.inl rfl, List.nil_subset _⟩

/-- The items of a root are its box or its circle with the tables, and smaller numbers follow. -/
theorem exists_first : ∃ n first own others, ix.indexOf? root = some n ∧
    s.marks ix root = first :: own ++ others ∧ (first = .box n ∨ first = .circle n) ∧
    (∀ m ∈ own, m.owner = n) ∧ ∀ m ∈ others, m.owner < n := by
  obtain ⟨inner, hinner⟩ := List.getLast?_eq_some_iff.1 h.last
  obtain ⟨n, hn⟩ := h.exists_indexOf_root
  obtain ⟨first, own, hroot, hfirst, hown⟩ := exists_rootMarks (s := s) hn
  refine ⟨n, first, own, inner.reverse.flatMap (s.nodeMarks ix), hn, ?_, hfirst, ?_, ?_⟩
  · rw [← hroot, marks, hinner, List.reverse_append, List.flatMap_append, List.append_assoc]
    simp
  · intro m hm
    exact Option.some_inj.1 ((owner_of_mem_nodeMarks (hown hm)).symm.trans hn)
  · intro m hm
    obtain ⟨id, hid, hm⟩ := List.mem_flatMap.1 hm
    refine (h.indexOf_le_root (owner_of_mem_nodeMarks hm) hn).2 ?_
    rintro rfl
    -- the root stands in the order once
    have hnodup := h.nodup
    rw [hinner, List.nodup_append'] at hnodup
    exact hnodup.2.2 (List.mem_reverse.1 hid) (List.mem_singleton_self _)

theorem pairwise_marks : (s.marks ix root).Pairwise fun a b => b.owner ≤ a.owner := by
  rw [marks, List.pairwise_append, List.pairwise_flatMap, List.pairwise_reverse]
  refine ⟨?_, ⟨?_, ?_⟩, ?_⟩
  · unfold boxMarks
    split <;> simp
  · intro id _
    refine List.pairwise_of_forall_mem_list fun a ha b hb => ?_
    rw [Option.some_inj.1 ((owner_of_mem_nodeMarks ha).symm.trans (owner_of_mem_nodeMarks hb))]
  · refine h.pairwise_order.imp fun {a b} hlt x hx y hy => ?_
    exact Nat.le_of_lt (hlt _ _ (owner_of_mem_nodeMarks hy) (owner_of_mem_nodeMarks hx))
  · intro a ha b hb
    obtain ⟨n, hn, -, rfl⟩ := mem_boxMarks.1 ha
    obtain ⟨id, -, hb⟩ := List.mem_flatMap.1 hb
    exact (h.indexOf_le_root (owner_of_mem_nodeMarks hb) hn).1

theorem nodup_marks : (s.marks ix root).Nodup := by
  rw [marks, List.nodup_append', List.nodup_flatMap]
  refine ⟨?_, ⟨fun id _ => nodup_nodeMarks, ?_⟩, ?_⟩
  · unfold boxMarks
    split <;> simp
  · rw [List.pairwise_reverse]
    refine h.pairwise_order.imp fun {a b} hlt m hb ha => ?_
    exact Nat.lt_irrefl _ (hlt _ _ (owner_of_mem_nodeMarks ha) (owner_of_mem_nodeMarks hb))
  · intro m hbox hm
    obtain ⟨n, -, -, rfl⟩ := mem_boxMarks.1 hbox
    obtain ⟨id, -, hm⟩ := List.mem_flatMap.1 hm
    obtain ⟨v, es, k, -, -, heq | ⟨i, x, -, hm⟩⟩ := mem_nodeMarks.1 hm
    · exact absurd heq (by simp)
    · exact absurd (owner_of_mem_elementMarks hm).2 (by simp [Mark.position?])

/-! ## Names -/

theorem nodup_names : ((s.marks ix root).filterMap Mark.name?).Nodup := by
  rw [List.Nodup, List.pairwise_filterMap]
  refine List.Pairwise.imp_of_mem ?_ h.nodup_marks
  intro a b ha hb hne name hname name' hname' heq
  -- a box is the only thing that is drawn of its node
  have hclash : ∀ k, .box k ∈ s.marks ix root → .circle k ∉ s.marks ix root := by
    intro k hbox hcircle
    obtain ⟨hindex, hnot⟩ := h.box_mem_iff.1 hbox
    obtain ⟨id, es, hdrawn⟩ := h.circle_mem_iff.1 hcircle
    obtain ⟨v, hkind⟩ := hdrawn.decision
    rw [h.indexOf_inj hdrawn.indexOf hindex] at hkind
    exact hnot v es hkind
  refine hne (Mark.name?_inj hname (heq ▸ hname') fun k => ⟨?_, ?_⟩)
  · rintro ⟨rfl, rfl⟩
    exact hclash k ha hb
  · rintro ⟨rfl, rfl⟩
    exact hclash k hb ha

theorem ends_mem (hm : m ∈ s.marks ix root) :
    ∀ name ∈ m.statement.ends, name ∈ (s.marks ix root).filterMap Mark.name? := by
  have hcircle : ∀ {n id es}, s.DrawnAs root ix n id es →
      nodeName n ∈ (s.marks ix root).filterMap Mark.name? := fun {n id es} hdrawn =>
    List.mem_filterMap.2 ⟨.circle n, h.circle_mem_iff.2 ⟨id, es, hdrawn⟩, rfl⟩
  have htable : ∀ {n i id es}, s.DrawnAs root ix n id es → i < es.length →
      tableName n i ∈ (s.marks ix root).filterMap Mark.name? := fun {n i id es} hdrawn hlt =>
    List.mem_filterMap.2 ⟨.table n i, h.table_mem_iff.2 ⟨id, es, hdrawn, hlt⟩, rfl⟩
  intro name hname
  cases m with
  | box n => exact absurd hname (by simp [Mark.statement, Statement.ends])
  | circle n => exact absurd hname (by simp [Mark.statement, Statement.ends])
  | table n i => exact absurd hname (by simp [Mark.statement, Statement.ends])
  | tie n i =>
    obtain ⟨id, es, hdrawn, hlt⟩ := h.tie_mem_iff.1 hm
    rcases List.mem_pair.1 hname with rfl | rfl
    · exact hcircle hdrawn
    · exact htable hdrawn hlt
  | link n i side k =>
    obtain ⟨id, es, x, es', hdrawn, hx, hchild⟩ := h.link_mem_iff.1 hm
    rcases List.mem_pair.1 hname with rfl | rfl
    · exact htable hdrawn (List.getElem?_eq_some_iff.1 hx).1
    · exact hcircle hchild

/-- The marks of the diagram are a drawing of it. -/
theorem depicts : s.Depicts root ix (s.marks ix root) := by
  constructor
  case circle_iff => exact fun n => h.circle_mem_iff
  case box_iff => exact fun n => h.box_mem_iff
  case table_iff => exact fun n i => h.table_mem_iff
  case tie_iff => exact fun n i => h.tie_mem_iff
  case link_iff => exact fun n i side m => h.link_mem_iff
  case nodup => exact h.nodup_marks
  case names_nodup => exact h.nodup_names
  case ends_declared => exact fun m hm => h.ends_mem hm
  case root_first => exact h.exists_first
  case parents_first =>
    intro n i side k hlink
    obtain ⟨id, es, x, es', hdrawn, hx, hchild⟩ := h.link_mem_iff.1 hlink
    have hlt := h.lt_of_drawnAs hdrawn (List.mem_of_getElem? hx) hchild
    have hparent := h.circle_mem_iff.2 ⟨id, es, hdrawn⟩
    obtain ⟨before, after, hsplit⟩ := List.append_of_mem (h.circle_mem_iff.2 ⟨_, es', hchild⟩)
    refine ⟨before, after, hsplit, ?_⟩
    -- behind the circle of the child there are no larger numbers
    have hpairwise := h.pairwise_marks
    rw [hsplit, List.pairwise_append, List.pairwise_cons] at hpairwise
    rw [hsplit, List.mem_append, List.mem_cons] at hparent
    rcases hparent with hbefore | heq | hafter
    · exact hbefore
    · exact absurd (Mark.circle.inj heq) (Nat.ne_of_gt hlt)
    · exact absurd (hpairwise.2.1.1 _ hafter) (Nat.not_le_of_lt hlt)

end PostOrdered

/-! ## The files -/

/-- A file whose statements are those of the marks. Its items are the marks with some looks. -/
structure IsFileOf (marks : List Mark) (text : String) : Prop where
  items : ∃ items, text = graphText items ∧ items.map Item.mark = marks
  statements : statementTexts text.toList = marks.map fun m => m.statement.text

theorem isFileOf_graphText {items : List Item} {marks : List Mark} (h : Draws items marks) :
    IsFileOf marks (graphText items) := by
  refine ⟨⟨items, rfl, h.marks⟩, ?_⟩
  rw [statementTexts_graphText h.oneLine, ← h.marks, List.map_map]
  rfl

/-- Both drawings of a diagram, with any sub-circuit, are files of the same statements, and these are
a drawing of the diagram. -/
theorem Built.depicted (hs : s.Built) (hroot : s.Knows root) (hwords : s.varCount < Decimal.pow2 32)
    (hplaces : Weight.OneLinePlaces W) : ∃ ix marks, s.PostOrdered root ix ∧
      s.Depicts root ix marks ∧ (∃ text, s.sddDot root {} = .ok text ∧ IsFileOf marks text) ∧
      ∀ sub, ∃ text, s.psddDot root sub {} = .ok text ∧ IsFileOf marks text := by
  obtain ⟨ix, h⟩ := hs.postOrdered hroot
  obtain ⟨order, hnumbering⟩ := exists_numbering hs.closed hroot
  have hlabel : ∀ label, s.nodeLabel {} root = .ok label → OneLine label :=
    fun _ => oneLine_nodeLabel oneLineConfig_default
  refine ⟨ix, s.marks ix root, h, h.depicts, ?_, fun sub => ?_⟩
  · obtain ⟨text, htext⟩ := hnumbering.exists_sddDot {}
    obtain ⟨items, hitems, hgraph⟩ := bind_eq_ok.1 htext
    obtain rfl := Except.ok.inj hgraph
    have hdraws := draws (oneLine_plainLook oneLineConfig_default) hlabel hitems h.indexing
    exact ⟨_, htext, isFileOf_graphText hdraws⟩
  · obtain ⟨text, htext⟩ := hnumbering.exists_psddDot hs.sound hwords sub {}
    obtain ⟨items, hitems, hgraph⟩ := bind_eq_ok.1 htext
    obtain rfl := Except.ok.inj hgraph
    have hlook := oneLine_weightedLook (s := s) hplaces oneLineConfig_default sub
    exact ⟨_, htext, isFileOf_graphText (draws hlook hlabel hitems h.indexing)⟩

/-- The sample with a decision at id 9 that refers to its two other decisions. -/
def nestedSample : Store Extreme :=
  sample.make ⟨.decision ⟨1⟩ [⟨⟨6⟩, ⟨8⟩⟩], none⟩ false

theorem built_nestedSample : nestedSample.Built := by
  have hfork : sample.vtree.IsFork ⟨1⟩ := ⟨_, _, _, rfl⟩
  refine built_sample.step (.make (n := ⟨.decision ⟨1⟩ [⟨⟨6⟩, ⟨8⟩⟩], none⟩) (b := false)
    (.decision hfork fun θ hθ => absurd hθ (by simp)) rfl (by decide) fun _ => ?_)
  simp [sample, conjunction, make, noted, canonical?, ofVtree]

/-- The last decision of the nested sample is drawn with edges to the circles of the other two. -/
theorem depicted_nestedSample : nestedSample.Knows ⟨9⟩ ∧ nestedSample.varCount < Decimal.pow2 32 ∧
    ∃ ix marks text, nestedSample.PostOrdered ⟨9⟩ ix ∧ nestedSample.Depicts ⟨9⟩ ix marks ∧
      nestedSample.sddDot ⟨9⟩ {} = .ok text ∧ IsFileOf marks text ∧
      .link 7 0 .left 4 ∈ marks ∧ .link 7 0 .right 6 ∈ marks := by
  have hroot : nestedSample.Knows ⟨9⟩ := by decide
  have hwords : nestedSample.varCount < Decimal.pow2 32 := by decide
  obtain ⟨ix, marks, hordered, hdepicts, ⟨text, htext, hfile⟩, -⟩ :=
    built_nestedSample.depicted hroot hwords Extreme.oneLinePlaces
  have horder : ix.order.toList
      = [⟨2⟩, ⟨3⟩, ⟨4⟩, .bottom, ⟨6⟩, ⟨7⟩, ⟨8⟩, ⟨9⟩] :=
    Except.ok.inj ((hordered.recursion 10 (by decide)).symm.trans rfl)
  have hnumber : ∀ (id : NodeId) (n : Nat), ix.order.toList[n]? = some id → ix.indexOf? id = some n :=
    fun id n hn => (hordered.indexOf?_eq_some id n).2 (by rwa [Array.getElem?_toList] at hn)
  have hparent : nestedSample.DrawnAs ⟨9⟩ ix 7 ⟨9⟩ [⟨⟨6⟩, ⟨8⟩⟩] :=
    ⟨.refl, ⟨_, rfl⟩, hnumber _ _ (by rw [horder]; rfl)⟩
  have hleft : nestedSample.DrawnAs ⟨9⟩ ix 4 ⟨6⟩ conjunction :=
    ⟨(hordered.mem_iff _).1 (by rw [horder]; decide), ⟨_, rfl⟩, hnumber _ _ (by rw [horder]; rfl)⟩
  have hright : nestedSample.DrawnAs ⟨9⟩ ix 6 ⟨8⟩ weightedConjunction :=
    ⟨(hordered.mem_iff _).1 (by rw [horder]; decide), ⟨_, rfl⟩, hnumber _ _ (by rw [horder]; rfl)⟩
  exact ⟨hroot, hwords, ix, marks, text, hordered, hdepicts, htext, hfile,
    (hdepicts.link_iff 7 0 .left 4).2 ⟨_, _, _, _, hparent, rfl, hleft⟩,
    (hdepicts.link_iff 7 0 .right 6).2 ⟨_, _, _, _, hparent, rfl, hright⟩⟩

end Sentential.Store
