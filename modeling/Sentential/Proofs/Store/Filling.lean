import Sentential.Proofs.Store.Outline

/-!
# Building a diagram from its figures

A reader goes through the figures of a diagram and answers each with a node. On the way each node
so far is what its figure says with the numbers read in the list of the nodes so far (`Mirrors`).
Where the nodes so far are different as well (`Fills`), they are in the end the order of a diagram
with these figures (`Fills.outlines`).
-/

namespace Sentential.Store

open Indexing

variable {W : Type} [Weight W] {s s' s'' : Store W} {id root root' : NodeId}
  {order ids : List NodeId} {figs : List Figure}

/-- The nodes `ids` are what the first figures say. Different figures may have the same node. -/
structure Mirrors (s : Store W) (figs : List Figure) (ids : List NodeId) : Prop where
  short : ids.length ≤ figs.length
  kinds : ∀ (i : Nat) (id : NodeId) (fig : Figure), ids[i]? = some id → figs[i]? = some fig →
    s.kind id = .ok (fig.kind ids)

theorem mirrors_nil (s : Store W) (figs : List Figure) : s.Mirrors figs [] :=
  ⟨Nat.zero_le _, by simp⟩

/-- Numbers are read as nodes of the list that stand first at an earlier place. -/
theorem mem_of_mem_elements {es : List (Nat × Nat)} {i : Nat} (hes : ∀ x ∈ es, x.1 < i ∧ x.2 < i)
    (hi : i ≤ ids.length) (hid : id ∈ nodesBelow (es.map (Figure.element ids))) :
    id ∈ ids ∧ ids.idxOf id < i := by
  have hget : ∀ j < i, ids.getD j .bottom ∈ ids ∧ ids.idxOf (ids.getD j .bottom) < i := by
    intro j hj
    have hj' : ids[j]? = some (ids.getD j .bottom) := getElem?_of_lt (Nat.lt_of_lt_of_le hj hi)
    have hmem := List.mem_of_getElem? hj'
    rw [← List.getElem?_take_of_lt hj] at hj'
    exact ⟨hmem, (List.mem_take_iff_idxOf_lt hmem).1 (List.mem_of_getElem? hj')⟩
  obtain ⟨e, he, hor⟩ := mem_nodesBelow.1 hid
  obtain ⟨x, hx, rfl⟩ := List.mem_map.1 he
  obtain ⟨hp, hq⟩ := hes x hx
  rcases hor with rfl | rfl
  · exact hget _ hp
  · exact hget _ hq

namespace Mirrors

variable (h : s'.Mirrors figs ids)
include h

theorem exists_figure {i : Nat} (hid : ids[i]? = some id) : ∃ fig, figs[i]? = some fig := by
  have hlt := (List.getElem?_eq_some_iff.1 hid).1
  exact ⟨_, List.getElem?_eq_getElem (Nat.lt_of_lt_of_le hlt h.short)⟩

theorem known : ∀ id ∈ ids, s'.Knows id := by
  intro id hid
  obtain ⟨i, hi⟩ := List.mem_iff_getElem?.1 hid
  obtain ⟨fig, hfig⟩ := h.exists_figure hi
  exact knows_of_kind (h.kinds i id fig hi hfig)

/-- Elements with numbers of nodes that are there refer to nodes of the store. -/
theorem knowsBelow {es : List (Nat × Nat)} (hes : ∀ x ∈ es, x.1 < ids.length ∧ x.2 < ids.length) :
    s'.KnowsBelow (es.map (Figure.element ids)) :=
  fun id hid => h.known id (mem_of_mem_elements hes (Nat.le_refl _) hid).1

/-- A node of the next figure is added. -/
theorem concat (hwithin : ∀ (i : Nat) (fig : Figure), figs[i]? = some fig → fig.Within i)
    {fig : Figure} (hfig : figs[ids.length]? = some fig) (hext : s'.Extends s'')
    (hid : s''.kind id = .ok (fig.kind ids)) : s''.Mirrors figs (ids ++ [id]) := by
  refine ⟨?_, fun i x f hx hf => ?_⟩
  · rw [List.length_append, List.length_singleton]
    exact (List.getElem?_eq_some_iff.1 hfig).1
  · rcases getElem?_concat_eq_some.1 hx with hold | ⟨rfl, rfl⟩
    · have hlt := (List.getElem?_eq_some_iff.1 hold).1
      rw [Figure.kind_append ((hwithin i f hf).mono (Nat.le_of_lt hlt))]
      exact hext.kind (h.kinds i x f hold hf)
    · obtain rfl := Option.some_inj.1 (hfig.symm.trans hf)
      rw [Figure.kind_append (hwithin _ fig hfig)]
      exact hid

/-- The nodes refer to nodes that stand first at an earlier place. -/
theorem refers_earlier (hwithin : ∀ (i : Nat) (fig : Figure), figs[i]? = some fig → fig.Within i)
    (hid : id ∈ ids) {es : List Element} (hes : s'.elements id = .ok es) :
    ∀ x ∈ nodesBelow es, x ∈ ids ∧ ids.idxOf x < ids.idxOf id := by
  have hi : ids[ids.idxOf id]? = some id := List.getElem?_idxOf hid
  obtain ⟨fig, hfig⟩ := h.exists_figure hi
  obtain ⟨e, he, hkind⟩ := kind_eq_ok.1 (h.kinds _ id fig hi hfig)
  obtain rfl := Except.ok.inj ((elements_of_entry he).symm.trans hes)
  intro x hx
  rw [Node.elements, hkind, Figure.elements_kind] at hx
  exact mem_of_mem_elements (hwithin _ fig hfig) (List.getElem?_eq_some_iff.1 hi).1.le hx

end Mirrors

/-- The nodes `ids` are the first nodes of the figures. -/
structure Fills (s : Store W) (figs : List Figure) (ids : List NodeId) : Prop where
  nodup : ids.Nodup
  short : ids.length ≤ figs.length
  kinds : ∀ (i : Nat) (id : NodeId) (fig : Figure), ids[i]? = some id → figs[i]? = some fig →
    s.kind id = .ok (fig.kind ids)

theorem Fills.mirrors (h : s.Fills figs ids) : s.Mirrors figs ids := ⟨h.short, h.kinds⟩

theorem fills_nil (s : Store W) (figs : List Figure) : s.Fills figs [] :=
  ⟨.nil, Nat.zero_le _, by simp⟩

/-- The first nodes of a diagram fill its figures. -/
theorem Outlines.fills_take (h : s.Outlines root order figs) (k : Nat) :
    s.Fills figs (order.take k) := by
  refine ⟨h.nodup.sublist (List.take_sublist k order), ?_, fun i id fig hid hfig => ?_⟩
  · rw [h.length, List.length_take]
    exact Nat.min_le_right _ _
  · have hlt := (List.getElem?_eq_some_iff.1 hid).1
    have hik : i < k := by
      rw [List.length_take] at hlt
      omega
    rw [List.getElem?_take_of_lt hik] at hid
    obtain ⟨hkind, hwithin⟩ := h.kinds i id fig hid hfig
    rw [Figure.kind_take (hwithin.mono (Nat.le_of_lt hik))]
    exact hkind

namespace Fills

section

variable (h : s'.Fills figs ids)
include h

theorem exists_figure {i : Nat} (hid : ids[i]? = some id) : ∃ fig, figs[i]? = some fig :=
  h.mirrors.exists_figure hid

theorem known : ∀ id ∈ ids, s'.Knows id := h.mirrors.known

theorem knowsBelow {es : List (Nat × Nat)} (hes : ∀ x ∈ es, x.1 < ids.length ∧ x.2 < ids.length) :
    s'.KnowsBelow (es.map (Figure.element ids)) := h.mirrors.knowsBelow hes

theorem mono (hext : s'.Extends s'') : s''.Fills figs ids :=
  ⟨h.nodup, h.short, fun i id fig hid hfig => hext.kind (h.kinds i id fig hid hfig)⟩

end

variable (h : s'.Fills figs ids) (ho : s.Outlines root order figs)
include h ho

/-- A node of the next figure is added. -/
theorem concat {fig : Figure} (hfig : figs[ids.length]? = some fig) (hnew : id ∉ ids)
    (hext : s'.Extends s'') (hid : s''.kind id = .ok (fig.kind ids)) :
    s''.Fills figs (ids ++ [id]) := by
  have hmirrors := h.mirrors.concat (fun i f hf => ho.within hf (Nat.le_refl i)) hfig hext hid
  exact ⟨List.nodup_append_comm.1 (List.nodup_cons.2 ⟨hnew, h.nodup⟩), hmirrors.short,
    hmirrors.kinds⟩

/-- If nodes of the next figure have no weights in the diagram of the figures, the figure is a new
one, so a node that it is answered with is new as well. -/
theorem notMem (hs : s.Sound) {fig : Figure} (hfig : figs[ids.length]? = some fig)
    (hplain : ∀ (i : Nat) (id : NodeId), order[i]? = some id → figs[i]? = some fig →
      ∃ b, s.entry id = .ok ⟨⟨fig.kind order, none⟩, b⟩)
    (hid : s'.kind id = .ok (fig.kind ids)) : id ∉ ids := by
  intro hmem
  obtain ⟨j, hj⟩ := List.mem_iff_getElem?.1 hmem
  have hlt := (List.getElem?_eq_some_iff.1 hj).1
  obtain ⟨figj, hfigj⟩ := h.exists_figure hj
  -- one node has one kind, and over different nodes a kind has one figure
  have hkinds := Except.ok.inj (hid.symm.trans (h.kinds j id figj hj hfigj))
  obtain rfl : fig = figj := Figure.kind_injective h.nodup (ho.within hfig (Nat.le_refl _))
    (ho.within hfigj (Nat.le_of_lt hlt)) hkinds
  -- but then two nodes without weights in the diagram of the figures are one
  obtain ⟨x, hx⟩ := ho.getElem hfig
  obtain ⟨y, hy⟩ := ho.getElem hfigj
  obtain ⟨bx, hex⟩ := hplain _ x hx hfig
  obtain ⟨by', hey⟩ := hplain _ y hy hfigj
  have hxy := hs.eq_of_kind_eq hex hey
  rw [hxy, ← hy] at hx
  have hltx : ids.length < order.length := by
    rw [← ho.length]
    exact (List.getElem?_eq_some_iff.1 hfig).1
  exact List.nodup_iff_getElem?_ne_getElem?.1 ho.nodup j ids.length hlt hltx hx.symm

/-- Nodes of one figure belong to one vtree node. -/
theorem vtreeOf_eq (hvtree : s'.vtree = s.vtree) {i : Nat} (hi : i < ids.length) :
    s'.vtreeOf (ids.getD i .bottom) = s.vtreeOf (order.getD i .bottom) := by
  have hid := getElem?_of_lt hi
  obtain ⟨fig, hfig⟩ := h.exists_figure hid
  have hltfig := (List.getElem?_eq_some_iff.1 hfig).1
  have hid₀ := getElem?_of_lt (ho.length ▸ hltfig)
  unfold vtreeOf
  rw [(ho.kinds i _ fig hid₀ hfig).1, h.kinds i _ fig hid hfig, ok_bind, ok_bind, hvtree]
  cases fig <;> rfl

theorem outlines (hlen : ids.length = figs.length) (hlast : ids.getLast? = some root') :
    s'.Outlines root' ids figs :=
  ho.transport (hlen.trans ho.length) h.nodup hlast h.kinds

end Fills
end Sentential.Store
