import Sentential.Dot.Diagram
import Sentential.Proofs.Outcome
import Sentential.Proofs.Store.Extension

/-!
# What a drawing shows

A drawing of a diagram goes through the nodes of its numbering and at each decision through the
elements in order. So it has an edge for every position of every decision, which looks as the look
says (`tie_mem_draw`).
-/

namespace Sentential.Store

open Dot

variable {W : Type} [Weight W] {s : Store W} {config : DotConfig} {ix : Indexing} {look : Look}
  {root id : NodeId} {es : List Element} {x : Element} {n i j : Nat} {items : List Item}

theorem tie_mem_drawElement (h : s.drawElement ix look id n i x = .ok items) :
    ∃ paint, look.paint id i x = .ok paint ∧ Item.tie n i paint ∈ items := by
  obtain ⟨paint, hpaint, h⟩ := bind_eq_ok.1 h
  obtain ⟨left, -, h⟩ := bind_eq_ok.1 h
  obtain ⟨right, -, h⟩ := bind_eq_ok.1 h
  obtain ⟨links, -, h⟩ := bind_eq_ok.1 h
  obtain ⟨links', -, h⟩ := bind_eq_ok.1 h
  obtain rfl := Except.ok.inj h
  exact ⟨paint, hpaint, List.mem_cons_of_mem _ List.mem_cons_self⟩

theorem tie_mem_drawElements (h : s.drawElements ix look id n j es = .ok items)
    (hx : es[i]? = some x) :
    ∃ paint, look.paint id (j + i) x = .ok paint ∧ Item.tie n (j + i) paint ∈ items := by
  induction es generalizing i j items with
  | nil => exact absurd hx (by simp)
  | cons y es ih =>
    obtain ⟨own, hown, h⟩ := bind_eq_ok.1 h
    obtain ⟨rest, hrest, h⟩ := bind_eq_ok.1 h
    obtain rfl := Except.ok.inj h
    cases i with
    | zero =>
      obtain rfl := Option.some_inj.1 hx
      obtain ⟨paint, hpaint, htie⟩ := tie_mem_drawElement hown
      exact ⟨paint, hpaint, List.mem_append_left _ htie⟩
    | succ i =>
      obtain ⟨paint, hpaint, htie⟩ := ih hrest hx
      rw [Nat.add_assoc, Nat.add_comm 1 i] at hpaint htie
      exact ⟨paint, hpaint, List.mem_append_right _ htie⟩

theorem tie_mem_drawNode (h : s.drawNode ix look id = .ok items) {v : VtreeId}
    (hkind : s.kind id = .ok (.decision v es)) (hx : es[i]? = some x) :
    ∃ n paint, ix.indexOf id = .ok n ∧ look.paint id i x = .ok paint ∧
      Item.tie n i paint ∈ items := by
  unfold drawNode at h
  rw [hkind, ok_bind] at h
  obtain ⟨n, hn, h⟩ := bind_eq_ok.1 h
  obtain ⟨color, -, h⟩ := bind_eq_ok.1 h
  obtain ⟨tables, htables, h⟩ := bind_eq_ok.1 h
  obtain rfl := Except.ok.inj h
  obtain ⟨paint, hpaint, htie⟩ := tie_mem_drawElements htables hx
  rw [Nat.zero_add] at hpaint htie
  exact ⟨n, paint, hn, hpaint, List.mem_cons_of_mem _ htie⟩

/-- The items of a node are among those of the nodes. -/
theorem drawNode_subset {ids : List NodeId} (h : s.drawNodes ix look ids = .ok items)
    (hid : id ∈ ids) : ∃ own, s.drawNode ix look id = .ok own ∧ own ⊆ items := by
  induction ids generalizing items with
  | nil => exact absurd hid (by simp)
  | cons y ids ih =>
    obtain ⟨own, hown, h⟩ := bind_eq_ok.1 h
    obtain ⟨rest, hrest, h⟩ := bind_eq_ok.1 h
    obtain rfl := Except.ok.inj h
    rcases List.mem_cons.1 hid with rfl | hid
    · exact ⟨own, hown, List.subset_append_left own rest⟩
    · obtain ⟨own', hown', hsub⟩ := ih hrest hid
      exact ⟨own', hown', List.Subset.trans hsub (List.subset_append_right own rest)⟩

/-- Behind the box of the root, if there is one, a drawing has the items of all nodes. -/
theorem draw_eq_ok (h : s.draw config look root = .ok items) (hix : s.indexing root = .ok ix) :
    ∃ box nodes, s.drawNodes ix look ix.order.toList.reverse = .ok nodes ∧
      items = box ++ nodes := by
  unfold draw at h
  rw [hix, ok_bind] at h
  obtain ⟨kind, -, h⟩ := bind_eq_ok.1 h
  simp only at h
  split at h
  · obtain ⟨box, -, h⟩ := bind_eq_ok.1 h
    obtain ⟨nodes, hnodes, h⟩ := bind_eq_ok.1 h
    exact ⟨box, nodes, hnodes, (Except.ok.inj h).symm⟩
  · obtain ⟨n, -, h⟩ := bind_eq_ok.1 h
    obtain ⟨label, -, h⟩ := bind_eq_ok.1 h
    obtain ⟨box, -, h⟩ := bind_eq_ok.1 h
    obtain ⟨nodes, hnodes, h⟩ := bind_eq_ok.1 h
    exact ⟨box, nodes, hnodes, (Except.ok.inj h).symm⟩

/-- A drawing has an edge for every position of every decision of the diagram. -/
theorem tie_mem_draw (h : s.draw config look root = .ok items) (hix : s.indexing root = .ok ix)
    (hid : id ∈ ix.order.toList) {v : VtreeId} (hkind : s.kind id = .ok (.decision v es))
    (hx : es[i]? = some x) : ∃ n paint, ix.indexOf id = .ok n ∧ look.paint id i x = .ok paint ∧
      Item.tie n i paint ∈ items := by
  obtain ⟨box, nodes, hnodes, rfl⟩ := draw_eq_ok h hix
  obtain ⟨own, hown, hsub⟩ := drawNode_subset hnodes (List.mem_reverse.2 hid)
  obtain ⟨n, paint, hn, hpaint, htie⟩ := tie_mem_drawNode hown hkind hx
  exact ⟨n, paint, hn, hpaint, List.mem_append_right _ (hsub htie)⟩

end Sentential.Store
