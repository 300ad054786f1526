import Sentential.Proofs.Format.Psdd
import Sentential.Proofs.Store.Copy

/-!
# Files of copies

A copy of a diagram is written as the diagram is: line by line the numbers, the vtree nodes and the
weights are the same, and ids of nodes are not written. Where a node has no weights to write, the
error names the node, and for the copy it names the copy.
-/

namespace Sentential

open Format Text

/-- The error about the renamed node. -/
def Format.FormatError.renamed (f : NodeId → NodeId) : FormatError → FormatError
  | .missingTheta id => .missingTheta (f id)
  | e => e

namespace Store

variable {W : Type} [Weight W] {s s' : Store W} {id root root' : NodeId} {f : NodeId → NodeId}
  {order : List NodeId} {figs : List Figure}

namespace Copies

variable (h : Copies f s root s' root') (ho : s.Outlines root order figs)
include h ho

/-! ## Diagram files -/

theorem sddElements {es : List Element} (hes : ∀ x ∈ Indexing.nodesBelow es, x ∈ order) :
    sddElements (.ofList (order.map f)) (es.map (Element.map f))
      = sddElements (.ofList order) es := by
  induction es with
  | nil => rfl
  | cons e es ih =>
    obtain ⟨⟨hprime, hsub⟩, hrest⟩ := forall_nodesBelow_cons.1 hes
    rw [List.map_cons, Store.sddElements, Store.sddElements, ih hrest]
    unfold Element.map
    rw [h.indexOf ho hprime, h.indexOf ho hsub]

theorem sddLine (hid : id ∈ order) (i : Nat) :
    s'.sddLine (.ofList (order.map f)) i (f id) = s.sddLine (.ofList order) i id := by
  obtain ⟨k, hkind⟩ := knows_iff_kind.1 (ho.known id hid)
  unfold Store.sddLine
  rw [hkind, h.kind (ho.mem_iff.1 hid) hkind, ok_bind, ok_bind, h.vtree]
  cases k with
  | decision v es =>
    have hes : ∀ x ∈ Indexing.nodesBelow es, x ∈ order := ho.listed hid (elements_of_kind hkind)
    simp only [Kind.map, h.sddElements ho hes, List.length_map]
  | _ => rfl

theorem sddLines {ids : List NodeId} (hids : ids ⊆ order) (i : Nat) :
    s'.sddLines (.ofList (order.map f)) i (ids.map f) = s.sddLines (.ofList order) i ids := by
  induction ids generalizing i with
  | nil => rfl
  | cons id ids ih =>
    rw [List.map_cons, Store.sddLines, Store.sddLines, h.sddLine ho (hids List.mem_cons_self),
      ih fun x hx => hids (List.mem_cons_of_mem _ hx)]

theorem sddText : s'.sddText root' = s.sddText root := by
  unfold Store.sddText
  rw [ho.indexing, (h.outlines ho).indexing, format_liftM_ok, format_liftM_ok, ok_bind, ok_bind,
    Indexing.order_ofList, Indexing.order_ofList, h.sddLines ho (fun x hx => hx),
    Indexing.size_ofList, Indexing.size_ofList, List.length_map]

/-! ## Probabilistic diagram files -/

theorem psddElements {es : List Element} (hes : ∀ x ∈ Indexing.nodesBelow es, x ∈ order)
    (logs : List W) : psddElements (.ofList (order.map f)) (es.map (Element.map f)) logs
      = psddElements (.ofList order) es logs := by
  induction es generalizing logs with
  | nil => rfl
  | cons e es ih =>
    cases logs with
    | nil => rfl
    | cons l logs =>
      obtain ⟨⟨hprime, hsub⟩, hrest⟩ := forall_nodesBelow_cons.1 hes
      rw [List.map_cons, Store.psddElements, Store.psddElements, ih hrest]
      unfold Element.map
      rw [h.indexOf ho hprime, h.indexOf ho hsub]

variable (hs : s.Sound) (hs' : s'.Sound)
include hs hs'

theorem psddLine (hid : id ∈ order) (i : Nat) : s'.psddLine (.ofList (order.map f)) i (f id)
    = (s.psddLine (.ofList order) i id).mapError (FormatError.renamed f) := by
  obtain ⟨⟨⟨kind, theta⟩, b⟩, he⟩ := knows_iff.1 (ho.known id hid)
  unfold Store.psddLine
  rw [he, h.entry ho hs hs' hid he, format_liftM_ok, format_liftM_ok, ok_bind, ok_bind, h.vtree]
  unfold Entry.map
  cases kind with
  | bottom => rfl
  | literal l =>
    simp only [Kind.map]
    cases s.vtree.leafOf l.var <;> rfl
  | top leaf =>
    cases leaf with
    | none => cases theta <;> rfl
    | some leaf =>
      cases theta with
      | none => rfl
      | some θ =>
        simp only [Kind.map]
        cases s.vtree.subtree leaf with
        | error e => rfl
        | ok t => cases t <;> cases θ.logs[1]? <;> rfl
  | decision v es =>
    cases theta with
    | none => rfl
    | some θ =>
      have hes : ∀ x ∈ Indexing.nodesBelow es, x ∈ order := ho.listed hid (elements_of_entry he)
      simp only [Kind.map, h.psddElements ho hes, List.length_map]
      cases Store.psddElements (.ofList order) es θ.logs <;> rfl

theorem psddLines {ids : List NodeId} (hids : ids ⊆ order) (i : Nat) :
    s'.psddLines (.ofList (order.map f)) i (ids.map f)
      = (s.psddLines (.ofList order) i ids).mapError (FormatError.renamed f) := by
  induction ids generalizing i with
  | nil => rfl
  | cons id ids ih =>
    rw [List.map_cons, Store.psddLines, Store.psddLines,
      h.psddLine ho hs hs' (hids List.mem_cons_self),
      ih fun x hx => hids (List.mem_cons_of_mem _ hx), mapError_bind]
    cases s.psddLine (.ofList order) i id with
    | error e => rfl
    | ok fs => cases s.psddLines (.ofList order) (i + 1) ids <;> rfl

theorem psddText :
    s'.psddText root' = (s.psddText root).mapError (FormatError.renamed f) := by
  unfold Store.psddText
  rw [ho.indexing, (h.outlines ho).indexing, format_liftM_ok, format_liftM_ok, ok_bind, ok_bind,
    Indexing.order_ofList, Indexing.order_ofList, h.psddLines ho hs hs' (fun x hx => hx),
    Indexing.size_ofList, Indexing.size_ofList, List.length_map]
  cases s.psddLines (.ofList order) 0 order <;> rfl

end Copies

/-! ## What keeps a diagram from being written -/

/-- A node of a diagram is written, or it has no weights. -/
theorem Outlines.psddLine_cases (ho : s.Outlines root order figs) (hs : s.Sound) (hid : id ∈ order)
    (i : Nat) : (∃ fs, s.psddLine (.ofList order) i id = .ok fs) ∨
      s.psddLine (.ofList order) i id = .error (.missingTheta id) := by
  obtain ⟨j, hj⟩ := List.mem_iff_getElem?.1 hid
  obtain ⟨fig, -, hkind, hwithin⟩ := ho.exists_figure hj
  have hlt := (List.getElem?_eq_some_iff.1 hj).1
  obtain ⟨⟨⟨kind, theta⟩, b⟩, he, rfl⟩ := kind_eq_ok.1 hkind
  have hrow : ∀ {fs : List Field}, fig.PsddRow s.vtree i theta fs →
      ∃ fs, s.psddLine (.ofList order) i id = .ok fs := fun hrow =>
    ⟨_, psddLine_eq hs ho.nodup he (hwithin.mono (Nat.le_of_lt hlt)) hrow⟩
  cases theta with
  | none =>
    cases fig with
    | bottom => exact Or.inl (hrow .bottom)
    | literal l =>
      obtain ⟨leaf, hleaf⟩ := hs.exists_leafOf hkind
      exact Or.inl (hrow (.literal l leaf hleaf))
    | top leaf =>
      right
      unfold psddLine
      rw [he]
      cases leaf <;> rfl
    | decision v es =>
      right
      unfold psddLine
      rw [he]
      rfl
  | some θ =>
    -- what has weights was made: it is a TRUE node with two or a decision with one for each element
    have hmade := hs.made he (hs.baseCount_le he rfl)
    cases fig with
    | bottom => cases hmade
    | literal l => cases hmade
    | top leaf =>
      obtain ⟨fs, hfs⟩ := hs.exists_psddRow_top he i
      exact Or.inl (hrow hfs)
    | decision v es =>
      have hlen : θ.length = es.length := (hs.length_theta he).trans (List.length_map _)
      exact Or.inl (hrow (.decision v es θ hlen))

theorem Outlines.psddLines_cases (ho : s.Outlines root order figs) (hs : s.Sound)
    {ids : List NodeId} (hids : ids ⊆ order) (i : Nat) :
    (∃ rows, s.psddLines (.ofList order) i ids = .ok rows) ∨
      ∃ id ∈ ids, s.psddLines (.ofList order) i ids = .error (.missingTheta id) := by
  induction ids generalizing i with
  | nil => exact Or.inl ⟨[], rfl⟩
  | cons id ids ih =>
    rw [Store.psddLines]
    rcases ho.psddLine_cases hs (hids List.mem_cons_self) i with ⟨fs, hfs⟩ | herr
    · rcases ih (fun x hx => hids (List.mem_cons_of_mem _ hx)) (i + 1) with
        ⟨rows, hrows⟩ | ⟨x, hx, hrows⟩
      · exact Or.inl ⟨fs :: rows, by rw [hfs, hrows]; rfl⟩
      · exact Or.inr ⟨x, List.mem_cons_of_mem _ hx, by rw [hfs, hrows]; rfl⟩
    · exact Or.inr ⟨id, List.mem_cons_self, by rw [herr]; rfl⟩

/-- A diagram is written as a probabilistic diagram, or one of its nodes has no weights. -/
theorem Outlines.psddText_cases (ho : s.Outlines root order figs) (hs : s.Sound) :
    (∃ text, s.psddText root = .ok text) ∨
      ∃ id, s.Reaches root id ∧ s.psddText root = .error (.missingTheta id) := by
  unfold Store.psddText
  rw [ho.indexing, format_liftM_ok, ok_bind, Indexing.order_ofList]
  rcases ho.psddLines_cases hs (fun x hx => hx) 0 with ⟨rows, hrows⟩ | ⟨id, hid, hrows⟩
  · exact Or.inl ⟨_, by rw [hrows]; rfl⟩
  · exact Or.inr ⟨id, ho.mem_iff.1 hid, by rw [hrows]; rfl⟩

end Store
end Sentential
