import Sentential.Proofs.Format.DiagramLine

/-!
# Diagram files of outlines

A diagram file holds one row for every node, and the row depends on the figure of the node and on
the vtree alone (`Figure.sddRow`). So the file of a diagram is the file of its outline, and every
row can be read back as soon as the nodes that its numbers stand for are there.
-/

namespace Sentential

open Format Text

/-! ## Writing -/

namespace Figure

/-- The fields of the numbers of elements. -/
def pairFields (es : List (Nat × Nat)) : List Field :=
  es.flatMap fun x => [natField x.1, natField x.2]

theorem isField_pairFields (es : List (Nat × Nat)) : ∀ f ∈ pairFields es, IsField f := by
  intro f hf
  obtain ⟨x, -, hf⟩ := List.mem_flatMap.1 hf
  simp only [List.mem_cons, List.not_mem_nil, or_false] at hf
  rcases hf with rfl | rfl
  · exact isField_natField x.1
  · exact isField_natField x.2

/-- The row of a node in a diagram file. -/
def sddRow (v : Vtree) (i : Nat) : Figure → Except Fault (List Field)
  | bottom => .ok [['F'], natField i]
  | top _ => .ok [['T'], natField i]
  | literal l => do
    return [['L'], natField i, natField (← v.leafOf l.var).raw, intField l.value]
  | decision u es =>
    .ok (['D'] :: natField i :: natField u.raw :: natField es.length :: pairFields es)

/-- The rows of some figures that are numbered from `i` on. -/
def sddRows (v : Vtree) (i : Nat) : List Figure → Except Fault (List (List Field))
  | [] => .ok []
  | fig :: figs => do
    let row ← fig.sddRow v i
    return row :: (← sddRows v (i + 1) figs)

/-- Rows that can be written one by one can be written together. -/
theorem exists_sddRows {v : Vtree} {i : Nat} {figs : List Figure}
    (h : ∀ (j : Nat) (fig : Figure), figs[j]? = some fig → ∃ fs, fig.sddRow v (i + j) = .ok fs) :
    ∃ rows, sddRows v i figs = .ok rows ∧ rows.length = figs.length ∧
      ∀ (j : Nat) (fig : Figure), figs[j]? = some fig →
        ∃ fs, rows[j]? = some fs ∧ fig.sddRow v (i + j) = .ok fs := by
  induction figs generalizing i with
  | nil => exact ⟨[], rfl, rfl, by simp⟩
  | cons fig figs ih =>
    obtain ⟨fs, hfs⟩ := h 0 fig rfl
    obtain ⟨rows, hrows, hlen, hget⟩ := ih (i := i + 1) fun j fig' hfig' => by
      rw [Nat.add_assoc, Nat.add_comm 1 j]
      exact h (j + 1) fig' hfig'
    refine ⟨fs :: rows, ?_, congrArg (· + 1) hlen, fun j fig' hfig' => ?_⟩
    · rw [sddRows, show fig.sddRow v i = .ok fs from hfs, ok_bind, hrows]
      rfl
    · cases j with
      | zero =>
        obtain rfl := Option.some_inj.1 hfig'
        exact ⟨fs, rfl, hfs⟩
      | succ j =>
        obtain ⟨fs', hfs', hrow⟩ := hget j fig' hfig'
        rw [Nat.add_assoc, Nat.add_comm 1 j] at hrow
        exact ⟨fs', hfs', hrow⟩

end Figure

namespace Store

variable {W : Type} [Weight W] {s : Store W} {id root : NodeId} {order : List NodeId}

theorem sddElements_ofList (h : order.Nodup) {es : List (Nat × Nat)}
    (hes : ∀ x ∈ es, x.1 < order.length ∧ x.2 < order.length) :
    sddElements (Indexing.ofList order) (es.map (Figure.element order))
      = .ok (Figure.pairFields es) := by
  induction es with
  | nil => rfl
  | cons x es ih =>
    obtain ⟨hprime, hsub⟩ := indexOf_element h (hes x List.mem_cons_self)
    rw [List.map_cons, sddElements, hprime, hsub, ok_bind, ok_bind,
      ih fun y hy => hes y (List.mem_cons_of_mem _ hy)]
    rfl

/-- The line of a node is the row of its figure. -/
theorem sddLine_eq (h : order.Nodup) {fig : Figure} (hkind : s.kind id = .ok (fig.kind order))
    (hwithin : fig.Within order.length) (i : Nat) :
    s.sddLine (Indexing.ofList order) i id = fig.sddRow s.vtree i := by
  unfold sddLine
  rw [hkind, ok_bind]
  cases fig with
  | decision v es =>
    have helements : sddElements (Indexing.ofList order) (es.map (Figure.element order))
        = .ok (Figure.pairFields es) := sddElements_ofList h hwithin
    show (do return ['D'] :: natField i :: natField v.raw :: natField (es.map _).length ::
      (← sddElements _ (es.map (Figure.element order)))) = _
    rw [List.length_map, helements]
    rfl
  | _ => rfl

theorem sddLines_eq {ix : Indexing} {ids : List NodeId} {figs : List Figure} (i : Nat)
    (hlen : figs.length = ids.length) (h : ∀ (j : Nat) (id : NodeId) (fig : Figure),
      ids[j]? = some id → figs[j]? = some fig → ∀ i, s.sddLine ix i id = fig.sddRow s.vtree i) :
    s.sddLines ix i ids = Figure.sddRows s.vtree i figs := by
  induction ids generalizing i figs with
  | nil =>
    obtain rfl := List.length_eq_zero_iff.1 hlen
    rfl
  | cons x ids ih =>
    cases figs with
    | nil => exact absurd hlen (by simp)
    | cons fig figs =>
      rw [sddLines, Figure.sddRows, h 0 x fig rfl rfl i,
        ih (i + 1) (Nat.succ.inj hlen) fun j id fig hid hfig => h (j + 1) id fig hid hfig]

/-- The comments of a diagram file. -/
def sddComments : List (List Char) := sddHeader.map String.toList

/-- The file of a diagram is that of its outline. -/
theorem Outlines.sddText {figs : List Figure} (h : s.Outlines root order figs) {rows : List (List Field)}
    (hrows : Figure.sddRows s.vtree 0 figs = .ok rows) :
    s.sddText root = .ok (fileOf sddComments (["sdd".toList, natField figs.length] :: rows)) := by
  have hlines : s.sddLines (Indexing.ofList order) 0 order = .ok rows := by
    rw [← hrows]
    refine sddLines_eq 0 h.length fun j id fig hid hfig i => ?_
    obtain ⟨hkind, hwithin⟩ := h.kinds j id fig hid hfig
    have hlt := (List.getElem?_eq_some_iff.1 hid).1
    exact sddLine_eq h.nodup hkind (hwithin.mono (Nat.le_of_lt hlt)) i
  unfold Store.sddText
  rw [h.indexing, format_liftM_ok, ok_bind, Indexing.order_ofList, hlines, format_liftM_ok, ok_bind,
    Indexing.size_ofList, ← h.length]
  rfl

/-! ## Reading -/

/-- The two sides of a vtree node take the primes and the subs of some elements. -/
def Normalized (s : Store W) (v : VtreeId) (es : List Element) : Prop := s.NormalizedBy s.fits v es

variable {ids : List NodeId} {n i : Nat} {fs : List Field}

/-- The fields of elements are read as the elements. -/
theorem readElements_eq {r : Record} {es : List (Nat × Nat)} {j : Nat}
    (hfields : r.fields.drop j = Figure.pairFields es)
    (hes : ∀ x ∈ es, x.1 < ids.length ∧ x.2 < ids.length) (hword : ids.length ≤ Decimal.pow2 32) :
    readElements (.filled n ids) r j es.length = .ok (es.map (Figure.element ids)) := by
  induction es generalizing j with
  | nil => rfl
  | cons x es ih =>
    obtain ⟨hp, hs⟩ := hes x List.mem_cons_self
    have hget : ∀ k, r.fields[j + k]? = (Figure.pairFields (x :: es))[k]? := by
      intro k
      rw [← hfields, List.getElem?_drop]
    have helement : readElement (.filled n ids) r j = .ok (Figure.element ids x) :=
      readElement_eq (hget 0) (hget 1) (Nat.lt_of_lt_of_le hp hword) (Nat.lt_of_lt_of_le hs hword)
        (Slots.get_filled (getElem?_of_lt hp)) (Slots.get_filled (getElem?_of_lt hs))
    have hrest : r.fields.drop (j + 2) = Figure.pairFields es := by
      rw [← List.drop_drop, hfields]
      rfl
    rw [List.length_cons, readElements, helement, ok_bind,
      ih hrest fun y hy => hes y (List.mem_cons_of_mem _ hy)]
    rfl

theorem length_pairFields (es : List (Nat × Nat)) : (Figure.pairFields es).length = 2 * es.length := by
  induction es with
  | nil => rfl
  | cons x es ih =>
    show (Figure.pairFields es).length + 2 = _
    rw [ih, List.length_cons]
    omega

section

variable (hs : s.Sound) (hwords : s.vtree.Addressable) {v : VtreeId}
  {es : List (Nat × Nat)} (hes : ∀ x ∈ es, x.1 < ids.length ∧ x.2 < ids.length)
  (hword : ids.length ≤ Decimal.pow2 32) (hsize : es.length < Decimal.pow2 60)
  (hnormal : s.Normalized v (es.map (Figure.element ids))) {r : Record}
  (hfields : r.fields
      = ['D'] :: natField i :: natField v.raw :: natField es.length :: Figure.pairFields es)
include hs hwords hes hword hsize hnormal hfields

/-- The row of a decision is read as its vtree node and its elements. -/
theorem readDecision_eq :
    s.readDecision (.filled n ids) r i = .ok (v, es.map (Figure.element ids)) := by
  obtain ⟨k, l, l', hsub, hfits⟩ := hnormal
  have hfork : s.readFork r = .ok (v, l, l') :=
    readFork_eq hsub (by rw [hfields]; rfl) (hs.raw_lt_word hwords hsub)
  have hread : readSize 2 r = .ok es.length := by
    apply readSize_eq (by rw [hfields]; rfl) (by decide) hsize
    rw [hfields]
    simp only [List.length_cons, length_pairFields]
    omega
  have helements : readElements (.filled n ids) r 4 es.length = .ok (es.map (Figure.element ids)) :=
    readElements_eq (by rw [hfields]; rfl) hes hword
  exact readDecision_parts.2 ⟨l, l', es.length, hfork, hread, helements, hfits⟩

/-- The row of a decision is read as the lookup of the decision. -/
theorem buildSdd_decision :
    s.buildSdd (.filled n ids) r i
      = (liftM (s.lookup (es.map (Figure.element ids)) v).1,
          (s.lookup (es.map (Figure.element ids)) v).2) := by
  unfold buildSdd
  rw [if_pos (tag_eq hfields), readDecision_eq hs hwords hes hword hsize hnormal hfields]

end

/-- The row of a terminal or a literal is read as the node that every store has for it. -/
theorem buildSdd_plain (hs : s.Sound) {fig : Figure} {r : Record}
    (hrow : fig.sddRow s.vtree i = .ok r.fields)
    (hplain : fig = .bottom ∨ fig = .top none ∨ ∃ l, fig = .literal l)
    (hwords : s.vtree.Addressable) (hid : s.canonical? (fig.kind ids) = some id)
    (t : Slots NodeId) : s.buildSdd t r i = (.ok id, s) := by
  rcases hplain with rfl | rfl | ⟨l, rfl⟩
  · obtain ⟨line, fs⟩ := r
    obtain rfl := Except.ok.inj hrow
    obtain rfl := Option.some_inj.1 hid
    rfl
  · obtain ⟨line, fs⟩ := r
    obtain rfl := Except.ok.inj hrow
    obtain rfl := Option.some_inj.1 hid
    rfl
  · obtain ⟨leaf, hleaf, hrow⟩ := bind_eq_ok.1 hrow
    have hfields := (Except.ok.inj hrow).symm
    have htag : tag r = ['L'] := tag_eq hfields
    have hcount : expectFields 4 r = .ok () := expectFields_eq_ok.2 (by rw [hfields]; rfl)
    unfold buildSdd readSddPlain
    rw [if_neg (by rw [htag]; decide), htag]
    simp only
    rw [hcount, ok_bind, readLiteral_eq hs hwords hid hleaf hfields]

/-! ## Rows -/

theorem comments_sddHeader : ∀ l ∈ sddComments, l.head? = some 'c' ∧ '\n' ∉ l := by
  decide +kernel

theorem isRow_sddRow {v : Vtree} {fig : Figure} (hfs : fig.sddRow v i = .ok fs) :
    IsRow fs ∧ fs[1]? = some (natField i) := by
  cases fig with
  | bottom =>
    obtain rfl := Except.ok.inj hfs
    exact ⟨isRow_node rfl (by decide) i (by simp), rfl⟩
  | top leaf =>
    obtain rfl := Except.ok.inj hfs
    exact ⟨isRow_node rfl (by decide) i (by simp), rfl⟩
  | literal l =>
    obtain ⟨leaf, -, hfs⟩ := bind_eq_ok.1 hfs
    obtain rfl := Except.ok.inj hfs
    exact ⟨isRow_node rfl (by decide) i (by simp), rfl⟩
  | decision u es =>
    obtain rfl := Except.ok.inj hfs
    exact ⟨isRow_node rfl (by decide) i (by simpa using Figure.isField_pairFields es), rfl⟩

end Store
end Sentential
