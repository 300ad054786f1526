import Sentential.Dot.Diagram
import Sentential.Proofs.Meaning.ModelCount

/-!
# Drawings that can be made

A diagram whose nodes can be numbered can be drawn with every look that answers for its nodes
(`Numbering.exists_draw`). The plain look always does, and the look with weights does if variables
are words of 32 bits, as they have to be for the literals in the labels.
-/

namespace Sentential

open Dot

/-- The literal of a variable that is a word. -/
theorem Literal.exists_positive {var : Nat} (hpos : 1 ≤ var) (hword : var < Decimal.pow2 32) :
    ∃ l, Literal.positive var.toUInt32 = .ok l := by
  have hpow : Decimal.pow2 32 = 2 ^ 32 := rfl
  have hnat : var.toUInt32.toNat = var := by
    rw [UInt32.toNat_ofNat', Nat.mod_eq_of_lt (by omega)]
  have hnonzero : Literal.signed var.toUInt32 ≠ 0 := by
    intro hzero
    have hword : var.toUInt32 = 0 := by
      apply UInt32.eq_of_toBitVec_eq
      exact BitVec.eq_of_toInt_eq hzero
    rw [hword] at hnat
    exact absurd hnat.symm (by simpa using Nat.pos_iff_ne_zero.1 hpos)
  exact ⟨⟨_, hnonzero⟩, dif_neg hnonzero⟩

namespace Store

variable {W : Type} [Weight W] {s : Store W} {config : DotConfig} {look : Look} {sub : SubCircuit}
  {root id : NodeId} {order : List NodeId}

/-! ## Drawing with a look that answers -/

/-- The look answers for the nodes of a list. -/
structure Answers (look : Look) (order : List NodeId) : Prop where
  cell : ∀ id ∈ order, ∃ label, look.cell id = .ok label
  circle : ∀ id ∈ order, ∃ color, look.circle id = .ok color
  paint : ∀ id ∈ order, ∀ i x, ∃ paint, look.paint id i x = .ok paint

namespace Numbering

variable (h : s.Numbering root order)
include h

theorem exists_indexOf (hid : id ∈ order) : ∃ n, (Indexing.ofList order).indexOf id = .ok n := by
  obtain ⟨n, hn⟩ := List.mem_iff_getElem?.1 hid
  exact ⟨n, indexOf_ofList h.nodup hn⟩

/-- The nodes below a numbered node are numbered. -/
theorem mem_of_mem {v : VtreeId} {es : List Element} (hid : id ∈ order)
    (hkind : s.kind id = .ok (.decision v es)) :
    ∀ x ∈ es, x.prime ∈ order ∧ x.sub ∈ order := by
  intro x hx
  have hreaches := (h.mem_iff id).1 hid
  exact ⟨(h.mem_iff _).2 (hreaches.tail (refers_of_mem hkind (Indexing.prime_mem_nodesBelow hx))),
    (h.mem_iff _).2 (hreaches.tail (refers_of_mem hkind (Indexing.sub_mem_nodesBelow hx)))⟩

theorem exists_kind (hid : id ∈ order) : ∃ k, s.kind id = .ok k := knows_iff_kind.1 (h.known id hid)

theorem exists_drawLink (hid : id ∈ order) (n i : Nat) (paint : Option Paint) (side : Side) :
    ∃ items, s.drawLink (Indexing.ofList order) n i paint side id = .ok items := by
  obtain ⟨k, hkind⟩ := h.exists_kind hid
  obtain ⟨m, hm⟩ := h.exists_indexOf hid
  unfold drawLink
  rw [hkind, ok_bind]
  split
  · rw [hm]
    exact ⟨_, rfl⟩
  · exact ⟨_, rfl⟩

section

variable (hlook : Answers look order)
include hlook

theorem exists_drawElement (hid : id ∈ order) {x : Element} (hx : x.prime ∈ order ∧ x.sub ∈ order)
    (n i : Nat) :
    ∃ items, s.drawElement (Indexing.ofList order) look id n i x = .ok items := by
  obtain ⟨paint, hpaint⟩ := hlook.paint id hid i x
  obtain ⟨left, hleft⟩ := hlook.cell x.prime hx.1
  obtain ⟨right, hright⟩ := hlook.cell x.sub hx.2
  obtain ⟨links, hlinks⟩ := h.exists_drawLink hx.1 n i paint .left
  obtain ⟨links', hlinks'⟩ := h.exists_drawLink hx.2 n i paint .right
  unfold drawElement
  rw [hpaint, ok_bind, hleft, ok_bind, hright, ok_bind, hlinks, ok_bind, hlinks']
  exact ⟨_, rfl⟩

theorem exists_drawElements (hid : id ∈ order) {es : List Element}
    (hes : ∀ x ∈ es, x.prime ∈ order ∧ x.sub ∈ order) (n i : Nat) :
    ∃ items, s.drawElements (Indexing.ofList order) look id n i es = .ok items := by
  induction es generalizing i with
  | nil => exact ⟨[], rfl⟩
  | cons x es ih =>
    obtain ⟨hx, hes⟩ := List.forall_mem_cons.1 hes
    obtain ⟨items, hitems⟩ := h.exists_drawElement hlook hid hx n i
    obtain ⟨rest, hrest⟩ := ih hes (i + 1)
    rw [drawElements, hitems, ok_bind, hrest]
    exact ⟨_, rfl⟩

theorem exists_drawNode (hid : id ∈ order) :
    ∃ items, s.drawNode (Indexing.ofList order) look id = .ok items := by
  obtain ⟨k, hkind⟩ := h.exists_kind hid
  unfold drawNode
  rw [hkind, ok_bind]
  cases k with
  | decision v es =>
    obtain ⟨n, hn⟩ := h.exists_indexOf hid
    obtain ⟨color, hcolor⟩ := hlook.circle id hid
    obtain ⟨items, hitems⟩ := h.exists_drawElements hlook hid (h.mem_of_mem hid hkind) n 0
    simp only [hn, ok_bind, hcolor, hitems]
    exact ⟨_, rfl⟩
  | _ => exact ⟨[], rfl⟩

theorem exists_drawNodes {ids : List NodeId} (hids : ∀ id ∈ ids, id ∈ order) :
    ∃ items, s.drawNodes (Indexing.ofList order) look ids = .ok items := by
  induction ids with
  | nil => exact ⟨[], rfl⟩
  | cons id ids ih =>
    obtain ⟨hid, hids⟩ := List.forall_mem_cons.1 hids
    obtain ⟨items, hitems⟩ := h.exists_drawNode hlook hid
    obtain ⟨rest, hrest⟩ := ih hids
    rw [drawNodes, hitems, ok_bind, hrest]
    exact ⟨_, rfl⟩

/-- A diagram whose root has a plain label can be drawn. -/
theorem exists_draw (hlabel : ∃ label, s.nodeLabel config root = .ok label) :
    ∃ items, s.draw config look root = .ok items := by
  have hroot : root ∈ order := (h.mem_iff root).2 .refl
  obtain ⟨k, hkind⟩ := h.exists_kind hroot
  obtain ⟨n, hn⟩ := h.exists_indexOf hroot
  obtain ⟨label, hlabel⟩ := hlabel
  obtain ⟨items, hitems⟩ := h.exists_drawNodes hlook fun id hid => List.mem_reverse.1 hid
  unfold draw
  rw [h.indexing, ok_bind, hkind, ok_bind, Indexing.order_ofList, hitems]
  split
  · exact ⟨_, rfl⟩
  · rw [hn, hlabel]
    exact ⟨_, rfl⟩

end
end Numbering

/-! ## The two looks -/

theorem exists_nodeLabel (hid : s.Knows id) (config : DotConfig) :
    ∃ label, s.nodeLabel config id = .ok label := by
  obtain ⟨e, he⟩ := knows_iff.1 hid
  unfold nodeLabel
  rw [kind_of_entry he, ok_bind]
  cases e.kind <;> exact ⟨_, rfl⟩

theorem answers_plainLook (hknown : ∀ id ∈ order, s.Knows id) (config : DotConfig) :
    Answers (s.plainLook config) order :=
  ⟨fun id hid => exists_nodeLabel (hknown id hid) config, fun _ _ => ⟨_, rfl⟩,
    fun _ _ _ _ => ⟨_, rfl⟩⟩

/-- The two weights of a TRUE node can be shown. -/
theorem exists_placesOf {θ : Theta W} (hθ : θ.length = 2) {i : Nat} (hi : i < 2) :
    ∃ text, placesOf θ i = .ok text := by
  have hlen : i < θ.normalized.length := by
    unfold Theta.normalized
    rw [List.length_map]
    exact hi.trans_eq hθ.symm
  unfold placesOf
  rw [List.getElem?_eq_getElem hlen]
  exact ⟨_, rfl⟩

theorem exists_topLabel {var : Nat} (hpos : 1 ≤ var) (hword : var < Decimal.pow2 32)
    {θ : Option (Theta W)} (hθ : ∀ t, θ = some t → t.length = 2) (config : DotConfig)
    (chosen : Option Choice) : ∃ label, topLabel config var chosen θ = .ok label := by
  obtain ⟨l, hl⟩ := Literal.exists_positive hpos hword
  unfold topLabel
  rw [hl, ok_bind]
  cases θ with
  | none => rcases chosen with _ | _ | b <;> exact ⟨_, rfl⟩
  | some t =>
    obtain ⟨p, hp⟩ := exists_placesOf (hθ t rfl) Nat.one_lt_two
    rcases chosen with _ | _ | b
    · simp only [hp]
      exact ⟨_, rfl⟩
    · simp only [hp]
      exact ⟨_, rfl⟩
    · obtain ⟨q, hq⟩ := exists_placesOf (hθ t rfl) (Bool.toNat_lt b)
      simp only [hq]
      exact ⟨_, rfl⟩

section

variable (hs : s.Sound)
include hs

/-- A TRUE node shows its variable and one of its two weights. -/
theorem exists_weightedLabel (hid : s.Knows id) (hwords : s.varCount < Decimal.pow2 32)
    (sub : SubCircuit) (config : DotConfig) :
    ∃ label, s.weightedLabel sub config id = .ok label := by
  obtain ⟨label, hlabel⟩ := exists_nodeLabel hid config
  obtain ⟨e, he⟩ := knows_iff.1 hid
  unfold weightedLabel
  rw [he, ok_bind]
  rcases hs.cases he with ⟨-, rfl⟩ | ⟨-, rfl⟩ | ⟨l, -, rfl⟩ | ⟨-, hmade⟩
  · exact ⟨label, hlabel⟩
  · exact ⟨label, hlabel⟩
  · exact ⟨label, hlabel⟩
  · obtain ⟨⟨kind, theta⟩, b⟩ := e
    cases hmade with
    | @top var leaf θ hleaf hθ =>
      have hsubtree := hs.vtree.leafOf_iff.1 hleaf
      have hrange := hs.ownVars_subset_all id
      rw [ownVars_eq (vtreeOf_top (kind_of_entry he)) hsubtree] at hrange
      have hvar : var ∈ Finset.Icc 1 s.varCount := hrange (by simp [Vtree.Tree.leafVars])
      rw [Finset.mem_Icc] at hvar
      simp only [Vtree.subtree_eq_ok.2 hsubtree, ok_bind, Vtree.Tree.var?]
      exact exists_topLabel hvar.1 (by omega) (fun t ht => Option.some_inj.1 ht ▸ hθ) config _
    | decision => exact ⟨label, hlabel⟩

theorem answers_weightedLook (hknown : ∀ id ∈ order, s.Knows id)
    (hwords : s.varCount < Decimal.pow2 32) (sub : SubCircuit) (config : DotConfig) :
    Answers (s.weightedLook sub config) order := by
  have hvtreeOf : ∀ id ∈ order, ∃ v, s.vtreeOf id = .ok v := by
    intro id hid
    rcases hs.vtreeOf_cases (hknown id hid) with hnone | ⟨v, t, hv, -⟩
    · exact ⟨_, hnone⟩
    · exact ⟨_, hv⟩
  constructor
  case cell => exact fun id hid => exists_weightedLabel hs (hknown id hid) hwords sub config
  case circle =>
    intro id hid
    obtain ⟨v, hv⟩ := hvtreeOf id hid
    simp only [weightedLook, hv]
    exact ⟨_, rfl⟩
  case paint =>
    intro id hid i x
    obtain ⟨v, hv⟩ := hvtreeOf id hid
    obtain ⟨e, he⟩ := knows_iff.1 (hknown id hid)
    simp only [weightedLook, he, ok_bind, hv]
    exact ⟨_, rfl⟩

end

/-! ## Drawings -/

/-- A diagram whose nodes can be numbered can be drawn without its weights. -/
theorem Numbering.exists_sddDot (h : s.Numbering root order) (config : DotConfig) :
    ∃ text, s.sddDot root config = .ok text := by
  have hroot := h.known root ((h.mem_iff root).2 .refl)
  obtain ⟨items, hitems⟩ := h.exists_draw (answers_plainLook h.known config)
    (exists_nodeLabel hroot config)
  unfold sddDot
  rw [hitems]
  exact ⟨_, rfl⟩

/-- It can be drawn with weights and with any sub-circuit. -/
theorem Numbering.exists_psddDot (h : s.Numbering root order) (hs : s.Sound)
    (hwords : s.varCount < Decimal.pow2 32) (sub : SubCircuit) (config : DotConfig) :
    ∃ text, s.psddDot root sub config = .ok text := by
  have hroot := h.known root ((h.mem_iff root).2 .refl)
  obtain ⟨items, hitems⟩ := h.exists_draw (answers_weightedLook hs h.known hwords sub config)
    (exists_nodeLabel hroot config)
  unfold psddDot
  rw [hitems]
  exact ⟨_, rfl⟩

end Store
end Sentential
