import Sentential.Dot.Diagram
import Sentential.Proofs.Store.Copy

/-!
# Drawings of copies

A drawing names its items by the positions of the nodes, so a copy of a diagram is drawn as the
diagram is, as long as the looks of a node and of its copy are the same. The looks of plain
drawings are; those of drawings with weights are if a node is selected where its copy is.
-/

namespace Sentential

namespace Dot

/-- Looks that say of the copy of a node what they say of the node. -/
structure SameLook (f : NodeId → NodeId) (order : List NodeId) (look look' : Look) : Prop where
  cell : ∀ id ∈ order, look'.cell (f id) = look.cell id
  circle : ∀ id ∈ order, look'.circle (f id) = look.circle id
  paint : ∀ id ∈ order, ∀ (i : Nat) (x : Element), x.prime ∈ order → x.sub ∈ order →
    look'.paint (f id) i (x.map f) = look.paint id i x

end Dot

namespace SubCircuit

/-- Sub-circuits that select of the copy of a node what they select of the node. -/
structure SameChoices (f : NodeId → NodeId) (order : List NodeId) (sub sub' : SubCircuit) :
    Prop where
  chosen : ∀ id ∈ order, ∀ v, (sub'.choiceAt? v (f id)).isSome = (sub.choiceAt? v id).isSome
  value : ∀ id ∈ order, ∀ (v : VtreeId) (b : Bool),
    sub'.choiceAt? v (f id) = some (.value b) ↔ sub.choiceAt? v id = some (.value b)
  element : ∀ id ∈ order, ∀ (v : VtreeId) (x : Element), x.prime ∈ order → x.sub ∈ order →
    (sub'.choiceAt? v (f id) = some (.element (x.map f)) ↔
      sub.choiceAt? v id = some (.element x))

/-- Nothing is selected of any node. -/
theorem choiceAt?_empty (v : VtreeId) (id : NodeId) : empty.choiceAt? v id = none := by
  unfold choiceAt? nodeAt? empty
  rw [Std.HashMap.getElem?_empty]
  rfl

theorem sameChoices_empty (f : NodeId → NodeId) (order : List NodeId) :
    SameChoices f order .empty .empty := by
  constructor <;> simp [choiceAt?_empty]

theorem sameChoices_self (order : List NodeId) (sub : SubCircuit) :
    SameChoices (fun id => id) order sub sub :=
  ⟨fun _ _ _ => rfl, fun _ _ _ _ => Iff.rfl, fun _ _ _ _ _ _ => Iff.rfl⟩

end SubCircuit

namespace Store

open Dot

variable {W : Type} [Weight W] {s s' : Store W} {id root root' : NodeId} {f : NodeId → NodeId}
  {order : List NodeId} {figs : List Figure} {config : DotConfig}

namespace Copies

variable (h : Copies f s root s' root') (ho : s.Outlines root order figs)
include h ho

/-! ## Layout -/

section

variable {look look' : Look} (hlook : SameLook f order look look')

theorem drawLink (hid : id ∈ order) (n i : Nat) (paint : Option Paint) (side : Side) :
    s'.drawLink (.ofList (order.map f)) n i paint side (f id)
      = s.drawLink (.ofList order) n i paint side id := by
  obtain ⟨k, hkind⟩ := knows_iff_kind.1 (ho.known id hid)
  unfold Store.drawLink
  rw [hkind, h.kind (ho.mem_iff.1 hid) hkind, h.indexOf ho hid]
  cases k <;> rfl

include hlook

theorem drawElement (hid : id ∈ order) (n i : Nat) {x : Element} (hprime : x.prime ∈ order)
    (hsub : x.sub ∈ order) : s'.drawElement (.ofList (order.map f)) look' (f id) n i (x.map f)
      = s.drawElement (.ofList order) look id n i x := by
  unfold Store.drawElement
  rw [hlook.paint id hid i x hprime hsub]
  unfold Element.map
  simp only [hlook.cell _ hprime, hlook.cell _ hsub, h.drawLink ho hprime, h.drawLink ho hsub]

theorem drawElements (hid : id ∈ order) (n i : Nat) {es : List Element}
    (hes : ∀ x ∈ Indexing.nodesBelow es, x ∈ order) :
    s'.drawElements (.ofList (order.map f)) look' (f id) n i (es.map (Element.map f))
      = s.drawElements (.ofList order) look id n i es := by
  induction es generalizing i with
  | nil => rfl
  | cons e es ih =>
    obtain ⟨⟨hprime, hsub⟩, hrest⟩ := forall_nodesBelow_cons.1 hes
    rw [List.map_cons, Store.drawElements, Store.drawElements,
      h.drawElement ho hlook hid n i hprime hsub, ih (i + 1) hrest]

theorem drawNode (hid : id ∈ order) : s'.drawNode (.ofList (order.map f)) look' (f id)
    = s.drawNode (.ofList order) look id := by
  obtain ⟨k, hkind⟩ := knows_iff_kind.1 (ho.known id hid)
  unfold Store.drawNode
  rw [hkind, h.kind (ho.mem_iff.1 hid) hkind, ok_bind, ok_bind]
  cases k with
  | decision v es =>
    have hes : ∀ x ∈ Indexing.nodesBelow es, x ∈ order := ho.listed hid (elements_of_kind hkind)
    simp only [Kind.map, h.indexOf ho hid, hlook.circle id hid, h.drawElements ho hlook hid _ 0 hes]
  | _ => rfl

theorem drawNodes {ids : List NodeId} (hids : ∀ id ∈ ids, id ∈ order) :
    s'.drawNodes (.ofList (order.map f)) look' (ids.map f)
      = s.drawNodes (.ofList order) look ids := by
  induction ids with
  | nil => rfl
  | cons id ids ih =>
    rw [List.map_cons, Store.drawNodes, Store.drawNodes,
      h.drawNode ho hlook (hids id List.mem_cons_self),
      ih fun x hx => hids x (List.mem_cons_of_mem _ hx)]

end

theorem nodeLabel (hid : id ∈ order) (config : DotConfig) :
    s'.nodeLabel config (f id) = s.nodeLabel config id := by
  obtain ⟨k, hkind⟩ := knows_iff_kind.1 (ho.known id hid)
  unfold Store.nodeLabel
  rw [hkind, h.kind (ho.mem_iff.1 hid) hkind, ok_bind, ok_bind]
  cases k <;> rfl

theorem draw {look look' : Look} (hlook : SameLook f order look look') :
    s'.draw config look' root' = s.draw config look root := by
  have hroot : root ∈ order := ho.mem_iff.2 .refl
  obtain ⟨k, hkind⟩ := knows_iff_kind.1 (ho.known root hroot)
  have hdecision : (k.map f).isDecision = k.isDecision := by cases k <;> rfl
  unfold Store.draw
  rw [ho.indexing, (h.outlines ho).indexing, ok_bind, ok_bind, ← h.apply_root, hkind,
    h.kind .refl hkind, ok_bind, ok_bind, hdecision, h.indexOf ho hroot, h.nodeLabel ho hroot,
    Indexing.order_ofList, Indexing.order_ofList, ← List.map_reverse,
    h.drawNodes ho hlook fun id hid => List.mem_reverse.1 hid]

/-! ## Looks -/

theorem sameLook_plain (config : DotConfig) :
    SameLook f order (s.plainLook config) (s'.plainLook config) :=
  ⟨fun _ hid => h.nodeLabel ho hid config, fun _ _ => rfl, fun _ _ _ _ _ _ => rfl⟩

theorem sddDot (config : DotConfig) : s'.sddDot root' config = s.sddDot root config := by
  unfold Store.sddDot
  rw [h.draw ho (h.sameLook_plain ho config)]

omit h ho in
/-- The label of a TRUE node depends on a selected value only. -/
theorem topLabel_congr {var : Nat} {chosen chosen' : Option Choice} {theta : Option (Theta W)}
    (hvalue : ∀ b, chosen' = some (.value b) ↔ chosen = some (.value b)) :
    topLabel config var chosen' theta = topLabel config var chosen theta := by
  by_cases hb : ∃ b, chosen = some (.value b)
  · obtain ⟨b, hb⟩ := hb
    rw [hb, (hvalue b).2 hb]
  · have hnone : ∀ {c : Option Choice}, (∀ b, c ≠ some (.value b)) →
        topLabel config var c theta = topLabel config var none theta := by
      intro c hc
      match c, hc with
      | none, _ => rfl
      | some (.element x), _ => cases theta <;> rfl
      | some (.value b), hc => exact absurd rfl (hc b)
    rw [hnone fun b hc => hb ⟨b, hc⟩, hnone fun b hc => hb ⟨b, (hvalue b).1 hc⟩]

variable (hs : s.Sound) (hs' : s'.Sound) {sub sub' : SubCircuit}
  (hchoices : SubCircuit.SameChoices f order sub sub')
include hs hs' hchoices

theorem weightedLabel (hid : id ∈ order) (config : DotConfig) :
    s'.weightedLabel sub' config (f id) = s.weightedLabel sub config id := by
  obtain ⟨⟨⟨kind, theta⟩, b⟩, he⟩ := knows_iff.1 (ho.known id hid)
  unfold Store.weightedLabel
  rw [he, h.entry ho hs hs' hid he, ok_bind, ok_bind, h.nodeLabel ho hid, h.vtree]
  unfold Entry.map
  cases kind with
  | top leaf =>
    cases leaf with
    | none => rfl
    | some leaf => simp only [Kind.map, topLabel_congr (hchoices.value id hid leaf)]
  | _ => rfl

theorem sameLook_weighted (config : DotConfig) :
    SameLook f order (s.weightedLook sub config) (s'.weightedLook sub' config) := by
  constructor
  case cell => exact fun id hid => h.weightedLabel ho hs hs' hchoices hid config
  case circle =>
    intro id hid
    unfold Store.weightedLook
    simp only [h.vtreeOf ho hid]
    cases s.vtreeOf id with
    | error e => rfl
    | ok v =>
      cases v with
      | none => rfl
      | some v => simp only [ok_bind, Option.bind_some, hchoices.chosen id hid v]
  case paint =>
    intro id hid i x hprime hsub
    obtain ⟨e, he⟩ := knows_iff.1 (ho.known id hid)
    unfold Store.weightedLook
    simp only [he, h.entry ho hs hs' hid he, h.vtreeOf ho hid]
    cases s.vtreeOf id with
    | error e => rfl
    | ok v =>
      cases v with
      | none => rfl
      | some v =>
        simp only [ok_bind, Option.bind_some, hchoices.element id hid v x hprime hsub]
        rfl

theorem psddDot (config : DotConfig) :
    s'.psddDot root' sub' config = s.psddDot root sub config := by
  unfold Store.psddDot
  rw [h.draw ho (h.sameLook_weighted ho hs hs' hchoices config)]

end Copies
end Store
end Sentential
