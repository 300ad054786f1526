import Sentential.Dot.Diagram
import Sentential.Proofs.Dot.Statements
import Sentential.Proofs.Outcome
import Sentential.Proofs.Walk.PostOrder

/-!
# What is drawn, whatever it looks like

A drawing goes through the numbered nodes with a look, but which items it has does not depend on the
look: they are `Store.marks`, which are made of the nodes and their numbers alone. So all drawings
of a diagram have the same statements, and these can be read off their files if the look gives
labels without line breaks (`Store.draws`). Both looks do, as long as weights take one line.
-/

namespace Sentential

namespace Dot

open Text

/-- The node that a cell stands for. -/
def Side.node : Side → Element → NodeId
  | left, x => x.prime
  | right, x => x.sub

theorem Side.node_mem (side : Side) {x : Element} {es : List Element} (h : x ∈ es) :
    side.node x ∈ Indexing.nodesBelow es := by
  cases side with
  | left => exact Indexing.prime_mem_nodesBelow h
  | right => exact Indexing.sub_mem_nodesBelow h

/-- All answers of a look are without line breaks. -/
structure Look.OneLine (look : Look) : Prop where
  cell : ∀ id label, look.cell id = .ok label → Dot.OneLine label
  circle : ∀ id color, look.circle id = .ok (some color) → Dot.OneLine color
  paint : ∀ id i x p, look.paint id i x = .ok (some p) → p.OneLine

/-- All texts of a configuration are without line breaks. -/
structure OneLineConfig (config : DotConfig) : Prop where
  labels : OneLine config.labels
  highlight : OneLine config.highlight
  base : OneLine config.base

theorem oneLineConfig_default : OneLineConfig {} := ⟨by decide, by decide, by decide⟩

/-- The items are those of the marks, and their labels are without line breaks. -/
structure Draws (items : List Item) (marks : List Mark) : Prop where
  marks : items.map Item.mark = marks
  oneLine : ∀ x ∈ items, x.OneLine

variable {items items' : List Item} {ms ms' : List Mark} {x : Item}

theorem draws_nil : Draws [] [] := ⟨rfl, by simp⟩

theorem Draws.append (h : Draws items ms) (h' : Draws items' ms') :
    Draws (items ++ items') (ms ++ ms') :=
  ⟨by rw [List.map_append, h.marks, h'.marks],
    List.forall_mem_append.2 ⟨h.oneLine, h'.oneLine⟩⟩

theorem Draws.cons (hx : x.OneLine) (h : Draws items ms) : Draws (x :: items) (x.mark :: ms) :=
  ⟨by rw [List.map_cons, h.marks], List.forall_mem_cons.2 ⟨hx, h.oneLine⟩⟩

end Dot

namespace Store

open Dot Text

variable {W : Type} [Weight W] (s : Store W) (ix : Indexing)

/-! ## The marks of a diagram -/

/-- The edge from a cell, if the cell stands for a decision. -/
def linkMarks (n i : Nat) (side : Side) (child : NodeId) : List Mark :=
  match s.kind child, ix.indexOf? child with
  | .ok (.decision _ _), some m => [.link n i side m]
  | _, _ => []

/-- The table of an element and the edges at it. -/
def elementMarks (n i : Nat) (x : Element) : List Mark :=
  .table n i :: .tie n i ::
    (s.linkMarks ix n i .left x.prime ++ s.linkMarks ix n i .right x.sub)

/-- The circle of a decision with its elements; other nodes have nothing. -/
def nodeMarks (id : NodeId) : List Mark :=
  match s.kind id, ix.indexOf? id with
  | .ok (.decision _ es), some n =>
    .circle n :: es.zipIdx.flatMap fun x => s.elementMarks ix n x.2 x.1
  | _, _ => []

/-- The box of a root that is no decision. -/
def boxMarks (root : NodeId) : List Mark :=
  match s.kind root, ix.indexOf? root with
  | .ok (.decision _ _), _ => []
  | _, some n => [.box n]
  | _, none => []

/-- Everything that is drawn of the diagram of a root. -/
def marks (root : NodeId) : List Mark :=
  s.boxMarks ix root ++ ix.order.toList.reverse.flatMap (s.nodeMarks ix)

/-! ## Drawings have these marks -/

variable {s ix} {config : DotConfig} {look : Look} {root id : NodeId} {items : List Item}

theorem indexOf_eq_ok {n : Nat} : ix.indexOf id = .ok n ↔ ix.indexOf? id = some n := by
  unfold Indexing.indexOf
  cases ix.indexOf? id <;> simp

theorem draws_link {n i : Nat} {paint : Option Paint} {side : Side}
    (hpaint : ∀ p, paint = some p → p.OneLine)
    (h : s.drawLink ix n i paint side id = .ok items) : Draws items (s.linkMarks ix n i side id) := by
  obtain ⟨k, hkind, h⟩ := bind_eq_ok.1 h
  unfold linkMarks
  rw [hkind]
  cases k with
  | decision v es =>
    obtain ⟨m, hm, h⟩ := bind_eq_ok.1 h
    obtain rfl := Except.ok.inj h
    rw [indexOf_eq_ok.1 hm]
    exact draws_nil.cons hpaint
  | _ =>
    obtain rfl := Except.ok.inj h
    exact draws_nil

section

variable (hlook : look.OneLine)
include hlook

theorem draws_element {n i : Nat} {x : Element}
    (h : s.drawElement ix look id n i x = .ok items) : Draws items (s.elementMarks ix n i x) := by
  obtain ⟨paint, hpaint, h⟩ := bind_eq_ok.1 h
  obtain ⟨left, hleft, h⟩ := bind_eq_ok.1 h
  obtain ⟨right, hright, h⟩ := bind_eq_ok.1 h
  obtain ⟨links, hlinks, h⟩ := bind_eq_ok.1 h
  obtain ⟨links', hlinks', h⟩ := bind_eq_ok.1 h
  obtain rfl := Except.ok.inj h
  have hp : ∀ p, paint = some p → p.OneLine := by
    rintro p rfl
    exact hlook.paint id i x p hpaint
  have htable : (Item.table n i paint left right).OneLine :=
    ⟨hp, hlook.cell _ _ hleft, hlook.cell _ _ hright⟩
  have htie : (Item.tie n i paint).OneLine := hp
  exact (((draws_link hp hlinks).append (draws_link hp hlinks')).cons htie).cons htable

theorem draws_elements {n i : Nat} {es : List Element}
    (h : s.drawElements ix look id n i es = .ok items) :
    Draws items ((es.zipIdx i).flatMap fun x => s.elementMarks ix n x.2 x.1) := by
  induction es generalizing i items with
  | nil =>
    obtain rfl := Except.ok.inj h
    exact draws_nil
  | cons x es ih =>
    obtain ⟨own, hown, h⟩ := bind_eq_ok.1 h
    obtain ⟨rest, hrest, h⟩ := bind_eq_ok.1 h
    obtain rfl := Except.ok.inj h
    exact (draws_element hlook hown).append (ih hrest)

theorem draws_node (h : s.drawNode ix look id = .ok items) : Draws items (s.nodeMarks ix id) := by
  obtain ⟨k, hkind, h⟩ := bind_eq_ok.1 h
  unfold nodeMarks
  rw [hkind]
  cases k with
  | decision v es =>
    obtain ⟨n, hn, h⟩ := bind_eq_ok.1 h
    obtain ⟨color, hcolor, h⟩ := bind_eq_ok.1 h
    obtain ⟨tables, htables, h⟩ := bind_eq_ok.1 h
    obtain rfl := Except.ok.inj h
    have hcircle : (Item.circle n v color).OneLine := by
      rintro c rfl
      exact hlook.circle id c hcolor
    rw [indexOf_eq_ok.1 hn]
    exact (draws_elements hlook htables).cons hcircle
  | _ =>
    obtain rfl := Except.ok.inj h
    exact draws_nil

theorem draws_nodes {ids : List NodeId} (h : s.drawNodes ix look ids = .ok items) :
    Draws items (ids.flatMap (s.nodeMarks ix)) := by
  induction ids generalizing items with
  | nil =>
    obtain rfl := Except.ok.inj h
    exact draws_nil
  | cons id ids ih =>
    obtain ⟨own, hown, h⟩ := bind_eq_ok.1 h
    obtain ⟨rest, hrest, h⟩ := bind_eq_ok.1 h
    obtain rfl := Except.ok.inj h
    exact (draws_node hlook hown).append (ih hrest)

/-- A drawing with labels without line breaks has the marks of the diagram. -/
theorem draws (hlabel : ∀ label, s.nodeLabel config root = .ok label → OneLine label)
    (h : s.draw config look root = .ok items) (hix : s.indexing root = .ok ix) :
    Draws items (s.marks ix root) := by
  unfold draw at h
  rw [hix, ok_bind] at h
  obtain ⟨k, hkind, h⟩ := bind_eq_ok.1 h
  unfold marks boxMarks
  rw [hkind]
  cases k with
  | decision v es =>
    obtain ⟨box, hbox, h⟩ := bind_eq_ok.1 h
    obtain rfl := Except.ok.inj hbox
    obtain ⟨nodes, hnodes, h⟩ := bind_eq_ok.1 h
    obtain rfl := Except.ok.inj h
    exact draws_nil.append (draws_nodes hlook hnodes)
  | _ =>
    obtain ⟨n, hn, h⟩ := bind_eq_ok.1 h
    obtain ⟨label, hl, h⟩ := bind_eq_ok.1 h
    obtain ⟨box, hbox, h⟩ := bind_eq_ok.1 h
    obtain rfl := Except.ok.inj hbox
    obtain ⟨nodes, hnodes, h⟩ := bind_eq_ok.1 h
    obtain rfl := Except.ok.inj h
    have hitem : (Item.box n label).OneLine := hlabel label hl
    rw [indexOf_eq_ok.1 hn]
    exact (draws_nil.cons hitem).append (draws_nodes hlook hnodes)

end

/-! ## Both looks are without line breaks -/

theorem oneLine_append {a b : String} (ha : OneLine a) (hb : OneLine b) : OneLine (a ++ b) := by
  rw [OneLine, String.toList_append, List.mem_append, not_or]
  exact ⟨ha, hb⟩

theorem oneLine_ofList {cs : List Char} (h : '\n' ∉ cs) : OneLine (String.ofList cs) := by
  rwa [OneLine, String.toList_ofList]

theorem oneLine_literalLabel (hconfig : OneLineConfig config) (l : Literal) :
    OneLine (literalLabel config l) := by
  have hsign : OneLine (if l.isNegative then "&not;" else "") := by
    split <;> decide
  refine oneLine_append hsign (oneLine_append (oneLine_append (by decide) ?_) (by decide))
  split
  · next c hc =>
    refine oneLine_ofList ?_
    rw [List.mem_singleton]
    rintro rfl
    exact hconfig.labels (List.mem_of_getElem? hc)
  · have hnat : '\n' ∉ natField l.var := Decimal.notMem_digits (by decide) l.var
    rwa [← toList_repr] at hnat

theorem oneLine_nodeLabel (hconfig : OneLineConfig config) {label : String}
    (h : s.nodeLabel config id = .ok label) : OneLine label := by
  obtain ⟨k, -, h⟩ := bind_eq_ok.1 h
  cases k with
  | literal l =>
    obtain rfl := Except.ok.inj h
    exact oneLine_literalLabel hconfig l
  | bottom =>
    obtain rfl := Except.ok.inj h
    decide
  | top leaf =>
    obtain rfl := Except.ok.inj h
    decide
  | decision v es =>
    obtain rfl := Except.ok.inj h
    decide

theorem oneLine_plainLook (hconfig : OneLineConfig config) : (s.plainLook config).OneLine :=
  ⟨fun _ _ => oneLine_nodeLabel hconfig, fun _ _ h => absurd h (by simp [plainLook]),
    fun _ _ _ _ h => absurd h (by simp [plainLook])⟩

section Weights

variable (hplaces : Weight.OneLinePlaces W)
include hplaces

theorem oneLine_placesOf {θ : Theta W} {i : Nat} {text : String} (h : placesOf θ i = .ok text) :
    OneLine text := by
  unfold placesOf at h
  split at h
  · obtain rfl := Except.ok.inj h
    exact oneLine_ofList (hplaces _)
  · exact absurd h (by simp)

theorem oneLine_topLabel (hconfig : OneLineConfig config) {var : Nat} {chosen : Option Choice}
    {theta : Option (Theta W)} {label : String} (h : topLabel config var chosen theta = .ok label) :
    OneLine label := by
  obtain ⟨l, -, h⟩ := bind_eq_ok.1 h
  have hliteral := oneLine_literalLabel hconfig l
  have hsign : ∀ b : Bool, OneLine (if b then "" else "&not;") := by decide
  have hshown : ∀ {p : String}, OneLine p → OneLine s!"{literalLabel config l}:{p}" := fun hp =>
    oneLine_append (oneLine_append hliteral (by decide)) hp
  have hhidden : OneLine s!"{literalLabel config l}:." := oneLine_append hliteral (by decide)
  simp only at h
  split at h
  · obtain ⟨p, hp, h⟩ := bind_eq_ok.1 h
    obtain rfl := Except.ok.inj h
    exact oneLine_append (hsign _) (hshown (oneLine_placesOf hplaces hp))
  · obtain rfl := Except.ok.inj h
    exact oneLine_append (hsign _) hhidden
  · obtain ⟨p, hp, h⟩ := bind_eq_ok.1 h
    obtain rfl := Except.ok.inj h
    exact hshown (oneLine_placesOf hplaces hp)
  · obtain rfl := Except.ok.inj h
    exact hhidden

theorem oneLine_weightedLabel (hconfig : OneLineConfig config) {sub : SubCircuit} {label : String}
    (h : s.weightedLabel sub config id = .ok label) : OneLine label := by
  obtain ⟨node, -, h⟩ := bind_eq_ok.1 h
  split at h
  · obtain ⟨t, -, h⟩ := bind_eq_ok.1 h
    split at h
    · exact oneLine_topLabel hplaces hconfig h
    · exact oneLine_nodeLabel hconfig h
  · exact oneLine_nodeLabel hconfig h

theorem oneLine_edgeLabel (e : Entry W) (i : Nat) : OneLine (edgeLabel e i) := by
  unfold edgeLabel
  split
  · decide
  · split
    · decide
    · split
      · decide
      · split
        · decide
        · exact oneLine_ofList (hplaces _)

theorem oneLine_weightedLook (hconfig : OneLineConfig config) (sub : SubCircuit) :
    (s.weightedLook sub config).OneLine := by
  have hcolor : ∀ (p : Prop) [Decidable p],
      OneLine (if p then config.highlight else config.base) := by
    intro p _
    split
    · exact hconfig.highlight
    · exact hconfig.base
  constructor
  case cell => exact fun _ _ h => oneLine_weightedLabel hplaces hconfig h
  case circle =>
    intro id color h
    obtain ⟨v, -, h⟩ := bind_eq_ok.1 h
    obtain rfl := Option.some_inj.1 (Except.ok.inj h)
    exact hcolor _
  case paint =>
    intro id i x p h
    obtain ⟨e, -, h⟩ := bind_eq_ok.1 h
    obtain ⟨v, -, h⟩ := bind_eq_ok.1 h
    obtain rfl := Option.some_inj.1 (Except.ok.inj h)
    exact ⟨oneLine_edgeLabel hplaces e i, hcolor _⟩

end Weights
end Store
end Sentential
