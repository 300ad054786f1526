import Sentential.Dot.Basic
import Sentential.Dot.SubCircuit
import Sentential.Store.Indexing

/-!
# Drawing a diagram

The items of a drawing follow the numbering of the diagram backwards, so the root comes first and
every decision before those below it. `Store.draw` lays the items out; what the cells say and how
circles and elements are painted is a `Look`, of which there are two: the plain one, and the one
for a probabilistic diagram, which shows weights and a selected sub-circuit.
-/

namespace Sentential

/-- The choices that a drawing leaves open. -/
structure DotConfig where
  /-- The character at a variable's position names the variable; variables beyond show their
  number. -/
  labels : String := "0ABCDEFGHIJKLMNOPQRSTUVWXYZ"
  /-- The color of what is selected. -/
  highlight : String := "red"
  /-- The color of everything else. -/
  base : String := "black"
deriving Repr

namespace Dot

/-- What is left open by the layout of a drawing. -/
structure Look where
  /-- The label of a cell. -/
  cell : NodeId → Except Fault String
  /-- The color of a decision's circle. -/
  circle : NodeId → Except Fault (Option String)
  /-- The looks of the element at a position of a decision. -/
  paint : NodeId → Nat → Element → Except Fault (Option Paint)

/-- The label of a literal, marked as variable text. -/
def literalLabel (config : DotConfig) (l : Literal) : String :=
  let name := match config.labels.toList[l.var]? with
    | some c => String.ofList [c]
    | none => toString l.var
  (if l.isNegative then "&not;" else "") ++ s!"<I>{name}</I>"

end Dot

namespace Store

open Dot

variable {W : Type} [Weight W]

/-! ## Layout -/

/-- The edge from a cell, if the cell stands for a decision. -/
def drawLink (s : Store W) (ix : Indexing) (n i : Nat) (paint : Option Paint) (side : Side)
    (child : NodeId) : Except Fault (List Item) := do
  if (← s.kind child).isDecision then return [.link n i side (← ix.indexOf child) paint]
  return []

/-- The table of an element and the edges at it. -/
def drawElement (s : Store W) (ix : Indexing) (look : Look) (id : NodeId) (n i : Nat)
    (e : Element) : Except Fault (List Item) := do
  let paint ← look.paint id i e
  let left ← look.cell e.prime
  let right ← look.cell e.sub
  let links ← s.drawLink ix n i paint .left e.prime
  let links' ← s.drawLink ix n i paint .right e.sub
  return .table n i paint left right :: .tie n i paint :: (links ++ links')

/-- The elements of a decision from position `i` on. -/
def drawElements (s : Store W) (ix : Indexing) (look : Look) (id : NodeId) (n : Nat) :
    Nat → List Element → Except Fault (List Item)
  | _, [] => .ok []
  | i, e :: es => do
    let items ← s.drawElement ix look id n i e
    return items ++ (← s.drawElements ix look id n (i + 1) es)

/-- The items of one node, which has some only if it is a decision. -/
def drawNode (s : Store W) (ix : Indexing) (look : Look) (id : NodeId) :
    Except Fault (List Item) := do
  match ← s.kind id with
  | .decision v es =>
    let n ← ix.indexOf id
    return .circle n v (← look.circle id) :: (← s.drawElements ix look id n 0 es)
  | _ => return []

/-- The items of some nodes. -/
def drawNodes (s : Store W) (ix : Indexing) (look : Look) :
    List NodeId → Except Fault (List Item)
  | [] => .ok []
  | id :: ids => do
    let items ← s.drawNode ix look id
    return items ++ (← s.drawNodes ix look ids)

/-- The label of a node in plain drawings. A decision leaves its cell blank. -/
def nodeLabel (s : Store W) (config : DotConfig) (id : NodeId) : Except Fault String := do
  match ← s.kind id with
  | .bottom => return "&#8869;"
  | .top _ => return "&#8868;"
  | .literal l => return literalLabel config l
  | .decision .. => return "   "

/-- The drawing of a diagram. -/
def draw (s : Store W) (config : DotConfig) (look : Look) (root : NodeId) :
    Except Fault (List Item) := do
  let ix ← s.indexing root
  let box ← if (← s.kind root).isDecision then pure []
    else pure [Item.box (← ix.indexOf root) (← s.nodeLabel config root)]
  return box ++ (← s.drawNodes ix look ix.order.toList.reverse)

/-! ## Plain drawings -/

/-- Labels without colors. -/
def plainLook (s : Store W) (config : DotConfig) : Look where
  cell := s.nodeLabel config
  circle _ := .ok none
  paint _ _ _ := .ok none

/-- The drawing of a diagram without its weights. -/
def sddDot (s : Store W) (root : NodeId) (config : DotConfig) : Except Fault String := do
  return graphText (← s.draw config (s.plainLook config) root)

/-! ## Drawings with weights -/

/-- The part that a weight of a TRUE node has, to two places. -/
def placesOf (θ : Theta W) (i : Nat) : Except Fault String :=
  match θ.normalized[i]? with
  | some w => .ok (String.ofList (Weight.placesText w))
  | none => .error .outOfRange

/-- The label of a TRUE node over a variable: the variable and its probability, or the selected
value and the probability of that. Without weights a point stands for the probability. -/
def topLabel (config : DotConfig) (var : Nat) (chosen : Option Choice) (theta : Option (Theta W)) :
    Except Fault String := do
  let label := literalLabel config (← Literal.positive var.toUInt32)
  match chosen, theta with
  | some (.value b), some θ =>
    let p ← placesOf θ b.toNat
    return (if b then "" else "&not;") ++ s!"{label}:{p}"
  | some (.value b), none => return (if b then "" else "&not;") ++ s!"{label}:."
  | _, some θ =>
    let p ← placesOf θ 1
    return s!"{label}:{p}"
  | _, none => return s!"{label}:."

/-- The label of a node in drawings with weights. -/
def weightedLabel (s : Store W) (sub : SubCircuit) (config : DotConfig) (id : NodeId) :
    Except Fault String := do
  let node ← s.entry id
  match node.kind with
  | .top (some leaf) =>
    match (← s.vtree.subtree leaf).var? with
    | some var => topLabel config var (sub.choiceAt? leaf id) node.theta
    | none => s.nodeLabel config id
  | _ => s.nodeLabel config id

/-- The part of an element's weight: nothing for a node that never holds or has no weights, and a
plain one if the element has all the weight. -/
def edgeLabel (e : Entry W) (i : Nat) : String :=
  match e.theta with
  | none => ""
  | some θ =>
    match θ.weights[i]? with
    | none => ""
    | some w =>
      if e.isFalse then ""
      else if Weight.same w θ.sum then "1"
      else String.ofList (Weight.placesText (Weight.div w θ.sum))

/-- Weights at the edges, and what a sub-circuit selects in another color. -/
def weightedLook (s : Store W) (sub : SubCircuit) (config : DotConfig) : Look where
  cell := s.weightedLabel sub config
  circle id := do
    let chosen := (← s.vtreeOf id).bind (sub.choiceAt? · id)
    return some (if chosen.isSome then config.highlight else config.base)
  paint id i x := do
    let e ← s.entry id
    let chosen := (← s.vtreeOf id).bind (sub.choiceAt? · id)
    let color := if chosen = some (.element x) then config.highlight else config.base
    return some ⟨edgeLabel e i, color⟩

/-- The drawing of a probabilistic diagram with a sub-circuit. -/
def psddDot (s : Store W) (root : NodeId) (sub : SubCircuit) (config : DotConfig) :
    Except Fault String := do
  return graphText (← s.draw config (s.weightedLook sub config) root)

end Store
end Sentential
