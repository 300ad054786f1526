import Sentential.Format.DiagramLine
import Sentential.Store.Indexing

/-!
# Probabilistic diagram files

```text
psdd <node count>
F <id>
L <id> <vtree id> <literal>
T <id> <vtree id> <variable> <log Pr(variable)>
D <id> <vtree id> <size> {<prime> <sub> <log Pr(element)>}*
```

The numbers are those of `Store.indexing`. Weights are written as logarithms of their parts of the
sum, so every TRUE node and every decision has to have weights.

The reader makes a new node for every TRUE line and every decision line. The elements of a
decision have to sit exactly at the two sides of its vtree node; only terminals, which belong to
no vtree node, fit anywhere. The header of an unweighted diagram is accepted too.
-/

namespace Sentential

open Format Text

namespace Store

variable {W : Type} [Weight W]

/-! ## Writing -/

def psddHeader : List String := [
  "c ids of psdd nodes start at 0",
  "c psdd nodes appear bottom-up, children before parents",
  "c",
  "c file syntax:",
  "c psdd count-of-sdd-nodes",
  "c L id-of-literal-sdd-node id-of-vtree literal",
  "c T id-of-trueNode-sdd-node id-of-vtree variable log(litProb)",
  "c D id-of-decomposition-sdd-node id-of-vtree number-of-elements " ++
    "\x7bid-of-prime id-of-sub log(elementProb)\x7d*",
  "c"]

/-- The fields of the elements of a decision: the numbers of prime and sub and the logarithm of
the weight. -/
def psddElements (ix : Indexing) : List Element → List W → Except Fault (List Field)
  | [], _ => .ok []
  | _ :: _, [] => .error .outOfRange
  | e :: es, w :: ws => do
    let prime ← ix.indexOf e.prime
    let sub ← ix.indexOf e.sub
    return natField prime :: natField sub :: Weight.text w :: (← psddElements ix es ws)

/-- The line of the node `id`, whose number is `i`. -/
def psddLine (s : Store W) (ix : Indexing) (i : Nat) (id : NodeId) :
    Except FormatError (List Field) := do
  let node ← s.entry id
  match node.kind, node.theta with
  | .bottom, _ => return [['F'], natField i]
  | .top (some leaf), some θ =>
    match (← s.vtree.subtree leaf).var?, θ.logs[1]? with
    | some var, some w => return [['T'], natField i, natField leaf.raw, natField var, Weight.text w]
    | none, _ => throw (.fault .disagreement)
    | _, none => throw (.fault .outOfRange)
  | .literal l, _ =>
    return [['L'], natField i, natField (← s.vtree.leafOf l.var).raw, intField l.value]
  | .decision v es, some θ =>
    return ['D'] :: natField i :: natField v.raw :: natField es.length ::
      (← psddElements ix es θ.logs)
  | .top _, _ => throw (.missingTheta id)
  | .decision _ _, none => throw (.missingTheta id)

/-- The lines of some nodes that are numbered from `i` on. -/
def psddLines (s : Store W) (ix : Indexing) (i : Nat) :
    List NodeId → Except FormatError (List (List Field))
  | [] => .ok []
  | id :: ids => do
    let line ← s.psddLine ix i id
    return line :: (← s.psddLines ix (i + 1) ids)

/-- The file of a probabilistic diagram. -/
def psddText (s : Store W) (root : NodeId) : Except FormatError (List Char) := do
  let ix ← s.indexing root
  let ls ← s.psddLines ix 0 ix.order.toList
  return render (psddHeader.map String.toList ++
    (["psdd".toList, natField ix.size] :: ls).map renderFields)

/-! ## Reading -/

/-- Whether a node sits at a side of a vtree node or belongs to no vtree node at all. -/
def sitsAt (s : Store W) (side : VtreeId) (id : NodeId) : Except Fault Bool := do
  match ← s.vtreeOf id with
  | none => return true
  | some v => return v == side

/-- The logarithm of a probability at place `i`. -/
def readLog (r : Record) (i : Nat) : Except FormatError W := do
  let w ← field (Weight.read? (W := W)) .logProbability r i
  unless Weight.isLogProbability w do throw (.defect r.line (.positiveLog (Weight.text w)))
  return w

/-- The elements of a decision line from place `i` on, each with its probability. -/
def readWeighted (t : Slots NodeId) (r : Record) (i : Nat) :
    Nat → Except FormatError (List (Element × W))
  | 0 => .ok []
  | size + 1 => do
    let e ← readElement t r i
    let w ← readLog r (i + 2)
    return (e, Weight.exp w) :: (← readWeighted t r (i + 3) size)

/-- The variable of a line `T <id> <vtree id> <variable> <log Pr(variable)>` and the logarithm. -/
def readTop (s : Store W) (r : Record) (id : Nat) : Except FormatError (Nat × W) := do
  expectFields 5 r
  let position ← field readWord? .vtreeId r 2
  let var ← field readWord? .variable r 3
  let w ← readLog r 4
  if var = 0 ∨ s.varCount < var then throw (.defect r.line (.unknownVariable var))
  let leaf ← s.vtree.leafOf var
  if leaf.raw ≠ position then throw (.misplaced r.line id)
  return (var, w)

/-- The vtree node and the elements of a decision line, each with its probability. -/
def readWeightedDecision (s : Store W) (t : Slots NodeId) (r : Record) (id : Nat) :
    Except FormatError (VtreeId × List (Element × W)) := do
  let (v, left, right) ← s.readFork r
  let size ← readSize 3 r
  let es ← readWeighted t r 4 size
  unless ← allElements (s.sitsAt left.id) (s.sitsAt right.id) (es.map Prod.fst) do
    throw (.misplaced r.line id)
  return (v, es)

/-- The node of a line that makes no node. -/
def readPsddPlain (s : Store W) (r : Record) (id : Nat) : Except FormatError NodeId :=
  match tag r with
  | ['F'] => do
    expectFields 2 r
    return .bottom
  | ['L'] => do
    expectFields 4 r
    s.readLiteral r id
  | other => .error (.defect r.line (.unknownTag other))

/-- Runs an operation that makes a node with weights, provided that the weights are any. -/
def withTheta (s : Store W) (θ : Except Fault (Theta W))
    (make : Theta W → Except Fault NodeId × Store W) : Except FormatError NodeId × Store W :=
  match θ with
  | .error e => (.error (.fault e), s)
  | .ok θ =>
    let (node, s) := make θ
    (liftM node, s)

/-- The node of one record. -/
def buildPsdd (s : Store W) (t : Slots NodeId) (r : Record) (id : Nat) :
    Except FormatError NodeId × Store W :=
  if tag r = ['T'] then
    match s.readTop r id with
    | .error e => (.error e, s)
    | .ok (var, w) => s.withTheta (Theta.bernoulli (Weight.exp w)) (s.newTop var)
  else if tag r = ['D'] then
    match s.readWeightedDecision t r id with
    | .error e => (.error e, s)
    | .ok (v, es) =>
      s.withTheta (Theta.ofWeights (es.map Prod.snd)) (s.newDecision (es.map Prod.fst) v)
  else (s.readPsddPlain r id, s)

/-- Reads a probabilistic diagram file: the root, and the store with what was built, also if the
text is refused. -/
def readPsdd (s : Store W) (text : List Char) : Except FormatError NodeId × Store W :=
  readText ["psdd".toList, "sdd".toList] buildPsdd s text

end Store
end Sentential
