import Sentential.Format.DiagramLine
import Sentential.Store.Indexing

/-!
# Diagram files

```text
sdd <node count>
F <id>
T <id>
L <id> <vtree id> <literal>
D <id> <vtree id> <size> {<prime> <sub>}*
```

The nodes are numbered in the order of `Store.indexing`, so every line refers to lines above it.
Weights are not written, and a bound TRUE node is written like the terminal.

The reader takes terminals and literals from the store and looks decisions up in it, so reading a
diagram that the store holds already makes no node. Primes have to lie below the left side of
their vtree node and subs below the right side; terminals fit anywhere.
-/

namespace Sentential

open Format Text

namespace Store

variable {W : Type} [Weight W]

/-! ## Writing -/

def sddHeader : List String := [
  "c ids of sdd nodes start at 0",
  "c sdd nodes appear bottom-up, children before parents",
  "c",
  "c file syntax:",
  "c sdd count-of-sdd-nodes",
  "c F id-of-false-sdd-node",
  "c T id-of-true-sdd-node",
  "c L id-of-literal-sdd-node id-of-vtree literal",
  "c D id-of-decomposition-sdd-node id-of-vtree number-of-elements " ++
    "\x7bid-of-prime id-of-sub\x7d*",
  "c"]

/-- The fields of the elements of a decision: the numbers of prime and sub. -/
def sddElements (ix : Indexing) : List Element → Except Fault (List Field)
  | [] => .ok []
  | e :: es => do
    let prime ← ix.indexOf e.prime
    let sub ← ix.indexOf e.sub
    return natField prime :: natField sub :: (← sddElements ix es)

/-- The line of the node `id`, whose number is `i`. -/
def sddLine (s : Store W) (ix : Indexing) (i : Nat) (id : NodeId) : Except Fault (List Field) := do
  match ← s.kind id with
  | .bottom => return [['F'], natField i]
  | .top _ => return [['T'], natField i]
  | .literal l =>
    return [['L'], natField i, natField (← s.vtree.leafOf l.var).raw, intField l.value]
  | .decision v es =>
    return ['D'] :: natField i :: natField v.raw :: natField es.length :: (← sddElements ix es)

/-- The lines of some nodes that are numbered from `i` on. -/
def sddLines (s : Store W) (ix : Indexing) (i : Nat) :
    List NodeId → Except Fault (List (List Field))
  | [] => .ok []
  | id :: ids => do
    let line ← s.sddLine ix i id
    return line :: (← s.sddLines ix (i + 1) ids)

/-- The file of a diagram. -/
def sddText (s : Store W) (root : NodeId) : Except FormatError (List Char) := do
  let ix ← s.indexing root
  let ls ← s.sddLines ix 0 ix.order.toList
  return render (sddHeader.map String.toList ++
    (["sdd".toList, natField ix.size] :: ls).map renderFields)

/-! ## Reading -/

/-- Whether a node is free of variables outside a side of a vtree node. -/
def fits (s : Store W) (side : VtreeId) (id : NodeId) : Except Fault Bool := do
  match ← s.vtreeOf id with
  | none => return true
  | some v => s.vtree.isUnder v side

/-- The elements of a decision line from place `i` on. -/
def readElements (t : Slots NodeId) (r : Record) (i : Nat) :
    Nat → Except FormatError (List Element)
  | 0 => .ok []
  | size + 1 => do
    let e ← readElement t r i
    return e :: (← readElements t r (i + 2) size)

/-- The vtree node and the elements of a decision line. -/
def readDecision (s : Store W) (t : Slots NodeId) (r : Record) (id : Nat) :
    Except FormatError (VtreeId × List Element) := do
  let (v, left, right) ← s.readFork r
  let size ← readSize 2 r
  let es ← readElements t r 4 size
  unless ← allElements (s.fits left.id) (s.fits right.id) es do
    throw (.misplaced r.line id)
  return (v, es)

/-- The node of a line that makes no node. -/
def readSddPlain (s : Store W) (r : Record) (id : Nat) : Except FormatError NodeId :=
  match tag r with
  | ['F'] => do
    expectFields 2 r
    return .bottom
  | ['T'] => do
    expectFields 2 r
    return .top
  | ['L'] => do
    expectFields 4 r
    s.readLiteral r id
  | other => .error (.defect r.line (.unknownTag other))

/-- The node of one record. -/
def buildSdd (s : Store W) (t : Slots NodeId) (r : Record) (id : Nat) :
    Except FormatError NodeId × Store W :=
  if tag r = ['D'] then
    match s.readDecision t r id with
    | .error e => (.error e, s)
    | .ok (v, es) =>
      let (node, s) := s.lookup es v
      (liftM node, s)
  else (s.readSddPlain r id, s)

/-- Reads a diagram file: the root, and the store with what was built, also if the text is
refused. -/
def readSdd (s : Store W) (text : List Char) : Except FormatError NodeId × Store W :=
  readText ["sdd".toList] buildSdd s text

end Store
end Sentential
