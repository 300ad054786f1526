import Sentential.Format.Reader
import Sentential.Vtree.Basic

/-!
# Vtree files

```text
vtree <node count>
L <id> <variable>
I <id> <left child> <right child>
```

Children come before their parents and the root comes last. The numbers need not follow the
in-order positions: any numbering of the nodes is a vtree.

The reader builds the tree of every record from the trees of earlier records. In the end it has to
see that these trees make one: that no node is a child twice (`firstShared?`), that the last tree
holds all nodes, and that its leaves are the variables `1, …, n` (`misfit?`).
-/

namespace Sentential

open Format Text

namespace Vtree

/-! ## Writing -/

def fileHeader : List String := [
  "c ids of vtree nodes start at 0",
  "c ids of variables start at 1",
  "c vtree nodes appear bottom-up, children before parents",
  "c",
  "c file syntax:",
  "c vtree number-of-nodes-in-vtree",
  "c L id-of-leaf-vtree-node id-of-variable",
  "c I id-of-internal-vtree-node id-of-left-child id-of-right-child",
  "c"]

/-- The line of the topmost node of a tree. -/
def Tree.line : Tree → List Field
  | .leaf id var => [['L'], natField id.raw, natField var]
  | .fork id l r => [['I'], natField id.raw, natField l.id.raw, natField r.id.raw]

/-- Puts one line for every node, children before their parents, in front of other lines. -/
def Tree.linesOnto : Tree → List (List Field) → List (List Field)
  | .leaf id var, rest => (leaf id var).line :: rest
  | .fork id l r, rest => l.linesOnto (r.linesOnto ((fork id l r).line :: rest))

/-- One line for every node, children before their parents. -/
def Tree.lines (t : Tree) : List (List Field) := t.linesOnto []

theorem Tree.linesOnto_eq (t : Tree) (rest : List (List Field)) :
    t.linesOnto rest = t.lines ++ rest := by
  induction t generalizing rest with
  | leaf id var => rfl
  | fork id l r ihl ihr =>
    simp only [lines, linesOnto]
    rw [ihl (r.linesOnto ((fork id l r).line :: rest)), ihr ((fork id l r).line :: rest),
      ihl (r.linesOnto [(fork id l r).line]), ihr [(fork id l r).line]]
    simp

theorem Tree.lines_fork (id : VtreeId) (l r : Tree) :
    (fork id l r).lines = l.lines ++ r.lines ++ [(fork id l r).line] := by
  simp only [lines, linesOnto]
  rw [l.linesOnto_eq, r.linesOnto_eq, List.append_assoc]
  rfl

/-- The file of a vtree. -/
def fileText (v : Vtree) : List Char :=
  render (fileHeader.map String.toList ++
    (["vtree".toList, natField v.numNodes] :: v.root.lines).map renderFields)

/-! ## Reading -/

/-- The tree of one record. -/
def readTree (t : Slots Tree) (r : Record) (id : Nat) : Except FormatError Tree :=
  match tag r with
  | ['L'] => do
    expectFields 3 r
    let var ← field readWord? .variable r 2
    return .leaf ⟨id⟩ var
  | ['I'] => do
    expectFields 4 r
    let left ← t.get r.line (← field readWord? .leftChild r 2)
    let right ← t.get r.line (← field readWord? .rightChild r 3)
    return .fork ⟨id⟩ left right
  | other => .error (.defect r.line (.unknownTag other))

/-- The first name that is the root's or stands among the names before it. -/
def firstShared? (root : VtreeId) (seen : List VtreeId) : List VtreeId → Option VtreeId
  | [] => none
  | c :: cs => if c = root ∨ c ∈ seen then some c else firstShared? root (c :: seen) cs

/-- What keeps a list of variables from being a selection from `1, …, n` without repetition. -/
def misfit? (n : Nat) (seen : List Nat) : List Nat → Option Defect
  | [] => none
  | v :: vs =>
    if v = 0 ∨ n < v then some (.variableRange v n)
    else if v ∈ seen then some (.repeatedVariable v)
    else misfit? n (v :: seen) vs

/-- What keeps `root` from being a vtree over exactly the nodes of `trees`, which are the trees
of all names in ascending order. Only when no node is a child twice are the trees as small as
they look, so this comes first. -/
def flaw? (trees : List Tree) (root : Tree) : Option Defect :=
  match firstShared? root.id [] (trees.flatMap Tree.children) with
  | some c => some (.manyParents c)
  | none =>
    if root.size ≠ trees.length then some (.unreachable (trees.length - root.size))
    else misfit? root.varCount [] (trees.filterMap Tree.var?)

/-- Reads a vtree file. -/
def ofFileText (text : List Char) : Except FormatError Vtree := do
  let (declared, rs) ← readHeader ["vtree".toList] text
  let t ← (readNodes (fun _ t r id => (readTree t r id, ())) rs () (.ofCount declared)).1
  let root ← t.finish
  match flaw? (t.slots.toList.filterMap id) root with
  | some what => throw (.defect (rs.getLast?.elim 0 Record.line) what)
  | none => return ofTree root

end Vtree
end Sentential
