import Sentential.Decimal.Power
import Sentential.Format.Error
import Sentential.Vtree.Generate

/-!
# Vtrees from tables

A generated vtree can be made without a tree. A stack of ranges of leaves is worked off, and each
range says under which name its node stands and what the names of its two sides are (`plan`). So
the cells of all nodes come into one table, every node at the place of its name, and it is only in
the end that the table is looked at as a whole: every node but the root has to be a side once, all
have to be reached from the root, and the leaves have to hold the variables `1, …, n` (`assemble`).
Tables that come from texts are looked at in the same way, so what is wrong with a table is a defect
and not a fault. A fault is an access outside a table, a sum that is no word, or a place that should
have been filled and is not.

Names and variables are words of 32 bits, so a number that is too large for a word comes out as
another one.
-/

namespace Sentential.Vtree

open Format (Defect)

/-- A node without what is below it: the variable of a leaf, or the names of the two sides. -/
inductive Cell where
  | leaf (var : Nat)
  | fork (left right : VtreeId)
deriving DecidableEq, Repr

def Cell.children : Cell → List VtreeId
  | leaf _ => []
  | fork l r => [l, r]

def Cell.var? : Cell → Option Nat
  | leaf var => some var
  | fork .. => none

/-- A vtree by names and variables: the cell, the parent and the number of variables of every name,
the leaf of every variable, and the name of the root. -/
structure Listing where
  cells : Array Cell
  parents : Array (Option VtreeId)
  varCounts : Array Nat
  leaves : Array VtreeId
  root : VtreeId
deriving DecidableEq, Repr

/-- The number that a word of 32 bits keeps of a number. -/
def word (n : Nat) : Nat := n % Decimal.pow2 32

/-- What stands at a place that has to be filled. -/
def filled {α : Type} : Option α → Except Fault α
  | some a => .ok a
  | none => .error .disagreement

/-! ## The cells of a range -/

/-- The name of the node over the leaves `[lo, hi)`. -/
def rangeName (cut : Nat → Nat → Nat) (lo hi : Nat) : VtreeId :=
  if hi - lo = 1 then ⟨word (2 * lo)⟩ else ⟨word (2 * cut lo hi - 1)⟩

/-- How many nodes there are over the ranges on a stack and over all parts of these. -/
def nodesOf : List (Nat × Nat) → Nat
  | [] => 0
  | (lo, hi) :: stack => 2 * (hi - lo) - 1 + nodesOf stack

/-- The cells of the nodes over the ranges on a stack and over all parts of these, with their
names, in the order in which they are put down. The cut of a range has to leave leaves on both
sides; the part on the right comes first. -/
def plan (cut : Nat → Nat → Nat) : List (Nat × Nat) → Except Fault (List (VtreeId × Cell))
  | [] => .ok []
  | (lo, hi) :: stack =>
    if hi - lo = 1 then do
      return (rangeName cut lo hi, .leaf (word (lo + 1))) :: (← plan cut stack)
    else
      let mid := cut lo hi
      if lo < mid ∧ mid < hi then do
        return (rangeName cut lo hi, .fork (rangeName cut lo mid) (rangeName cut mid hi)) ::
          (← plan cut ((mid, hi) :: (lo, mid) :: stack))
      else .error .disagreement
termination_by stack => nodesOf stack
decreasing_by all_goals (simp only [nodesOf]; omega)

/-- Puts a cell down at the place of its name. -/
def putDown (table : Array (Option Cell)) (c : VtreeId × Cell) :
    Except Fault (Array (Option Cell)) :=
  if c.1.raw < table.size then .ok (table.setIfInBounds c.1.raw (some c.2)) else .error .outOfRange

/-! ## The table as a whole -/

/-- Every side of a node together with the node, in ascending order of the nodes. -/
def edgesOf (cells : Array Cell) : List (VtreeId × VtreeId) :=
  cells.toList.zipIdx.flatMap fun x => x.1.children.map fun c => (c, ⟨word x.2⟩)

/-- Notes the parent of a node, which must not have one yet and must not be the root. -/
def adopt (root : VtreeId) (parents : Array (Option VtreeId)) (e : VtreeId × VtreeId) :
    Except Defect (Array (Option VtreeId)) :=
  match parents[e.1.raw]? with
  | none => .error (.childRange e.1 e.2)
  | some known =>
    if known.isSome ∨ e.1 = root then .error (.manyParents e.1)
    else .ok (parents.setIfInBounds e.1.raw (some e.2))

/-- What a walk through the table has counted so far: the variables below each node that it has
been through, the leaves, and all nodes. -/
structure Census where
  varCounts : Array Nat
  leaves : Nat
  visited : Nat

/-- Counts a node with its variables, and as so many leaves. -/
def Census.note (c : Census) (id : VtreeId) (vars leaves : Nat) : Census :=
  ⟨c.varCounts.setIfInBounds id.raw vars, c.leaves + leaves, c.visited + 1⟩

/-- Works off a stack of nodes, both sides of a node before the node itself, which stays on the
stack with a mark until they are counted. -/
def census (cells : Array Cell) : Nat → List (VtreeId × Bool) → Census → Except Fault Census
  | _, [], c => .ok c
  | 0, _ :: _, _ => .error .endless
  | fuel + 1, (id, marked) :: stack, c =>
    match cells[id.raw]? with
    | none => .error .outOfRange
    | some (.leaf _) => census cells fuel stack (c.note id 1 1)
    | some (.fork l r) =>
      if marked then
        match c.varCounts[l.raw]?, c.varCounts[r.raw]? with
        | some a, some b =>
          if a + b < Decimal.pow2 32 then census cells fuel stack (c.note id (a + b) 0)
          else .error .overflow
        | _, _ => .error .outOfRange
      else census cells fuel ((l, false) :: (r, false) :: (id, true) :: stack) c

/-- The leaves with their variables, in ascending order of the names. -/
def leavesOf (cells : Array Cell) : List (Nat × VtreeId) :=
  cells.toList.zipIdx.filterMap fun x => x.1.var?.map fun var => (var, ⟨word x.2⟩)

/-- Notes the leaf of a variable, which must not have one yet. -/
def settle (leaves : Array (Option VtreeId)) (l : Nat × VtreeId) :
    Except Defect (Array (Option VtreeId)) :=
  if l.1 = 0 ∨ leaves.size < l.1 then .error (.variableRange l.1 leaves.size)
  else
    match leaves[l.1 - 1]? with
    | some none => .ok (leaves.setIfInBounds (l.1 - 1) (some l.2))
    | _ => .error (.repeatedVariable l.1)

/-- The vtree whose nodes are the cells of a table, or what keeps the table from being one. -/
def assemble (cells : Array Cell) (root : VtreeId) : Except Fault (Except Defect Listing) :=
  if cells.size ≤ root.raw then .ok (.error (.rootRange root))
  else
    match (edgesOf cells).foldlM (adopt root) (.replicate cells.size none) with
    | .error what => .ok (.error what)
    | .ok parents => do
      let count ← census cells (2 * cells.size) [(root, false)] ⟨.replicate cells.size 0, 0, 0⟩
      if cells.size < count.visited then throw .overflow
      if count.visited < cells.size then
        return .error (.unreachable (cells.size - count.visited))
      match (leavesOf cells).foldlM settle (.replicate count.leaves none) with
      | .error what => return .error what
      | .ok leaves =>
        let leaves ← leaves.toList.mapM filled
        return .ok ⟨cells, parents, count.varCounts, leaves.toArray, root⟩

/-- The vtree over the variables `1, …, n` whose ranges are cut as `cut` says. -/
def plant (cut : Nat → Nat → Nat) (n : Nat) : Except Fault Listing :=
  if n = 0 then .error .noVariables
  else do
    let cells ← plan cut [(0, n)]
    let table ← cells.foldlM putDown (.replicate (2 * n - 1) none)
    let cells ← table.toList.mapM filled
    match ← assemble cells.toArray (rangeName cut 0 n) with
    | .ok listing => return listing
    | .error _ => throw .disagreement

end Sentential.Vtree
