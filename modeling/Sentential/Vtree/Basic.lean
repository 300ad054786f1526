import Sentential.Vtree.Tree

/-!
# Vtrees

A `Vtree` is a tree whose names are the numbers below its size, with tables that answer
questions about a node from its name: the tree below it, its parent, and the leaf of a variable.

`Vtree.isUnder` climbs the parents, so it sees only the names that lie between its two
arguments: its first argument has to be a name of the vtree unless the two are equal, its second
argument need not be one.
-/

namespace Sentential

/-- A tree over the variables `1, 2, …` together with its tables. -/
structure Vtree where
  root : Vtree.Tree
  /-- The tree at each name. -/
  subtrees : Array Vtree.Tree
  /-- The parent of each name; the root has none. -/
  parents : Array (Option VtreeId)
  /-- The leaf of each variable, the first variable at position zero. -/
  leaves : Array VtreeId
deriving Repr, DecidableEq

namespace Vtree

/-! ## Tables of a tree -/

/-- Notes a tree at its name. -/
def noteSubtree (table : Array Tree) (t : Tree) : Array Tree := table.setIfInBounds t.id.raw t

/-- Notes a tree's name as the parent of the nodes directly below it. -/
def noteParent (table : Array (Option VtreeId)) (t : Tree) : Array (Option VtreeId) :=
  t.children.foldl (fun a child => a.setIfInBounds child.raw (some t.id)) table

/-- Notes a leaf at its variable. -/
def noteLeaf (table : Array VtreeId) (t : Tree) : Array VtreeId :=
  match t.var? with
  | some var => table.setIfInBounds (var - 1) t.id
  | none => table

/-- The vtree of a tree. -/
def ofTree (t : Tree) : Vtree where
  root := t
  subtrees := t.subtrees.foldl noteSubtree (.replicate t.size t)
  parents := t.subtrees.foldl noteParent (.replicate t.size none)
  leaves := t.subtrees.foldl noteLeaf (.replicate t.varCount t.id)

/-! ## Questions -/

def numNodes (v : Vtree) : Nat := v.subtrees.size

def numVars (v : Vtree) : Nat := v.leaves.size

/-- All names, ascending. -/
def ids (v : Vtree) : List VtreeId := (List.range v.numNodes).map VtreeId.mk

/-- The name with this number, if there is one. -/
def get? (v : Vtree) (position : Nat) : Option VtreeId :=
  if position < v.numNodes then some ⟨position⟩ else none

def subtree? (v : Vtree) (id : VtreeId) : Option Tree := v.subtrees[id.raw]?

/-- The tree at a name of the vtree. -/
def subtree (v : Vtree) (id : VtreeId) : Except Fault Tree :=
  match v.subtree? id with
  | some t => .ok t
  | none => .error .outOfRange

/-- The leaf of a variable. -/
def leafOf (v : Vtree) (var : Nat) : Except Fault VtreeId :=
  match if var = 0 then none else v.leaves[var - 1]? with
  | some id => .ok id
  | none => .error (.variableRange var)

def parent (v : Vtree) (id : VtreeId) : Except Fault (Option VtreeId) :=
  match v.parents[id.raw]? with
  | some p => .ok p
  | none => .error .outOfRange

/-- The number of variables below and including a node. -/
def varCount (v : Vtree) (id : VtreeId) : Except Fault Nat := do
  return (← v.subtree id).varCount

/-- Looks for `ancestor` among `id` and the nodes above it, at most `fuel` of them. -/
def climb (v : Vtree) (ancestor : VtreeId) : Nat → VtreeId → Except Fault Bool
  | 0, id => if id = ancestor then .ok true else .error .endless
  | fuel + 1, id =>
    if id = ancestor then .ok true
    else
      match v.parent id with
      | .error e => .error e
      | .ok none => .ok false
      | .ok (some p) => v.climb ancestor fuel p

/-- Whether `id` is `ancestor` or lies below it. No chain of parents is longer than the vtree
has nodes. -/
def isUnder (v : Vtree) (id ancestor : VtreeId) : Except Fault Bool :=
  v.climb ancestor v.numNodes id

end Vtree
end Sentential
