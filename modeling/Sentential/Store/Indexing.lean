import Sentential.Store.Basic

/-!
# Numbering the nodes below a root

An `Indexing` numbers the nodes that a walk from a root reaches: a node after all nodes below it,
the elements of a decision from left to right with the prime before the sub, and every node once
however often it is reached. The root comes last.

The walk keeps a stack of tasks instead of recursing. A node is visited by putting its own
completion on the stack below the visits of its elements; a task for a node that has its number
by then is dropped. In a diagram in which no node lies below itself every node is visited at most
once while it has no number, so the tasks of one visit of every node are enough for a whole walk.
-/

namespace Sentential

/-- The nodes of a walk in their order, and the position of each. -/
structure Indexing where
  order : Array NodeId
  positions : Std.HashMap NodeId Nat

namespace Indexing

def empty : Indexing := ⟨#[], ∅⟩

/-- Gives a node the next number. -/
def push (ix : Indexing) (id : NodeId) : Indexing :=
  ⟨ix.order.push id, ix.positions.insert id ix.order.size⟩

def size (ix : Indexing) : Nat := ix.order.size

def indexOf? (ix : Indexing) (id : NodeId) : Option Nat := ix.positions[id]?

def indexOf (ix : Indexing) (id : NodeId) : Except Fault Nat :=
  match ix.indexOf? id with
  | some i => .ok i
  | none => .error .disagreement

/-- What is left to do with a node: visit what is below it, or give it its number. -/
inductive Task where
  | visit (id : NodeId)
  | finish (id : NodeId)
deriving DecidableEq, Repr

def Task.id : Task → NodeId
  | visit id => id
  | finish id => id

/-- The visits of the nodes of some elements, in order. -/
def visits (es : List Element) : List Task := es.flatMap fun e => [.visit e.prime, .visit e.sub]

/-- Works the tasks off. -/
def run (elements : NodeId → Except Fault (List Element)) :
    Nat → List Task → Indexing → Except Fault Indexing
  | _, [], ix => .ok ix
  | 0, _ :: _, _ => .error .endless
  | fuel + 1, task :: tasks, ix =>
    if ix.positions.contains task.id then run elements fuel tasks ix
    else
      match task with
      | .finish id => run elements fuel tasks (ix.push id)
      | .visit id =>
        match elements id with
        | .error e => .error e
        | .ok es => run elements fuel (visits es ++ .finish id :: tasks) ix

end Indexing

namespace Store

variable {W : Type} [Weight W]

/-- The number of tasks of a walk that visits every node once. -/
def walkLength (s : Store W) : Nat :=
  s.entries.foldl (fun n e => n + (2 * e.elements.length + 1)) 1

/-- The nodes reached from a root through all elements. -/
def indexing (s : Store W) (root : NodeId) : Except Fault Indexing :=
  Indexing.run s.elements s.walkLength [.visit root] .empty

/-- The nodes reached from a root through positive elements; none if the root never holds. -/
def positiveOrder (s : Store W) (root : NodeId) : Except Fault (List NodeId) := do
  if ← s.isFalse root then return []
  let ix ← Indexing.run s.positiveElements s.walkLength [.visit root] .empty
  return ix.order.toList

/-- The number of nodes reached from a root. -/
def size (s : Store W) (root : NodeId) : Except Fault Nat := do
  return (← s.indexing root).size

end Store
end Sentential
