import Sentential.Fault

/-!
# Trees over variables

A vtree is a full binary tree whose leaves are variables. Every node carries its name; nothing
here ties the names to the shape, so a tree can be numbered in any way.
-/

namespace Sentential.Vtree

/-- A full binary tree with a variable at every leaf and a name at every node. -/
inductive Tree where
  | leaf (id : VtreeId) (var : Nat)
  | fork (id : VtreeId) (left right : Tree)
deriving Repr, DecidableEq

namespace Tree

/-- The name of the topmost node. -/
def id : Tree → VtreeId
  | leaf id _ => id
  | fork id _ _ => id

def isLeaf : Tree → Bool
  | leaf .. => true
  | fork .. => false

def var? : Tree → Option Nat
  | leaf _ var => some var
  | fork .. => none

def left? : Tree → Option Tree
  | leaf .. => none
  | fork _ l _ => some l

def right? : Tree → Option Tree
  | leaf .. => none
  | fork _ _ r => some r

/-- The names of the nodes directly below the topmost one, from left to right. -/
def children : Tree → List VtreeId
  | leaf .. => []
  | fork _ l r => [l.id, r.id]

/-- The number of variables below and including the topmost node. -/
def varCount : Tree → Nat
  | leaf .. => 1
  | fork _ l r => l.varCount + r.varCount

/-- The number of nodes. -/
def size : Tree → Nat
  | leaf .. => 1
  | fork _ l r => l.size + r.size + 1

/-- Puts the tree and all trees within it, a tree before those within it, in front of a list. -/
def subtreesOnto : Tree → List Tree → List Tree
  | leaf id var, rest => leaf id var :: rest
  | fork id l r, rest => fork id l r :: l.subtreesOnto (r.subtreesOnto rest)

/-- The tree itself and all trees within it, a tree before those within it. -/
def subtrees (t : Tree) : List Tree := t.subtreesOnto []

theorem subtreesOnto_eq (t : Tree) (rest : List Tree) :
    t.subtreesOnto rest = t.subtrees ++ rest := by
  induction t generalizing rest with
  | leaf id var => rfl
  | fork id l r ihl ihr =>
    simp only [subtrees, subtreesOnto]
    rw [ihl (r.subtreesOnto rest), ihl (r.subtreesOnto []), ihr rest, ihr []]
    simp

@[simp] theorem subtrees_leaf (id : VtreeId) (var : Nat) :
    (leaf id var).subtrees = [leaf id var] := rfl

@[simp] theorem subtrees_fork (id : VtreeId) (l r : Tree) :
    (fork id l r).subtrees = fork id l r :: (l.subtrees ++ r.subtrees) := by
  rw [← subtreesOnto_eq]
  rfl

/-- The names of all nodes from left to right. -/
def inOrder : Tree → List VtreeId
  | leaf id _ => [id]
  | fork id l r => l.inOrder ++ id :: r.inOrder

end Tree
end Sentential.Vtree
