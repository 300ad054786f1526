import Std.Data.HashMap
import Sentential.Node

/-!
# Sub-circuits

A sub-circuit selects at most one node for every vtree node, and with it one element of a
decision or one value of a TRUE node's variable. A drawing shows what is selected.
-/

namespace Sentential

/-- What is selected at a node. -/
inductive Choice where
  | element (e : Element)
  /-- One value of the variable of a TRUE node. -/
  | value (b : Bool)
deriving DecidableEq, Repr

/-- The selected nodes by their vtree nodes. -/
structure SubCircuit where
  nodes : Std.HashMap VtreeId (NodeId × Choice)

namespace SubCircuit

def empty : SubCircuit := ⟨∅⟩

/-- Selects a node in place of an earlier selection at the same vtree node. -/
def insert (c : SubCircuit) (v : VtreeId) (node : NodeId) (choice : Choice) : SubCircuit :=
  ⟨c.nodes.insert v (node, choice)⟩

def nodeAt? (c : SubCircuit) (v : VtreeId) : Option (NodeId × Choice) := c.nodes[v]?

/-- The choice at a node, if it is the one selected at its vtree node. -/
def choiceAt? (c : SubCircuit) (v : VtreeId) (id : NodeId) : Option Choice :=
  ((c.nodeAt? v).filter (·.1 == id)).map Prod.snd

def size (c : SubCircuit) : Nat := c.nodes.size

def isEmpty (c : SubCircuit) : Bool := c.nodes.isEmpty

end SubCircuit
end Sentential
