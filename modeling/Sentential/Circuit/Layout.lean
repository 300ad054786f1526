import Sentential.Format.Error
import Sentential.Store.Indexing

/-!
# The layout of a circuit

Before a diagram is turned into a circuit, its layout is fixed: how many opcodes there will be,
and which opcode is the *head* of a node, whose value is the value of the node.

The first opcodes are the indicators, `1, …, n` and then `-n, …, -1`, and they are the heads of
the literals. Then follow the nodes in the order of `Store.positiveOrder`. A TRUE node takes five
opcodes, a decision with `k` positive elements `2 k + 1`, and the last one is the head. A node
that cannot be turned into opcodes is refused here.
-/

namespace Sentential

/-- Why a diagram was not turned into a circuit. -/
inductive CompileError where
  /-- A TRUE node or a decision without weights. -/
  | missingTheta (node : NodeId)
  /-- A TRUE node that stands for no variable. -/
  | unboundTop (node : NodeId)
  | file (cause : Format.FileError)
  | fault (cause : Fault)
deriving DecidableEq, Repr

/-- The wording of an error; a fault has a wording of its own. -/
def CompileError.message? : CompileError → Option String
  | missingTheta node => some s!"Node {node.text} has no weights"
  | unboundTop node => some s!"TRUE node {node.text} is not bound to a variable"
  | file cause => some cause.message
  | fault cause => cause.message?

/-- A fault on the way makes the whole compilation fail with it. -/
instance : MonadLift (Except Fault) (Except CompileError) where
  monadLift
    | .ok a => .ok a
    | .error e => .error (.fault e)

/-- The sizes of a circuit and the heads of the nodes it covers. -/
structure Layout where
  nodeCount : Nat
  edgeCount : Nat
  literalCount : Nat
  heads : Std.HashMap NodeId Nat

namespace Layout

/-- Appends the opcodes of a node; the last one is its head. -/
def add (l : Layout) (id : NodeId) (nodes edges literals : Nat) : Layout where
  nodeCount := l.nodeCount + nodes
  edgeCount := l.edgeCount + edges
  literalCount := l.literalCount + literals
  heads := l.heads.insert id (l.nodeCount + nodes - 1)

def head? (l : Layout) (id : NodeId) : Option Nat := l.heads[id]?

def head (l : Layout) (id : NodeId) : Except Fault Nat :=
  match l.head? id with
  | some h => .ok h
  | none => .error (.noCircuitId id)

end Layout

/-- The indicators over `n` variables in the order of their opcodes. -/
def indicators (n : Nat) : List Int :=
  (List.range n).map (fun (i : Nat) => (i : Int) + 1) ++
    (List.range n).reverse.map fun (i : Nat) => -((i : Int) + 1)

namespace Store

variable {W : Type} [Weight W]

/-- The layout of the indicators. They cover all variables of the vtree, whatever the root. -/
def indicatorLayout (s : Store W) : Except Fault Layout :=
  (indicators s.varCount).foldlM (fun l literal => return l.add (← s.literal literal) 1 0 0)
    ⟨0, 0, s.varCount, ∅⟩

/-- Appends the opcodes of one node. -/
def layoutNode (s : Store W) (l : Layout) (id : NodeId) : Except CompileError Layout := do
  let node ← s.entry id
  match node.kind with
  | .bottom => return l
  | .literal _ => return l
  | .top none => throw (.unboundTop id)
  | .top (some _) =>
    if node.theta.isNone then throw (.missingTheta id)
    return l.add id 5 6 2
  | .decision .. =>
    if node.theta.isNone then throw (.missingTheta id)
    let k := (← s.positiveElements id).length
    return l.add id (2 * k + 1) (4 * k) k

/-- The layout of some nodes in the order given. -/
def layout (s : Store W) (order : List NodeId) : Except CompileError Layout := do
  order.foldlM s.layoutNode (← s.indicatorLayout)

end Store
end Sentential
