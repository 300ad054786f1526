import Sentential.Circuit.Basic
import Sentential.Circuit.Layout

/-!
# From diagrams to circuits

The opcodes of a TRUE node over `x` with head `h`, and those of a decision with `k` positive
elements:

```text
h-4: l θ(¬x)                l θ₁
h-3: l θ(x)                 * 3 (parameter) (prime) (sub)
h-2: * 2 (h-4) (¬x)         ⋮
h-1: * 2 (h-3) (x)          l θₖ
h:   + 2 (h-2) (h-1)        * 3 (parameter) (prime) (sub)
                            + k (products)
```

Parameters are numbered from the first number behind the variables on, in the order in which they
are emitted. What is emitted has to agree with the layout: the head of every node, and the sizes
in the end.
-/

namespace Sentential

/-- The opcodes emitted so far, the weights of their parameters, and the next parameter. -/
structure Emission (V : Type) where
  ops : Array Opcode
  weights : WeightTable V
  next : Nat

namespace Emission

variable {V : Type} [Arithmetic V]

/-- The indicators over `n` variables. -/
def ofIndicators (n : Nat) : Emission V where
  ops := ((indicators n).map Opcode.literal).toArray
  weights := .empty
  next := n + 1

def push (e : Emission V) (op : Opcode) : Emission V := { e with ops := e.ops.push op }

/-- Emits the next parameter with its weight. -/
def parameter (e : Emission V) (w : V) : Emission V where
  ops := e.ops.push (.literal e.next)
  weights := e.weights.set e.next w
  next := e.next + 1

/-- Emits a TRUE node from its two weights and the heads of the two literals of its variable. -/
def top (e : Emission V) (w₀ w₁ : V) (negative positive : Nat) : Emission V :=
  let b := e.ops.size
  ((e.parameter w₀).parameter w₁)
    |>.push (.product [b, negative])
    |>.push (.product [b + 1, positive])
    |>.push (.sum [b + 2, b + 3])

/-- Emits one element of a decision from its weight and the heads of prime and sub. -/
def element (e : Emission V) (w : V) (prime sub : Nat) : Emission V :=
  (e.parameter w).push (.product [e.ops.size, prime, sub])

end Emission

namespace Store

variable {W : Type} [Weight W]

/-- Emits the given elements of the node `id`: the positions of their products come with the
emission. -/
def emitElements (l : Layout) (id : NodeId) (node : Node W) :
    List Element → Emission W → Except CompileError (List Nat × Emission W)
  | [], e => .ok ([], e)
  | x :: xs, e =>
    match node.elementWeight x with
    | none => .error (.missingTheta id)
    | some w => do
      let prime ← l.head x.prime
      let sub ← l.head x.sub
      let (products, e') ← emitElements l id node xs (e.element w prime sub)
      return ((e.ops.size + 1) :: products, e')

/-- Insists that the opcode emitted last is the head of a node. -/
def checkHead (l : Layout) (id : NodeId) (e : Emission W) : Except Fault (Emission W) :=
  if l.head? id = some (e.ops.size - 1) then .ok e else .error .disagreement

/-- Emits one node; terminals and literals need no opcodes of their own. -/
def emitNode (s : Store W) (l : Layout) (e : Emission W) (id : NodeId) :
    Except CompileError (Emission W) := do
  let node ← s.entry id
  match node.kind, node.theta with
  | .top (some leaf), some θ =>
    match (← s.vtree.subtree leaf).var? with
    | none => throw (.fault .disagreement)
    | some var =>
      let w₀ ← θ.weight 0
      let w₁ ← θ.weight 1
      let negative ← l.head (← s.literal (-(var : Int)))
      let positive ← l.head (← s.literal var)
      checkHead l id (e.top w₀ w₁ negative positive)
  | .decision .., some _ =>
    let (products, e) ← emitElements l id node.toNode (← s.positiveElements id) e
    checkHead l id (e.push (.sum products))
  | .top none, some _ => throw (.fault .disagreement)
  | _, _ => return e

/-- The circuit of the diagram below a root. -/
def compile (s : Store W) (root : NodeId) : Except CompileError (Circuit W) := do
  let order ← s.positiveOrder root
  let l ← s.layout order
  let e ← order.foldlM (s.emitNode l) (.ofIndicators s.varCount)
  let c : Circuit W := {
    varCount := s.varCount
    ops := e.ops
    weights := e.weights
    literalCount := e.next - 1
    root := if ← s.isFalse root then none else l.head? root }
  if c.nodeCount ≠ l.nodeCount ∨ c.edgeCount ≠ l.edgeCount ∨ c.literalCount ≠ l.literalCount then
    throw (.fault .disagreement)
  return c

end Store
end Sentential
