import Sentential.Decimal.Power
import Sentential.Store.Indexing

/-!
# Counting models

The number of assignments to all variables of the vtree under which a node holds. Every node is
counted over the variables below its own vtree node first, which for a terminal are none. Where it
is used among more variables, each further variable doubles the count.
-/

namespace Sentential.Store

variable {W : Type} [Weight W]

/-- The number of variables that a node's own count is over. -/
def scope (s : Store W) (id : NodeId) : Except Fault Nat := do
  match ← s.vtreeOf id with
  | none => return 0
  | some v => s.vtree.varCount v

/-- The count of a node over the variables below `target`, which have to be at least as many as
those of the node. -/
def lift (s : Store W) (counts : Std.HashMap NodeId Nat) (id : NodeId) (target : VtreeId) :
    Except Fault Nat := do
  let wide ← s.vtree.varCount target
  let narrow ← s.scope id
  if wide < narrow then throw .overflow
  match counts[id]? with
  | some n => return n * Decimal.pow2 (wide - narrow)
  | none => throw .disagreement

/-- The count of a decision with the sides `left` and `right`: no model satisfies two elements. -/
def countElements (s : Store W) (counts : Std.HashMap NodeId Nat) (left right : VtreeId) :
    List Element → Except Fault Nat
  | [] => .ok 0
  | e :: es => do
    let primes ← s.lift counts e.prime left
    let subs ← s.lift counts e.sub right
    return primes * subs + (← s.countElements counts left right es)

/-- The count of a node over the variables of its own vtree node, from those of its elements. -/
def countNode (s : Store W) (counts : Std.HashMap NodeId Nat) (id : NodeId) : Except Fault Nat := do
  match ← s.kind id with
  | .bottom => return 0
  | .top none => return 1
  | .top (some _) => return 2
  | .literal _ => return 1
  | .decision v es =>
    match ← s.vtree.subtree v with
    | .fork _ l r => s.countElements counts l.id r.id es
    | .leaf .. => throw .disagreement

/-- The counts of some nodes, each listed after those below it. -/
def countAll (s : Store W) (order : List NodeId) : Except Fault (Std.HashMap NodeId Nat) :=
  order.foldlM (fun counts id => return counts.insert id (← s.countNode counts id)) ∅

/-- The number of assignments to all variables under which a node holds. -/
def modelCount (s : Store W) (root : NodeId) : Except Fault Nat := do
  let counts ← s.countAll (← s.indexing root).order.toList
  s.lift counts root s.vtree.root.id

end Sentential.Store
