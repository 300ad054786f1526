import Std.Data.HashMap
import Sentential.Node
import Sentential.Vtree.Generate

/-!
# The store of nodes

A store holds the nodes of all diagrams over one vtree and only ever grows: an id that it has
given out keeps its node. The terminals come first, then the positive and the negative literals
of the variables in order, then the nodes that were made, one after the other.

Decisions without weights are made by `Store.lookup`, which returns the existing node if there is
one with the same elements at the same vtree node. Nodes with weights are always new.

Each node is stored together with the answer to "does it never hold", which is decided when the
node is made: a decision never holds if in every element the prime or the sub never holds. The
elements are looked at from left to right, the prime before the sub, and only until the answer is
known, so an id beyond the store is noticed only if it is looked at.
-/

namespace Sentential

/-- A node as the store keeps it. -/
structure Entry (W : Type) [Weight W] extends Node W where
  /-- Whether the function of the node never holds. -/
  isFalse : Bool

/-- Words of 32 bits can name the nodes that a store over the vtree begins with, two terminals and
two literals for each variable, and with a sign they can hold the literals. -/
def Vtree.Addressable (v : Vtree) : Prop := v.numVars < Decimal.pow2 31

/-- The nodes over a vtree. -/
structure Store (W : Type) [Weight W] where
  vtree : Vtree
  entries : Array (Entry W)
  /-- The decisions without weights by their place and their elements. -/
  unique : Std.HashMap (VtreeId × List Element) NodeId

namespace Store

variable {W : Type} [Weight W]

/-! ## A store without made nodes -/

/-- The literals in the order of their ids: first `1, …, n`, then `-1, …, -n`. -/
def literals (n : Nat) : List Literal :=
  (List.range n).map (fun i => ⟨(i : Int) + 1, by omega⟩) ++
    (List.range n).map fun i => ⟨-((i : Int) + 1), by omega⟩

/-- The store that holds the terminals and the literals only. Ids and literals have no bound here;
where they are words of 32 bits, the vtree has to be `Addressable`. -/
def ofVtree (v : Vtree) : Store W where
  vtree := v
  entries :=
    (⟨⟨.bottom, none⟩, true⟩ :: ⟨⟨.top none, none⟩, false⟩ ::
      (literals v.numVars).map fun l => ⟨⟨.literal l, none⟩, false⟩).toArray
  unique := ∅

/-! ## Looking at nodes -/

def varCount (s : Store W) : Nat := s.vtree.numVars

def numNodes (s : Store W) : Nat := s.entries.size

def entry (s : Store W) (id : NodeId) : Except Fault (Entry W) :=
  match s.entries[id.raw]? with
  | some e => .ok e
  | none => .error .outOfRange

def kind (s : Store W) (id : NodeId) : Except Fault Kind := do
  return (← s.entry id).kind

def elements (s : Store W) (id : NodeId) : Except Fault (List Element) := do
  return (← s.entry id).elements

/-- Whether the function of a node never holds. -/
def isFalse (s : Store W) (id : NodeId) : Except Fault Bool := do
  return (← s.entry id).isFalse

/-- Whether prime and sub of an element can both hold; the sub is looked at only if the prime
can. -/
def isPositive (s : Store W) (e : Element) : Except Fault Bool := do
  if ← s.isFalse e.prime then return false
  return !(← s.isFalse e.sub)

/-- The positive ones among some elements. -/
def positives (s : Store W) : List Element → Except Fault (List Element)
  | [] => .ok []
  | e :: es => do
    let keep ← s.isPositive e
    let rest ← s.positives es
    return if keep then e :: rest else rest

def positiveElements (s : Store W) (id : NodeId) : Except Fault (List Element) := do
  s.positives (← s.elements id)

/-- The vtree node that a node belongs to; the terminals belong to none. -/
def vtreeOf (s : Store W) (id : NodeId) : Except Fault (Option VtreeId) := do
  match ← s.kind id with
  | .bottom => return none
  | .top leaf => return leaf
  | .literal l => return some (← s.vtree.leafOf l.var)
  | .decision v _ => return some v

/-- The store in one line: its variables, its nodes, and its decisions without weights. -/
def summary (s : Store W) : String :=
  s!"SddManager \x7b vars: {s.varCount}, nodes: {s.numNodes}, unique: {s.unique.size} \x7d"

/-! ## Literals -/

/-- The node of a literal, if its variable is in the vtree. -/
def literal? (s : Store W) (l : Int) : Option NodeId :=
  let n := s.varCount
  if l = 0 ∨ n < l.natAbs then none
  else some ⟨if 0 < l then l.natAbs + 1 else n + l.natAbs + 1⟩

def literal (s : Store W) (l : Int) : Except Fault NodeId :=
  match s.literal? l with
  | some id => .ok id
  | none => .error (.literalRange l s.varCount)

/-- The node of the positive literal of a variable. -/
def var (s : Store W) (v : UInt32) : Except Fault NodeId := s.literal (Literal.signed v)

/-! ## Making nodes

An operation that makes a node answers with its id, or with a fault, and in both cases with the
store as it is afterwards. -/

/-- Whether none of the elements is positive. -/
def nonePositive (s : Store W) : List Element → Except Fault Bool
  | [] => .ok true
  | e :: es => do
    if ← s.isPositive e then return false
    s.nonePositive es

/-- Whether the function of a node never holds, decided from the nodes that the store has. -/
def neverHolds (s : Store W) : Kind → Except Fault Bool
  | .bottom => .ok true
  | .decision _ es => s.nonePositive es
  | _ => .ok false

/-- Appends a node. -/
def push (s : Store W) (n : Node W) : Except Fault NodeId × Store W :=
  match s.neverHolds n.kind with
  | .error e => (.error e, s)
  | .ok isFalse => (.ok ⟨s.entries.size⟩, { s with entries := s.entries.push ⟨n, isFalse⟩ })

/-- Insists that a vtree node has two sides. -/
def expectFork (s : Store W) (v : VtreeId) : Except Fault Unit := do
  if (← s.vtree.subtree v).isLeaf then throw .decisionAtLeaf

/-- The decision with these elements at a vtree node, made only if there is none. -/
def lookup (s : Store W) (es : List Element) (v : VtreeId) : Except Fault NodeId × Store W :=
  match s.expectFork v with
  | .error e => (.error e, s)
  | .ok () =>
    match s.unique[(v, es)]? with
    | some id => (.ok id, s)
    | none =>
      match s.push ⟨.decision v es, none⟩ with
      | (.error e, s) => (.error e, s)
      | (.ok id, s) => (.ok id, { s with unique := s.unique.insert (v, es) id })

/-- A new TRUE node over a variable. -/
def newTop (s : Store W) (var : Nat) (θ : Theta W) : Except Fault NodeId × Store W :=
  if θ.length ≠ 2 then (.error .truePair, s)
  else
    match s.vtree.leafOf var with
    | .error e => (.error e, s)
    | .ok leaf => s.push ⟨.top (some leaf), some θ⟩

/-- A new decision whose weights belong to its elements in order. -/
def newDecision (s : Store W) (es : List Element) (v : VtreeId) (θ : Theta W) :
    Except Fault NodeId × Store W :=
  if θ.length ≠ es.length then (.error .weightCount, s)
  else
    match s.expectFork v with
    | .error e => (.error e, s)
    | .ok () => s.push ⟨.decision v es, some θ⟩

end Store
end Sentential
