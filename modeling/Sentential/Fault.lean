import Sentential.Identifier

/-!
# Faults

An operation faults when its caller breaks a rule of the operation: a literal that no variable
has, a decision placed at a leaf, an id that no node has. A fault is an answer like any other and
changes nothing; what a malformed *text* causes is not a fault but an error of its reader.
-/

namespace Sentential

/-- The rules of the operations that a request can break. -/
inductive Fault where
  /-- A vtree over no variables was asked for. -/
  | noVariables
  /-- A literal of value zero. -/
  | zeroLiteral
  | literalRange (literal : Int) (varCount : Nat)
  | variableRange (index : Nat)
  /-- The weights of a TRUE node are not two. -/
  | truePair
  /-- A decision whose weights are not as many as its elements. -/
  | weightCount
  /-- A weight that is negative or not a number. -/
  | negativeWeight
  | decisionAtLeaf
  /-- An element's node has no place in the circuit that refers to it. -/
  | noCircuitId (node : NodeId)
  /-- A node, a vtree node or a weight that does not exist. -/
  | outOfRange
  /-- A result that does not fit the number type of its rule. -/
  | overflow
  /-- A number asked for with more places behind the point than a layout may have. -/
  | tooManyPlaces
  /-- Two computations that have to agree do not. -/
  | disagreement
  /-- A walk that would never come to an end. -/
  | endless
deriving DecidableEq, Repr

/-- What a fault says, for those that say anything. -/
def Fault.message? : Fault → Option String
  | noVariables => some "Vtree needs at least one variable"
  | zeroLiteral => some "Literal must be non-zero"
  | literalRange l n => some s!"Literal {l} is out of range for {n} variables"
  | variableRange v => some s!"Variable {v} is not in the vtree"
  | truePair => some "TRUE node needs exactly two weights"
  | weightCount => some "one weight per element"
  | negativeWeight => some "weights must be non-negative"
  | decisionAtLeaf => some "decomposition at leaf"
  | noCircuitId id => some s!"node {id.text} has no circuit id yet"
  | outOfRange => none
  | overflow => none
  | tooManyPlaces => none
  | disagreement => none
  | endless => none

end Sentential
