import Sentential.Literal
import Sentential.Weight.Basic

/-!
# Nodes of a diagram

A decision at the vtree node `v` with the elements `(p₁, s₁), …, (pₖ, sₖ)` is the function
`(p₁ ∧ s₁) ∨ … ∨ (pₖ ∧ sₖ)`; the primes `pᵢ` are meant to speak of the variables left of `v` and
the subs `sᵢ` of those right of it. In a probabilistic diagram the decisions and the TRUE nodes
carry weights, and a TRUE node is bound to the leaf of its variable.
-/

namespace Sentential

/-- A prime and the sub it comes with. -/
structure Element where
  prime : NodeId
  sub : NodeId
deriving DecidableEq, Hashable, Repr

/-- What a node is, its weights apart. -/
inductive Kind where
  | bottom
  /-- The function that always holds: the terminal, or bound to the leaf of a variable. -/
  | top (leaf : Option VtreeId)
  | literal (l : Literal)
  | decision (vtree : VtreeId) (elements : List Element)
deriving DecidableEq, Repr

namespace Kind

def isBottom : Kind → Bool
  | bottom => true
  | _ => false

def isTop : Kind → Bool
  | top _ => true
  | _ => false

def isLiteral : Kind → Bool
  | literal _ => true
  | _ => false

def isDecision : Kind → Bool
  | decision .. => true
  | _ => false

/-- The elements of a decision; other nodes have none. -/
def elements : Kind → List Element
  | decision _ es => es
  | _ => []

end Kind

/-- A node with its weights, if it has any. -/
structure Node (W : Type) [Weight W] where
  kind : Kind
  theta : Option (Theta W)

namespace Node

variable {W : Type} [Weight W]

def elements (n : Node W) : List Element := n.kind.elements

/-- The weight at the first position where the element stands, if the node has one for it. -/
def elementWeight (n : Node W) (e : Element) : Option W := do
  let θ ← n.theta
  let i ← n.elements.findIdx? (· == e)
  θ.weights[i]?

end Node
end Sentential
