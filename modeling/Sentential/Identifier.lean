/-!
# Identifiers

Nodes of a vtree and nodes of a diagram are both named by small numbers. The two kinds of names
have types of their own, so that one is never taken for the other.
-/

namespace Sentential

/-- The name of a vtree node: its position in the table of all nodes of its vtree, which is also
its number in the file formats. -/
structure VtreeId where
  raw : Nat
deriving DecidableEq, Hashable, Repr, Inhabited

/-- The name of a diagram node: its position in the store that holds it. -/
structure NodeId where
  raw : Nat
deriving DecidableEq, Hashable, Repr, Inhabited

namespace VtreeId

def text (id : VtreeId) : String := s!"v{id.raw}"

end VtreeId

namespace NodeId

/-- The terminal of the function that never holds. -/
def bottom : NodeId := ⟨0⟩

/-- The terminal of the function that always holds. -/
def top : NodeId := ⟨1⟩

/-- Whether the name is one of the two terminals. -/
def isConstant (id : NodeId) : Bool := id.raw ≤ 1

/-- The terminals have signs of their own, every other node shows its number. -/
def text (id : NodeId) : String :=
  match id.raw with
  | 0 => "⊥"
  | 1 => "⊤"
  | n => s!"#{n}"

end NodeId
end Sentential
