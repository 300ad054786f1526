import Sentential.Format.Reader
import Sentential.Store.Basic

/-!
# Lines that both diagram formats share

A literal line has the same form in both formats, and so has the beginning of a decision line.
-/

namespace Sentential

open Format Text

namespace Store

variable {W : Type} [Weight W]

/-- The node of a line `L <id> <vtree id> <literal>`, whose vtree node has to be the leaf of the
literal's variable. -/
def readLiteral (s : Store W) (r : Record) (id : Nat) : Except FormatError NodeId := do
  let l ← field Decimal.readInteger? .literal r 3
  match s.literal? l with
  | none => throw (.defect r.line (.unknownLiteral l))
  | some node =>
    let position ← field readWord? .vtreeId r 2
    let leaf ← s.vtree.leafOf l.natAbs
    if leaf.raw ≠ position then throw (.misplaced r.line id)
    return node

/-- The vtree node of a decision line: its name and its two sides. -/
def readFork (s : Store W) (r : Record) :
    Except FormatError (VtreeId × Vtree.Tree × Vtree.Tree) := do
  let position ← field readWord? .vtreeId r 2
  match s.vtree.subtree? ⟨position⟩ with
  | some (.fork _ left right) => return (⟨position⟩, left, right)
  | some (.leaf ..) => throw (.defect r.line (.leafVtree position))
  | none => throw (.defect r.line (.unknownVtree position))

/-- The element count of a decision line. The line has to have `width` fields for every element
behind the four that begin it, and their number has to be a word. -/
def readSize (width : Nat) (r : Record) : Except FormatError Nat := do
  let size ← field readCount? .size r 3
  if Decimal.pow2 64 ≤ size * width + 4 then throw (.defect r.line (.elementCount size))
  expectFields (size * width + 4) r
  return size

/-- The element whose prime and sub are the fields from place `i` on. -/
def readElement (t : Slots NodeId) (r : Record) (i : Nat) : Except FormatError Element := do
  let prime ← t.get r.line (← field readWord? .primeId r i)
  let sub ← t.get r.line (← field readWord? .subId r (i + 1))
  return ⟨prime, sub⟩

/-- Whether every element satisfies a condition on its prime and one on its sub, asked from left
to right until one fails. -/
def allElements (prime sub : NodeId → Except Fault Bool) : List Element → Except Fault Bool
  | [] => .ok true
  | e :: es => do
    unless ← prime e.prime do return false
    unless ← sub e.sub do return false
    allElements prime sub es

end Store
end Sentential
