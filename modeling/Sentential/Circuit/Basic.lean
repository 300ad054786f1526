import Sentential.Circuit.WeightTable
import Sentential.Text.Record

/-!
# Arithmetic circuits

A circuit is a list of opcodes, each of which is a literal or applies one operation to the values
of earlier opcodes. The literals up to the number of variables are indicators: an indicator is
one unless the evidence holds the opposite literal. All further literals are parameters, whose
weights a table holds.
-/

namespace Sentential

/-- One line of a circuit; operands are positions of earlier lines. -/
inductive Opcode where
  | literal (l : Int)
  | product (operands : List Nat)
  | sum (operands : List Nat)
deriving DecidableEq, Repr

namespace Opcode

def operands : Opcode → List Nat
  | literal _ => []
  | product ids => ids
  | sum ids => ids

/-- The line of an opcode: a sign, and the number of operands in front of them. -/
def fields : Opcode → List Text.Field
  | literal l => [['l'], Text.intField l]
  | product ids => ['*'] :: Text.natField ids.length :: ids.map Text.natField
  | sum ids => ['+'] :: Text.natField ids.length :: ids.map Text.natField

end Opcode

/-- A circuit over the variables `1, …, varCount`. -/
structure Circuit (V : Type) where
  varCount : Nat
  ops : Array Opcode
  weights : WeightTable V
  /-- The number of variables and parameters. -/
  literalCount : Nat
  /-- The opcode whose value is the circuit's; a diagram that never holds has none. -/
  root : Option Nat

namespace Circuit

variable {V : Type}

def nodeCount (c : Circuit V) : Nat := c.ops.size

/-- The number of operands of some opcodes. -/
def countEdges : List Opcode → Nat
  | [] => 0
  | op :: ops => op.operands.length + countEdges ops

def edgeCount (c : Circuit V) : Nat := countEdges c.ops.toList

/-- The file of a circuit without its weights. -/
def text (c : Circuit V) : List Char :=
  Text.render (
    (["nnf".toList, Text.natField c.nodeCount, Text.natField c.edgeCount,
      Text.natField c.literalCount] :: c.ops.toList.map Opcode.fields).map Text.renderFields)

/-! ## Evaluation -/

variable [Arithmetic V]

/-- The value of an opcode from those of the opcodes before it. -/
def valueOf (c : Circuit V) (evidence : List Int) (values : Array V) : Opcode → V
  | .literal l =>
    if l.natAbs ≤ c.varCount then
      if -l ∈ evidence then Arithmetic.zero else Arithmetic.one
    else c.weights.get l
  | .product ids => Arithmetic.product (ids.map fun i => values.getD i Arithmetic.zero)
  | .sum ids => Arithmetic.sum (ids.map fun i => values.getD i Arithmetic.zero)

/-- The values of all opcodes. -/
def values (c : Circuit V) (evidence : List Int) : Array V :=
  c.ops.foldl (fun vs op => vs.push (c.valueOf evidence vs op)) #[]

/-- The value of the circuit under the observed literals. -/
def evaluate (c : Circuit V) (evidence : List Int) : V :=
  match c.root with
  | some r => (c.values evidence).getD r Arithmetic.zero
  | none => Arithmetic.zero

end Circuit
end Sentential
