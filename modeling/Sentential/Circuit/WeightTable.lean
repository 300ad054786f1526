import Std.Data.TreeMap
import Sentential.Weight.Arithmetic

/-!
# Weights of literals

The weights that a circuit's literals have been given, and the weight of every other literal. The
entries are kept in ascending order of the literals, which is the order in which they are listed.
-/

namespace Sentential

/-- The weights of some literals, and the weight of all others. -/
structure WeightTable (V : Type) where
  entries : Std.TreeMap Int V compare
  default : V

namespace WeightTable

variable {V : Type}

def ofDefault (default : V) : WeightTable V := ⟨∅, default⟩

/-- Without an entry a literal weighs one. -/
def empty [Arithmetic V] : WeightTable V := ofDefault Arithmetic.one

def set (t : WeightTable V) (literal : Int) (weight : V) : WeightTable V :=
  { t with entries := t.entries.insert literal weight }

def get (t : WeightTable V) (literal : Int) : V := (t.entries[literal]?).getD t.default

def contains (t : WeightTable V) (literal : Int) : Bool := t.entries.contains literal

def size (t : WeightTable V) : Nat := t.entries.size

def isEmpty (t : WeightTable V) : Bool := t.entries.isEmpty

/-- The entries in ascending order of their literals. -/
def toList (t : WeightTable V) : List (Int × V) := t.entries.toList

/-- The literals above zero that have an entry, ascending. -/
def parameters (t : WeightTable V) : List Int := (t.toList.map Prod.fst).filter (0 < ·)

end WeightTable
end Sentential
