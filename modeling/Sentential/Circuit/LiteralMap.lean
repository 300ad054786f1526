import Sentential.Circuit.WeightTable
import Sentential.Text.Record
import Sentential.Weight.Basic

/-!
# Literal maps

The file that says what the literals of a circuit stand for:

```text
cc$I$<literal>$<weight>$+$x<variable>$<value>   an indicator
cc$C$<literal>$<weight>$I$                      a parameter
```

Every variable has an indicator for either value, the negative one first, and every parameter has
a record for its negation in front of its own. Variables are counted from zero here.
-/

namespace Sentential.WeightTable

open Text

variable {W : Type} [Weight W]

/-- The parts of a line with the separator between them. -/
def mapLine (parts : List (List Char)) : List Char := ['$'].intercalate parts

/-- The name of the variable with this number, counted from zero. -/
def variableName (var : Nat) : List Char := 'x' :: natField var

/-- The records of the values of a variable. -/
def indicatorLines (var : Nat) : List (List Char) :=
  let line (literal : Int) (value : Char) : List Char :=
    mapLine ["cc".toList, ['I'], intField literal, "1.0".toList, ['+'], variableName var, [value]]
  [line (-((var : Int) + 1)) '0', line ((var : Int) + 1) '1']

/-- The records of a parameter and its negation. -/
def parameterLines (t : WeightTable W) (p : Int) : List (List Char) :=
  let line (literal : Int) : List Char :=
    mapLine ["cc".toList, ['C'], intField literal, Weight.generalText (t.get literal), ['I'], []]
  [line (-p), line p]

/-- The lines of the map for a circuit over so many variables. -/
def mapLines (t : WeightTable W) (varCount : Nat) : List (List Char) :=
  let vars := List.range varCount
  ["c Following is the literal map:".toList, ['c'], "cc$K$ALWAYS_SUM".toList,
    "cc$S$NORMAL".toList,
    mapLine ["cc".toList, ['N'], natField (varCount + t.parameters.length)],
    mapLine ["cc".toList, ['v'], natField varCount]] ++
  vars.map (fun var => mapLine ["cc".toList, ['V'], variableName var, ['2']]) ++
  ["cc$t$0".toList] ++
  vars.flatMap indicatorLines ++
  t.parameters.flatMap t.parameterLines

/-- The literal map of a circuit over so many variables. -/
def mapText (t : WeightTable W) (varCount : Nat) : List Char := render (t.mapLines varCount)

end Sentential.WeightTable
