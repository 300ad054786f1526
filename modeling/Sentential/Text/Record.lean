import Sentential.Decimal.Ratio
import Sentential.Text.Blank

/-!
# Records

All text formats are made of lines, and a line is made of fields with blanks around them. A line
without fields and a line whose first field begins with `c` say nothing; every other line is a
record. A record keeps the number of its line, counted from one over all lines of the text.

Reading takes a text apart (`records`), writing puts lines together (`render`).
-/

namespace Sentential.Text

/-- A field of a record: characters without blanks. -/
abbrev Field := List Char

/-- The fields of one line together with the number of that line. -/
structure Record where
  line : Nat
  fields : List Field
deriving Repr, DecidableEq

/-! ## Taking apart -/

/-- The lines of a text. What follows the last line break is a line only if it is not empty. -/
def lines (text : List Char) : List (List Char) :=
  let pieces := text.splitOn '\n'
  if pieces.getLast? = some [] then pieces.dropLast else pieces

/-- The longest runs of characters that are not blank. -/
def fields (line : List Char) : List Field := (line.splitOnP isBlank).filter (!·.isEmpty)

/-- Whether a line with these fields is passed over. -/
def isSilent : List Field → Bool
  | [] => true
  | first :: _ => first.head? == some 'c'

/-- The records among the given lines, the first of which has the given number. -/
def recordsFrom (line : Nat) : List (List Char) → List Record
  | [] => []
  | l :: ls =>
    let fs := fields l
    let rest := recordsFrom (line + 1) ls
    if isSilent fs then rest else ⟨line, fs⟩ :: rest

/-- The records of a text. -/
def records (text : List Char) : List Record := recordsFrom 1 (lines text)

/-! ## Putting together -/

/-- The field of a number. -/
def natField (n : Nat) : Field := Decimal.digits n

/-- The field of a signed number. -/
def intField (i : Int) : Field :=
  if i < 0 then '-' :: Decimal.digits i.natAbs else Decimal.digits i.natAbs

/-- Fields with one space between them. -/
def renderFields (fs : List Field) : List Char := [' '].intercalate fs

/-- Lines, each with a line break at its end. -/
def render (ls : List (List Char)) : List Char := ls.flatMap (· ++ ['\n'])

end Sentential.Text
