import Sentential.Decimal.Ratio

/-!
# Reading numbers

The three kinds of numerals that the file formats hold. All of them are plain ASCII: no
thousands separators, no other digits, no blanks.

* `readNatural?` — an optional plus and at least one digit, below a limit;
* `readInteger?` — an optional sign and at least one digit, within 32 bits;
* `Scientific.read?` — an optional sign, digits with an optional point among or beside them, and
  an optional exponent; or one of the names of infinity and NaN in any case.

Leading zeros are fine everywhere.
-/

namespace Sentential.Decimal

/-- The value of a run of digits. -/
def value (ds : List Char) : Nat := Nat.ofDigitChars 10 ds 0

/-- A non-empty run of digits and nothing else. -/
def readDigits? (cs : List Char) : Option Nat :=
  if !cs.isEmpty && cs.all Char.isDigit then some (value cs) else none

/-- Splits a sign off; a numeral without one is not negative. -/
def splitSign : List Char → Bool × List Char
  | '-' :: cs => (true, cs)
  | '+' :: cs => (false, cs)
  | cs => (false, cs)

/-! ## Whole numbers -/

/-- A number below `limit`. A minus sign is refused, in front of a zero as well. -/
def readNatural? (limit : Nat) (cs : List Char) : Option Nat :=
  (readDigits? (match cs with | '+' :: ds => ds | _ => cs)).filter (· < limit)

/-- A number that fits a signed word of 32 bits. -/
def readInteger? (cs : List Char) : Option Int :=
  let (negative, ds) := splitSign cs
  ((readDigits? ds).map fun n => if negative then -(n : Int) else n).filter
    fun i => -(pow2 31 : Int) ≤ i && i < pow2 31

/-! ## Numbers with a point and an exponent -/

/-- What a numeral with a point and an exponent says. -/
inductive Scientific where
  | nan
  | infinite (negative : Bool)
  /-- The number `± mantissa · 10 ^ exponent`. -/
  | finite (negative : Bool) (mantissa : Nat) (exponent : Int)
deriving Repr, DecidableEq

namespace Scientific

/-- The exponent behind the digits: nothing at all, or a letter and a whole number. -/
def readExponent? : List Char → Option Int
  | [] => some 0
  | c :: cs =>
    if c == 'e' || c == 'E' then
      let (negative, ds) := splitSign cs
      (readDigits? ds).map fun n => if negative then -(n : Int) else n
    else none

/-- Digits with an optional point, at least one of them, and an optional exponent. -/
def readUnsigned? (negative : Bool) (cs : List Char) : Option Scientific :=
  let whole := cs.takeWhile Char.isDigit
  let rest := cs.dropWhile Char.isDigit
  let (fraction, rest) := match rest with
    | '.' :: ds => (ds.takeWhile Char.isDigit, ds.dropWhile Char.isDigit)
    | _ => ([], rest)
  let ds := whole ++ fraction
  if ds.isEmpty then none
  else (readExponent? rest).map fun e => .finite negative (value ds) (e - fraction.length)

def read? (cs : List Char) : Option Scientific :=
  let (negative, body) := splitSign cs
  let name := body.map Char.toLower
  if name = ['n', 'a', 'n'] then some .nan
  else if name = ['i', 'n', 'f'] || name = "infinity".toList then some (.infinite negative)
  else readUnsigned? negative body

/-- The double nearest to `mantissa · 10 ^ exponent`. Numbers whose leading digit stands beyond
all doubles are infinite or zero without further computation. -/
def nearest (mantissa : Nat) (exponent : Int) : Float :=
  let leading := (digits mantissa).length + exponent
  if mantissa = 0 || leading < -400 then 0.0
  else if 400 < leading then 1.0 / 0.0
  else .ofScientific mantissa (exponent < 0) exponent.natAbs

def toFloat : Scientific → Float
  | .nan => 0.0 / 0.0
  | .infinite negative => if negative then -1.0 / 0.0 else 1.0 / 0.0
  | .finite negative m e => if negative then -nearest m e else nearest m e

end Scientific

/-- The double that a numeral stands for, correctly rounded. -/
def readFloat? (cs : List Char) : Option Float := (Scientific.read? cs).map Scientific.toFloat

end Sentential.Decimal
