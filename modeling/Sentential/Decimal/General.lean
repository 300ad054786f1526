import Sentential.Decimal.Numeral
import Sentential.Decimal.PlaceLimit
import Sentential.Text.Record

/-!
# The general layout from two others

`Binary.generalText` rounds once and lays the digits out. A formatter that knows only the scientific
layout and the one with fixed places comes to a general layout in two steps (`Binary.stepwiseText`).
The scientific layout with the digits that are asked for shows where the leading digit stands. If
an exponent is to show, its digits stay; if not, the number is rounded a second time, to the places
that are left behind the point. In both cases the zeros at the end of the fraction are cut off the
finished text.

Each of the two layouts keeps to the limit on places for itself.
-/

namespace Sentential.Decimal

/-! ## Work on finished texts -/

/-- The text without the characters `c` at its end. -/
def trimEnd (c : Char) (cs : List Char) : List Char := (cs.reverse.dropWhile (· == c)).reverse

/-- The text without the zeros at its end, and then without a point there. A text without a point
stays as it is. -/
def trimPoint (cs : List Char) : List Char :=
  if cs.contains '.' then trimEnd '.' (trimEnd '0' cs) else cs

/-- What stands before and behind the first letter `e`; behind it is a zero if there is none. -/
def splitExponent (cs : List Char) : List Char × List Char :=
  match cs.dropWhile (· != 'e') with
  | [] => (cs, ['0'])
  | _ :: exponent => (cs.takeWhile (· != 'e'), exponent)

/-- The text, if the places behind its point keep to the limit. -/
def withinPlaces (places : Nat) (text : List Char) : Except Fault (List Char) :=
  if places ≤ maxPlaces then .ok text else .error .tooManyPlaces

namespace Binary

/-! ## The two steps -/

/-- The double with one digit in front of the point and `places` behind it, an exact half rounded
to the even neighbour, and with the exponent, which has a sign only if it is negative. -/
def scientificText (places : Nat) : Binary → List Char
  | .nan => nanText
  | .infinite negative => infiniteText negative
  | .finite negative m q =>
    if m = 0 then
      sign negative ++ joinPoint ['0'] (List.replicate places '0') ++ ['e', '0']
    else
      let (n, x) := significant (places + 1) (.ofDyadic m q)
      sign negative ++ joinPoint ((digits n).take 1) ((digits n).drop 1) ++ 'e' :: Text.intField x

/-- The double in the general layout, in two steps. -/
def stepwiseText (precision : Nat) (b : Binary) : Except Fault (List Char) :=
  match b with
  | .nan => .ok nanText
  | .infinite negative => .ok (infiniteText negative)
  | .finite _ m _ =>
    if m = 0 then .ok ['0']
    else do
      let places := max precision 1
      let scientific ← withinPlaces (places - 1) (b.scientificText (places - 1))
      let (mantissa, exponent) := splitExponent scientific
      let x := (readInteger? exponent).getD 0
      if needsExponent places x then
        .ok (trimPoint mantissa ++ exponentText x)
      else
        let behind := ((places : Int) - 1 - x).toNat
        trimPoint <$> withinPlaces behind (b.fixedText behind)

end Binary
end Sentential.Decimal
