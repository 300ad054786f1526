import Sentential.Fault
import Sentential.Decimal.Notation

/-!
# The limit on places

A number may be laid out with at most `maxPlaces` places behind the point. The general layout
counts its places before it removes trailing zeros. With `places` significant digits it is first
laid out with an exponent, which takes `places - 1` of them; if no exponent is to show, it is laid
out positionally, which takes `places - 1 - x`, where `x` is the exponent of the leading digit. So
a small number reaches the limit earlier than a large one.

`Binary.limitedGeneralText` faults over the limit, and is `Binary.generalText` within it.
-/

namespace Sentential.Decimal

/-- The most places behind the point that a layout may have. -/
def maxPlaces : Nat := 65535

/-- Whether the positive fraction, with `places` significant digits in the general layout, stays
within the limit: with an exponent, and positionally if no exponent is to show. -/
def isWithinPlaces (places : Nat) (r : Ratio) : Bool :=
  places ≤ maxPlaces + 1 &&
    (let x := (significant places r).2
     needsExponent places x || (places : Int) - 1 - x ≤ maxPlaces)

namespace Binary

/-- The double in the general layout, if the layout keeps to the limit. A zero, an infinity and a
NaN have no places, so any precision does for them. -/
def limitedGeneralText (precision : Nat) (b : Binary) : Except Fault (List Char) :=
  match b with
  | .nan | .infinite _ => .ok (b.generalText precision)
  | .finite _ m q =>
    if m = 0 ∨ isWithinPlaces (max precision 1) (.ofDyadic m q) then
      .ok (b.generalText precision)
    else .error .tooManyPlaces

end Binary
end Sentential.Decimal
