import Sentential.Decimal.Notation

/-!
# The fewest digits that read back

All reals between the two midpoints beside a double read back as that double. Among the decimals
in that interval the text shows one with the fewest digits, and of those the nearest to the
double; of two equally near the larger one.

The search walks the decimal grids from coarse to fine. If a point of a grid lies in the
interval, so does one of the two neighbours of the double on that grid, hence only these two are
tried. Seventeen digits always suffice.
-/

namespace Sentential.Decimal

/-- The interval of a double and the double itself, in units of a quarter of its last place. -/
structure Interval where
  low : Nat
  middle : Nat
  high : Nat
  /-- Whether the two ends belong to the interval. -/
  closed : Bool
deriving Repr, DecidableEq

namespace Interval

/-- The numbers that round to `m · 2 ^ q`. Below a power of two the next double is only half as
far away as above it. A midpoint rounds to an even mantissa. -/
def ofMantissa (m : Nat) : Interval where
  low := if m = pow2 52 then 4 * m - 1 else 4 * m - 2
  middle := 4 * m
  high := 4 * m + 2
  closed := m % 2 = 0

/-- Whether the number `c` lies in the interval. -/
def holds (i : Interval) (c : Nat) : Bool :=
  if i.closed then i.low ≤ c && c ≤ i.high else i.low < c && c < i.high

/-- The interval with all its numbers multiplied by `k`. -/
def scale (i : Interval) (k : Nat) : Interval := ⟨k * i.low, k * i.middle, k * i.high, i.closed⟩

/-- The multiple of `step` that stands for the interval: of the two multiples around its middle
the nearer one that lies in it, the upper one on a tie. -/
def pick? (i : Interval) (step : Nat) : Option Nat :=
  let below := i.middle / step
  let above := below + 1
  match i.holds (below * step), i.holds (above * step) with
  | true, true => some (if 2 * (i.middle % step) < step then below else above)
  | true, false => some below
  | false, true => some above
  | false, false => none

end Interval

/-- The multiple of `10 ^ e` that stands for the double `m · 2 ^ q`, if there is one. -/
def onGrid? (m : Nat) (q e : Int) : Option Nat :=
  let unit := q - 2
  let i := (Interval.ofMantissa m).scale (pow2 unit.toNat * pow10 (-e).toNat)
  i.pick? (pow2 (-unit).toNat * pow10 e.toNat)

/-- The shortest decimal `n · 10 ^ e` of the positive double `m · 2 ^ q`, as `(n, e)`. -/
def shortest (m : Nat) (q : Int) : Nat × Int :=
  let x := (Ratio.ofDyadic m q).leading
  ((List.range 17).findSome? fun (k : Nat) => (onGrid? m q (x - k)).map (·, x - k)).getD (0, 0)

/-- The double with the fewest digits that read back, without an exponent however large or small
it is, and without a point where it is whole. -/
def Binary.shortText : Binary → List Char
  | .nan => nanText
  | .infinite negative => infiniteText negative
  | .finite negative m q =>
    if m = 0 then sign negative ++ ['0']
    else
      let (n, e) := shortest m q
      let ds := digits n
      let (whole, fraction) := place (trimZeros ds) (e + ds.length - 1)
      sign negative ++ joinPoint whole fraction

end Sentential.Decimal
