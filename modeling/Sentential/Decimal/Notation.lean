import Sentential.Decimal.Ratio
import Sentential.Decimal.Binary

/-!
# Positional and exponent notation

Digits and an exponent make a number: the digits `d₀d₁d₂…` with exponent `x` stand for
`d₀.d₁d₂… · 10 ^ x`. This module says how such a number is laid out as text, and holds the three
layouts that the file formats and the drawings ask for:

* the fewest digits that read back, always positional (`Binary.shortText` in
  `Sentential.Decimal.Shortest`);
* a fixed number of places (`Binary.fixedText`);
* a fixed number of significant digits, with an exponent where the number is very large or very
  small, and without trailing zeros (`Binary.generalText`).
-/

namespace Sentential.Decimal

/-! ## Layout -/

/-- Integer and fraction digits of the number whose digits are `ds` and whose leading digit has
exponent `x`. Zeros fill the places between the digits and the point. -/
def place (ds : List Char) (x : Int) : List Char × List Char :=
  if x < 0 then
    (['0'], List.replicate (-x - 1).toNat '0' ++ ds)
  else
    let whole := x.toNat + 1
    (ds.take whole ++ List.replicate (whole - ds.length) '0', ds.drop whole)

/-- The digits without the zeros at their end. -/
def trimZeros (ds : List Char) : List Char := (ds.reverse.dropWhile (· == '0')).reverse

/-- Integer digits, and a point only in front of fraction digits. -/
def joinPoint (whole fraction : List Char) : List Char :=
  if fraction.isEmpty then whole else whole ++ '.' :: fraction

/-- An exponent: the letter, a sign in any case, and at least two digits. -/
def exponentText (x : Int) : List Char :=
  let ds := digits x.natAbs
  'e' :: (if x < 0 then '-' else '+') :: (List.replicate (2 - ds.length) '0' ++ ds)

/-- The texts of the doubles that are no numbers; a NaN shows no sign. -/
def nanText : List Char := ['N', 'a', 'N']

@[inherit_doc nanText]
def infiniteText (negative : Bool) : List Char := sign negative ++ ['i', 'n', 'f']

/-! ## Significant digits -/

/-- The positive fraction rounded to `places` significant digits, an exact half to the even
neighbour: a number of exactly `places` digits, and the exponent of its leading digit. Rounding
may carry into the next power of ten. -/
def significant (places : Nat) (r : Ratio) : Nat × Int :=
  let x := r.leading
  let n := (r.shift ((places : Int) - 1 - x)).roundHalfEven
  if n = pow10 places then (pow10 (places - 1), x + 1) else (n, x)

/-- Whether the general layout with `places` significant digits shows the exponent `x` of the
leading digit: if `x` is below -4 or not below `places`. -/
def needsExponent (places : Nat) (x : Int) : Bool := x < -4 || (places : Int) ≤ x

/-- The number `n`, of `places` digits with leading exponent `x`, in the general layout: with the
exponent if it needs one, positional otherwise, and in both without trailing fraction zeros. -/
def generalLayout (places n : Nat) (x : Int) : List Char :=
  let ds := digits n
  if needsExponent places x then
    joinPoint (ds.take 1) (trimZeros (ds.drop 1)) ++ exponentText x
  else
    let (whole, fraction) := place ds x
    joinPoint whole (trimZeros fraction)

namespace Binary

/-- The double with `precision` significant digits, at least one, in the general layout. Both
zeros are the digit `0`. -/
def generalText (precision : Nat) : Binary → List Char
  | .nan => nanText
  | .infinite negative => infiniteText negative
  | .finite negative m q =>
    if m = 0 then ['0']
    else
      let places := max precision 1
      let (n, x) := significant places (.ofDyadic m q)
      sign negative ++ generalLayout places n x

/-! ## Fixed places -/

/-- The double rounded to `places` places behind the point, an exact half to the even
neighbour. The sign stays, in front of a zero as well. -/
def fixedText (places : Nat) : Binary → List Char
  | .nan => nanText
  | .infinite negative => infiniteText negative
  | .finite negative m q =>
    let n := ((Ratio.ofDyadic m q).shift places).roundHalfEven
    let behind := digits (n % pow10 places)
    sign negative ++ joinPoint (digits (n / pow10 places))
      (if places = 0 then [] else List.replicate (places - behind.length) '0' ++ behind)

end Binary
end Sentential.Decimal
