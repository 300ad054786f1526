import Sentential.Proofs.Decimal.Stepwise

/-!
# The general layout is correctly rounded

A double that is no zero is rounded to the significant digits that are asked for, and the general
layout shows the rounded number, neither more nor less (`limitedGeneralText_rounded`). What showing
a number means is said of the text itself (`ShowsGeneral`): which form it has, which digits stand in
front of the point, that no zero ends the fraction, and that the numeral reads back as the rounded
number.
-/

namespace Sentential.Decimal

/-- The parts of the text of the positive number `d` in the general layout, where `x` is the
exponent of its leading digit. -/
structure IsGeneral (places : Nat) (d : ℚ) (x : Int) (whole fraction exponent : List Char) :
    Prop where
  /-- Without an exponent all digits of the whole part stand in front of the point. -/
  positional : ¬(x < -4 ∨ (places : Int) ≤ x) → exponent = [] ∧ whole = digits ⌊d⌋₊
  /-- With an exponent the leading digit stands there alone. -/
  scientific : x < -4 ∨ (places : Int) ≤ x →
    whole = digits ⌊d / 10 ^ x⌋₊ ∧ whole.length = 1 ∧
      ∃ ds, exponent = 'e' :: (if x < 0 then '-' else '+') :: ds ∧
        2 ≤ ds.length ∧ readDigits? ds = some x.natAbs
  fraction_digits : AreDigits fraction
  fraction_last : fraction.getLast? ≠ some '0'

/-- The text shows the positive number `d`, or `-d`, in the general layout: it is made of such parts,
and it is a numeral that says `d`. -/
def ShowsGeneral (places : Nat) (negative : Bool) (d : ℚ) (x : Int) (text : List Char) : Prop :=
  (∃ whole fraction exponent, IsGeneral places d x whole fraction exponent ∧
    text = sign negative ++ joinPoint whole fraction ++ exponent) ∧
  ∃ (mantissa : Nat) (e : Int), Scientific.read? text = some (.finite negative mantissa e) ∧
    d = mantissa * 10 ^ e

section Shows

variable {places n : Nat} {x : Int}

/-- The exponent that the general layout shows, zero if it shows none. -/
def shownExponent (places : Nat) (x : Int) : Int := if needsExponent places x then x else 0

theorem generalPlaces_add (hplaces : 0 < places) (x : Int) :
    (generalPlaces places x : Int) + (x - places + 1) = shownExponent places x := by
  unfold generalPlaces shownExponent placesBehind
  split_ifs with hneeds
  · omega
  · have := not_needsExponent hneeds
    omega

theorem generalPlaces_of_needs (hneeds : needsExponent places x = true) :
    generalPlaces places x = places - 1 := by
  unfold generalPlaces placesBehind
  rw [if_pos hneeds]
  omega

/-- In front of all digits but the leading one stands that one alone. -/
theorem length_digits_leading (hplaces : 0 < places) (hhigh : n < pow10 places) :
    (digits (n / pow10 (places - 1))).length = 1 := by
  have hdigit : n / pow10 (places - 1) < pow10 1 := by
    rw [Nat.div_lt_iff_lt_mul (pow10_pos _)]
    refine hhigh.trans_eq ?_
    obtain ⟨k, rfl⟩ := Nat.exists_eq_add_of_lt hplaces
    exact Nat.pow_succ'
  exact Nat.le_antisymm ((length_digits_le_iff Nat.one_pos).2 hdigit) Nat.length_toDigits_pos

/-- The rounded number in terms of the exponent that is shown and the places behind the point. -/
theorem scaled_eq (hplaces : 0 < places) (n : Nat) (x : Int) :
    (n : ℚ) * 10 ^ (x - places + 1)
      = n / (pow10 (generalPlaces places x) : Nat) * 10 ^ shownExponent places x := by
  have hsplit : (10 : ℚ) ^ shownExponent places x
      = 10 ^ generalPlaces places x * 10 ^ (x - places + 1) := by
    rw [← generalPlaces_add hplaces, zpow_add₀ (by norm_num), zpow_natCast]
  rw [hsplit, cast_pow10, ← mul_assoc, div_mul_cancel₀ _ (by positivity)]

theorem floor_scaled (hplaces : 0 < places) (n : Nat) (x : Int) :
    ⌊(n : ℚ) * 10 ^ (x - places + 1) / 10 ^ shownExponent places x⌋₊
      = n / pow10 (generalPlaces places x) := by
  rw [scaled_eq hplaces, mul_div_cancel_right₀ _ (by positivity), Rat.natFloor_natCast_div_natCast]

theorem isGeneral_layout (hplaces : 0 < places) (hhigh : n < pow10 places) (x : Int) :
    IsGeneral places (n * 10 ^ (x - places + 1)) x
      (digits (n / pow10 (generalPlaces places x)))
      (trimZeros (padded (generalPlaces places x) (n % pow10 (generalPlaces places x))))
      (if needsExponent places x then exponentText x else []) where
  positional h := by
    have hneeds := needsExponent_iff.not.2 h
    have hfloor := floor_scaled hplaces n x
    rw [shownExponent, if_neg hneeds, zpow_zero, div_one] at hfloor
    rw [hfloor]
    exact ⟨if_neg hneeds, rfl⟩
  scientific h := by
    have hneeds := needsExponent_iff.2 h
    have hfloor := floor_scaled hplaces n x
    rw [shownExponent, if_pos hneeds] at hfloor
    rw [hfloor]
    refine ⟨rfl, ?_, exponentDigits x, ?_, two_le_length_exponentDigits x,
      readDigits?_exponentDigits x⟩
    · rw [generalPlaces_of_needs hneeds]
      exact length_digits_leading hplaces hhigh
    · rw [if_pos hneeds, exponentText_eq]
  fraction_digits := (areDigits_padded _ _).trimZeros
  fraction_last := getLast?_trimZeros _

/-- The digits that are shown are those of the number up to zeros at the end. -/
theorem value_shown (k n : Nat) :
    ∃ j, j + (trimZeros (padded k (n % pow10 k))).length = k ∧
      value (digits (n / pow10 k) ++ trimZeros (padded k (n % pow10 k))) * pow10 j = n := by
  have hmod : n % pow10 k < pow10 k := Nat.mod_lt _ (pow10_pos k)
  obtain ⟨j, hj⟩ := exists_trimZeros_append (padded k (n % pow10 k))
  refine ⟨j, ?_, ?_⟩
  · have := congrArg List.length hj
    rw [List.length_append, List.length_replicate, length_padded hmod] at this
    omega
  · calc value (digits (n / pow10 k) ++ trimZeros (padded k (n % pow10 k))) * pow10 j
        = value (digits (n / pow10 k) ++ padded k (n % pow10 k)) := by
          rw [← hj, ← List.append_assoc, value_append _ (List.replicate j '0'), value_zeros,
            List.length_replicate, hj]
          rfl
      _ = n / pow10 k * pow10 k + n % pow10 k := by
          rw [value_append, value_digits, value_padded hmod, length_padded hmod]
      _ = n := Nat.div_add_mod' n _

theorem showsGeneral_generalLayout (negative : Bool) (hplaces : 0 < places)
    (hlow : pow10 (places - 1) ≤ n) (hhigh : n < pow10 places) (x : Int) :
    ShowsGeneral places negative (n * 10 ^ (x - places + 1)) x
      (sign negative ++ generalLayout places n x) := by
  have hparts := isGeneral_layout hplaces hhigh x
  rw [generalLayout_eq hlow hhigh hplaces x, ← List.append_assoc]
  refine ⟨⟨_, _, _, hparts, rfl⟩, _, _, read?_layout (e := shownExponent places x) negative
    (areDigits_digits _) Nat.toDigits_ne_nil hparts.fraction_digits ?_ ?_, ?_⟩
  · split_ifs
    · exact .inr ⟨_, exponentText_eq x⟩
    · exact .inl rfl
  · unfold shownExponent
    split_ifs
    · exact readExponent?_exponentText x
    · rfl
  · -- the zeros that are cut off move into the exponent
    obtain ⟨j, hlength, hvalue⟩ := value_shown (generalPlaces places x) n
    have hexponent : shownExponent places x
        - (trimZeros (padded (generalPlaces places x)
            (n % pow10 (generalPlaces places x)))).length = j + (x - places + 1) := by
      have := generalPlaces_add hplaces x
      omega
    rw [hexponent, zpow_add₀ (by norm_num) (j : Int), zpow_natCast, ← mul_assoc, ← cast_pow10, ← Nat.cast_mul,
      hvalue]

end Shows

/-- Within the limit every number has a text: the positional layout is used for numbers with few
zeros between the point and the digits only. -/
theorem Binary.limitedGeneralText_finite (negative : Bool) {m : Nat} (hm : m ≠ 0) (q : Int)
    {precision : Nat} (hprecision : precision ≤ 60000) :
    (Binary.finite negative m q).limitedGeneralText precision
      = .ok (sign negative ++ generalLayout (max precision 1)
          (significant (max precision 1) (.ofDyadic m q)).1
          (significant (max precision 1) (.ofDyadic m q)).2) := by
  have hmax : maxPlaces = 65535 := rfl
  rw [limitedGeneralText_eq negative hm (Prod.eta _).symm, if_pos]
  refine ⟨by omega, or_iff_not_imp_left.2 fun hneeds => ?_⟩
  have hx := (not_needsExponent hneeds).1
  unfold placesBehind
  omega

/-- A double that is no zero is laid out as the number that it rounds to, also if it is laid out in
two steps that round on their own. -/
theorem limitedGeneralText_rounded {bits : UInt64} {negative : Bool} {m : Nat} {q : Int}
    (hbits : Binary.ofBits bits = .finite negative m q) (hm : m ≠ 0) {precision : Nat}
    (hprecision : precision ≤ 60000) :
    ∃ (d : ℚ) (x : Int) (text : List Char),
      RoundsTo (max precision 1) (m * 2 ^ q) d ∧ 10 ^ x ≤ d ∧ d < 10 ^ (x + 1) ∧
        (Binary.ofBits bits).limitedGeneralText precision = .ok text ∧
        (Binary.ofBits bits).stepwiseText precision = .ok text ∧
        ShowsGeneral (max precision 1) negative d x text := by
  have hplaces : 0 < max precision 1 := lt_max_of_lt_right Nat.one_pos
  have hspec := significant_ofDyadic hplaces hm q
  obtain ⟨hlow, hhigh⟩ := scaled_bounds hplaces hspec.low hspec.high
    (significant (max precision 1) (.ofDyadic m q)).2
  have hlimited := Binary.limitedGeneralText_finite negative hm q hprecision
  refine ⟨_, _, _, Ratio.toRat_ofDyadic m q ▸ hspec.rounds, hlow, hhigh, ?_, ?_,
    showsGeneral_generalLayout negative hplaces hspec.low hspec.high _⟩
  · rw [hbits]
    exact hlimited
  · rw [Binary.stepwiseText_eq, hbits]
    exact hlimited

/-- Rounding 99999999.5 to eight digits carries into the next power of ten, which then needs an
exponent. -/
theorem limitedGeneralText_rounded_carry :
    Binary.ofBits 0x4197d783fe000000 = .finite false 6710886366445568 (-26) ∧
      ∃ (d : ℚ) (x : Int) (text : List Char),
        RoundsTo 8 ((6710886366445568 : Nat) * 2 ^ (-26 : Int)) d ∧ 10 ^ x ≤ d ∧ d < 10 ^ (x + 1) ∧
          (Binary.ofBits 0x4197d783fe000000).limitedGeneralText 8 = .ok text ∧
          (Binary.ofBits 0x4197d783fe000000).stepwiseText 8 = .ok text ∧
          ShowsGeneral 8 false d x text := by
  have hbits : Binary.ofBits 0x4197d783fe000000 = .finite false 6710886366445568 (-26) := rfl
  have hprecision : 8 ≤ 60000 := by decide
  exact ⟨hbits, limitedGeneralText_rounded hbits (by decide) hprecision⟩

example : (Binary.ofBits 0x4197d783fe000000).stepwiseText 8 = .ok ['1', 'e', '+', '0', '8'] := by
  decide +kernel

end Sentential.Decimal
