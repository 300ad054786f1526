import Mathlib.Algebra.Order.Field.Power
import Mathlib.Data.Int.Log
import Mathlib.Data.Rat.Floor
import Mathlib.Tactic.FieldSimp
import Mathlib.Tactic.Linarith
import Mathlib.Tactic.NormNum
import Mathlib.Tactic.Positivity
import Mathlib.Tactic.Ring
import Sentential.Decimal.Notation

/-!
# Rounding to significant digits

What it means that a number is rounded to significant digits is said over the rational numbers: the
last digit that is kept has a place value, and the number is taken to the nearest multiple of that,
to the even one if there are two (`RoundsTo`). Only one number meets this (`RoundsTo.unique`), and
it is the one whose digits and exponent `significant` computes (`significant_spec`).

Rounding may carry into the next power of ten. Rounding to the place value that belongs to the new
exponent then gives the same number (`IsSignificant.again`), although it starts again from the
number that was to be rounded.
-/

namespace Sentential.Decimal

/-! ## Powers -/

theorem cast_pow10 (n : Nat) : ((pow10 n : Nat) : ℚ) = 10 ^ n := Nat.cast_pow 10 n

/-- A power is the quotient of two powers with natural exponents, of which one is trivial. -/
theorem pow_toNat_div (b : ℚ) (e : Int) : b ^ e.toNat / b ^ (-e).toNat = b ^ e := by
  rcases Int.eq_nat_or_neg e with ⟨n, rfl | rfl⟩
  · simp
  · simp

/-! ## The nearest whole number -/

/-- The whole number `n` is nearest to `r`, and it is even if `r` lies half-way between two. -/
structure IsNearestEven (r : ℚ) (n : Nat) : Prop where
  near : |r - n| ≤ 1 / 2
  tie : |r - n| = 1 / 2 → Even n

namespace IsNearestEven

variable {r : ℚ} {n k : Nat}

theorem of_lt (h : |r - n| < 1 / 2) : IsNearestEven r n :=
  ⟨h.le, fun htie => absurd htie h.ne⟩

theorem of_even (h : |r - n| = 1 / 2) (heven : Even n) : IsNearestEven r n :=
  ⟨h.le, fun _ => heven⟩

/-- Of two numbers that are both nearest, the larger is not the larger: they would be neighbours
with `r` half-way between them, and one of two neighbours is odd. -/
theorem le (hn : IsNearestEven r n) (hk : IsNearestEven r k) : k ≤ n := by
  by_contra hlt
  obtain ⟨hnlow, hnhigh⟩ := abs_le.1 hn.near
  obtain ⟨hklow, hkhigh⟩ := abs_le.1 hk.near
  have hstep : (n : ℚ) + 1 ≤ k := by exact_mod_cast Nat.not_le.1 hlt
  have hnext : k = n + 1 := by
    have hcast : (k : ℚ) = (n + 1 : Nat) := by push_cast; linarith
    exact_mod_cast hcast
  have hneven : Even n := hn.tie (by rw [abs_of_nonneg (by linarith)]; linarith)
  have hkeven : Even k := hk.tie (by rw [abs_of_nonpos (by linarith)]; linarith)
  rw [hnext, Nat.even_add_one] at hkeven
  exact hkeven hneven

theorem unique (hn : IsNearestEven r n) (hk : IsNearestEven r k) : n = k :=
  Nat.le_antisymm (hk.le hn) (hn.le hk)

/-- Rounding does not pass a whole number from below, -/
theorem le_of_le (h : IsNearestEven r n) (hle : r ≤ k) : n ≤ k := by
  have hlow := (abs_le.1 h.near).1
  have hcast : (n : ℚ) < (k + 1 : Nat) := by push_cast; linarith
  exact Nat.lt_succ_iff.1 (by exact_mod_cast hcast)

/-- and not from above. -/
theorem ge_of_ge (h : IsNearestEven r n) (hge : (k : ℚ) ≤ r) : k ≤ n := by
  have hhigh := (abs_le.1 h.near).2
  have hcast : (k : ℚ) < (n + 1 : Nat) := by push_cast; linarith
  exact Nat.lt_succ_iff.1 (by exact_mod_cast hcast)

/-- A tenth of a number that rounds to `10 * n` rounds to `n`, and is no half-way case. -/
theorem tenth (h : IsNearestEven r (10 * n)) : IsNearestEven (r / 10) n := by
  obtain ⟨hlow, hhigh⟩ := abs_le.1 h.near
  push_cast at hlow hhigh
  exact .of_lt (abs_lt.2 ⟨by linarith, by linarith⟩)

end IsNearestEven

namespace Ratio

/-- The rational number that a fraction is. -/
def toRat (r : Ratio) : ℚ := r.num / r.den

theorem toRat_ofDyadic (m : Nat) (q : Int) : (ofDyadic m q).toRat = m * 2 ^ q := by
  have hcast : ∀ n, ((pow2 n : Nat) : ℚ) = 2 ^ n := Nat.cast_pow 2
  rw [toRat, ofDyadic, Nat.cast_mul, hcast, hcast, mul_div_assoc, pow_toNat_div]

theorem toRat_shift (r : Ratio) (e : Int) : (r.shift e).toRat = r.toRat * 10 ^ e := by
  rw [toRat, shift, Nat.cast_mul, Nat.cast_mul, cast_pow10, cast_pow10, mul_div_mul_comm,
    pow_toNat_div, toRat]

theorem den_ofDyadic_pos (m : Nat) (q : Int) : 0 < (ofDyadic m q).den := pow2_pos _

theorem den_shift_pos {r : Ratio} (hden : 0 < r.den) (e : Int) : 0 < (r.shift e).den :=
  Nat.mul_pos hden (pow10_pos _)

theorem num_ofDyadic_pos {m : Nat} (hm : m ≠ 0) (q : Int) : 0 < (ofDyadic m q).num :=
  Nat.mul_pos (Nat.pos_of_ne_zero hm) (pow2_pos _)

theorem toRat_pos {r : Ratio} (hnum : 0 < r.num) (hden : 0 < r.den) : 0 < r.toRat :=
  div_pos (by exact_mod_cast hnum) (by exact_mod_cast hden)

/-- A fraction is the whole quotient and a part of one. -/
theorem toRat_eq_div_add_mod {r : Ratio} (hden : 0 < r.den) :
    r.toRat = (r.num / r.den : Nat) + (r.num % r.den : Nat) / r.den := by
  have hpos : (r.den : ℚ) ≠ 0 := by exact_mod_cast hden.ne'
  have hdecomp : (r.num : ℚ) = r.den * (r.num / r.den : Nat) + (r.num % r.den : Nat) := by
    exact_mod_cast (Nat.div_add_mod r.num r.den).symm
  rw [toRat, hdecomp]
  field_simp

theorem nearestEven_roundHalfEven {r : Ratio} (hden : 0 < r.den) :
    IsNearestEven r.toRat r.roundHalfEven := by
  have hpos : (0 : ℚ) < r.den := by exact_mod_cast hden
  have hmod : r.num % r.den < r.den := Nat.mod_lt _ hden
  rw [toRat_eq_div_add_mod hden]
  unfold roundHalfEven
  dsimp only
  generalize r.num / r.den = n
  generalize r.num % r.den = t at hmod ⊢
  -- the part `t / den` behind the whole number `n` is compared with a half
  have hnonneg : (0 : ℚ) ≤ t / r.den := by positivity
  have hltone : (t : ℚ) / r.den < 1 := (div_lt_one hpos).2 (by exact_mod_cast hmod)
  split_ifs with hless hmore
  · have hhalf : (t : ℚ) / r.den < 1 / 2 := by
      have : (2 * t : ℚ) < r.den := by exact_mod_cast hless
      rw [div_lt_iff₀ hpos]
      linarith
    exact .of_lt (abs_lt.2 ⟨by linarith, by linarith⟩)
  · have hhalf : 1 / 2 < (t : ℚ) / r.den := by
      have : (r.den : ℚ) < 2 * t := by exact_mod_cast hmore
      rw [lt_div_iff₀ hpos]
      linarith
    exact .of_lt (abs_lt.2 ⟨by push_cast; linarith, by push_cast; linarith⟩)
  · have hhalf : (t : ℚ) / r.den = 1 / 2 := by
      have : (2 * t : ℚ) = r.den := by exact_mod_cast (by omega : 2 * t = r.den)
      rw [div_eq_iff hpos.ne']
      linarith
    rcases Nat.mod_two_eq_zero_or_one n with heven | hodd
    · rw [heven, Nat.add_zero, hhalf]
      exact .of_even (by norm_num) (Nat.even_iff.2 heven)
    · rw [hodd, hhalf]
      refine .of_even ?_ (Nat.even_iff.2 (by omega))
      rw [abs_of_nonpos (by push_cast; linarith)]
      push_cast
      ring

theorem roundHalfEven_eq {r : Ratio} (hden : 0 < r.den) {n : Nat} (h : IsNearestEven r.toRat n) :
    r.roundHalfEven = n :=
  (nearestEven_roundHalfEven hden).unique h

end Ratio

/-! ## The leading digit -/

theorem length_digits_le_iff {n k : Nat} (hk : 0 < k) : (digits n).length ≤ k ↔ n < pow10 k :=
  Nat.length_toDigits_le_iff (by decide) hk

theorem length_digits_bounds {n : Nat} (hn : 0 < n) :
    pow10 ((digits n).length - 1) ≤ n ∧ n < pow10 (digits n).length := by
  have hpos : 0 < (digits n).length := Nat.length_toDigits_pos
  refine ⟨?_, (length_digits_le_iff hpos).1 le_rfl⟩
  rcases Nat.eq_zero_or_pos ((digits n).length - 1) with hone | hmore
  · rw [hone]
    exact hn
  · by_contra hlt
    have := (length_digits_le_iff hmore).2 (Nat.not_le.1 hlt)
    omega

theorem log_eq {r : ℚ} {x : Int} (hlow : 10 ^ x ≤ r) (hhigh : r < 10 ^ (x + 1)) :
    Int.log 10 r = x := by
  have hpos : 0 < r := lt_of_lt_of_le (by positivity) hlow
  have hle : x ≤ Int.log 10 r := (Int.zpow_le_iff_le_log (by decide) hpos).1 (by exact_mod_cast hlow)
  have hlt : Int.log 10 r < x + 1 :=
    (Int.lt_zpow_iff_log_lt (by decide) hpos).1 (by exact_mod_cast hhigh)
  omega

theorem zpow_log_le {r : ℚ} (hr : 0 < r) : 10 ^ Int.log 10 r ≤ r := by
  exact_mod_cast Int.zpow_log_le_self (b := 10) (by decide) hr

theorem lt_zpow_log (r : ℚ) : r < 10 ^ (Int.log 10 r + 1) := by
  exact_mod_cast Int.lt_zpow_succ_log_self (b := 10) (by decide) r

/-- The powers of ten that a quotient of whole numbers lies between. -/
theorem length_digits_div_bounds {a b : Nat} (hb : 0 < b) (hle : b ≤ a) :
    ∃ l, (digits (a / b)).length = l + 1 ∧
      (10 ^ l * b : ℚ) ≤ a ∧ (a : ℚ) < 10 ^ (l + 1) * b := by
  obtain ⟨hlow, hhigh⟩ := length_digits_bounds (Nat.div_pos hle hb)
  have hlength : (digits (a / b)).length = (digits (a / b)).length - 1 + 1 :=
    (Nat.succ_pred_eq_of_pos Nat.length_toDigits_pos).symm
  refine ⟨_, hlength, ?_, ?_⟩
  · rw [← cast_pow10]
    exact_mod_cast (Nat.le_div_iff_mul_le hb).1 hlow
  · rw [← hlength, ← cast_pow10]
    exact_mod_cast (Nat.div_lt_iff_lt_mul hb).1 hhigh

/-- The exponent of the leading digit of a quotient from 1 upwards, -/
theorem log_div_eq {a b : ℚ} (hb : 0 < b) {l : Nat} (hlow : 10 ^ l * b ≤ a)
    (hhigh : a < 10 ^ (l + 1) * b) : Int.log 10 (a / b) = l := by
  refine log_eq ?_ ?_
  · rw [zpow_natCast, le_div_iff₀ hb]
    exact hlow
  · rw [← Nat.cast_add_one, zpow_natCast, div_lt_iff₀ hb]
    exact hhigh

/-- and of one from 1 downwards. -/
theorem log_div_eq_neg {a b : ℚ} (hb : 0 < b) {l : Nat} (hlow : b ≤ a * 10 ^ l)
    (hhigh : a * 10 ^ l < 10 * b) : Int.log 10 (a / b) = -l := by
  have hscale : (10 : ℚ) ^ (-(l : Int)) = 1 / 10 ^ l := by rw [zpow_neg, zpow_natCast, one_div]
  refine log_eq ?_ ?_
  · rw [hscale, div_le_div_iff₀ (by positivity) hb, one_mul]
    exact hlow
  · rw [zpow_add_one₀ (by norm_num), hscale, div_mul_eq_mul_div, one_mul,
      div_lt_div_iff₀ hb (by positivity)]
    exact hhigh

theorem Ratio.leading_eq_log {r : Ratio} (hnum : 0 < r.num) (hden : 0 < r.den) :
    r.leading = Int.log 10 r.toRat := by
  have hdenq : (0 : ℚ) < r.den := by exact_mod_cast hden
  symm
  unfold leading
  split_ifs with hle
  · -- a number from 1 upwards has the leading digit of its whole part
    obtain ⟨l, hlength, hlow, hhigh⟩ := length_digits_div_bounds hden hle
    rw [hlength, Nat.cast_add_one, add_sub_cancel_right]
    exact log_div_eq hdenq hlow hhigh
  · -- a number below 1 has it just below the one of its inverse, or there if it is a power of ten
    obtain ⟨l, hlength, hlow, hhigh⟩ := length_digits_div_bounds hnum (Nat.le_of_not_le hle)
    have hcast : ((r.num * pow10 l : Nat) : ℚ) = r.num * 10 ^ l := by rw [Nat.cast_mul, cast_pow10]
    rw [hlength]
    dsimp only
    rw [Nat.add_sub_cancel]
    split_ifs with hpower
    · have hpowerq : (r.den : ℚ) ≤ r.num * 10 ^ l := hcast ▸ Nat.cast_le.2 hpower
      rw [Nat.cast_add_one, show (1 : Int) - (l + 1) = -l by ring]
      exact log_div_eq_neg hdenq hpowerq (by linarith)
    · have hpowerq : (r.num : ℚ) * 10 ^ l < r.den :=
        hcast ▸ Nat.cast_lt.2 (Nat.not_le.1 hpower)
      exact log_div_eq_neg hdenq (by linarith) (by rw [pow_succ]; linarith)

/-! ## Significant digits -/

/-- The place value of the last of `places` significant digits of `r`. -/
def lastPlace (places : Nat) (r : ℚ) : ℚ := 10 ^ (Int.log 10 r - places + 1)

/-- The number `d` is `r` rounded to `places` significant digits, an exact half to the even
neighbour. -/
def RoundsTo (places : Nat) (r d : ℚ) : Prop :=
  ∃ n : Nat, IsNearestEven (r / lastPlace places r) n ∧ d = n * lastPlace places r

theorem RoundsTo.unique {places : Nat} {r d e : ℚ} (hd : RoundsTo places r d)
    (he : RoundsTo places r e) : d = e := by
  obtain ⟨n, hn, rfl⟩ := hd
  obtain ⟨k, hk, rfl⟩ := he
  rw [hn.unique hk]

section Significant

variable {places : Nat} {r : Ratio}

/-- The number that `significant` rounds: its whole part has `places` digits. -/
theorem shift_leading_bounds (hplaces : 0 < places) (hnum : 0 < r.num) (hden : 0 < r.den) :
    ((pow10 (places - 1) : Nat) : ℚ) ≤ (r.shift ((places : Int) - 1 - r.leading)).toRat ∧
      (r.shift ((places : Int) - 1 - r.leading)).toRat < (pow10 places : Nat) := by
  have hlog := Ratio.leading_eq_log hnum hden
  have hlow := zpow_log_le (Ratio.toRat_pos hnum hden)
  have hhigh := lt_zpow_log r.toRat
  rw [← hlog] at hlow hhigh
  rw [Ratio.toRat_shift, cast_pow10, cast_pow10]
  have hscale : (0 : ℚ) < 10 ^ ((places : Int) - 1 - r.leading) := by positivity
  constructor
  · calc (10 : ℚ) ^ (places - 1)
        = 10 ^ r.leading * 10 ^ ((places : Int) - 1 - r.leading) := by
          rw [← zpow_add₀ (by norm_num), ← zpow_natCast]
          congr 1
          omega
      _ ≤ _ := mul_le_mul_of_nonneg_right hlow hscale.le
  · calc r.toRat * 10 ^ ((places : Int) - 1 - r.leading)
        < 10 ^ (r.leading + 1) * 10 ^ ((places : Int) - 1 - r.leading) :=
          mul_lt_mul_of_pos_right hhigh hscale
      _ = 10 ^ places := by
          rw [← zpow_add₀ (by norm_num), ← zpow_natCast]
          congr 1
          omega

/-- What `significant` computes: either the nearest number of the right length, or, if that carries
into the next power of ten, a tenth of it with the next exponent. -/
theorem significant_cases (hplaces : 0 < places) (hnum : 0 < r.num) (hden : 0 < r.den) :
    ∃ n, IsNearestEven (r.shift ((places : Int) - 1 - r.leading)).toRat n ∧
      pow10 (places - 1) ≤ n ∧
      (n < pow10 places ∧ significant places r = (n, r.leading) ∨
        n = pow10 places ∧ significant places r = (pow10 (places - 1), r.leading + 1)) := by
  have hnear := Ratio.nearestEven_roundHalfEven
    (Ratio.den_shift_pos hden ((places : Int) - 1 - r.leading))
  obtain ⟨hlow, hhigh⟩ := shift_leading_bounds hplaces hnum hden
  refine ⟨_, hnear, hnear.ge_of_ge hlow, ?_⟩
  rcases (hnear.le_of_le hhigh.le).lt_or_eq with hlt | heq
  · exact .inl ⟨hlt, if_neg hlt.ne⟩
  · exact .inr ⟨heq, if_pos heq⟩

/-- The number of `places` digits and the exponent that stand for `r` rounded. -/
structure IsSignificant (places : Nat) (r : Ratio) (n : Nat) (x : Int) : Prop where
  low : pow10 (places - 1) ≤ n
  high : n < pow10 places
  rounds : RoundsTo places r.toRat (n * 10 ^ (x - places + 1))
  /-- Rounding `r` to the place value that goes with the exponent does not change the digits. -/
  again : (r.shift ((places : Int) - 1 - x)).roundHalfEven = n
  exponent : x = Int.log 10 r.toRat ∨ x = Int.log 10 r.toRat + 1

theorem toRat_shift_leading (hnum : 0 < r.num) (hden : 0 < r.den) :
    (r.shift ((places : Int) - 1 - r.leading)).toRat = r.toRat / lastPlace places r.toRat := by
  rw [Ratio.toRat_shift, Ratio.leading_eq_log hnum hden, lastPlace, div_eq_mul_inv, ← zpow_neg]
  congr 2
  ring

theorem significant_spec (hplaces : 0 < places) (hnum : 0 < r.num) (hden : 0 < r.den) :
    IsSignificant places r (significant places r).1 (significant places r).2 := by
  have hlog := Ratio.leading_eq_log hnum hden
  obtain ⟨n, hnear, hlow, ⟨hhigh, hsig⟩ | ⟨rfl, hsig⟩⟩ := significant_cases hplaces hnum hden
  · rw [hsig]
    refine ⟨hlow, hhigh, ⟨n, toRat_shift_leading hnum hden ▸ hnear, ?_⟩, ?_, .inl hlog⟩
    · rw [lastPlace, hlog]
    · exact Ratio.roundHalfEven_eq (Ratio.den_shift_pos hden _) hnear
  · rw [hsig]
    have hten : pow10 places = 10 * pow10 (places - 1) := by
      obtain ⟨k, rfl⟩ := Nat.exists_eq_add_of_lt hplaces
      exact Nat.pow_succ'
    refine ⟨le_rfl, ?_, ⟨pow10 places, toRat_shift_leading hnum hden ▸ hnear, ?_⟩, ?_, .inr ?_⟩
    · have := pow10_pos (places - 1)
      omega
    · rw [lastPlace, hlog, hten, Nat.cast_mul,
        show Int.log 10 r.toRat + 1 - places + 1 = Int.log 10 r.toRat - places + 1 + 1 by ring,
        zpow_add_one₀ (by norm_num)]
      push_cast
      ring
    · -- one place further to the left the number is a tenth of what was rounded up
      rw [hten] at hnear
      have htenth : (r.shift ((places : Int) - 1 - (r.leading + 1))).toRat
          = (r.shift ((places : Int) - 1 - r.leading)).toRat / 10 := by
        rw [Ratio.toRat_shift, Ratio.toRat_shift,
          show (places : Int) - 1 - (r.leading + 1) = places - 1 - r.leading - 1 by ring,
          zpow_sub_one₀ (by norm_num)]
        ring
      exact Ratio.roundHalfEven_eq (Ratio.den_shift_pos hden _) (htenth ▸ hnear.tenth)
    · rw [hlog]

theorem significant_ofDyadic (hplaces : 0 < places) {m : Nat} (hm : m ≠ 0) (q : Int) :
    IsSignificant places (.ofDyadic m q) (significant places (.ofDyadic m q)).1
      (significant places (.ofDyadic m q)).2 :=
  significant_spec hplaces (Ratio.num_ofDyadic_pos hm q) (Ratio.den_ofDyadic_pos m q)

/-- A number of `places` digits has its leading digit at the exponent that it is scaled to. -/
theorem scaled_bounds {n : Nat} (hplaces : 0 < places) (hlow : pow10 (places - 1) ≤ n)
    (hhigh : n < pow10 places) (x : Int) :
    (10 : ℚ) ^ x ≤ n * 10 ^ (x - places + 1) ∧ (n : ℚ) * 10 ^ (x - places + 1) < 10 ^ (x + 1) := by
  have hscale : (0 : ℚ) < 10 ^ (x - places + 1) := by positivity
  have hlowq : (10 : ℚ) ^ (places - 1) ≤ n := by
    rw [← cast_pow10]
    exact_mod_cast hlow
  have hhighq : (n : ℚ) < 10 ^ places := by
    rw [← cast_pow10]
    exact_mod_cast hhigh
  constructor
  · calc (10 : ℚ) ^ x = 10 ^ (places - 1) * 10 ^ (x - places + 1) := by
          rw [← zpow_natCast, ← zpow_add₀ (by norm_num)]
          congr 1
          omega
      _ ≤ _ := mul_le_mul_of_nonneg_right hlowq hscale.le
  · calc (n : ℚ) * 10 ^ (x - places + 1) < 10 ^ places * 10 ^ (x - places + 1) :=
          mul_lt_mul_of_pos_right hhighq hscale
      _ = 10 ^ (x + 1) := by
          rw [← zpow_natCast, ← zpow_add₀ (by norm_num)]
          congr 1
          ring

end Significant

end Sentential.Decimal
