import Sentential.Proofs.Decimal.Layout
import Sentential.Proofs.Text.Rendered
import Sentential.Proofs.Weight.OneLine

/-!
# Two roundings come to one text

The layout in two steps finds the exponent in the scientific text, which it takes apart again, and
without an exponent it rounds the number a second time. Both ways lead to the digits that one
rounding gives, so the text is the one of the general layout, and the limit on places is met by the
one exactly if it is met by the other (`stepwiseText_eq`).
-/

namespace Sentential.Decimal

/-! ## Trimming -/

section Trim

variable {c : Char} {cs whole fraction : List Char}

theorem trimEnd_append_replicate (h : cs.getLast? ≠ some c) (j : Nat) :
    trimEnd c (cs ++ List.replicate j c) = cs := by
  have hall : ∀ d ∈ List.replicate j c, (d == c) = true := fun d hd =>
    beq_iff_eq.2 (List.eq_of_mem_replicate hd)
  have hself : cs.rdropWhile (· == c) = cs := by
    refine List.rdropWhile_eq_self_iff.2 fun hne hlast => h ?_
    rw [List.getLast?_eq_some_getLast hne, beq_iff_eq.1 hlast]
  calc trimEnd c (cs ++ List.replicate j c)
      = ((List.replicate j c ++ cs.reverse).dropWhile (· == c)).reverse := by
        rw [trimEnd, List.reverse_append, List.reverse_replicate]
    _ = cs.rdropWhile (· == c) := by rw [List.dropWhile_append_of_pos hall]; rfl
    _ = cs := hself

theorem joinPoint_cons (c : Char) (cs : List Char) :
    joinPoint whole (c :: cs) = whole ++ '.' :: c :: cs := rfl

/-- What stays behind a point, once the zeros are off it, keeps the point, and nothing does not. -/
theorem trimEnd_trimEnd (hpoint : '.' ∉ cs) {kept : List Char} (hkept : AreDigits kept)
    (hlast : kept.getLast? ≠ some '0') (j : Nat) :
    trimEnd '.' (trimEnd '0' (cs ++ '.' :: (kept ++ List.replicate j '0'))) = joinPoint cs kept := by
  cases kept with
  | nil =>
    have hlast : (cs ++ ['.']).getLast? ≠ some '0' := by simp
    have hlastPoint : cs.getLast? ≠ some '.' := fun hend => hpoint (List.mem_of_getLast? hend)
    rw [show cs ++ '.' :: ([] ++ List.replicate j '0')
        = cs ++ ['.'] ++ List.replicate j '0' by simp,
      trimEnd_append_replicate hlast j]
    exact trimEnd_append_replicate hlastPoint 1
  | cons e es =>
    have hend : (cs ++ '.' :: e :: es).getLast? = (e :: es).getLast? := by
      rw [show cs ++ '.' :: e :: es = cs ++ ['.'] ++ e :: es by simp, List.getLast?_append,
        List.getLast?_eq_some_getLast (List.cons_ne_nil e es), Option.some_or]
    have hlastPoint : (e :: es).getLast? ≠ some '.' := fun hend =>
      notMem_of_areDigits (by decide) hkept (List.mem_of_getLast? hend)
    rw [show cs ++ '.' :: (e :: es ++ List.replicate j '0')
        = cs ++ '.' :: e :: es ++ List.replicate j '0' by simp,
      trimEnd_append_replicate (hend ▸ hlast) j, joinPoint_cons]
    simpa using trimEnd_append_replicate (hend ▸ hlastPoint) 0

theorem append_joinPoint (cs whole fraction : List Char) :
    cs ++ joinPoint whole fraction = joinPoint (cs ++ whole) fraction := by
  cases fraction with
  | nil => rfl
  | cons d ds => rw [joinPoint_cons, joinPoint_cons, List.append_assoc]

/-- On a finished text the zeros behind the point are cut off as they are cut off the fraction, and
no digit in front of the point is. -/
theorem trimPoint_joinPoint (negative : Bool) (hwhole : AreDigits whole)
    (hfraction : AreDigits fraction) :
    trimPoint (sign negative ++ joinPoint whole fraction)
      = sign negative ++ joinPoint whole (trimZeros fraction) := by
  have hpoint : '.' ∉ sign negative ++ whole := by
    rw [List.mem_append, not_or]
    exact ⟨by cases negative <;> decide, notMem_of_areDigits (by decide) hwhole⟩
  rw [append_joinPoint, append_joinPoint]
  generalize sign negative ++ whole = cs at hpoint
  cases fraction with
  | nil => exact if_neg (by simpa [joinPoint] using hpoint)
  | cons d ds =>
    obtain ⟨j, hj⟩ := exists_trimZeros_append (d :: ds)
    have htrim := trimEnd_trimEnd hpoint hfraction.trimZeros (getLast?_trimZeros (d :: ds)) j
    rw [hj] at htrim
    rw [trimPoint, if_pos (by simp [joinPoint]), joinPoint_cons, htrim]

end Trim

/-! ## Taking the scientific text apart -/

theorem splitExponent_append {mantissa : List Char} (h : 'e' ∉ mantissa) (exponent : List Char) :
    splitExponent (mantissa ++ 'e' :: exponent) = (mantissa, exponent) := by
  have hall : ∀ c ∈ mantissa, (c != 'e') = true := fun c hc =>
    bne_iff_ne.2 fun heq => h (heq ▸ hc)
  have hdrop : (mantissa ++ 'e' :: exponent).dropWhile (· != 'e') = 'e' :: exponent := by
    rw [List.dropWhile_append_of_pos hall]
    rfl
  have htake : (mantissa ++ 'e' :: exponent).takeWhile (· != 'e') = mantissa := by
    rw [List.takeWhile_append_of_pos hall]
    exact List.append_nil mantissa
  rw [splitExponent, hdrop]
  dsimp only
  rw [htake]

/-! ## The two steps -/

theorem AreDigits.take {ds : List Char} (h : AreDigits ds) (n : Nat) : AreDigits (ds.take n) :=
  fun c hc => h c (List.mem_of_mem_take hc)

theorem AreDigits.drop {ds : List Char} (h : AreDigits ds) (n : Nat) : AreDigits (ds.drop n) :=
  fun c hc => h c (List.mem_of_mem_drop hc)

theorem withinPlaces_bind (places : Nat) (text : List Char)
    (f : List Char → Except Fault (List Char)) :
    (withinPlaces places text >>= f)
      = if places ≤ maxPlaces then f text else .error .tooManyPlaces := by
  unfold withinPlaces
  split <;> rfl

namespace Binary

variable {negative : Bool} {m : Nat} {q : Int} {places : Nat}

/-- The scientific text falls apart into the digits and the exponent of the rounded number. -/
theorem splitExponent_scientificText (hm : m ≠ 0) (hplaces : 0 < places) {n : Nat} {x : Int}
    (hsig : significant places (.ofDyadic m q) = (n, x)) :
    splitExponent ((Binary.finite negative m q).scientificText (places - 1))
      = (sign negative ++ joinPoint ((digits n).take 1) ((digits n).drop 1), Text.intField x) := by
  unfold scientificText
  dsimp only
  rw [if_neg hm, Nat.sub_add_cancel hplaces, hsig]
  refine splitExponent_append ?_ _
  rw [List.mem_append, not_or]
  exact ⟨by cases negative <;> decide,
    notMem_joinPoint (by decide) (notMem_of_areDigits (by decide) ((areDigits_digits n).take 1))
      (notMem_of_areDigits (by decide) ((areDigits_digits n).drop 1))⟩

/-- The text with fixed places is a quotient and a remainder by a power of ten. -/
theorem fixedText_finite (places : Nat) {n : Nat}
    (hround : ((Ratio.ofDyadic m q).shift places).roundHalfEven = n) :
    (Binary.finite negative m q).fixedText places
      = sign negative ++ joinPoint (digits (n / pow10 places)) (padded places (n % pow10 places)) := by
  subst hround
  rfl

section Significant

variable {n : Nat} {x : Int}

/-- With an exponent, the trimmed digits of the scientific text are those of the general layout. -/
theorem trimPoint_mantissa (hneeds : needsExponent places x = true) :
    trimPoint (sign negative ++ joinPoint ((digits n).take 1) ((digits n).drop 1)) ++ exponentText x
      = sign negative ++ generalLayout places n x := by
  rw [trimPoint_joinPoint negative ((areDigits_digits n).take 1) ((areDigits_digits n).drop 1),
    generalLayout, if_pos hneeds, List.append_assoc]

/-- Without an exponent, rounding to the places that are left gives the same digits again. -/
theorem trimPoint_fixedText (hplaces : 0 < places)
    (hspec : IsSignificant places (.ofDyadic m q) n x) (hneeds : ¬needsExponent places x = true) :
    trimPoint ((Binary.finite negative m q).fixedText (placesBehind places x))
      = sign negative ++ generalLayout places n x := by
  have hx : x < places := (not_needsExponent hneeds).2
  have hbehind : (placesBehind places x : Int) = places - 1 - x := by
    unfold placesBehind
    omega
  have hround : ((Ratio.ofDyadic m q).shift (placesBehind places x)).roundHalfEven = n := by
    rw [hbehind]
    exact hspec.again
  rw [fixedText_finite _ hround,
    trimPoint_joinPoint negative (areDigits_digits _) (areDigits_padded _ _),
    generalLayout, if_neg hneeds, place_digits hspec.low hspec.high hplaces hx]

/-- The limit in terms of the two layouts that are trimmed. -/
theorem limitedGeneralText_eq (negative : Bool) (hm : m ≠ 0) {precision : Nat}
    (hsig : significant (max precision 1) (.ofDyadic m q) = (n, x)) :
    (Binary.finite negative m q).limitedGeneralText precision
      = if max precision 1 - 1 ≤ maxPlaces ∧
          (needsExponent (max precision 1) x = true ∨ placesBehind (max precision 1) x ≤ maxPlaces)
        then .ok (sign negative ++ generalLayout (max precision 1) n x)
        else .error .tooManyPlaces := by
  unfold limitedGeneralText generalText
  dsimp only
  rw [if_neg hm, hsig]
  refine if_congr ?_ rfl rfl
  simp only [isWithinPlaces, hsig, hm, false_or, Bool.and_eq_true, Bool.or_eq_true,
    decide_eq_true_eq, placesBehind]
  exact and_congr (by omega) (or_congr Iff.rfl (by omega))

/-- The two steps for a number whose exponent fits a word. -/
theorem stepwiseText_finite (hm : m ≠ 0) {precision : Nat}
    (hsig : significant (max precision 1) (.ofDyadic m q) = (n, x))
    (hlow : -(pow2 31 : Int) ≤ x) (hhigh : x < pow2 31) :
    (Binary.finite negative m q).stepwiseText precision
      = (Binary.finite negative m q).limitedGeneralText precision := by
  have hplaces : 0 < max precision 1 := lt_max_of_lt_right Nat.one_pos
  have hspec := significant_ofDyadic hplaces hm q
  rw [hsig] at hspec
  rw [limitedGeneralText_eq negative hm hsig]
  unfold stepwiseText
  dsimp only
  rw [if_neg hm]
  generalize max precision 1 = places at *
  rw [withinPlaces_bind, splitExponent_scientificText hm hplaces hsig]
  dsimp only
  rw [readInteger?_intField hlow hhigh, Option.getD_some,
    show ((places : Int) - 1 - x).toNat = placesBehind places x from rfl]
  by_cases hlimit : places - 1 ≤ maxPlaces
  · rw [if_pos hlimit]
    by_cases hneeds : needsExponent places x = true
    · rw [if_pos hneeds, if_pos ⟨hlimit, .inl hneeds⟩, trimPoint_mantissa hneeds]
    · rw [if_neg hneeds, withinPlaces]
      by_cases hbehind : placesBehind places x ≤ maxPlaces
      · rw [if_pos hbehind, if_pos ⟨hlimit, .inr hbehind⟩]
        exact congrArg Except.ok (trimPoint_fixedText hplaces hspec hneeds)
      · rw [if_neg hbehind, if_neg fun h => h.2.elim hneeds hbehind]
        rfl
  · rw [if_neg hlimit, if_neg fun h => hlimit h.1]

end Significant

/-! ## Exponents of doubles -/

theorem ofBits_finite_bounds {bits : UInt64} (h : ofBits bits = .finite negative m q) :
    m < pow2 53 ∧ -1074 ≤ q ∧ q ≤ 971 := by
  have hfraction : bits.toNat % pow2 52 < pow2 52 := Nat.mod_lt _ (pow2_pos 52)
  have hexponent : bits.toNat / pow2 52 % pow2 11 < 2048 := Nat.mod_lt _ (pow2_pos 11)
  have hdouble : pow2 53 = pow2 52 + pow2 52 := rfl
  unfold ofBits at h
  dsimp only at h
  split_ifs at h with hspecial hzero hsubnormal
  · obtain ⟨-, rfl, rfl⟩ := Binary.finite.inj h
    omega
  · obtain ⟨-, rfl, rfl⟩ := Binary.finite.inj h
    omega

/-- The leading digits of doubles stand between the places -1074 and 1023, a wide estimate. -/
theorem log_bounds {bits : UInt64} (h : ofBits bits = .finite negative m q) (hm : m ≠ 0) :
    -1074 ≤ Int.log 10 (m * 2 ^ q : ℚ) ∧ Int.log 10 (m * 2 ^ q : ℚ) < 1024 := by
  obtain ⟨hmantissa, hlow, hhigh⟩ := ofBits_finite_bounds h
  have hone : (1 : ℚ) ≤ m := by exact_mod_cast Nat.pos_of_ne_zero hm
  have hmax : (m : ℚ) < 2 ^ 53 := by exact_mod_cast hmantissa
  have hpos : (0 : ℚ) < m * 2 ^ q := by positivity
  constructor
  · refine (Int.zpow_le_iff_le_log (b := 10) (by decide) hpos).1 ?_
    calc ((10 : Nat) : ℚ) ^ (-1074 : Int) = (10 ^ 1074)⁻¹ := by
          rw [zpow_neg, Nat.cast_ofNat]
          rfl
      _ ≤ (2 ^ 1074)⁻¹ := inv_anti₀ (by positivity) (pow_le_pow_left₀ (by norm_num) (by norm_num) _)
      _ = 2 ^ (-1074 : Int) := by
          rw [zpow_neg]
          rfl
      _ ≤ 2 ^ q := zpow_le_zpow_right₀ (by norm_num) hlow
      _ ≤ m * 2 ^ q := le_mul_of_one_le_left (by positivity) hone
  · refine (Int.lt_zpow_iff_log_lt (b := 10) (by decide) hpos).1 ?_
    calc (m : ℚ) * 2 ^ q < 2 ^ (53 : Int) * 2 ^ q :=
          mul_lt_mul_of_pos_right (by exact_mod_cast hmax) (by positivity)
      _ = 2 ^ (53 + q) := (zpow_add₀ (by norm_num) _ _).symm
      _ ≤ 2 ^ (1024 : Int) := zpow_le_zpow_right₀ (by norm_num) (by omega)
      _ ≤ ((10 : Nat) : ℚ) ^ (1024 : Int) :=
          zpow_le_zpow_left₀ (by norm_num) (by norm_num) (by norm_num)

/-- The layout in two steps is the general layout, on every double and for every precision. -/
theorem stepwiseText_eq (bits : UInt64) (precision : Nat) :
    (ofBits bits).stepwiseText precision = (ofBits bits).limitedGeneralText precision := by
  cases h : ofBits bits with
  | nan => rfl
  | infinite negative => rfl
  | finite negative m q =>
    by_cases hm : m = 0
    · subst hm
      rfl
    · have hspec := significant_ofDyadic (lt_max_of_lt_right (b := precision) Nat.one_pos) hm q
      cases hsig : significant (max precision 1) (.ofDyadic m q) with
      | mk n x =>
        rw [hsig] at hspec
        have hexponent := hspec.exponent
        have hword : (1074 : Int) < pow2 31 := by decide
        rw [Ratio.toRat_ofDyadic] at hexponent
        obtain ⟨hlow, hhigh⟩ := log_bounds h hm
        exact stepwiseText_finite hm hsig (by omega) (by omega)

end Binary

end Sentential.Decimal
