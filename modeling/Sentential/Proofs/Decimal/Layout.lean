import Mathlib.Data.Rat.Floor
import Sentential.Decimal.General
import Sentential.Proofs.Decimal.Digits

/-!
# Texts of numbers, and what they say

A number is laid out as digits, a point in front of further digits if there are any, and in some
layouts an exponent. Reading such a text gives back its sign, its digits and its exponent
(`read?_layout`).

The general layout is brought to this form (`generalLayout_eq`): with an exponent or without one, it
is a quotient by a power of ten, a point, and the remainder without the zeros at its end.
-/

namespace Sentential.Decimal

/-! ## Reading -/

theorem notMem_of_areDigits {c : Char} (hc : c.isDigit = false) {ds : List Char}
    (hds : AreDigits ds) : c ∉ ds := fun hmem => by
  rw [hds c hmem] at hc
  exact absurd hc (by simp)

theorem toLower_of_isDigit {c : Char} (hc : c.isDigit = true) : c.toLower = c := by
  have hrange : 48 ≤ c.toNat ∧ c.toNat ≤ 57 := Char.isDigit_iff_toNat.1 hc
  refine dif_neg fun hupper => ?_
  have hlow : 65 ≤ c.toNat := UInt32.le_iff_toNat_le.1 hupper.1
  omega

theorem splitSign_sign (negative : Bool) {c : Char} (hc : c.isDigit = true) (cs : List Char) :
    splitSign (sign negative ++ c :: cs) = (negative, c :: cs) := by
  cases negative with
  | true => rfl
  | false =>
    show splitSign (c :: cs) = (false, c :: cs)
    unfold splitSign
    split
    · next heq => exact absurd hc (by rw [(List.cons.inj heq).1]; decide)
    · next heq => exact absurd hc (by rw [(List.cons.inj heq).1]; decide)
    · rfl

/-- What begins with a digit is no name. -/
theorem read?_sign (negative : Bool) {c : Char} (hc : c.isDigit = true) (cs : List Char) :
    Scientific.read? (sign negative ++ c :: cs) = Scientific.readUnsigned? negative (c :: cs) := by
  have hname : ∀ (d : Char) (ds : List Char), d.isDigit = false →
      (c :: cs).map Char.toLower ≠ d :: ds := by
    intro d ds hd heq
    rw [List.map_cons, toLower_of_isDigit hc] at heq
    rw [← (List.cons.inj heq).1, hc] at hd
    exact absurd hd (by simp)
  have hinfinity : (c :: cs).map Char.toLower ≠ "infinity".toList :=
    hname 'i' ['n', 'f', 'i', 'n', 'i', 't', 'y'] (by decide)
  unfold Scientific.read?
  rw [splitSign_sign negative hc]
  dsimp only
  rw [if_neg (hname _ _ (by decide)), if_neg]
  simp only [Bool.or_eq_true, decide_eq_true_eq, not_or]
  exact ⟨hname _ _ (by decide), hinfinity⟩

/-- An exponent, or nothing at all: what can follow the digits of a numeral. -/
def IsExponent (cs : List Char) : Prop := cs = [] ∨ ∃ ds, cs = 'e' :: ds

theorem IsExponent.takeWhile {cs : List Char} (h : IsExponent cs) :
    cs.takeWhile Char.isDigit = [] := by
  rcases h with rfl | ⟨ds, rfl⟩ <;> rfl

theorem IsExponent.dropWhile {cs : List Char} (h : IsExponent cs) :
    cs.dropWhile Char.isDigit = cs := by
  rcases h with rfl | ⟨ds, rfl⟩ <;> rfl

theorem AreDigits.takeWhile_append {ds rest : List Char} (hds : AreDigits ds)
    (hrest : rest.takeWhile Char.isDigit = []) : (ds ++ rest).takeWhile Char.isDigit = ds := by
  rw [List.takeWhile_append_of_pos hds, hrest, List.append_nil]

theorem AreDigits.dropWhile_append {ds rest : List Char} (hds : AreDigits ds)
    (hrest : rest.dropWhile Char.isDigit = rest) : (ds ++ rest).dropWhile Char.isDigit = rest := by
  rw [List.dropWhile_append_of_pos hds, hrest]

section Read

variable {whole fraction exponent : List Char} {e : Int}

theorem readUnsigned?_layout (negative : Bool) (hwhole : AreDigits whole) (hne : whole ≠ [])
    (hfraction : AreDigits fraction) (hexponent : IsExponent exponent)
    (hread : Scientific.readExponent? exponent = some e) :
    Scientific.readUnsigned? negative (joinPoint whole fraction ++ exponent)
      = some (.finite negative (value (whole ++ fraction)) (e - fraction.length)) := by
  have hsome : (whole ++ fraction).isEmpty = false := by
    rw [List.isEmpty_eq_false_iff]
    exact fun hnil => hne (List.append_eq_nil_iff.1 hnil).1
  cases fraction with
  | nil =>
    rw [show joinPoint whole [] = whole from rfl]
    unfold Scientific.readUnsigned?
    rw [hwhole.takeWhile_append hexponent.takeWhile, hwhole.dropWhile_append hexponent.dropWhile]
    rcases hexponent with rfl | ⟨es, rfl⟩
    · change (if (whole ++ []).isEmpty then none else (Scientific.readExponent? []).map _) = _
      rw [hsome, hread]
      rfl
    · change (if (whole ++ []).isEmpty then none
        else (Scientific.readExponent? ('e' :: es)).map _) = _
      rw [hsome, hread]
      rfl
  | cons d ds =>
    have htake := hfraction.takeWhile_append hexponent.takeWhile
    have hdrop := hfraction.dropWhile_append hexponent.dropWhile
    rw [show joinPoint whole (d :: ds) ++ exponent = whole ++ '.' :: (d :: ds ++ exponent) from
      List.append_assoc _ _ _]
    unfold Scientific.readUnsigned?
    rw [hwhole.takeWhile_append (by rfl), hwhole.dropWhile_append (by rfl)]
    change (if (whole ++ (d :: ds ++ exponent).takeWhile Char.isDigit).isEmpty then none
      else (Scientific.readExponent? ((d :: ds ++ exponent).dropWhile Char.isDigit)).map fun e =>
        Scientific.finite negative (value (whole ++ (d :: ds ++ exponent).takeWhile Char.isDigit))
          (e - ((d :: ds ++ exponent).takeWhile Char.isDigit).length)) = _
    rw [htake, hdrop, hsome, hread]
    rfl

/-- A number that is laid out reads back as what its parts say. -/
theorem read?_layout (negative : Bool) (hwhole : AreDigits whole) (hne : whole ≠ [])
    (hfraction : AreDigits fraction) (hexponent : IsExponent exponent)
    (hread : Scientific.readExponent? exponent = some e) :
    Scientific.read? (sign negative ++ joinPoint whole fraction ++ exponent)
      = some (.finite negative (value (whole ++ fraction)) (e - fraction.length)) := by
  rw [← readUnsigned?_layout negative hwhole hne hfraction hexponent hread, List.append_assoc]
  cases whole with
  | nil => exact absurd rfl hne
  | cons c cs =>
    have hc := hwhole c List.mem_cons_self
    cases fraction with
    | nil => exact read?_sign negative hc _
    | cons d ds => exact read?_sign negative hc _

end Read

/-! ## Exponents -/

/-- The digits of an exponent: at least two. -/
def exponentDigits (x : Int) : List Char :=
  List.replicate (2 - (digits x.natAbs).length) '0' ++ digits x.natAbs

theorem areDigits_exponentDigits (x : Int) : AreDigits (exponentDigits x) :=
  (areDigits_zeros _).append (areDigits_digits _)

theorem two_le_length_exponentDigits (x : Int) : 2 ≤ (exponentDigits x).length := by
  rw [exponentDigits, List.length_append, List.length_replicate]
  omega

theorem readDigits?_exponentDigits (x : Int) :
    readDigits? (exponentDigits x) = some x.natAbs := by
  have hne : (exponentDigits x).isEmpty = false := by
    rw [List.isEmpty_eq_false_iff]
    exact List.ne_nil_of_length_pos (Nat.lt_of_lt_of_le (by decide) (two_le_length_exponentDigits x))
  unfold readDigits?
  rw [hne, List.all_eq_true.2 (areDigits_exponentDigits x), exponentDigits, value_append, value_zeros,
    Nat.zero_mul, Nat.zero_add, value_digits]
  rfl

theorem exponentText_eq (x : Int) :
    exponentText x = 'e' :: (if x < 0 then '-' else '+') :: exponentDigits x := rfl

theorem readExponent?_exponentText (x : Int) :
    Scientific.readExponent? (exponentText x) = some x := by
  have hread := readDigits?_exponentDigits x
  rw [exponentText_eq]
  by_cases hneg : x < 0
  · rw [if_pos hneg]
    change ((readDigits? (exponentDigits x)).bind fun n => some (n : Int)).map (fun n => -n) = _
    rw [hread]
    exact congrArg some (show -(x.natAbs : Int) = x by omega)
  · rw [if_neg hneg]
    change ((readDigits? (exponentDigits x)).bind fun n => some (n : Int)).map (fun n => n) = _
    rw [hread]
    exact congrArg some (show (x.natAbs : Int) = x by omega)

/-! ## The general layout -/

theorem needsExponent_iff {places : Nat} {x : Int} :
    needsExponent places x = true ↔ x < -4 ∨ (places : Int) ≤ x := by
  rw [needsExponent, Bool.or_eq_true, decide_eq_true_eq, decide_eq_true_eq]

theorem not_needsExponent {places : Nat} {x : Int} (h : ¬needsExponent places x = true) :
    -4 ≤ x ∧ x < places := by
  rw [needsExponent_iff, not_or] at h
  omega

/-- The places behind the point of the general layout before it is trimmed: with an exponent all
but the leading digit, without one those that are left. -/
def generalPlaces (places : Nat) (x : Int) : Nat :=
  placesBehind places (if needsExponent places x then 0 else x)

theorem generalLayout_eq {places n : Nat} (hlow : pow10 (places - 1) ≤ n) (hhigh : n < pow10 places)
    (hplaces : 0 < places) (x : Int) :
    generalLayout places n x
      = joinPoint (digits (n / pow10 (generalPlaces places x)))
          (trimZeros (padded (generalPlaces places x) (n % pow10 (generalPlaces places x))))
        ++ if needsExponent places x then exponentText x else [] := by
  unfold generalLayout generalPlaces
  by_cases hneeds : needsExponent places x
  · -- in front of the exponent stands what the exponent zero would show
    have hplace := place_digits hlow hhigh hplaces (x := 0) (by omega)
    have hzero : place (digits n) 0
        = ((digits n).take 1 ++ List.replicate (1 - (digits n).length) '0', (digits n).drop 1) := rfl
    have hlength : 1 - (digits n).length = 0 :=
      Nat.sub_eq_zero_of_le Nat.length_toDigits_pos
    rw [hzero, hlength, List.replicate_zero, List.append_nil] at hplace
    simp only [hneeds, if_true]
    rw [(Prod.mk.inj hplace).1, (Prod.mk.inj hplace).2]
  · have hplace := place_digits hlow hhigh hplaces (not_needsExponent hneeds).2
    simp only [hneeds, if_false, Bool.false_eq_true]
    rw [hplace, List.append_nil]

end Sentential.Decimal
