import Mathlib.Data.List.DropRight
import Sentential.Decimal.Numeral
import Sentential.Decimal.Notation
import Sentential.Proofs.Decimal.Rounding

/-!
# Digits on the two sides of the point

A run of digits is determined by its length and its value (`eq_of_value_eq`). With this the digits
of a number fall apart wherever a point is put: in front of it stand the digits of the quotient by a
power of ten, behind it the remainder, filled up with zeros (`digits_split`).
-/

namespace Sentential.Decimal

/-! ## The value of digits -/

/-- A run of digits and nothing else; it may be empty. -/
def AreDigits (ds : List Char) : Prop := ∀ c ∈ ds, c.isDigit = true

theorem areDigits_digits (n : Nat) : AreDigits (digits n) :=
  fun _ hc => Nat.isDigit_of_mem_toDigits (by decide) (by decide) hc

theorem areDigits_zeros (n : Nat) : AreDigits (List.replicate n '0') := by
  intro c hc
  rw [List.eq_of_mem_replicate hc]
  rfl

theorem AreDigits.append {ds es : List Char} (hds : AreDigits ds) (hes : AreDigits es) :
    AreDigits (ds ++ es) := by
  intro c hc
  exact (List.mem_append.1 hc).elim (hds c) (hes c)

theorem value_digits (n : Nat) : value (digits n) = n := Nat.ofDigitChars_ten_toDigits

theorem value_append (ds es : List Char) :
    value (ds ++ es) = value ds * pow10 es.length + value es := by
  rw [value, Nat.ofDigitChars_append, Nat.ofDigitChars_eq_ofDigitChars_zero, Nat.mul_comm]
  rfl

theorem value_zeros (n : Nat) : value (List.replicate n '0') = 0 := by
  rw [value, Nat.ofDigitChars_replicate_zero, Nat.mul_zero]

theorem value_cons (c : Char) (cs : List Char) :
    value (c :: cs) = value [c] * pow10 cs.length + value cs := value_append [c] cs

/-- The value of a single digit is below ten and tells which digit it is. -/
theorem value_singleton {c : Char} (hc : c.isDigit = true) :
    value [c] ≤ 9 ∧ c.toNat = value [c] + 48 := by
  have hrange : 48 ≤ c.toNat ∧ c.toNat ≤ 57 := Char.isDigit_iff_toNat.1 hc
  have hvalue : value [c] = c.toNat - 48 := by
    rw [value, Nat.ofDigitChars_cons, Nat.mul_zero, Nat.zero_add]
    rfl
  omega

theorem value_lt {ds : List Char} (hds : AreDigits ds) : value ds < pow10 ds.length := by
  induction ds with
  | nil => decide
  | cons c cs ih =>
    have hone := (value_singleton (hds c List.mem_cons_self)).1
    have hcs := ih fun d hd => hds d (List.mem_cons_of_mem _ hd)
    calc value (c :: cs) = value [c] * pow10 cs.length + value cs := value_cons c cs
      _ < value [c] * pow10 cs.length + pow10 cs.length := Nat.add_lt_add_left hcs _
      _ = (value [c] + 1) * pow10 cs.length := (Nat.succ_mul _ _).symm
      _ ≤ 10 * pow10 cs.length := Nat.mul_le_mul_right _ (Nat.succ_le_succ hone)
      _ = pow10 (c :: cs).length := Nat.pow_succ'.symm

/-- Quotient and remainder by a power of ten that exceeds the remainder. -/
theorem mul_pow10_add_inj {k a b v w : Nat} (hv : v < pow10 k) (hw : w < pow10 k)
    (h : a * pow10 k + v = b * pow10 k + w) : a = b ∧ v = w := by
  have hdiv := congrArg (· / pow10 k) h
  have hmod := congrArg (· % pow10 k) h
  simp only [Nat.mul_add_mod_self_right, Nat.mod_eq_of_lt hv, Nat.mod_eq_of_lt hw] at hmod
  refine ⟨?_, hmod⟩
  rw [hmod] at h
  exact Nat.eq_of_mul_eq_mul_right (pow10_pos k) (Nat.add_right_cancel h)

/-- Runs of digits with the same length and the same value are the same. -/
theorem eq_of_value_eq {ds es : List Char} (hds : AreDigits ds) (hes : AreDigits es)
    (hlength : ds.length = es.length) (hvalue : value ds = value es) : ds = es := by
  induction ds generalizing es with
  | nil => exact (List.length_eq_zero_iff.1 hlength.symm).symm
  | cons c cs ih =>
    cases es with
    | nil => exact absurd hlength (by simp)
    | cons d ds =>
      have hcs : AreDigits cs := fun e he => hds e (List.mem_cons_of_mem _ he)
      have hds' : AreDigits ds := fun e he => hes e (List.mem_cons_of_mem _ he)
      have hrest : cs.length = ds.length := Nat.succ.inj hlength
      rw [value_cons c cs, value_cons d ds, hrest] at hvalue
      obtain ⟨hhead, htail⟩ := mul_pow10_add_inj (hrest ▸ value_lt hcs) (value_lt hds') hvalue
      have hc := (value_singleton (hds c List.mem_cons_self)).2
      have hd := (value_singleton (hes d List.mem_cons_self)).2
      rw [ih hcs hds' hrest htail, Char.toNat_inj.1 (hc.trans (hhead ▸ hd.symm))]

/-! ## Digits behind the point -/

/-- The number with zeros in front, to fill `places` places. -/
def padded (places n : Nat) : List Char :=
  if places = 0 then [] else List.replicate (places - (digits n).length) '0' ++ digits n

theorem areDigits_padded (places n : Nat) : AreDigits (padded places n) := by
  unfold padded
  split
  · exact fun _ hc => absurd hc List.not_mem_nil
  · exact (areDigits_zeros _).append (areDigits_digits n)

section Padded

variable {places n : Nat}

theorem value_padded (hn : n < pow10 places) : value (padded places n) = n := by
  unfold padded
  split
  · next hzero =>
    subst hzero
    exact (Nat.lt_one_iff.1 hn).symm
  · rw [value_append, value_zeros, Nat.zero_mul, Nat.zero_add, value_digits]

theorem length_padded (hn : n < pow10 places) : (padded places n).length = places := by
  unfold padded
  split
  · next hzero => exact hzero.symm
  · next hplaces =>
    have := (length_digits_le_iff (Nat.pos_of_ne_zero hplaces)).2 hn
    rw [List.length_append, List.length_replicate]
    omega

theorem length_digits_eq (hlow : pow10 places ≤ n) (hhigh : n < pow10 (places + 1)) :
    (digits n).length = places + 1 := by
  have hle := (length_digits_le_iff places.succ_pos).2 hhigh
  have hpos : 0 < (digits n).length := Nat.length_toDigits_pos
  rcases Nat.eq_zero_or_pos places with rfl | hplaces
  · omega
  · have := (length_digits_le_iff hplaces).not.2 (Nat.not_lt.2 hlow)
    omega

end Padded

/-- A point in front of the last `k` digits leaves the digits of the quotient by `10 ^ k` in front
of it, and behind it the remainder with all its places. -/
theorem digits_split {n k : Nat} (hn : pow10 k ≤ n) :
    digits n = digits (n / pow10 k) ++ padded k (n % pow10 k) := by
  have hmod : n % pow10 k < pow10 k := Nat.mod_lt _ (pow10_pos k)
  refine eq_of_value_eq (areDigits_digits n)
    ((areDigits_digits _).append (areDigits_padded _ _)) ?_ ?_
  · obtain ⟨hlow, hhigh⟩ := length_digits_bounds (Nat.div_pos hn (pow10_pos k))
    obtain ⟨l, hl⟩ : ∃ l, (digits (n / pow10 k)).length = l + 1 :=
      Nat.exists_eq_succ_of_ne_zero (Nat.ne_of_gt Nat.length_toDigits_pos)
    rw [hl, Nat.add_sub_cancel, Nat.le_div_iff_mul_le (pow10_pos k)] at hlow
    rw [hl, Nat.div_lt_iff_lt_mul (pow10_pos k)] at hhigh
    rw [List.length_append, hl, length_padded hmod, Nat.add_right_comm]
    refine length_digits_eq ?_ ?_
    · exact (Nat.pow_add 10 l k).trans_le hlow
    · rw [Nat.add_right_comm]
      exact hhigh.trans_eq (Nat.pow_add 10 (l + 1) k).symm
  · rw [value_append, value_digits, value_digits, length_padded hmod, value_padded hmod]
    exact (Nat.div_add_mod' n (pow10 k)).symm

/-! ## The point at the place of an exponent -/

section Place

variable {places n : Nat}

/-- The places behind the point of a number of `places` digits with leading exponent `x`. -/
def placesBehind (places : Nat) (x : Int) : Nat := ((places : Int) - 1 - x).toNat

/-- Putting the point is division by a power of ten. -/
theorem place_digits (hlow : pow10 (places - 1) ≤ n) (hhigh : n < pow10 places)
    (hplaces : 0 < places) {x : Int} (hx : x < places) :
    place (digits n) x = (digits (n / pow10 (placesBehind places x)),
      padded (placesBehind places x) (n % pow10 (placesBehind places x))) := by
  obtain ⟨l, rfl⟩ := Nat.exists_eq_add_of_lt hplaces
  rw [Nat.zero_add] at *
  rw [Nat.add_sub_cancel] at hlow
  have hlength := length_digits_eq hlow hhigh
  have hmono : ∀ {i j : Nat}, i ≤ j → pow10 i ≤ pow10 j := Nat.pow_le_pow_right (by decide)
  unfold place
  split_ifs with hneg
  · -- all digits stand behind the point, with zeros in front of them
    obtain ⟨j, hj⟩ : ∃ j : Nat, x = -(j + 1 : Nat) := ⟨(-x - 1).toNat, by omega⟩
    have hk : placesBehind (l + 1) x = l + 1 + j := by
      unfold placesBehind
      omega
    have hbig : n < pow10 (l + 1 + j) := hhigh.trans_le (hmono (Nat.le_add_right _ _))
    rw [hk, Nat.div_eq_of_lt hbig, Nat.mod_eq_of_lt hbig, padded, if_neg (by omega), hlength,
      show (-x - 1).toNat = l + 1 + j - (l + 1) by omega]
    rfl
  · -- the point stands among the digits or behind the last one
    obtain ⟨w, rfl⟩ := Int.eq_ofNat_of_zero_le (Int.not_lt.1 hneg)
    have hk : placesBehind (l + 1) w = l - w := by
      unfold placesBehind
      omega
    rw [hk, Int.toNat_natCast]
    have hsplit := digits_split (hmono (show l - w ≤ l by omega) |>.trans hlow)
    have hmod : n % pow10 (l - w) < pow10 (l - w) := Nat.mod_lt _ (pow10_pos _)
    have hwhole : (digits (n / pow10 (l - w))).length = w + 1 := by
      have := congrArg List.length hsplit
      rw [List.length_append, length_padded hmod, hlength] at this
      omega
    dsimp only
    rw [show w + 1 - (digits n).length = 0 by omega, hsplit, ← hwhole, List.take_left,
      List.drop_left, List.replicate_zero, List.append_nil]

end Place

/-! ## Zeros at the end -/

/-- What `trimZeros` cuts off are zeros, -/
theorem exists_trimZeros_append (ds : List Char) :
    ∃ j, trimZeros ds ++ List.replicate j '0' = ds := by
  have hzeros : ds.rtakeWhile (· == '0') = List.replicate (ds.rtakeWhile (· == '0')).length '0' :=
    List.eq_replicate_of_mem fun c hc => by simpa using List.mem_rtakeWhile_imp hc
  exact ⟨_, hzeros ▸ List.rdropWhile_append_rtakeWhile⟩

/-- and it leaves none at the end. -/
theorem getLast?_trimZeros (ds : List Char) : (trimZeros ds).getLast? ≠ some '0' := by
  intro hlast
  have hne : trimZeros ds ≠ [] := fun hnil => by simp [hnil] at hlast
  rw [List.getLast?_eq_some_getLast hne, Option.some_inj] at hlast
  exact List.rdropWhile_last_not (· == '0') ds hne (beq_iff_eq.2 hlast)

theorem AreDigits.trimZeros {ds : List Char} (hds : AreDigits ds) : AreDigits (trimZeros ds) := by
  obtain ⟨j, hj⟩ := exists_trimZeros_append ds
  intro c hc
  exact hds c (hj ▸ List.mem_append_left _ hc)

end Sentential.Decimal
