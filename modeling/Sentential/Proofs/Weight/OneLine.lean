import Sentential.Proofs.Weight.Extreme
import Sentential.Weight.Double

/-!
# Texts that take one line

A literal map has a line for every record, and the records of parameters show weights. So the map
can be taken apart again if no weight is shown with a line break. Doubles are not: the general layout
is made of digits, signs, a point and letters. The same goes for drawings, which show weights with a
fixed number of places.
-/

namespace Sentential

/-- No weight in the general layout takes more than one line. -/
def Weight.OneLine (W : Type) [Weight W] : Prop := ∀ w : W, '\n' ∉ Weight.generalText w

/-- No weight that is shown to two places takes more than one line. -/
def Weight.OneLinePlaces (W : Type) [Weight W] : Prop := ∀ w : W, '\n' ∉ Weight.placesText w

namespace Decimal

variable {c : Char}

theorem notMem_digits (hc : c.isDigit = false) (n : Nat) : c ∉ digits n := by
  intro hmem
  rw [Nat.isDigit_of_mem_toDigits (by decide) (by decide) hmem] at hc
  exact absurd hc (by simp)

/-- Placing the point only puts zeros to the digits. -/
theorem notMem_place (hc : c ≠ '0') {ds : List Char} (hds : c ∉ ds) (x : Int) :
    c ∉ (place ds x).1 ∧ c ∉ (place ds x).2 := by
  have hzeros : ∀ n, c ∉ List.replicate n '0' := fun n hmem => hc (List.eq_of_mem_replicate hmem)
  unfold place
  split
  · rw [List.mem_singleton, List.mem_append, not_or]
    exact ⟨hc, hzeros _, hds⟩
  · rw [List.mem_append, not_or]
    exact ⟨⟨fun hmem => hds (List.mem_of_mem_take hmem), hzeros _⟩,
      fun hmem => hds (List.mem_of_mem_drop hmem)⟩

theorem notMem_trimZeros {ds : List Char} (hds : c ∉ ds) : c ∉ trimZeros ds := by
  rw [trimZeros, List.mem_reverse]
  exact fun hmem => hds (List.mem_reverse.1 (List.dropWhile_subset _ hmem))

theorem notMem_joinPoint (hc : c ≠ '.') {whole fraction : List Char} (hwhole : c ∉ whole)
    (hfraction : c ∉ fraction) : c ∉ joinPoint whole fraction := by
  unfold joinPoint
  split
  · exact hwhole
  · rw [List.mem_append, List.mem_cons, not_or, not_or]
    exact ⟨hwhole, hc, hfraction⟩

theorem newline_notMem_exponentText (x : Int) : '\n' ∉ exponentText x := by
  have hdigits := notMem_digits (c := '\n') (by decide) x.natAbs
  have hsign : '\n' ≠ if x < 0 then '-' else '+' := by split <;> decide
  simp only [exponentText, List.mem_cons, List.mem_append, not_or]
  exact ⟨by decide, hsign, fun hmem => absurd (List.eq_of_mem_replicate hmem) (by decide), hdigits⟩

theorem newline_notMem_generalLayout (places n : Nat) (x : Int) :
    '\n' ∉ generalLayout places n x := by
  have hdigits := notMem_digits (c := '\n') (by decide) n
  unfold generalLayout
  split
  · rw [List.mem_append, not_or]
    refine ⟨notMem_joinPoint (by decide) (fun hmem => hdigits (List.mem_of_mem_take hmem)) ?_,
      newline_notMem_exponentText x⟩
    exact notMem_trimZeros fun hmem => hdigits (List.mem_of_mem_drop hmem)
  · obtain ⟨hwhole, hfraction⟩ := notMem_place (by decide) hdigits x
    exact notMem_joinPoint (by decide) hwhole (notMem_trimZeros hfraction)

theorem newline_notMem_sign (negative : Bool) : '\n' ∉ sign negative := by
  cases negative <;> decide

theorem newline_notMem_generalText (precision : Nat) (b : Binary) :
    '\n' ∉ b.generalText precision := by
  cases b with
  | nan => exact (by decide : '\n' ∉ nanText)
  | infinite negative => exact (by decide : ∀ b, '\n' ∉ infiniteText b) negative
  | finite negative m q =>
    show '\n' ∉ if m = 0 then ['0'] else _
    split
    · decide
    · rw [List.mem_append, not_or]
      exact ⟨newline_notMem_sign negative, newline_notMem_generalLayout _ _ _⟩

theorem newline_notMem_fixedText (places : Nat) (b : Binary) : '\n' ∉ b.fixedText places := by
  have hdigits : ∀ n, '\n' ∉ digits n := notMem_digits (by decide)
  cases b with
  | nan => exact (by decide : '\n' ∉ nanText)
  | infinite negative => exact (by decide : ∀ b, '\n' ∉ infiniteText b) negative
  | finite negative m q =>
    unfold Binary.fixedText
    rw [List.mem_append, not_or]
    refine ⟨newline_notMem_sign negative, notMem_joinPoint (by decide) (hdigits _) ?_⟩
    split
    · simp
    · rw [List.mem_append, not_or]
      exact ⟨fun hmem => absurd (List.eq_of_mem_replicate hmem) (by decide), hdigits _⟩

end Decimal

theorem oneLine_float : Weight.OneLine Float := fun _ => Decimal.newline_notMem_generalText 8 _

theorem oneLinePlaces_float : Weight.OneLinePlaces Float :=
  fun _ => Decimal.newline_notMem_fixedText 2 _

theorem Extreme.oneLine : Weight.OneLine Extreme := by
  intro w
  cases w <;> decide

theorem Extreme.oneLinePlaces : Weight.OneLinePlaces Extreme := by
  intro w
  cases w <;> decide

end Sentential
