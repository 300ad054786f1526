import Mathlib.Logic.Equiv.Basic
import Sentential.Proofs.Format.FailedReads
import Sentential.Proofs.Format.Renumbering

/-!
# Numbers stay in their text

The readers of diagram files use the numbers of nodes to find nodes of earlier records and for
nothing else: corresponding records of renumbered texts are built alike (`buildsAlike_buildSdd`,
`buildsAlike_buildPsdd`), so renumbered texts are read alike (`renumbered_readSdd_readPsdd`), to the
same node of the same store or up to the same error about the renumbered nodes.
-/

namespace Sentential

open Format Text

namespace Store

variable {W : Type} [Weight W] {π : Nat → Nat} {width i j : Nat} {t t' : Slots NodeId}
  {r r' : Record}

/-! ## Lines of both formats -/

section

variable (h : RenumberedRecord π width r r')
include h

theorem readLiteral_renumbered (s : Store W) (i : Nat) :
    s.readLiteral r' (π i) = (s.readLiteral r i).mapError (.renumbered π) := by
  unfold readLiteral
  refine bind_renumbered (h.field_other _ _ (not_isIdPlace (by decide) (by decide))) fun l => ?_
  rw [h.line]
  cases s.literal? l with
  | none => rfl
  | some node =>
    refine bind_renumbered (h.field_other _ _ (not_isIdPlace (by decide) (by decide)))
      fun position => bind_renumbered (liftM_renumbered π _) fun leaf => ?_
    dsimp only
    split <;> rfl

theorem readFork_renumbered (s : Store W) :
    s.readFork r' = (s.readFork r).mapError (.renumbered π) := by
  unfold readFork
  refine bind_renumbered (h.field_other _ _ (not_isIdPlace (by decide) (by decide)))
    fun position => ?_
  rw [h.line]
  split <;> rfl

theorem readSize_renumbered (w : Nat) :
    readSize w r' = (readSize w r).mapError (.renumbered π) := by
  unfold readSize
  refine bind_renumbered (h.field_other _ _ (not_isIdPlace (by decide) (by decide)))
    fun size => ?_
  rw [h.line]
  dsimp only
  split
  · rfl
  · exact bind_renumbered (h.expectFields _) fun _ => rfl

variable (ht : RenumberedSlots π t t')
include ht

/-- What is done with the node that a field refers to. -/
theorem bind_get_renumbered {β : Type} (name : FieldName) (hj : IsIdPlace width r j)
    {k k' : NodeId → Except FormatError β} (hk : ∀ a, k' a = (k a).mapError (.renumbered π)) :
    (field readWord? name r' j >>= fun i => t'.get r'.line i >>= k')
      = (field readWord? name r j >>= fun i => t.get r.line i >>= k).mapError (.renumbered π) := by
  have hself := field_eq_mapError π readWord? name r j
  rw [h.field_number name hj, h.line]
  cases hread : field readWord? name r j with
  | error e =>
    rw [hread] at hself
    exact congrArg Except.error (Except.error.inj hself)
  | ok i =>
    show (t'.get r.line (π i) >>= k') = (t.get r.line i >>= k).mapError (.renumbered π)
    exact bind_renumbered ht.get hk

theorem readElement_renumbered (hprime : IsIdPlace width r j) (hsub : IsIdPlace width r (j + 1)) :
    readElement t' r' j = (readElement t r j).mapError (.renumbered π) :=
  bind_get_renumbered h ht _ hprime fun _ => bind_get_renumbered h ht _ hsub fun _ => rfl

end

/-! ## Diagram files -/

section

variable (h : RenumberedRecord π 2 r r') (ht : RenumberedSlots π t t')
include h ht

theorem readElements_renumbered (htag : tag r = ['D']) (hj : 4 ≤ j) (size : Nat) :
    readElements t' r' j size = (readElements t r j size).mapError (.renumbered π) := by
  induction size generalizing j with
  | zero => rfl
  | succ size ih =>
    -- behind the first four fields all fields are numbers
    have hplace : ∀ k, 4 ≤ k → IsIdPlace 2 r k := fun k hk =>
      Or.inr ⟨htag, hk, Nat.mod_lt _ (by decide)⟩
    rw [readElements, readElements]
    exact bind_renumbered (readElement_renumbered h ht (hplace j hj) (hplace (j + 1) (by omega)))
      fun e => bind_renumbered (ih (by omega)) fun _ => rfl

theorem readDecision_renumbered (htag : tag r = ['D']) (s : Store W) (i : Nat) :
    s.readDecision t' r' (π i) = (s.readDecision t r i).mapError (.renumbered π) := by
  unfold readDecision
  refine bind_renumbered (readFork_renumbered h s) fun d =>
    bind_renumbered (readSize_renumbered h 2) fun size =>
    bind_renumbered (readElements_renumbered h ht htag (Nat.le_refl 4) size) fun es =>
    bind_renumbered (liftM_renumbered π _) fun fitting => ?_
  rw [h.line]
  cases fitting <;> rfl

omit ht in
theorem readSddPlain_renumbered (s : Store W) (i : Nat) :
    s.readSddPlain r' (π i) = (s.readSddPlain r i).mapError (.renumbered π) := by
  unfold readSddPlain
  rw [h.tag, h.line]
  split
  · exact bind_renumbered (h.expectFields 2) fun _ => rfl
  · exact bind_renumbered (h.expectFields 2) fun _ => rfl
  · exact bind_renumbered (h.expectFields 4) fun _ => readLiteral_renumbered h s i
  · rfl

end

theorem buildsAlike_buildSdd (π : Nat → Nat) : BuildsAlike π 2 (buildSdd (W := W)) := by
  intro s t t' r r' i ht h
  unfold buildSdd
  rw [h.tag]
  by_cases htag : tag r = ['D']
  · rw [if_pos htag, if_pos htag, readDecision_renumbered h ht htag s i]
    cases s.readDecision t r i with
    | error e => rfl
    | ok d => exact congrArg (·, (s.lookup d.2 d.1).2) (liftM_renumbered π _)
  · rw [if_neg htag, if_neg htag, readSddPlain_renumbered h s i]

/-! ## Probabilistic diagram files -/

section

variable (h : RenumberedRecord π 3 r r') (ht : RenumberedSlots π t t')
include h

theorem readLog_renumbered (hj : ¬ IsIdPlace 3 r j) :
    (readLog r' j : Except FormatError W) = (readLog r j).mapError (.renumbered π) := by
  unfold readLog
  refine bind_renumbered (h.field_other _ _ hj) fun w => ?_
  rw [h.line]
  dsimp only
  split <;> rfl

theorem readTop_renumbered (htag : tag r = ['T']) (s : Store W) (i : Nat) :
    s.readTop r' (π i) = (s.readTop r i).mapError (.renumbered π) := by
  have hlog : ¬ IsIdPlace 3 r 4 := by simp [IsIdPlace, htag]
  unfold readTop
  refine bind_renumbered (h.expectFields 5) fun _ =>
    bind_renumbered (h.field_other _ _ (not_isIdPlace (by decide) (by decide))) fun position =>
    bind_renumbered (h.field_other _ _ (not_isIdPlace (by decide) (by decide))) fun var =>
    bind_renumbered (readLog_renumbered h hlog) fun w => ?_
  rw [h.line]
  split
  · rfl
  · refine bind_renumbered (liftM_renumbered π _) fun leaf => ?_
    dsimp only
    split <;> rfl

theorem readPsddPlain_renumbered (s : Store W) (i : Nat) :
    s.readPsddPlain r' (π i) = (s.readPsddPlain r i).mapError (.renumbered π) := by
  unfold readPsddPlain
  rw [h.tag, h.line]
  split
  · exact bind_renumbered (h.expectFields 2) fun _ => rfl
  · exact bind_renumbered (h.expectFields 4) fun _ => readLiteral_renumbered h s i
  · rfl

include ht

/-- Of the three fields of an element the last one is no number of a node. -/
theorem readWeighted_renumbered (htag : tag r = ['D']) (k size : Nat) :
    (readWeighted t' r' (4 + 3 * k) size : Except FormatError (List (Element × W)))
      = (readWeighted t r (4 + 3 * k) size).mapError (.renumbered π) := by
  induction size generalizing k with
  | zero => rfl
  | succ size ih =>
    have hprime : IsIdPlace 3 r (4 + 3 * k) := Or.inr ⟨htag, by omega, by omega⟩
    have hsub : IsIdPlace 3 r (4 + 3 * k + 1) := Or.inr ⟨htag, by omega, by omega⟩
    have hlog : ¬ IsIdPlace 3 r (4 + 3 * k + 2) := by
      unfold IsIdPlace
      omega
    rw [readWeighted, readWeighted]
    exact bind_renumbered (readElement_renumbered h ht hprime hsub) fun e =>
      bind_renumbered (readLog_renumbered h hlog) fun w =>
      bind_renumbered (ih (k + 1)) fun _ => rfl

theorem readWeightedDecision_renumbered (htag : tag r = ['D']) (s : Store W) (i : Nat) :
    s.readWeightedDecision t' r' (π i)
      = (s.readWeightedDecision t r i).mapError (.renumbered π) := by
  unfold readWeightedDecision
  refine bind_renumbered (readFork_renumbered h s) fun d =>
    bind_renumbered (readSize_renumbered h 3) fun size =>
    bind_renumbered (readWeighted_renumbered h ht htag 0 size) fun es =>
    bind_renumbered (liftM_renumbered π _) fun fitting => ?_
  rw [h.line]
  cases fitting <;> rfl

end

theorem withTheta_renumbered (π : Nat → Nat) (s : Store W) (θ : Except Fault (Theta W))
    (make : Theta W → Except Fault NodeId × Store W) : s.withTheta θ make
      = ((s.withTheta θ make).1.mapError (.renumbered π), (s.withTheta θ make).2) := by
  cases θ with
  | error e => rfl
  | ok θ => exact congrArg (·, (make θ).2) (liftM_renumbered π _)

theorem buildsAlike_buildPsdd (π : Nat → Nat) : BuildsAlike π 3 (buildPsdd (W := W)) := by
  intro s t t' r r' i ht h
  unfold buildPsdd
  rw [h.tag]
  by_cases htop : tag r = ['T']
  · rw [if_pos htop, if_pos htop, readTop_renumbered h htop s i]
    cases s.readTop r i with
    | error e => rfl
    | ok d => exact withTheta_renumbered π s _ _
  · rw [if_neg htop, if_neg htop]
    by_cases htag : tag r = ['D']
    · rw [if_pos htag, if_pos htag, readWeightedDecision_renumbered h ht htag s i]
      cases s.readWeightedDecision t r i with
      | error e => rfl
      | ok d => exact withTheta_renumbered π s _ _
    · rw [if_neg htag, if_neg htag, readPsddPlain_renumbered h s i]

/-! ## Renumbered files -/

/-- Renumbering the nodes of a file changes neither what its reader answers nor what it makes: the
node and the store are the same, or the error is the one about the renumbered nodes. -/
theorem renumbered_readSdd_readPsdd (s : Store W) (π : Equiv.Perm Nat) (text text' : List Char) :
    (Renumbers ["sdd".toList] 2 π text text' →
      s.readSdd text' = ((s.readSdd text).1.mapError (.renumbered π), (s.readSdd text).2)) ∧
    (Renumbers ["psdd".toList, "sdd".toList] 3 π text text' →
      s.readPsdd text' = ((s.readPsdd text).1.mapError (.renumbered π), (s.readPsdd text).2)) :=
  ⟨fun h => readText_renumbered (buildsAlike_buildSdd π) h s,
    fun h => readText_renumbered (buildsAlike_buildPsdd π) h s⟩

/-- Two literals and a decision of them, numbered in order. -/
def orderedText : List Char := "sdd 3\nL 0 0 1\nL 1 2 2\nD 2 1 1 0 1\n".toList

/-- The numbers 0 and 2 have changed places. -/
def reorderedText : List Char := "sdd 3\nL 2 0 1\nL 1 2 2\nD 0 1 1 2 1\n".toList

def orderedWeighted : List Char := "psdd 3\nL 0 0 1\nT 1 2 2 -inf\nD 2 1 1 0 1 0\n".toList

def reorderedWeighted : List Char := "psdd 3\nL 2 0 1\nT 1 2 2 -inf\nD 0 1 1 2 1 0\n".toList

theorem renumbered_sample :
    Renumbers ["sdd".toList] 2 (Equiv.swap 0 2) orderedText reorderedText ∧
    sample.readSdd reorderedText = ((sample.readSdd orderedText).1.mapError
      (.renumbered (Equiv.swap 0 2)), (sample.readSdd orderedText).2) ∧
    Renumbers ["psdd".toList, "sdd".toList] 3 (Equiv.swap 0 2) orderedWeighted reorderedWeighted ∧
    sample.readPsdd reorderedWeighted = ((sample.readPsdd orderedWeighted).1.mapError
      (.renumbered (Equiv.swap 0 2)), (sample.readPsdd orderedWeighted).2) := by
  have hfixed : ∀ i, 3 ≤ i → Equiv.swap 0 2 i = i := fun i hi =>
    Equiv.swap_apply_of_ne_of_ne (by omega) (by omega)
  have hwords : ∀ i, i < Decimal.pow2 32 → Equiv.swap 0 2 i < Decimal.pow2 32 := fun i hi =>
    (perm_lt_iff (fun j hj => hfixed j (Nat.le_trans (by decide) hj)) i).2 hi
  have hsdd : Renumbers ["sdd".toList] 2 (Equiv.swap 0 2) orderedText reorderedText := by
    refine ⟨fun n rs hheader => ?_,
      .of_records hwords (by decide) (by decide +kernel) (by decide +kernel)⟩
    have hn : (readHeader ["sdd".toList] orderedText).map Prod.fst = .ok 3 := by decide +kernel
    rw [hheader] at hn
    obtain rfl : n = 3 := Except.ok.inj hn
    exact hfixed
  have hpsdd : Renumbers ["psdd".toList, "sdd".toList] 3 (Equiv.swap 0 2) orderedWeighted
      reorderedWeighted := by
    refine ⟨fun n rs hheader => ?_,
      .of_records hwords (by decide) (by decide +kernel) (by decide +kernel)⟩
    have hn : (readHeader ["psdd".toList, "sdd".toList] orderedWeighted).map Prod.fst = .ok 3 := by
      decide +kernel
    rw [hheader] at hn
    obtain rfl : n = 3 := Except.ok.inj hn
    exact hfixed
  exact ⟨hsdd, (renumbered_readSdd_readPsdd sample _ _ _).1 hsdd, hpsdd,
    (renumbered_readSdd_readPsdd sample _ _ _).2 hpsdd⟩

end Store
end Sentential
