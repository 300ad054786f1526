import Sentential.Proofs.Format.BuiltRows
import Sentential.Proofs.Format.Refusal

/-!
# What failed reads leave behind

Both readers build their records as `SddMakes` and `PsddMakes` say (`builds_buildSdd`,
`builds_buildPsdd`), so a caller that goes on after an error knows the store that it goes on with
(`failed_readSdd_readPsdd`): the nodes of the records above the named line have been made by the
operations of the store and nothing else has, but for the node of a record whose only fault is its
number.
-/

namespace Sentential

open Format Text Indexing Vtree

namespace Store

variable {W : Type} [Weight W] {s s' : Store W} {t : Slots NodeId} {r : Record} {i : Nat}
  {e : FormatError}

/-! ## Errors are about their line -/

theorem blames_readLiteral (s : Store W) (r : Record) (i : Nat) :
    Blames r.line (s.readLiteral r i) := by
  unfold readLiteral
  refine .bind (.field _ _ _ _) fun l _ => ?_
  split
  · exact .error (.defect _)
  · refine .bind (.field _ _ _ _) fun position _ => .bind (.liftM _) fun leaf _ => ?_
    split
    · exact .error (.misplaced i)
    · exact .ok _

theorem blames_readFork (s : Store W) (r : Record) : Blames r.line (s.readFork r) := by
  unfold readFork
  refine .bind (.field _ _ _ _) fun position _ => ?_
  split
  · exact .ok _
  · exact .error (.defect _)
  · exact .error (.defect _)

theorem blames_readSize (width : Nat) (r : Record) : Blames r.line (readSize width r) := by
  unfold readSize
  refine .bind (.field _ _ _ _) fun size _ => ?_
  split
  · exact .bind (.error (.defect _)) fun _ h => absurd h (by simp)
  · exact .bind (.expectFields _ _) fun _ _ => .ok size

theorem blames_readElement (t : Slots NodeId) (r : Record) (i : Nat) :
    Blames r.line (readElement t r i) := by
  unfold readElement
  refine .bind (.field _ _ _ _) fun p _ => .bind (.get _ _ _) fun prime _ => ?_
  exact .bind (.field _ _ _ _) fun q _ => .bind (.get _ _ _) fun sub _ => .ok _

theorem blames_readElements (t : Slots NodeId) (r : Record) (i size : Nat) :
    Blames r.line (readElements t r i size) := by
  induction size generalizing i with
  | zero => exact .ok _
  | succ size ih =>
    unfold readElements
    exact .bind (blames_readElement t r i) fun e _ => .bind (ih _) fun es _ => .ok _

theorem blames_readDecision (s : Store W) (t : Slots NodeId) (r : Record) (i : Nat) :
    Blames r.line (s.readDecision t r i) := by
  unfold readDecision
  refine .bind (blames_readFork s r) fun ⟨v, left, right⟩ _ => ?_
  refine .bind (blames_readSize 2 r) fun size _ => ?_
  refine .bind (blames_readElements t r 4 size) fun es _ => .bind (.liftM _) fun b _ => ?_
  split
  · exact .ok _
  · exact .error (.misplaced i)

theorem blames_readSddPlain (s : Store W) (r : Record) (i : Nat) :
    Blames r.line (s.readSddPlain r i) := by
  unfold readSddPlain
  split
  · exact .bind (.expectFields _ _) fun _ _ => .ok _
  · exact .bind (.expectFields _ _) fun _ _ => .ok _
  · exact .bind (.expectFields _ _) fun _ _ => blames_readLiteral s r i
  · exact .error (.defect _)

theorem blames_readLog (r : Record) (i : Nat) : Blames r.line (readLog r i : Except _ W) := by
  unfold readLog
  refine .bind (.field _ _ _ _) fun w _ => ?_
  split
  · exact .ok _
  · exact .error (.defect _)

theorem blames_readWeighted (t : Slots NodeId) (r : Record) (i size : Nat) :
    Blames r.line (readWeighted t r i size : Except _ (List (Element × W))) := by
  induction size generalizing i with
  | zero => exact .ok _
  | succ size ih =>
    unfold readWeighted
    refine .bind (blames_readElement t r i) fun e _ => .bind (blames_readLog r _) fun w _ => ?_
    exact .bind (ih _) fun es _ => .ok _

theorem blames_readTop (s : Store W) (r : Record) (i : Nat) : Blames r.line (s.readTop r i) := by
  unfold readTop
  refine .bind (.expectFields _ _) fun _ _ => .bind (.field _ _ _ _) fun position _ => ?_
  refine .bind (.field _ _ _ _) fun var _ => .bind (blames_readLog _ _) fun w _ => ?_
  split
  · exact .bind (.error (.defect _)) fun _ h => absurd h (by simp)
  · refine .bind (.liftM _) fun leaf _ => ?_
    split
    · exact .bind (.error (.misplaced i)) fun _ h => absurd h (by simp)
    · exact .ok _

theorem blames_readWeightedDecision (s : Store W) (t : Slots NodeId) (r : Record) (i : Nat) :
    Blames r.line (s.readWeightedDecision t r i) := by
  unfold readWeightedDecision
  refine .bind (blames_readFork s r) fun ⟨v, left, right⟩ _ => ?_
  refine .bind (blames_readSize 3 r) fun size _ => ?_
  refine .bind (blames_readWeighted t r 4 size) fun es _ => .bind (.liftM _) fun b _ => ?_
  split
  · exact .ok _
  · exact .error (.misplaced i)

theorem blames_readPsddPlain (s : Store W) (r : Record) (i : Nat) :
    Blames r.line (s.readPsddPlain r i) := by
  unfold readPsddPlain
  split
  · exact .bind (.expectFields _ _) fun _ _ => .ok _
  · exact .bind (.expectFields _ _) fun _ _ => blames_readLiteral s r i
  · exact .error (.defect _)

/-! ## Operations that fault make nothing -/

theorem push_error {m : Node W} {c : Fault} (h : s.push m = (.error c, s')) : s' = s := by
  unfold push at h
  split at h
  · exact (Prod.mk.inj h).2.symm
  · exact absurd (Prod.mk.inj h).1 (by simp)

theorem lookup_error {es : List Element} {v : VtreeId} {c : Fault}
    (h : s.lookup es v = (.error c, s')) : s' = s := by
  unfold lookup at h
  split at h
  · exact (Prod.mk.inj h).2.symm
  · split at h
    · exact absurd (Prod.mk.inj h).1 (by simp)
    · rcases hpush : s.push ⟨.decision v es, none⟩ with ⟨c' | id, s₁⟩
      · simp only [hpush] at h
        exact (Prod.mk.inj h).2.symm.trans (push_error hpush)
      · simp only [hpush] at h
        exact absurd (Prod.mk.inj h).1 (by simp)

theorem newTop_error {var : Nat} {θ : Theta W} {c : Fault} (h : s.newTop var θ = (.error c, s')) :
    s' = s := by
  unfold newTop at h
  split at h
  · exact (Prod.mk.inj h).2.symm
  · split at h
    · exact (Prod.mk.inj h).2.symm
    · exact push_error h

theorem newDecision_error {es : List Element} {v : VtreeId} {θ : Theta W} {c : Fault}
    (h : s.newDecision es v θ = (.error c, s')) : s' = s := by
  unfold newDecision at h
  split at h
  · exact (Prod.mk.inj h).2.symm
  · split at h
    · exact (Prod.mk.inj h).2.symm
    · exact push_error h

/-- The fault of an operation is reported as it is. -/
theorem liftM_error {outcome : Except Fault NodeId × Store W}
    (h : ((liftM outcome.1 : Except FormatError NodeId), outcome.2) = (.error e, s')) :
    ∃ c, outcome = (.error c, s') ∧ e = .fault c := by
  obtain ⟨outcome, s₁⟩ := outcome
  obtain ⟨he, rfl⟩ := Prod.mk.inj h
  cases outcome with
  | error c => exact ⟨c, rfl, (Except.error.inj he).symm⟩
  | ok a => exact absurd he (by simp)

/-! ## Diagram files -/

theorem buildSdd_refused (h : s.buildSdd t r i = (.error e, s')) : s' = s ∧ e.About r.line := by
  unfold buildSdd at h
  split at h
  · cases hline : s.readDecision t r i with
    | error e' =>
      simp only [hline] at h
      obtain ⟨he, rfl⟩ := Prod.mk.inj h
      obtain rfl := Except.error.inj he
      exact ⟨rfl, blames_readDecision s t r i _ hline⟩
    | ok d =>
      simp only [hline] at h
      obtain ⟨c, hlookup, rfl⟩ := liftM_error h
      exact ⟨lookup_error hlookup, .fault c⟩
  · obtain ⟨hplain, rfl⟩ := Prod.mk.inj h
    exact ⟨rfl, blames_readSddPlain s r i _ hplain⟩

theorem builds_buildSdd : Builds (SddMakes (W := W)) buildSdd where
  makes_iff := buildSdd_iff
  refused := buildSdd_refused

/-! ## Probabilistic diagram files -/

theorem withTheta_error {θ : Except Fault (Theta W)}
    {make : Theta W → Except Fault NodeId × Store W} (h : s.withTheta θ make = (.error e, s')) :
    (s' = s ∨ ∃ θ' c, make θ' = (.error c, s')) ∧ e.About r.line := by
  unfold withTheta at h
  cases θ with
  | error c =>
    obtain ⟨he, rfl⟩ := Prod.mk.inj h
    obtain rfl := Except.error.inj he
    exact ⟨Or.inl rfl, .fault c⟩
  | ok θ' =>
    obtain ⟨c, hmake, rfl⟩ := liftM_error h
    exact ⟨Or.inr ⟨θ', c, hmake⟩, .fault c⟩

theorem buildPsdd_refused (h : s.buildPsdd t r i = (.error e, s')) : s' = s ∧ e.About r.line := by
  unfold buildPsdd at h
  split at h
  · cases hline : s.readTop r i with
    | error e' =>
      simp only [hline] at h
      obtain ⟨he, rfl⟩ := Prod.mk.inj h
      obtain rfl := Except.error.inj he
      exact ⟨rfl, blames_readTop s r i _ hline⟩
    | ok d =>
      simp only [hline] at h
      obtain ⟨hs' | ⟨θ, c, hmake⟩, habout⟩ := withTheta_error h
      · exact ⟨hs', habout⟩
      · exact ⟨newTop_error hmake, habout⟩
  · split at h
    · cases hline : s.readWeightedDecision t r i with
      | error e' =>
        simp only [hline] at h
        obtain ⟨he, rfl⟩ := Prod.mk.inj h
        obtain rfl := Except.error.inj he
        exact ⟨rfl, blames_readWeightedDecision s t r i _ hline⟩
      | ok d =>
        simp only [hline] at h
        obtain ⟨hs' | ⟨θ, c, hmake⟩, habout⟩ := withTheta_error h
        · exact ⟨hs', habout⟩
        · exact ⟨newDecision_error hmake, habout⟩
    · obtain ⟨hplain, rfl⟩ := Prod.mk.inj h
      exact ⟨rfl, blames_readPsddPlain s r i _ hplain⟩

theorem builds_buildPsdd : Builds (PsddMakes (W := W)) buildPsdd where
  makes_iff := buildPsdd_iff
  refused := buildPsdd_refused

/-! ## Failed reads -/

/-- A text that one of the readers refuses is refused at its first unacceptable line or for the
number of its nodes, it leaves what the records above that line have made, and the lines below have
no part in it. -/
theorem failed_readSdd_readPsdd (s : Store W) (text : List Char) :
    (∀ e s', s.readSdd text = (.error e, s') →
      FailedRead SddMakes ["sdd".toList] s text s.readSdd e s') ∧
    (∀ e s', s.readPsdd text = (.error e, s') →
      FailedRead PsddMakes ["psdd".toList, "sdd".toList] s text s.readPsdd e s') :=
  ⟨fun _ _ h => builds_buildSdd.failedRead h, fun _ _ h => builds_buildPsdd.failedRead h⟩

/-- A literal that is refused because its number has been given. -/
def recurringLiteral : List Char := "c two literals\nsdd 2\n\nL 0 0 1\nL 0 2 2\n".toList

/-- A TRUE node that is refused because its number has been given. -/
def recurringTop : List Char := "psdd 2\nL 0 0 1\nT 0 2 2 -inf\n".toList

/-- The refused TRUE node is in the store afterwards. -/
theorem failed_recurring :
    ((sample.readSdd recurringLiteral).1 = .error (.defect 5 (.duplicateId 0)) ∧
      FailedRead SddMakes ["sdd".toList] sample recurringLiteral sample.readSdd
        (.defect 5 (.duplicateId 0)) (sample.readSdd recurringLiteral).2) ∧
    ((sample.readPsdd recurringTop).1 = .error (.defect 3 (.duplicateId 0)) ∧
      (sample.readPsdd recurringTop).2.entries.size = sample.entries.size + 1 ∧
      FailedRead PsddMakes ["psdd".toList, "sdd".toList] sample recurringTop sample.readPsdd
        (.defect 3 (.duplicateId 0)) (sample.readPsdd recurringTop).2) := by
  have hsdd : (sample.readSdd recurringLiteral).1 = .error (.defect 5 (.duplicateId 0)) := by
    decide +kernel
  have hpsdd : (sample.readPsdd recurringTop).1 = .error (.defect 3 (.duplicateId 0)) := by
    decide +kernel
  exact ⟨⟨hsdd, (failed_readSdd_readPsdd sample recurringLiteral).1 _ _ (Prod.ext hsdd rfl)⟩,
    hpsdd, by decide +kernel,
      (failed_readSdd_readPsdd sample recurringTop).2 _ _ (Prod.ext hpsdd rfl)⟩

end Store
end Sentential
