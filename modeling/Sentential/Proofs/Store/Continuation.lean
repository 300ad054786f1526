import Sentential.Proofs.Circuit.Copy
import Sentential.Proofs.Dot.Copy
import Sentential.Proofs.Format.Copy

/-!
# Answers that never change

A store only grows: whatever a further call does, and whether or not it is refused on the way, every
id keeps its node (`Continues.extends`). A diagram is then a copy of itself under the same ids, so
nothing that was found out about it is found otherwise later (`Built.keepsAnswers`): a query looks
at the nodes below its root only, and the fuel of its walk, which grows with the store, was enough
before.
-/

namespace Sentential

open Format

theorem Format.FormatError.renamed_self (e : FormatError) : e.renamed (fun x => x) = e := by
  cases e <;> rfl

theorem CompileError.renamed_self (e : CompileError) : e.renamed (fun x => x) = e := by
  cases e <;> rfl

namespace Store

variable {W : Type} [Weight W] {s s' : Store W} {id : NodeId}

/-- The store `s'` has come about from `s` through further calls whose ids were ids of the store. -/
inductive Continues (s : Store W) : Store W → Prop
  | refl : Continues s s
  | call {s' : Store W} (c : Call W) :
      Continues s s' → s'.KnowsBelow c.elements → Continues s (c.perform s').2

/-- Everything that can be asked about the diagram below a node is answered in `s'` as in `s`. -/
structure KeepsAnswers (s s' : Store W) (id : NodeId) : Prop where
  entry : s'.entry id = s.entry id
  isFalse : s'.isFalse id = s.isFalse id
  vtreeOf : s'.vtreeOf id = s.vtreeOf id
  indexing : s'.indexing id = s.indexing id
  positiveOrder : s'.positiveOrder id = s.positiveOrder id
  modelCount : s'.modelCount id = s.modelCount id
  sddText : s'.sddText id = s.sddText id
  psddText : s'.psddText id = s.psddText id
  compile : s'.compile id = s.compile id
  sddDot : ∀ config, s'.sddDot id config = s.sddDot id config
  psddDot : ∀ sub config, s'.psddDot id sub config = s.psddDot id sub config

theorem Continues.built (h : s.Continues s') (hs : s.Built) : s'.Built := by
  induction h with
  | refl => exact hs
  | call c _ hc ih => exact .call c ih hc

/-- What one call does to a store: it adds nodes behind those that are there. -/
theorem Built.extends_perform (hs : s.Built) (c : Call W) (hc : s.KnowsBelow c.elements) :
    s.Extends (c.perform s).2 :=
  (perform_delivers (fun _ _ h => h) hs.sound c hc).1.extends

theorem Continues.extends (h : s.Continues s') (hs : s.Built) : s.Extends s' := by
  induction h with
  | refl => exact .refl s
  | call c hrest hc ih => exact ih.trans ((hrest.built hs).extends_perform c hc)

theorem Extends.sameAnswers (h : s.Extends s') (hs : s.Built) (hs' : s'.Built) (hid : s.Knows id) :
    s.KeepsAnswers s' id := by
  obtain ⟨order, figs, ho⟩ := exists_outlines hs.closed hid
  have hcopies := h.copies id
  have ho' := hcopies.outlines ho
  obtain ⟨b, order₀, hp⟩ := exists_positive hs.closed hid
  have hp' := hcopies.positive ho hs.sound hs'.sound hp
  obtain ⟨e, he⟩ := knows_iff.1 hid
  -- the renaming leaves every id as it is
  rw [List.map_id'] at ho' hp'
  constructor
  case entry => rw [he, h.entry he]
  case isFalse =>
    have hflag := isFalse_eq_ok.2 ⟨e, he, rfl⟩
    exact (h.isFalse hflag).trans hflag.symm
  case vtreeOf => exact hcopies.vtreeOf ho (ho.mem_iff.2 .refl)
  case indexing => rw [ho.indexing, ho'.indexing]
  case positiveOrder => rw [hp.positiveOrder, hp'.positiveOrder]
  case modelCount => exact hcopies.modelCount ho
  case sddText => exact hcopies.sddText ho
  case psddText =>
    rw [hcopies.psddText ho hs.sound hs'.sound, mapError_self FormatError.renamed_self]
  case compile =>
    rw [hcopies.compile ho hs.sound hs'.sound hs.closed hs'.closed,
      mapError_self CompileError.renamed_self]
  case sddDot => exact hcopies.sddDot ho
  case psddDot =>
    exact fun sub => hcopies.psddDot ho hs.sound hs'.sound (SubCircuit.sameChoices_self order sub)

/-- A store keeps its nodes, and everything that it has answered about one of them it answers again
after any further calls, refused ones included. -/
theorem Built.keepsAnswers (hs : s.Built) (h : s.Continues s') :
    s.Extends s' ∧ ∀ id, s.Knows id → s.KeepsAnswers s' id :=
  ⟨h.extends hs, fun _ hid => (h.extends hs).sameAnswers hs (h.built hs) hid⟩

/-- A text whose last line refers to a node that no line before it describes. -/
def danglingText : List Char := "sdd 2\nL 0 0 1\nD 1 1 1 0 7\n".toList

/-- The sample after a further decision was looked up and a text was refused. -/
def continuedSample : Store Extreme :=
  ((Call.readSdd danglingText).perform ((Call.lookup [⟨⟨4⟩, ⟨3⟩⟩] ⟨1⟩).perform sample).2).2

theorem continuedSample_keepsAnswers : sample.Built ∧ sample.Continues continuedSample ∧
    sample.Extends continuedSample ∧
    ∀ id, sample.Knows id → sample.KeepsAnswers continuedSample id :=
  have hcontinues : sample.Continues continuedSample :=
    .call (.readSdd danglingText) (.call (.lookup [⟨⟨4⟩, ⟨3⟩⟩] ⟨1⟩) .refl (by decide))
      (knowsBelow_nil _)
  ⟨built_sample, hcontinues, built_sample.keepsAnswers hcontinues⟩

end Store
end Sentential
