import Sentential.Proofs.Circuit.Alignment
import Sentential.Proofs.Circuit.Copy
import Sentential.Proofs.Dot.Copy
import Sentential.Proofs.Format.Copy

/-!
# Outputs depend on the diagram only

Two stores over one vtree may have made the same diagram in different orders and among different
other nodes. What is written, drawn, counted and compiled is the same for both
(`Built.sameOutputs`): no output shows an id. Where a diagram is refused, because a node has no
weights or no variable, its copy is refused at the copy of that node.
-/

namespace Sentential.Store

open Format

variable {W : Type} [Weight W] {s s' : Store W} {id root root' : NodeId} {f : NodeId → NodeId}

/-- A renaming as in `Copies` is one of all nodes of the two diagrams. -/
theorem Copies.reaches_iff (h : Copies f s root s' root') (hclosed : s.Closed)
    (hroot : s.Knows root) : s'.Reaches root' id ↔ ∃ a, s.Reaches root a ∧ f a = id := by
  obtain ⟨order, figs, ho⟩ := exists_outlines hclosed hroot
  rw [← (h.outlines ho).mem_iff, List.mem_map]
  simp only [ho.mem_iff]

/-- Everything that is put out of the two diagrams is the same, the circuits with their weights and
literal maps included, or it is refused on both sides at one node and its copy. -/
structure SameOutputs (f : NodeId → NodeId) (s : Store W) (root : NodeId) (s' : Store W)
    (root' : NodeId) : Prop where
  sddText : s'.sddText root' = s.sddText root
  sddDot : ∀ config, s'.sddDot root' config = s.sddDot root config
  psddDot : ∀ config, s'.psddDot root' .empty config = s.psddDot root .empty config
  modelCount : s'.modelCount root' = s.modelCount root
  psddText : (∃ text, s.psddText root = .ok text ∧ s'.psddText root' = .ok text) ∨
    ∃ id, s.Reaches root id ∧ s'.Reaches root' (f id) ∧
      s.psddText root = .error (.missingTheta id) ∧
      s'.psddText root' = .error (.missingTheta (f id))
  compile : (∃ c, s.compile root = .ok c ∧ s'.compile root' = .ok c) ∨
    ∃ id, s.Reaches root id ∧ s'.Reaches root' (f id) ∧
      ((s.compile root = .error (.unboundTop id) ∧
          s'.compile root' = .error (.unboundTop (f id))) ∨
        (s.compile root = .error (.missingTheta id) ∧
          s'.compile root' = .error (.missingTheta (f id))))

/-- What is put out of a diagram does not depend on the ids of its nodes, nor on anything else that
the store holds or has done. -/
theorem Built.sameOutputs (hs : s.Built) (hs' : s'.Built) (hroot : s.Knows root)
    (h : Copies f s root s' root') : SameOutputs f s root s' root' := by
  obtain ⟨order, figs, ho⟩ := exists_outlines hs.closed hroot
  have hreaches : ∀ id, s.Reaches root id → s'.Reaches root' (f id) :=
    fun id hid => (h.reaches_iff hs.closed hroot).2 ⟨id, hid, rfl⟩
  have htext := h.psddText ho hs.sound hs'.sound
  have hcompile := h.compile ho hs.sound hs'.sound hs.closed hs'.closed
  constructor
  case sddText => exact h.sddText ho
  case sddDot => exact h.sddDot ho
  case psddDot =>
    exact h.psddDot ho hs.sound hs'.sound (SubCircuit.sameChoices_empty f order)
  case modelCount => exact h.modelCount ho
  case psddText =>
    rcases ho.psddText_cases hs.sound with ⟨text, hok⟩ | ⟨id, hid, herror⟩
    · exact Or.inl ⟨text, hok, by rw [htext, hok]; rfl⟩
    · exact Or.inr ⟨id, hid, hreaches id hid, herror, by rw [htext, herror]; rfl⟩
  case compile =>
    rcases hs.sound.compile_cases hs.closed hroot with ⟨c, hok⟩ | ⟨id, hid, hunbound | hmissing⟩
    · exact Or.inl ⟨c, hok, by rw [hcompile, hok]; rfl⟩
    · exact Or.inr ⟨id, hid, hreaches id hid, Or.inl ⟨hunbound, by rw [hcompile, hunbound]; rfl⟩⟩
    · exact Or.inr ⟨id, hid, hreaches id hid, Or.inr ⟨hmissing, by rw [hcompile, hmissing]; rfl⟩⟩

theorem isNonneg_zeroOne : ∀ w ∈ [Extreme.zero, .one], Weight.isNonneg w = true := by
  decide

/-- All weight is on the variable being true. -/
def allTrue : Theta Extreme := ⟨[.zero, .one], isNonneg_zeroOne⟩

/-- The weighted nodes of the sample in a store that has made nothing else. -/
def sparseSample : Store Extreme :=
  ((ofVtree .pair).make ⟨.top (some ⟨0⟩), some allTrue⟩ false).make
    ⟨.decision ⟨1⟩ [⟨⟨6⟩, ⟨3⟩⟩, ⟨⟨4⟩, .bottom⟩], some allFirst⟩ false

theorem built_sparseSample : sparseSample.Built := by
  have hfork : Vtree.pair.IsFork ⟨1⟩ := ⟨_, _, _, rfl⟩
  have hleaf : Vtree.pair.leafOf 1 = .ok ⟨0⟩ := rfl
  have hstart : (ofVtree Vtree.pair : Store Extreme).Built := .start (.balanced Vtree.balanced_two)
  have hone := hstart.step (.make (n := ⟨.top (some ⟨0⟩), some allTrue⟩) (b := false)
    (.top hleaf rfl) rfl (by decide) fun h => absurd h (by simp))
  exact hone.step (.make (.decision hfork fun θ hθ => Option.some_inj.1 hθ ▸ rfl) rfl (by decide)
    fun h => absurd h (by simp))

/-- The ids of the weighted nodes of the sample in the other store. -/
def sparseId (id : NodeId) : NodeId :=
  if id = ⟨8⟩ then ⟨7⟩ else if id = ⟨7⟩ then ⟨6⟩ else id

theorem copies_sparseSample : Copies sparseId sample ⟨8⟩ sparseSample ⟨7⟩ := by
  constructor
  case vtree => rfl
  case apply_root => rfl
  case injective =>
    intro a b ha hb
    exact (by decide : ∀ a ∈ [⟨8⟩, ⟨7⟩, ⟨3⟩, ⟨4⟩, NodeId.bottom],
      ∀ b ∈ [⟨8⟩, ⟨7⟩, ⟨3⟩, ⟨4⟩, NodeId.bottom], sparseId a = sparseId b → a = b)
      a (mem_of_reaches_sample ha) b (mem_of_reaches_sample hb)
  case node =>
    intro id e hid he
    have hmem := mem_of_reaches_sample hid
    simp only [List.mem_cons, List.not_mem_nil, or_false] at hmem
    rcases hmem with rfl | rfl | rfl | rfl | rfl
    all_goals
      obtain rfl := Except.ok.inj he
      exact ⟨_, rfl⟩

theorem sameOutputs_sparseSample : sample.Built ∧ sparseSample.Built ∧ sample.Knows ⟨8⟩ ∧
    Copies sparseId sample ⟨8⟩ sparseSample ⟨7⟩ ∧
    SameOutputs sparseId sample ⟨8⟩ sparseSample ⟨7⟩ :=
  have hroot : sample.Knows ⟨8⟩ := by decide
  ⟨built_sample, built_sparseSample, hroot, copies_sparseSample,
    built_sample.sameOutputs built_sparseSample hroot copies_sparseSample⟩

end Sentential.Store
