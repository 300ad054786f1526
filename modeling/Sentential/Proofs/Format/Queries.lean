import Sentential.Proofs.Dot.Totality
import Sentential.Proofs.Format.PsddClosure
import Sentential.Proofs.Format.SddGrammar
import Sentential.Proofs.Format.SddRoundTrip
import Sentential.Proofs.Meaning.Falsity
import Sentential.Proofs.Meaning.Marginalization

/-!
# Asking about what was read

Whatever a reader answers with can be asked about: counting models, numbering, writing and drawing
all come to an answer (`Built.queryable_of_read`). A store may hold decisions whose elements do not
keep to the sides of their vtree nodes, and a decision of a diagram file is looked up in the store
first. But what is looked up has the elements of the line, and the reader lets a line in only if
they fit: by induction over the lines, all decisions below the answer keep to their sides
(`Arranged`). There the number of variables of a part is at most that of the side it lies under,
and the difference by which a count is shifted does not fall below zero.
-/

namespace Sentential.Store

open Format Text Indexing Vtree

variable {W : Type} [Weight W] {s s' : Store W} {id root : NodeId} {v side : VtreeId}
  {es : List Element}

/-! ## Sides -/

theorem Extends.fits (h : s.Extends s') {b : Bool} (hb : s.fits side id = .ok b) :
    s'.fits side id = .ok b := by
  obtain ⟨own, hown, hb⟩ := bind_eq_ok.1 hb
  unfold Store.fits
  rw [h.vtreeOf hown, h.vtree]
  exact hb

theorem Normalized.mono (h : s.Normalized v es) (hext : s.Extends s') : s'.Normalized v es := by
  obtain ⟨i, l, r, hfork, hall⟩ := h
  refine ⟨i, l, r, hext.vtree ▸ hfork, allElements_eq_true.2 fun x hx => ?_⟩
  obtain ⟨hp, hq⟩ := allElements_eq_true.1 hall x hx
  exact ⟨hext.fits hp, hext.fits hq⟩

/-- A node that sits at a side fits under it. -/
theorem fits_of_sitsAt (h : s.sitsAt side id = .ok true) : s.fits side id = .ok true := by
  obtain ⟨own, hown, h⟩ := bind_eq_ok.1 h
  unfold fits
  rw [hown, ok_bind]
  cases own with
  | none => rfl
  | some v =>
    obtain rfl : v = side := by simpa using h
    exact isUnder_self s.vtree v

/-- A node that sits at a side belongs to the side itself if it belongs to a vtree node. -/
theorem eq_of_sitsAt (h : s.sitsAt side id = .ok true) (hv : s.vtreeOf id = .ok (some v)) :
    v = side := by
  unfold sitsAt at h
  rw [hv] at h
  simpa using h

theorem Seated.normalized (h : s.Seated v es) : s.Normalized v es := by
  obtain ⟨i, l, r, hfork, hall⟩ := h
  refine ⟨i, l, r, hfork, allElements_eq_true.2 fun x hx => ?_⟩
  obtain ⟨hp, hq⟩ := allElements_eq_true.1 hall x hx
  exact ⟨fits_of_sitsAt hp, fits_of_sitsAt hq⟩

/-! ## Diagrams that keep to the sides -/

/-- The node is no decision, or its elements fit under the two sides of its vtree node and are made
of such nodes. -/
inductive Arranged (s : Store W) : NodeId → Prop
  | plain {id : NodeId} {k : Kind} : s.kind id = .ok k → k.isDecision = false → Arranged s id
  | decision {id : NodeId} {v : VtreeId} {es : List Element} : s.kind id = .ok (.decision v es) →
      s.Normalized v es → (∀ x ∈ nodesBelow es, Arranged s x) → Arranged s id

namespace Arranged

theorem mono (h : s.Arranged id) (hext : s.Extends s') : s'.Arranged id := by
  induction h with
  | plain hkind hplain => exact .plain (hext.kind hkind) hplain
  | decision hkind hnormal _ ih => exact .decision (hext.kind hkind) (hnormal.mono hext) ih

theorem of_decision (h : s.Arranged id) (hkind : s.kind id = .ok (.decision v es)) :
    s.Normalized v es ∧ ∀ x ∈ nodesBelow es, s.Arranged x := by
  cases h with
  | plain hk hplain =>
    obtain rfl := Except.ok.inj (hkind.symm.trans hk)
    exact absurd hplain (by simp [Kind.isDecision])
  | decision hk hnormal hbelow =>
    obtain ⟨rfl, rfl⟩ := Kind.decision.inj (Except.ok.inj (hkind.symm.trans hk))
    exact ⟨hnormal, hbelow⟩

theorem of_reaches (h : s.Arranged root) (hid : s.Reaches root id) : s.Arranged id := by
  induction hid with
  | refl => exact h
  | tail _ hstep ih =>
    obtain ⟨es, hes, hx⟩ := hstep
    obtain ⟨e, he, rfl⟩ := elements_eq_ok.1 hes
    have hkind := kind_of_entry he
    cases hk : e.kind with
    | decision v es =>
      rw [hk] at hkind
      rw [Node.elements, hk] at hx
      exact (ih.of_decision hkind).2 _ hx
    | _ =>
      rw [Node.elements, hk] at hx
      exact absurd hx (by simp [Kind.elements, nodesBelow])

theorem normalizedFrom (h : s.Arranged root) : s.NormalizedFrom root :=
  fun _ _ _ hid hkind => ((h.of_reaches hid).of_decision hkind).1

end Arranged

/-- A line of a diagram file over arranged nodes is read as an arranged node. -/
theorem arranged_of_buildSdd (hs : s.Sound) {t : Slots NodeId} {r : Record} {i : Nat}
    (ht : t.All fun x => s.Knows x ∧ s.Arranged x) (h : s.buildSdd t r i = (.ok id, s')) :
    s'.Arranged id := by
  rcases buildSdd_cases h with ⟨v, es, -, hline, hlookup⟩ | ⟨hplain, rfl⟩
  · obtain ⟨⟨j, left, right, hsub, hfits⟩, hall⟩ := readDecision_eq_ok hline
    have hbelow : ∀ x ∈ nodesBelow es, s.Knows x ∧ s.Arranged x := hall _ ht
    have hnormal : s.Normalized v es := ⟨j, left, right, hsub, hfits⟩
    -- what is looked up may be older than the text, but has these elements
    obtain ⟨a, s₁, b, hmade, hext, he⟩ :=
      hs.exists_lookup ⟨j, left, right, hsub⟩ fun x hx => (hbelow x hx).1
    obtain ⟨hid, rfl⟩ := Prod.mk.inj (hlookup.symm.trans hmade)
    obtain rfl := Except.ok.inj hid
    exact .decision (kind_of_entry he) (hnormal.mono hext) fun x hx => (hbelow x hx).2.mono hext
  · rcases readSddPlain_eq_ok hplain with rfl | rfl | ⟨l, hl⟩
    · exact .plain (kind_of_entry hs.base.entry_bottom) rfl
    · exact .plain (kind_of_entry hs.base.entry_top) rfl
    · obtain ⟨lit, -, he⟩ := hs.entry_of_literal? hl
      exact .plain (kind_of_entry he) rfl

/-- A diagram file is read as an arranged node. -/
theorem readSdd_arranged (hs : s.Sound) {text : List Char} (h : s.readSdd text = (.ok root, s')) :
    s'.Arranged root := by
  have hread : AnySteps s (s.readSdd text).2 ∧ ∀ id, (s.readSdd text).1 = .ok id →
      (s.readSdd text).2.Knows id ∧ (s.readSdd text).2.Arranged id := by
    refine readText_provides (p := fun s id => s.Knows id ∧ s.Arranged id)
      (fun s s' id hext hid => ⟨hext.knows hid.1, hid.2.mono hext⟩)
      (fun s₁ t r i hsteps ht => ?_) text
    have hs₁ := hsteps.sound hs
    have hdelivers := buildSdd_delivers (fun _ _ _ => trivial) hs₁ (ht.imp fun _ hx => hx.1) r i
    exact ⟨hdelivers.1, fun x hx =>
      ⟨hdelivers.2 x hx, arranged_of_buildSdd hs₁ ht (Prod.ext hx rfl)⟩⟩
  rw [h] at hread
  exact (hread.2 root rfl).2

theorem Probabilistic.arranged (h : s.Probabilistic id) (hs : s.Sound) : s.Arranged id := by
  induction h with
  | bottom => exact .plain (kind_of_entry hs.base.entry_bottom) rfl
  | literal hliteral =>
    obtain ⟨l, hl⟩ := hliteral
    obtain ⟨lit, -, he⟩ := hs.entry_of_literal? hl
    exact .plain (kind_of_entry he) rfl
  | top he => exact .plain (kind_of_entry he) rfl
  | decision he hseated _ _ ih => exact .decision (kind_of_entry he) hseated.normalized ih

theorem Probabilistic.of_reaches (h : s.Probabilistic root) (hs : s.Sound)
    (hid : s.Reaches root id) : s.Probabilistic id := by
  induction hid with
  | refl => exact h
  | tail _ hstep ih =>
    obtain ⟨es, hes, hx⟩ := hstep
    exact (ih.of_elements hs hes _ hx).1

/-! ## Queries -/

/-- The node belongs to no vtree node or to one under the side, and the variables of its own vtree
node are not more than those of the side. -/
structure LiesUnder (s : Store W) (side : VtreeId) (id : NodeId) : Prop where
  isUnder : ∀ v, s.vtreeOf id = .ok (some v) → s.vtree.isUnder v side = .ok true
  scope_le : ∃ narrow wide, s.scope id = .ok narrow ∧ s.vtree.varCount side = .ok wide ∧
    narrow ≤ wide

/-- All queries about the diagram below the root are answered. In its decisions all parts lie under
their sides, so no count is shifted by less than nothing. -/
structure Queryable (s : Store W) (root : NodeId) : Prop where
  sides : ∀ id v es, s.Reaches root id → s.kind id = .ok (.decision v es) → ∃ i left right,
    s.vtree.subtree? v = some (.fork i left right) ∧
      ∀ x ∈ es, s.LiesUnder left.id x.prime ∧ s.LiesUnder right.id x.sub
  whole : s.LiesUnder s.vtree.root.id root
  modelCount : ∃ n, s.modelCount root = .ok n
  indexing : ∃ ix, s.indexing root = .ok ix
  sddText : ∃ text, s.sddText root = .ok text
  sddDot : ∀ config, ∃ text, s.sddDot root config = .ok text
  /-- Variables are words of 32 bits. -/
  psddDot : s.varCount < Decimal.pow2 32 →
    ∀ sub config, ∃ text, s.psddDot root sub config = .ok text

/-- The queries about a probabilistic diagram are answered as well. In its decisions all parts that
belong to a vtree node belong to the side itself. -/
structure PsddQueryable (s : Store W) (root : NodeId) : Prop extends s.Queryable root where
  seated : ∀ id v es, s.Reaches root id → s.kind id = .ok (.decision v es) → ∃ i left right,
    s.vtree.subtree? v = some (.fork i left right) ∧ ∀ x ∈ es,
      (∀ u, s.vtreeOf x.prime = .ok (some u) → u = left.id) ∧
      ∀ u, s.vtreeOf x.sub = .ok (some u) → u = right.id
  psddText : ∃ text, s.psddText root = .ok text
  compile : ∃ c, s.compile root = .ok c

theorem knows_of_fits (h : s.fits side id = .ok true) : s.Knows id := by
  obtain ⟨own, hown, -⟩ := bind_eq_ok.1 h
  exact knows_of_vtreeOf hown

section

variable (hs : s.Sound)
include hs

/-- Of two sets of variables the smaller one is counted lower. -/
theorem Sound.liesUnder (hid : s.Knows id) {t : Tree} (ht : s.vtree.subtree? side = some t)
    (hsub : s.ownVars id ⊆ t.leafVars.toFinset)
    (hunder : ∀ v, s.vtreeOf id = .ok (some v) → s.vtree.isUnder v side = .ok true) :
    s.LiesUnder side id :=
  ⟨hunder, _, _, hs.scope_eq hid, hs.varCount_eq ht, Finset.card_le_card hsub⟩

theorem Sound.liesUnder_of_fits {t : Tree} (ht : s.vtree.subtree? side = some t)
    (hfits : s.fits side id = .ok true) : s.LiesUnder side id := by
  refine hs.liesUnder (knows_of_fits hfits) ht (hs.ownVars_subset hfits ht) fun v hv => ?_
  unfold fits at hfits
  rw [hv] at hfits
  exact hfits

theorem Sound.liesUnder_root (hid : s.Knows id) : s.LiesUnder s.vtree.root.id id := by
  have hroot := hs.vtree.subtree?_root
  refine hs.liesUnder hid hroot (hs.ownVars_subset_root id) fun v hv => ?_
  rcases hs.vtreeOf_cases hid with hnone | ⟨u, t, hu, ht⟩
  · exact absurd (hv.symm.trans hnone) (by simp)
  · obtain rfl := Option.some_inj.1 (Except.ok.inj (hu.symm.trans hv))
    exact (hs.vtree.isUnder_iff ht hroot).2 (hs.vtree.mem_root ht)

theorem Sound.queryable (hclosed : s.Closed) (hroot : s.Knows root) (harranged : s.Arranged root) :
    s.Queryable root := by
  have hnormal := harranged.normalizedFrom
  obtain ⟨order, hnumbering⟩ := exists_numbering hclosed hroot
  constructor
  case sides =>
    intro id v es hid hkind
    obtain ⟨i, left, right, hfork, hall⟩ := hnormal id v es hid hkind
    obtain ⟨hl, hr⟩ := hs.vtree.subtree?_sides hfork
    refine ⟨i, left, right, hfork, fun x hx => ?_⟩
    obtain ⟨hp, hq⟩ := allElements_eq_true.1 hall x hx
    exact ⟨hs.liesUnder_of_fits hl hp, hs.liesUnder_of_fits hr hq⟩
  case whole => exact hs.liesUnder_root hroot
  case modelCount =>
    obtain ⟨n, hn, -⟩ := hs.modelCount_falsity hclosed hroot hnormal
    exact ⟨n, hn⟩
  case indexing => exact ⟨_, hnumbering.indexing⟩
  case sddText =>
    obtain ⟨figs, ho⟩ := hnumbering.exists_outlines
    obtain ⟨rows, -, -, -, htext⟩ := ho.exists_sddText hs
    exact ⟨_, htext⟩
  case sddDot => exact hnumbering.exists_sddDot
  case psddDot => exact fun hwords => hnumbering.exists_psddDot hs hwords

theorem Sound.psddQueryable (hclosed : s.Closed) (h : s.Probabilistic root) :
    s.PsddQueryable root := by
  have hroot := h.knows hs
  refine ⟨hs.queryable hclosed hroot (h.arranged hs), ?_, ?_, ?_⟩
  · intro id v es hid hkind
    obtain ⟨θ, b, -, i, left, right, hfork, hall⟩ :=
      ((h.of_reaches hs hid).writable hs).of_decision hkind
    refine ⟨i, left, right, hfork, fun x hx => ?_⟩
    obtain ⟨hp, hq⟩ := allElements_eq_true.1 hall x hx
    exact ⟨fun _ hu => eq_of_sitsAt hp hu, fun _ hu => eq_of_sitsAt hq hu⟩
  · obtain ⟨order, figs, ho⟩ := exists_outlines hclosed hroot
    obtain ⟨rows, -, -, htext⟩ := ho.exists_psddText hs fun id hid =>
      (h.of_reaches hs (ho.mem_iff.1 hid)).writable hs
    exact ⟨_, htext⟩
  · obtain ⟨b, order, l, e, -, -, -, hcompile⟩ := h.exists_circuit hs
    exact ⟨_, hcompile⟩

end

/-- Whatever nodes a store holds, all queries about what its readers answer with are answered. -/
theorem Built.queryable_of_read (h : s.Built) (text : List Char) :
    (∀ root s', s.readSdd text = (.ok root, s') → s'.Queryable root) ∧
    ∀ root s', s.readPsdd text = (.ok root, s') → s'.PsddQueryable root := by
  constructor
  · intro root s' hread
    have hbuilt : (s.readSdd text).2.Built := h.call (.readSdd text) (knowsBelow_nil s)
    rw [hread] at hbuilt
    have hdelivers := readSdd_delivers (fun _ _ h => h) h.sound text
    rw [hread] at hdelivers
    exact hbuilt.sound.queryable hbuilt.closed (hdelivers.2 root rfl)
      (readSdd_arranged h.sound hread)
  · intro root s' hread
    have hbuilt : (s.readPsdd text).2.Built := h.call (.readPsdd text) (knowsBelow_nil s)
    rw [hread] at hbuilt
    obtain ⟨hs, -, hprobabilistic⟩ := readPsdd_probabilistic h.sound hread
    exact hs.psddQueryable hbuilt.closed hprobabilistic

/-- The elements of `x₁ ∧ x₂` with the prime under the right side and the sub under the left one. -/
def crossed : List Element := [⟨⟨3⟩, ⟨2⟩⟩]

/-- The sample with a decision at id 9 whose elements do not keep to the sides. -/
def crossedSample : Store Extreme := sample.make ⟨.decision ⟨1⟩ crossed, none⟩ false

theorem built_crossedSample : crossedSample.Built := by
  have hfork : sample.vtree.IsFork ⟨1⟩ := ⟨_, _, _, rfl⟩
  refine built_sample.step (.make (n := ⟨.decision ⟨1⟩ crossed, none⟩) (b := false)
    (.decision hfork fun θ hθ => absurd hθ (by simp)) rfl (by decide) fun _ => ?_)
  simp [sample, crossed, conjunction, make, noted, canonical?, ofVtree]

theorem not_normalized_crossed : ¬ crossedSample.Normalized ⟨1⟩ crossed := by
  rintro ⟨i, left, right, hfork, hall⟩
  obtain ⟨-, rfl, rfl⟩ := Tree.fork.inj (Option.some_inj.1 hfork)
  exact absurd hall (by decide)

theorem queryable_of_read_crossedSample : ∃ id s₁ id' s₂,
    crossedSample.readSdd conjunctionText = (.ok id, s₁) ∧ s₁.Queryable id ∧
    crossedSample.readPsdd diagramText = (.ok id', s₂) ∧ s₂.PsddQueryable id' ∧
    crossedSample.kind ⟨9⟩ = .ok (.decision ⟨1⟩ crossed) ∧
    ¬ crossedSample.Normalized ⟨1⟩ crossed := by
  obtain ⟨id, s₁, hsdd, -⟩ :=
    built_crossedSample.sound.readSdd_of_isSddFile (by decide) isSddFile_conjunctionText
  have hroot : (crossedSample.readPsdd diagramText).1 = .ok ⟨11⟩ := by decide +kernel
  have hpsdd : crossedSample.readPsdd diagramText = (.ok ⟨11⟩, _) := Prod.ext hroot rfl
  exact ⟨id, s₁, _, _, hsdd, (built_crossedSample.queryable_of_read conjunctionText).1 id s₁ hsdd,
    hpsdd, (built_crossedSample.queryable_of_read diagramText).2 _ _ hpsdd, rfl,
    not_normalized_crossed⟩

end Sentential.Store
