import Sentential.Proofs.Circuit.SameOutline
import Sentential.Proofs.Format.Psdd

/-!
# Reading a probabilistic diagram file back

A diagram all of whose TRUE nodes and decisions have weights is determined by its file up to the
ids and to what exponentials of logarithms do to the weights. Reading the file in any store over
the same vtree makes one new node for every TRUE node and every decision, and the outcome has the
outline of the diagram, hence a circuit with the same opcodes.
-/

namespace Sentential.Store

open Format Text

variable {W : Type} [Weight W] {s s₀ s' : Store W} {id root : NodeId} {order ids : List NodeId}
  {figs : List Figure}

/-! ## What can be read back -/

/-- The nodes that a probabilistic diagram file says everything about. -/
inductive Weighed (s : Store W) (id : NodeId) : Prop
  | bottom : s.kind id = .ok .bottom → Weighed s id
  | literal (l : Literal) : s.kind id = .ok (.literal l) → Weighed s id
  | top (leaf : Option VtreeId) (θ : Theta W) (b : Bool) :
      s.entry id = .ok ⟨⟨.top leaf, some θ⟩, b⟩ → θ.Normalizable → Weighed s id
  | decision (v : VtreeId) (es : List Element) (θ : Theta W) (b : Bool) :
      s.entry id = .ok ⟨⟨.decision v es, some θ⟩, b⟩ → θ.Normalizable → s.Seated v es → Weighed s id

/-- The nodes that have a row: TRUE nodes and decisions have weights, and the elements of a decision
sit at the sides of its vtree node. -/
inductive Writable (s : Store W) (id : NodeId) : Prop
  | bottom : s.kind id = .ok .bottom → Writable s id
  | literal (l : Literal) : s.kind id = .ok (.literal l) → Writable s id
  | top (leaf : Option VtreeId) (θ : Theta W) (b : Bool) :
      s.entry id = .ok ⟨⟨.top leaf, some θ⟩, b⟩ → Writable s id
  | decision (v : VtreeId) (es : List Element) (θ : Theta W) (b : Bool) :
      s.entry id = .ok ⟨⟨.decision v es, some θ⟩, b⟩ → s.Seated v es → Writable s id

/-- A node, its weights and its row. -/
structure Row (s : Store W) (order : List NodeId) (i : Nat) (id : NodeId) (fig : Figure)
    (θ : Option (Theta W)) (fs : List Field) : Prop where
  entry : ∃ b, s.entry id = .ok ⟨⟨fig.kind order, θ⟩, b⟩
  row : fig.PsddRow s.vtree i θ fs
  seated : ∀ v es, fig = .decision v es → s.Seated v (es.map (Figure.element order))

/-- The logarithms in the row are those of probabilities. -/
structure Line (s : Store W) (order : List NodeId) (i : Nat) (id : NodeId) (fig : Figure)
    (θ : Option (Theta W)) (fs : List Field) : Prop extends Row s order i id fig θ fs where
  normalizable : ∀ t, θ = some t → t.Normalizable

theorem Weighed.writable (h : s.Weighed id) : s.Writable id := by
  cases h with
  | bottom hk => exact .bottom hk
  | literal l hk => exact .literal l hk
  | top leaf θ b he => exact .top leaf θ b he
  | decision v es θ b he _ hseated => exact .decision v es θ b he hseated

theorem Weighed.normalizable (h : s.Weighed id) (hs : s.Sound) {k : Kind} {θ : Theta W} {b : Bool}
    (he : s.entry id = .ok ⟨⟨k, some θ⟩, b⟩) : θ.Normalizable := by
  -- terminals and literals have no weights
  have hplain : ∀ k', s.kind id = .ok k' → (∀ leaf, k' ≠ .top (some leaf)) →
      (∀ v es, k' ≠ .decision v es) → θ.Normalizable := by
    intro k' hk htop hdecision
    obtain ⟨b', he'⟩ := hs.entry_of_kind hk htop hdecision
    exact absurd (he.symm.trans he') (by simp)
  cases h with
  | bottom hk => exact hplain _ hk (by simp) (by simp)
  | literal l hk => exact hplain _ hk (by simp) (by simp)
  | top leaf θ' b' he' hθ =>
    obtain ⟨⟨-, rfl⟩, -⟩ : (k = .top leaf ∧ θ = θ') ∧ b = b' := by simpa using he.symm.trans he'
    exact hθ
  | decision v es θ' b' he' hθ =>
    obtain ⟨⟨-, rfl⟩, -⟩ : (k = .decision v es ∧ θ = θ') ∧ b = b' := by
      simpa using he.symm.trans he'
    exact hθ

theorem Writable.of_top (h : s.Writable id) {leaf : Option VtreeId}
    (hkind : s.kind id = .ok (.top leaf)) :
    ∃ θ b, s.entry id = .ok ⟨⟨.top leaf, some θ⟩, b⟩ := by
  cases h with
  | bottom hk => exact absurd (hkind.symm.trans hk) (by simp)
  | literal l hk => exact absurd (hkind.symm.trans hk) (by simp)
  | decision v es θ b he => exact absurd (hkind.symm.trans (kind_of_entry he)) (by simp)
  | top leaf' θ b he =>
    obtain rfl := Kind.top.inj (Except.ok.inj (hkind.symm.trans (kind_of_entry he)))
    exact ⟨θ, b, he⟩

theorem Writable.of_decision (h : s.Writable id) {v : VtreeId} {es : List Element}
    (hkind : s.kind id = .ok (.decision v es)) :
    ∃ θ b, s.entry id = .ok ⟨⟨.decision v es, some θ⟩, b⟩ ∧ s.Seated v es := by
  cases h with
  | bottom hk => exact absurd (hkind.symm.trans hk) (by simp)
  | literal l hk => exact absurd (hkind.symm.trans hk) (by simp)
  | top leaf θ b he => exact absurd (hkind.symm.trans (kind_of_entry he)) (by simp)
  | decision v' es' θ b he hseated =>
    obtain ⟨rfl, rfl⟩ := Kind.decision.inj (Except.ok.inj (hkind.symm.trans (kind_of_entry he)))
    exact ⟨θ, b, he, hseated⟩

theorem Writable.exists_row (h : s.Writable id) (hs : s.Sound) {fig : Figure}
    (hkind : s.kind id = .ok (fig.kind order)) (i : Nat) : ∃ θ fs, s.Row order i id fig θ fs := by
  cases fig with
  | bottom =>
    obtain ⟨b, he⟩ := hs.entry_of_kind hkind (by simp [Figure.kind]) (by simp [Figure.kind])
    exact ⟨none, _, ⟨b, he⟩, .bottom, by simp⟩
  | literal l =>
    obtain ⟨b, he⟩ := hs.entry_of_kind hkind (by simp [Figure.kind]) (by simp [Figure.kind])
    obtain ⟨leaf, hleaf⟩ := hs.exists_leafOf hkind
    exact ⟨none, _, ⟨b, he⟩, .literal l leaf hleaf, by simp⟩
  | top leaf =>
    obtain ⟨θ, b, he⟩ := h.of_top hkind
    obtain ⟨fs, hrow⟩ := hs.exists_psddRow_top he i
    exact ⟨some θ, fs, ⟨b, he⟩, hrow, by simp⟩
  | decision v es =>
    obtain ⟨θ, b, he, hseated⟩ := h.of_decision hkind
    have hlen : θ.length = es.length := (hs.length_theta he).trans (List.length_map _)
    refine ⟨some θ, _, ⟨b, he⟩, .decision v es θ hlen, fun v' es' heq => ?_⟩
    obtain ⟨rfl, rfl⟩ := Figure.decision.inj heq
    exact hseated

/-- The file of a diagram whose nodes have rows. -/
theorem Outlines.exists_psddText (h : s.Outlines root order figs) (hs : s.Sound)
    (hwritable : ∀ id ∈ order, s.Writable id) : ∃ rows, rows.length = figs.length ∧
      (∀ (i : Nat) (fs : List Field), rows[i]? = some fs → ∃ id fig θ, order[i]? = some id ∧
        figs[i]? = some fig ∧ s.Row order i id fig θ fs) ∧
      s.psddText root
        = .ok (fileOf psddComments (["psdd".toList, natField rows.length] :: rows)) := by
  have hrow : ∀ (i : Nat) (id : NodeId), order[i]? = some id → ∃ fs fig θ, figs[i]? = some fig ∧
      s.Row order i id fig θ fs := by
    intro i id hid
    obtain ⟨fig, hfig, hkind, -⟩ := h.exists_figure hid
    obtain ⟨θ, fs, hrow⟩ := (hwritable id (List.mem_of_getElem? hid)).exists_row hs hkind i
    exact ⟨fs, fig, θ, hfig, hrow⟩
  obtain ⟨rows, hlen, hrows⟩ := exists_list order hrow
  refine ⟨rows, hlen.trans h.length.symm, fun i fs hfs => ?_, ?_⟩
  · have hlt := (List.getElem?_eq_some_iff.1 hfs).1
    have hid : order[i]? = some order[i] := List.getElem?_eq_getElem (hlen ▸ hlt)
    obtain ⟨fig, θ, hfig, hrow⟩ := hrows i _ fs hid hfs
    exact ⟨_, fig, θ, hid, hfig, hrow⟩
  · apply h.psddText hlen
    intro i id fs hid hfs
    obtain ⟨fig, θ, hfig, hrow⟩ := hrows i id fs hid hfs
    obtain ⟨b, he⟩ := hrow.entry
    have hlt := (List.getElem?_eq_some_iff.1 hid).1
    exact psddLine_eq hs h.nodup he (h.within hfig (Nat.le_of_lt hlt)) hrow.row

/-! ## Reading in any store over the vtree -/

/-- What the row of a figure with weights `θ` is answered with behind the nodes `ids`: a new node
if the figure is that of a TRUE node or a decision, and one that is there otherwise. -/
structure Answer (s' s'' : Store W) (ids : List NodeId) (fig : Figure) (θ : Option (Theta W))
    (id : NodeId) : Prop where
  steps : AnySteps s' s''
  entry : ∃ θ' b, s''.entry id = .ok ⟨⟨fig.kind ids, θ'⟩, b⟩ ∧ fig.Reread θ θ'
  fresh : fig.isMade = true → id = ⟨s'.numNodes⟩
  count : s''.numNodes = s'.numNodes + if fig.isMade then 1 else 0

theorem answer_make {n : Node W} {b : Bool} {fig : Figure} {θ θ' : Option (Theta W)}
    (hmade : n.Made s'.vtree) (hflag : s'.neverHolds n.kind = .ok b) (hθ : n.theta ≠ none)
    (hn : n = ⟨fig.kind ids, θ'⟩) (hread : fig.Reread θ θ') (hfig : fig.isMade = true) :
    Answer s' (s'.make n b) ids fig θ ⟨s'.numNodes⟩ := by
  subst hn
  refine ⟨.single (.make hmade hflag trivial fun hnone => absurd hnone hθ),
    ⟨θ', b, entry_make_self, hread⟩, fun _ => rfl, ?_⟩
  rw [numNodes_make, hfig]
  rfl

/-- A row without weights is answered with the node that every store has for it. -/
theorem answer_plain (hs' : s'.Sound) (hwords : s'.vtree.Addressable) {fig : Figure}
    {r : Record} (hrow : fig.PsddRow s'.vtree ids.length (none : Option (Theta W)) r.fields)
    (hid : s'.canonical? (fig.kind ids) = some id) (t : Slots NodeId) :
    s'.buildPsdd t r ids.length = (.ok id, s') ∧ Answer s' s' ids fig none id := by
  obtain ⟨b, he⟩ := hs'.canonical?_eq_some.1 hid
  have hbuild := buildPsdd_plain hs' hrow hwords hid t
  generalize r.fields = fs at hrow
  refine ⟨hbuild, .refl, ⟨none, b, he, ?_⟩, ?_, ?_⟩
  · cases hrow with
    | bottom => exact .bottom
    | literal l leaf hleaf => exact .literal l
  · intro hmade
    cases hrow <;> exact absurd hmade (by simp [Figure.isMade])
  · cases hrow <;> rfl

section

variable {le : W → W → Prop} (laws : Weight.Laws W le)
include laws

theorem Line.build {x : NodeId} {fig : Figure} {θ : Option (Theta W)} {r : Record}
    (hline : s.Line order ids.length x fig θ r.fields) (h : s.Outlines root order figs)
    (hwords : s.WordSized figs) (hs' : s'.Sound) (hvtree : s'.vtree = s.vtree)
    (hfills : s'.Fills figs ids) (hfig : figs[ids.length]? = some fig) (n : Nat) :
    ∃ id s'', s'.buildPsdd (.filled n ids) r ids.length = (.ok id, s'') ∧
      Answer s' s'' ids fig θ id := by
  have haddressable : s'.vtree.Addressable := hvtree ▸ hwords.addressable
  have hrow := hline.row
  rw [← hvtree] at hrow
  cases θ with
  | none =>
    -- a row without weights is that of a node which every store has
    obtain ⟨id, hid⟩ : ∃ id, s'.canonical? (fig.kind ids) = some id := by
      generalize r.fields = fs at hrow
      cases hrow with
      | bottom => exact ⟨.bottom, rfl⟩
      | literal l leaf hleaf => exact exists_literal?.2 ⟨l.nonzero, (hs'.vtree.leafOf_range hleaf).2⟩
    exact ⟨id, s', answer_plain hs' haddressable hrow hid _⟩
  | some θ =>
    have hθ := hline.normalizable θ rfl
    cases fig with
    | bottom => cases hrow
    | literal l => cases hrow
    | top leaf =>
      cases leaf with
      | none => cases hrow
      | some leaf =>
        obtain ⟨θ', hread, hlen, ⟨var, hleaf⟩, hbuild⟩ := buildPsdd_top laws hs' haddressable hθ hrow _
        exact ⟨_, _, hbuild, answer_make (.top hleaf hlen) rfl (by simp) rfl hread rfl⟩
    | decision v es =>
      have hes : ∀ y ∈ es, y.1 < ids.length ∧ y.2 < ids.length := h.within hfig (Nat.le_refl _)
      have hseated : s'.Seated v (es.map (Figure.element ids)) := by
        refine (hline.seated v es rfl).transport hvtree hes fun j hj side => ?_
        unfold sitsAt
        rw [hfills.vtreeOf_eq h hvtree hj]
      have hflag := nonePositive_known (hfills.knowsBelow hes)
      obtain ⟨θ', hread, hlen, hbuild⟩ := buildPsdd_decision (n := n) laws hs' haddressable hθ hes
        (Nat.le_trans hfills.short hwords.length) (hwords.elements _ (List.mem_of_getElem? hfig))
        hseated hflag hrow
      have hlen' : ∀ t, some θ' = some t → t.length = (es.map (Figure.element ids)).length := by
        intro t ht
        rw [← Option.some_inj.1 ht, List.length_map, hlen]
      exact ⟨_, _, hbuild, answer_make (.decision hseated.isFork hlen') hflag (by simp) rfl hread rfl⟩

end

/-- The nodes `ids` of a store that has come from `s₀` are the first nodes of the figures, with the
weights that were read for them, and no others have been made. -/
structure Recopied (s : Store W) (order : List NodeId) (figs : List Figure) (s₀ s' : Store W)
    (ids : List NodeId) : Prop where
  steps : AnySteps s₀ s'
  fills : s'.Fills figs ids
  reread : ∀ (i : Nat) (id₀ id : NodeId) (fig : Figure), order[i]? = some id₀ → ids[i]? = some id →
    figs[i]? = some fig →
    ∃ e e', s.entry id₀ = .ok e ∧ s'.entry id = .ok e' ∧ fig.Reread e.theta e'.theta
  fresh : ∀ (i : Nat) (id : NodeId) (fig : Figure), ids[i]? = some id → figs[i]? = some fig →
    fig.isMade = true → s₀.numNodes ≤ id.raw
  count : s'.numNodes = s₀.numNodes + (figs.take ids.length).countP Figure.isMade

theorem recopied_nil (s s₀ : Store W) (order : List NodeId) (figs : List Figure) :
    Recopied s order figs s₀ s₀ [] :=
  ⟨.refl, fills_nil s₀ figs, by simp, by simp, by simp⟩

/-- Every answer is a node of its own: one that was made is new, and the others have no weights. -/
theorem Answer.notMem {s'' : Store W} {x : NodeId} {fig : Figure} {θ : Option (Theta W)}
    {fs : List Field} (ha : Answer s' s'' ids fig θ id) (h : s.Outlines root order figs) (hs : s.Sound)
    (hline : s.Line order ids.length x fig θ fs) (hfills : s'.Fills figs ids)
    (hfig : figs[ids.length]? = some fig) : id ∉ ids := by
  obtain ⟨θ', b, he, hread⟩ := ha.entry
  -- a node that was made is new, and one that was found has a figure of its own
  by_cases hmade : fig.isMade = true
  · intro hmem
    have hknown : s'.Knows id := hfills.known id hmem
    rw [ha.fresh hmade] at hknown
    exact absurd hknown (Nat.lt_irrefl _)
  · apply (hfills.mono ha.steps.extends).notMem h hs hfig _ (kind_of_entry he)
    intro i y hy hfigy
    apply hs.entry_of_kind (h.kinds i y fig hy hfigy).1
    · intro leaf
      cases hread <;> simp_all [Figure.kind, Figure.isMade]
    · intro v es
      cases hread <;> simp_all [Figure.kind, Figure.isMade]

theorem Recopied.concat {s'' : Store W} {x : NodeId} {fig : Figure} {θ : Option (Theta W)}
    {fs : List Field} (hr : Recopied s order figs s₀ s' ids) (h : s.Outlines root order figs)
    (hs : s.Sound) (hx : order[ids.length]? = some x) (hline : s.Line order ids.length x fig θ fs)
    (hfig : figs[ids.length]? = some fig) (ha : Answer s' s'' ids fig θ id) :
    Recopied s order figs s₀ s'' (ids ++ [id]) := by
  obtain ⟨θ', b', he', hread⟩ := ha.entry
  obtain ⟨b, he⟩ := hline.entry
  have hfills := hr.fills.concat h hfig (ha.notMem h hs hline hr.fills hfig) ha.steps.extends
    (kind_of_entry he')
  constructor
  case steps => exact hr.steps.trans ha.steps
  case fills => exact hfills
  case reread =>
    intro i id₀ y f hid₀ hy hf
    rcases getElem?_concat_eq_some.1 hy with hold | ⟨rfl, rfl⟩
    · obtain ⟨e, e', he, he', hread⟩ := hr.reread i id₀ y f hid₀ hold hf
      exact ⟨e, e', he, ha.steps.extends.entry he', hread⟩
    · obtain rfl := Option.some_inj.1 (hx.symm.trans hid₀)
      obtain rfl := Option.some_inj.1 (hfig.symm.trans hf)
      exact ⟨_, _, he, he', hread⟩
  case fresh =>
    intro i y f hy hf hmade
    rcases getElem?_concat_eq_some.1 hy with hold | ⟨rfl, rfl⟩
    · exact hr.fresh i y f hold hf hmade
    · obtain rfl := Option.some_inj.1 (hfig.symm.trans hf)
      rw [ha.fresh hmade]
      exact hr.steps.extends.numNodes_le
  case count =>
    rw [ha.count, hr.count, List.length_append, List.length_singleton, List.take_add_one, hfig,
      List.countP_append]
    show _ = _ + (_ + [fig].countP Figure.isMade)
    rw [List.countP_singleton, Nat.add_assoc]

theorem Line.isRow {le : W → W → Prop} (laws : Weight.Laws W le) {i : Nat} {fig : Figure}
    {θ : Option (Theta W)} {fs : List Field} (h : s.Line order i id fig θ fs) :
    IsRow fs ∧ fs[1]? = some (natField i) :=
  h.row.isRow fun t ht l hl =>
    laws.isField_text (Theta.isLogProbability_logs laws (h.normalizable t ht) l hl)

/-- Lines are read in any store over the vtree. -/
theorem Outlines.readPsdd_lines {le : W → W → Prop} (laws : Weight.Laws W le)
    (h : s.Outlines root order figs) (hs : s.Sound) (hsized : s.WordSized figs)
    {rows : List (List Field)} (hlen : rows.length = figs.length)
    (hlines : ∀ (i : Nat) (fs : List Field), rows[i]? = some fs → ∃ id fig θ,
      order[i]? = some id ∧ figs[i]? = some fig ∧ s.Line order i id fig θ fs)
    (hs₀ : s₀.Sound) (hvtree : s₀.vtree = s.vtree) : ∃ root' s' ids,
      s₀.readPsdd (fileOf psddComments (["psdd".toList, natField rows.length] :: rows))
        = (.ok root', s') ∧ ids.length = figs.length ∧ ids.getLast? = some root' ∧
      Recopied s order figs s₀ s' ids := by
  have hisrow : ∀ (i : Nat) (fs : List Field), rows[i]? = some fs →
      IsRow fs ∧ fs[1]? = some (natField i) := by
    intro i fs hfs
    obtain ⟨id, fig, θ, -, -, hline⟩ := hlines i fs hfs
    exact hline.isRow laws
  have hbuild : ∀ (fs : List Field) (n line : Nat) (s' : Store W) (ids : List NodeId),
      rows[ids.length]? = some fs → Recopied s order figs s₀ s' ids →
      ∃ id s'', s'.buildPsdd (.filled n ids) ⟨line, fs⟩ ids.length = (.ok id, s'') ∧
        Recopied s order figs s₀ s'' (ids ++ [id]) := by
    intro fs n line s' ids hfs hr
    obtain ⟨x, fig, θ, hx, hfig, hline⟩ := hlines _ fs hfs
    obtain ⟨id, s'', hbuild, hanswer⟩ := hline.build (r := ⟨line, fs⟩) laws h hsized
      (hr.steps.sound hs₀) (hr.steps.extends.vtree.trans hvtree) hr.fills hfig n
    exact ⟨id, s'', hbuild, hr.concat h hs hx hline hfig hanswer⟩
  have hheader : ∀ n, IsRow ["psdd".toList, natField n] :=
    isRow_header (by decide) (by decide)
  exact h.readRows hsized comments_psddHeader List.mem_cons_self hheader hlen hisrow
    (Recopied s order figs s₀) (recopied_nil s s₀ order figs) hbuild

/-! ## The round trip -/

/-- A node that has its weights can be turned into opcodes. -/
theorem refusal?_of_reread {fig : Figure} {θ θ' : Option (Theta W)} {e : Entry W}
    (hread : fig.Reread θ θ') (he : s.entry id = .ok e) (hkind : e.kind = fig.kind ids)
    (hθ : e.theta = θ ∨ e.theta = θ') : s.refusal? id = none := by
  obtain ⟨⟨kind, theta⟩, b⟩ := e
  obtain rfl : kind = fig.kind ids := hkind
  have hθ : theta = θ ∨ theta = θ' := hθ
  unfold refusal?
  rw [he]
  cases hread with
  | bottom => rfl
  | literal l => rfl
  | top leaf θ θ' l hl hweights => rcases hθ with rfl | rfl <;> rfl
  | decision v es θ θ' hweights => rcases hθ with rfl | rfl <;> rfl

/-- What has become of the diagram below `root` when its file was read in the store `s₀`: the
diagram below `root'` in the store `s'`. -/
structure Reproduced (s : Store W) (root : NodeId) (s₀ s' : Store W) (root' : NodeId)
    (order order' : List NodeId) (figs : List Figure) : Prop where
  indexing : s.indexing root = .ok (Indexing.ofList order)
  indexing' : s'.indexing root' = .ok (Indexing.ofList order')
  nodup : order'.Nodup
  length : order'.length = order.length
  outline : s.outline root = .ok figs
  outline' : s'.outline root' = .ok figs
  /-- Every node has the weights that its line stands for. -/
  weights : ∀ (i : Nat) (id id' : NodeId) (fig : Figure), order[i]? = some id →
    order'[i]? = some id' → figs[i]? = some fig →
    ∃ e e', s.entry id = .ok e ∧ s'.entry id' = .ok e' ∧ fig.Reread e.theta e'.theta
  /-- The nodes of `s₀` are what they were. -/
  kept : s₀.Extends s'
  /-- TRUE nodes and decisions are new, and no other nodes are. -/
  fresh : ∀ (i : Nat) (id' : NodeId) (fig : Figure), order'[i]? = some id' → figs[i]? = some fig →
    fig.isMade = true → s₀.numNodes ≤ id'.raw
  count : s'.numNodes = s₀.numNodes + figs.countP Figure.isMade
  /-- The circuits have the same opcodes. -/
  circuits : ∃ c c', s.compile root = .ok c ∧ s'.compile root' = .ok c' ∧ c'.ops = c.ops ∧
    c'.literalCount = c.literalCount ∧ c'.root = c.root

theorem Recopied.reproduced {root' : NodeId} (hr : Recopied s order figs s₀ s' ids)
    (h : s.Outlines root order figs) (hs : s.Sound) (hclosed : s.Closed) (hs₀ : s₀.Sound)
    (hvtree : s₀.vtree = s.vtree) (hlen : ids.length = figs.length)
    (hlast : ids.getLast? = some root') :
    s.Reproduced root s₀ s' root' order ids figs := by
  have h' : s'.Outlines root' ids figs := hr.fills.outlines h hlen hlast
  have hs' := hr.steps.sound hs₀
  -- all nodes have their weights, here and there, so nothing keeps them from being compiled
  have hrefusal : ∀ (i : Nat) (id id' : NodeId), order[i]? = some id → ids[i]? = some id' →
      s.refusal? id = none ∧ s'.refusal? id' = none := by
    intro i id id' hid hid'
    obtain ⟨fig, hfig, hkind, -⟩ := h.exists_figure hid
    obtain ⟨e, e', he, he', hread⟩ := hr.reread i id id' fig hid hid' hfig
    have hek := Except.ok.inj ((kind_of_entry he).symm.trans hkind)
    have hek' := Except.ok.inj ((kind_of_entry he').symm.trans (h'.kinds i id' fig hid' hfig).1)
    exact ⟨refusal?_of_reread hread he hek (Or.inl rfl),
      refusal?_of_reread hread he' hek' (Or.inr rfl)⟩
  have hleneq : ids.length = order.length := hlen.trans h.length
  constructor
  case indexing => exact h.indexing
  case indexing' => exact h'.indexing
  case nodup => exact h'.nodup
  case length => exact hleneq
  case outline => exact h.outline
  case outline' => exact h'.outline
  case weights => exact hr.reread
  case kept => exact hr.steps.extends
  case fresh => exact hr.fresh
  case count =>
    have haddressable := hr.count
    rwa [hlen, List.take_length] at haddressable
  case circuits =>
    obtain ⟨b, order₀, hp⟩ := exists_positive hclosed (h.known root (h.mem_iff.2 .refl))
    refine h.compile_alike h' hs hs' (hr.steps.extends.vtree.trans hvtree) hp ?_ ?_
    · intro id hid
      obtain ⟨i, hi⟩ := List.mem_iff_getElem?.1 hid
      have hlt := (List.getElem?_eq_some_iff.1 hi).1
      exact (hrefusal i id _ hi (getElem?_of_lt (hleneq ▸ hlt))).1
    · intro id' hid'
      obtain ⟨i, hi⟩ := List.mem_iff_getElem?.1 hid'
      have hlt := (List.getElem?_eq_some_iff.1 hi).1
      exact (hrefusal i _ id' (getElem?_of_lt (hleneq ▸ hlt)) hi).2

/-- A probabilistic diagram survives being written and read in any store over the same vtree,
whatever the store holds: the file is accepted, and the diagram is made anew next to what is there,
node by node, with the weights that the logarithms in the file stand for. -/
theorem readPsdd_psddText {le : W → W → Prop} (laws : Weight.Laws W le) (h : s.Built)
    (hroot : s.Knows root) (hwords : s.FitsWords)
    (hweighed : ∀ id, s.Reaches root id → s.Weighed id) :
    ∃ text, s.psddText root = .ok text ∧
      ∀ s₀ : Store W, s₀.Reached → s₀.vtree = s.vtree →
        ∃ root' s' order order' figs, s₀.readPsdd text = (.ok root', s') ∧
          s.Reproduced root s₀ s' root' order order' figs := by
  have hs := h.sound
  obtain ⟨order, figs, ho⟩ := exists_outlines h.closed hroot
  have hweighed : ∀ id ∈ order, s.Weighed id := fun id hid => hweighed id (ho.mem_iff.1 hid)
  obtain ⟨rows, hlen, hrows, htext⟩ :=
    ho.exists_psddText hs fun id hid => (hweighed id hid).writable
  refine ⟨_, htext, fun s₀ hs₀ hvtree => ?_⟩
  have hlines : ∀ (i : Nat) (fs : List Field), rows[i]? = some fs → ∃ id fig θ,
      order[i]? = some id ∧ figs[i]? = some fig ∧ s.Line order i id fig θ fs := by
    intro i fs hfs
    obtain ⟨id, fig, θ, hid, hfig, hrow⟩ := hrows i fs hfs
    obtain ⟨b, he⟩ := hrow.entry
    have hid' := hweighed id (List.mem_of_getElem? hid)
    exact ⟨id, fig, θ, hid, hfig, hrow, fun t ht => hid'.normalizable hs (ht ▸ he)⟩
  obtain ⟨root', s', ids, hread, hidslen, hlast, hr⟩ := ho.readPsdd_lines laws hs
    (ho.wordSized hs hwords) hlen hlines hs₀.sound hvtree
  exact ⟨root', s', order, ids, figs, hread,
    hr.reproduced ho hs h.closed hs₀.sound hvtree hidslen hlast⟩

theorem readPsdd_psddText_sample : ∃ text root' s' order order' figs,
    sample.psddText ⟨8⟩ = .ok text ∧
    (ofVtree .pair : Store Extreme).readPsdd text = (.ok root', s') ∧
    sample.Reproduced ⟨8⟩ (ofVtree .pair) s' root' order order' figs := by
  have hweighed : ∀ id, sample.Reaches ⟨8⟩ id → sample.Weighed id := by
    intro id hid
    have hmem := mem_of_reaches_sample hid
    simp only [List.mem_cons, List.not_mem_nil, or_false] at hmem
    rcases hmem with rfl | rfl | rfl | rfl | rfl
    · exact .decision ⟨1⟩ weightedConjunction _ false rfl (fun _ => ⟨rfl, rfl⟩)
        ⟨_, _, _, rfl, by decide⟩
    · exact .top (some ⟨0⟩) _ false rfl fun _ => ⟨rfl, rfl⟩
    · exact .literal ⟨2, by decide⟩ rfl
    · exact .literal ⟨-1, by decide⟩ rfl
    · exact .bottom rfl
  have hroot : sample.Knows ⟨8⟩ := by decide
  obtain ⟨text, htext, hread⟩ :=
    readPsdd_psddText Extreme.laws built_sample hroot fitsWords_sample hweighed
  obtain ⟨root', s', order, order', figs, hread, hreproduced⟩ :=
    hread (ofVtree .pair) (.start (.balanced Vtree.balanced_two)) rfl
  exact ⟨text, root', s', order, order', figs, htext, hread, hreproduced⟩
end Sentential.Store
