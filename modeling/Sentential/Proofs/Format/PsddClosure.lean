import Sentential.Proofs.Format.Acceptance
import Sentential.Proofs.Format.PsddImage
import Sentential.Proofs.Format.PsddRoundTrip
import Sentential.Proofs.Weight.Indefinite

/-!
# Writing what was read

A probabilistic diagram that was read from a file can be written, and in most cases the file that
is written can be read again, in any store over the vtree. The exceptions are diagrams with a
decision that is *weightless*: its elements have weights, all of which are zero. The reader makes
such decisions of logarithms that are minus infinity or whose exponentials vanish, and the writer
divides zero by zero for them, of which the logarithm is no number.

`Reached.readPsdd_psddText_iff` says that there are no other exceptions. Both directions look at
the rows of the nodes: a row whose weights have a sum is built, and a row that has been built says
nothing that is no number.
-/

namespace Sentential

open Format Text Indexing

variable {W : Type} [Weight W]

/-! ## Weights of nodes that were read -/

/-- The weights of the node are what logarithms of probabilities stand for. -/
inductive Node.FromLogs : Node W → Prop
  | plain (k : Kind) : FromLogs ⟨k, none⟩
  | top (leaf : Option VtreeId) (θ : Theta W) (l : W) : Weight.isLogProbability l = true →
      θ.weights = [Weight.complement (Weight.exp l), Weight.exp l] → FromLogs ⟨.top leaf, some θ⟩
  | decision (v : VtreeId) (es : List Element) (θ : Theta W) (ls : List W) :
      (∀ l ∈ ls, Weight.isLogProbability l = true) → θ.weights = ls.map Weight.exp →
      FromLogs ⟨.decision v es, some θ⟩

section

variable {le : W → W → Prop} (laws : Weight.Laws W le) (zeros : Weight.ZeroLaws W) {k : Kind}
  {θ : Theta W}
include laws zeros

/-- The weights of a TRUE node are not both zero. -/
theorem Node.FromLogs.decision_of_weightless (h : Node.FromLogs ⟨k, some θ⟩)
    (hzero : θ.Weightless) : ∃ v es, k = .decision v es := by
  cases h with
  | top leaf θ l hl hweights =>
    have hθ := Theta.normalizable_bernoulli laws zeros (laws.exp_logProbability hl) hweights
    exact absurd hθ (hzero.not_normalizable laws zeros)
  | decision v es θ ls hls hweights => exact ⟨v, es, rfl⟩

/-- Nothing else keeps weights that were read from being parts of their sum. -/
theorem Node.FromLogs.normalizable (h : Node.FromLogs ⟨k, some θ⟩) (hsome : ¬ θ.Weightless) :
    θ.Normalizable := by
  cases h with
  | top leaf θ l hl hweights =>
    exact Theta.normalizable_bernoulli laws zeros (laws.exp_logProbability hl) hweights
  | decision v es θ ls hls hweights =>
    refine Theta.normalizable_of_not_weightless laws zeros (fun w hw => ?_) hsome
    rw [hweights] at hw
    obtain ⟨l, hl, rfl⟩ := List.mem_map.1 hw
    exact laws.exp_logProbability (hls l hl)

/-- The logarithms of the weights can be written as fields, numbers or not. -/
theorem Node.FromLogs.isField_logs (h : Node.FromLogs ⟨k, some θ⟩) :
    ∀ l ∈ θ.logs, IsField (Weight.text l) := by
  intro l hl
  by_cases hzero : θ.Weightless
  · exact zeros.isField_text_undefined (hzero.undefined_logs laws zeros l hl)
  · have hθ := h.normalizable laws zeros hzero
    exact laws.isField_text (Theta.isLogProbability_logs laws hθ l hl)

end

namespace Store

variable {s s' s₀ : Store W} {id root : NodeId} {order : List NodeId} {figs : List Figure}

/-- The weights of the node and of all nodes below it are what logarithms stand for. -/
inductive FromLogs (s : Store W) : NodeId → Prop
  | node {id : NodeId} {e : Entry W} : s.entry id = .ok e → e.toNode.FromLogs →
      (∀ x ∈ nodesBelow e.elements, FromLogs s x) → FromLogs s id

theorem FromLogs.mono (h : s.FromLogs id) (hext : s.Extends s') : s'.FromLogs id := by
  induction h with
  | node he hlogs _ ih => exact .node (hext.entry he) hlogs ih

theorem FromLogs.of_entry (h : s.FromLogs id) {n : Node W} {b : Bool}
    (he : s.entry id = .ok ⟨n, b⟩) : n.FromLogs := by
  cases h with
  | node he' hlogs =>
    obtain rfl := Except.ok.inj (he'.symm.trans he)
    exact hlogs

theorem FromLogs.of_reaches (h : s.FromLogs root) (hid : s.Reaches root id) : s.FromLogs id := by
  induction hid with
  | refl => exact h
  | tail _ hstep ih =>
    obtain ⟨es, hes, hx⟩ := hstep
    cases ih with
    | node he _ hbelow =>
      obtain rfl := Except.ok.inj ((elements_of_entry he).symm.trans hes)
      exact hbelow _ hx

theorem ReadAs.fromLogs (hs : s.Sound) {t : Slots NodeId} (h : s.ReadAs t s' id)
    (hext : s.Extends s') (ht : t.All fun x => s.Knows x ∧ s.FromLogs x) : s'.FromLogs id := by
  cases h with
  | bottom hid hstore =>
    subst hid hstore
    exact .node hs.base.entry_bottom (.plain _) (by simp [Node.elements, Kind.elements, nodesBelow])
  | literal hliteral hstore =>
    subst hstore
    obtain ⟨v, hv⟩ := hliteral
    obtain ⟨lit, -, he⟩ := hs.entry_of_literal? hv
    exact .node he (.plain _) (by simp [Node.elements, Kind.elements, nodesBelow])
  | top leaf θ b l he hl hweights =>
    exact .node he (.top _ θ l hl hweights) (by simp [Node.elements, Kind.elements, nodesBelow])
  | decision v es θ b ls hid he hseated hslots hls hweights =>
    exact .node he (.decision v es θ ls hls hweights) fun x hx => (hslots _ ht x hx).2.mono hext

/-- A probabilistic diagram file is read as nodes with the weights of its logarithms. -/
theorem readPsdd_fromLogs (hs : s.Sound) {text : List Char} (h : s.readPsdd text = (.ok id, s')) :
    s'.FromLogs id :=
  (readPsdd_provides (p := FromLogs) (fun _ _ _ hext hid => hid.mono hext)
    (fun _ _ _ _ hs hext ht hread => hread.fromLogs hs hext ht) hs h).2.2

/-! ## Rows that are read -/

theorem Probabilistic.writable (h : s.Probabilistic id) (hs : s.Sound) : s.Writable id := by
  cases h with
  | bottom => exact .bottom (kind_of_entry hs.base.entry_bottom)
  | literal hliteral =>
    obtain ⟨v, hv⟩ := hliteral
    obtain ⟨lit, -, he⟩ := hs.entry_of_literal? hv
    exact .literal lit (kind_of_entry he)
  | top he => exact .top _ _ _ he
  | decision he hseated => exact .decision _ _ _ _ he hseated

/-- In the row of a decision that has been built every logarithm reads as that of a probability. -/
theorem read_logs_of_buildPsdd {t : Slots NodeId} {r : Record} {n i : Nat} {v : Vtree}
    {u : VtreeId} {ns : List (Nat × Nat)} {θ : Theta W}
    (hrow : (Figure.decision u ns).PsddRow v i (some θ) r.fields)
    (h : s.buildPsdd t r n = (.ok id, s')) : ∀ l ∈ θ.logs, ∃ l' : W,
      Weight.read? (Weight.text l) = some l' ∧ Weight.isLogProbability l' = true := by
  generalize hfields : r.fields = fs at hrow
  cases hrow with
  | decision _ _ _ hlen =>
    have hloglen : θ.logs.length = ns.length := (Theta.length_logs θ).trans hlen
    have htag : tag r = ['D'] := tag_eq hfields
    unfold buildPsdd at h
    rw [if_neg (by rw [htag]; decide), if_pos htag] at h
    cases hd : s.readWeightedDecision t r n with
    | error e => exact absurd h (by simp [hd])
    | ok d =>
      obtain ⟨_, _, size, -, hsize, hweighted, -⟩ := readWeightedDecision_iff.1 hd
      obtain ⟨ls, hls, -, hread⟩ := readWeighted_logs hweighted
      -- the row has three fields for every element, so its size is the number of the logarithms
      obtain ⟨-, -, -, -, hcount⟩ := readSize_iff.1 hsize
      rw [hfields] at hcount
      simp only [List.length_cons, Figure.length_weightedFields hloglen] at hcount
      intro l hl
      obtain ⟨k, hk⟩ := List.mem_iff_getElem?.1 hl
      have hlt := (List.getElem?_eq_some_iff.1 hk).1
      have hk' : ls[k]? = some ls[k] := List.getElem?_eq_getElem (by omega)
      obtain ⟨f, hf, hreadf, hlog⟩ := readLog_eq_ok.1 (hread k _ hk')
      have hget := Figure.getElem?_weightedFields hloglen hk
      rw [hfields, show 4 + 3 * k + 2 = 3 * k + 2 + 1 + 1 + 1 + 1 by omega] at hf
      simp only [List.getElem?_cons_succ, hget, Option.some_inj] at hf
      exact ⟨_, hf ▸ hreadf, hlog⟩

/-- The first logarithm of a weightless decision is undefined, so its row is not built. -/
theorem not_weightless_of_buildPsdd {le : W → W → Prop} (laws : Weight.Laws W le)
    (zeros : Weight.ZeroLaws W) {t : Slots NodeId} {r : Record} {n i : Nat} {v : Vtree}
    {u : VtreeId} {ns : List (Nat × Nat)} {θ : Theta W}
    (hrow : (Figure.decision u ns).PsddRow v i (some θ) r.fields)
    (h : s.buildPsdd t r n = (.ok id, s')) : ¬ θ.Weightless := by
  intro hzero
  have hpos : 0 < θ.logs.length := by
    rw [Theta.length_logs]
    exact List.length_pos_of_ne_nil hzero.1
  have hmem : θ.logs[0] ∈ θ.logs := List.getElem_mem hpos
  obtain ⟨l, hl, hlog⟩ := read_logs_of_buildPsdd hrow h _ hmem
  obtain ⟨l', hl', hundefined⟩ :=
    zeros.read_text_undefined (hzero.undefined_logs laws zeros _ hmem)
  obtain rfl := Option.some_inj.1 (hl.symm.trans hl')
  exact absurd (hlog.symm.trans (zeros.isLogProbability_undefined hundefined)) (by simp)

/-! ## The file of a diagram that was read -/

/-- A diagram that was read has an order, in which every node has a row, and a file. -/
theorem Reached.exists_psddText (h : s.Reached) {text : List Char}
    (hread : s.readPsdd text = (.ok root, s')) (hwords : s'.FitsWords) : ∃ order figs rows,
      s'.Outlines root order figs ∧ s'.WordSized figs ∧ rows.length = figs.length ∧
      (∀ (i : Nat) (fs : List Field), rows[i]? = some fs → ∃ id fig θ, order[i]? = some id ∧
        figs[i]? = some fig ∧ s'.Row order i id fig θ fs) ∧
      s'.psddText root
        = .ok (fileOf psddComments (["psdd".toList, natField rows.length] :: rows)) := by
  obtain ⟨hs, -, hprobabilistic⟩ := readPsdd_probabilistic h.sound hread
  obtain ⟨order, hn, horder⟩ := exists_numbering_of NodeId.raw
    (fun id hid => Probabilistic.knows hid hs) (fun id es hid hes => hid.of_elements hs hes)
    hprobabilistic
  obtain ⟨figs, ho⟩ := hn.exists_outlines
  obtain ⟨rows, hlen, hrows, htext⟩ :=
    ho.exists_psddText hs fun id hid => (horder id hid).writable hs
  exact ⟨order, figs, rows, ho, ho.wordSized hs hwords, hlen, hrows, htext⟩

section

variable {le : W → W → Prop} (laws : Weight.Laws W le) (zeros : Weight.ZeroLaws W)
  (h : s.Outlines root order figs) (hlogs : s.FromLogs root) (hsized : s.WordSized figs)
  {rows : List (List Field)} (hlen : rows.length = figs.length)
  (hrows : ∀ (i : Nat) (fs : List Field), rows[i]? = some fs → ∃ id fig θ, order[i]? = some id ∧
    figs[i]? = some fig ∧ s.Row order i id fig θ fs)
include laws zeros h hlogs hsized hlen hrows

omit hsized hlen in
theorem Outlines.isRow_rows : ∀ fs ∈ rows, IsRow fs := by
  intro fs hfs
  obtain ⟨i, hi⟩ := List.mem_iff_getElem?.1 hfs
  obtain ⟨id, fig, θ, hid, -, hrow⟩ := hrows i fs hi
  obtain ⟨b, he⟩ := hrow.entry
  have hfrom := (hlogs.of_reaches (h.mem_iff.1 (List.mem_of_getElem? hid))).of_entry he
  exact (hrow.row.isRow fun t ht => (ht ▸ hfrom).isField_logs laws zeros).1

/-- If the file of a diagram is read, the row of each of its nodes has been built. -/
theorem Outlines.exists_build_of_readPsdd {root' : NodeId}
    (hread : s₀.readPsdd (fileOf psddComments (["psdd".toList, natField rows.length] :: rows))
      = (.ok root', s')) (hid : s.Reaches root id) : ∃ i fig θ r, s.Row order i id fig θ r.fields ∧
      ∃ (s₁ : Store W) (t : Slots NodeId) (n : Nat) (a : NodeId) (s₂ : Store W),
        s₁.buildPsdd t r n = (.ok a, s₂) := by
  have hpow : Decimal.pow2 32 < Decimal.pow2 64 := by decide
  have hword := hsized.length
  have hisrow := h.isRow_rows laws zeros hlogs hrows
  obtain ⟨i, hi⟩ := List.mem_iff_getElem?.1 (h.mem_iff.2 hid)
  have hlt : i < rows.length := by
    rw [hlen, h.length]
    exact (List.getElem?_eq_some_iff.1 hi).1
  obtain ⟨x, fig, θ, hx, -, hrow⟩ := hrows i _ (List.getElem?_eq_getElem hlt)
  obtain rfl := Option.some_inj.1 (hi.symm.trans hx)
  obtain ⟨line, s₁, t, n, a, s₂, hbuild⟩ := exists_build_of_readText comments_psddHeader
    List.mem_cons_self (isRow_header (by decide) (by decide) _) hisrow (by omega) hread
    (List.getElem_mem hlt)
  exact ⟨i, fig, θ, ⟨line, rows[i]⟩, hrow, s₁, t, n, a, s₂, hbuild⟩

/-- A diagram with a weightless node has a file that is not read. -/
theorem Outlines.not_weightless_of_readPsdd {root' : NodeId}
    (hread : s₀.readPsdd (fileOf psddComments (["psdd".toList, natField rows.length] :: rows))
      = (.ok root', s')) {n : Node W} {θ : Theta W} {b : Bool} (hid : s.Reaches root id)
    (he : s.entry id = .ok ⟨n, b⟩) (hθ : n.theta = some θ) : ¬ θ.Weightless := by
  intro hzero
  obtain ⟨i, fig, θ', r, hrow, s₁, t, m, a, s₂, hbuild⟩ :=
    h.exists_build_of_readPsdd laws zeros hlogs hsized hlen hrows hread hid
  obtain ⟨b', he'⟩ := hrow.entry
  obtain ⟨rfl, -⟩ : n = ⟨fig.kind order, θ'⟩ ∧ b = b' := by simpa using he.symm.trans he'
  obtain rfl : θ' = some θ := hθ
  have hfrom := (hlogs.of_reaches hid).of_entry he
  obtain ⟨v, es, hkind⟩ := hfrom.decision_of_weightless laws zeros hzero
  cases fig with
  | bottom => exact absurd hkind (by simp [Figure.kind])
  | top leaf => exact absurd hkind (by simp [Figure.kind])
  | literal l => exact absurd hkind (by simp [Figure.kind])
  | decision u ns => exact not_weightless_of_buildPsdd laws zeros hrow.row hbuild hzero

/-- The file of a diagram without weightless nodes is read. -/
theorem Outlines.readPsdd_of_not_weightless (hs : s.Sound)
    (hweights : ∀ (id : NodeId) (n : Node W) (θ : Theta W) (b : Bool), s.Reaches root id →
      s.entry id = .ok ⟨n, b⟩ → n.theta = some θ → ¬ θ.Weightless)
    (hs₀ : s₀.Sound) (hvtree : s₀.vtree = s.vtree) : ∃ root' s',
      s₀.readPsdd (fileOf psddComments (["psdd".toList, natField rows.length] :: rows))
        = (.ok root', s') := by
  have hlines : ∀ (i : Nat) (fs : List Field), rows[i]? = some fs → ∃ id fig θ,
      order[i]? = some id ∧ figs[i]? = some fig ∧ s.Line order i id fig θ fs := by
    intro i fs hfs
    obtain ⟨id, fig, θ, hid, hfig, hrow⟩ := hrows i fs hfs
    refine ⟨id, fig, θ, hid, hfig, hrow, fun t ht => ?_⟩
    subst ht
    obtain ⟨b, he⟩ := hrow.entry
    have hreaches := h.mem_iff.1 (List.mem_of_getElem? hid)
    have hfrom := (hlogs.of_reaches hreaches).of_entry he
    exact hfrom.normalizable laws zeros (hweights id _ t b hreaches he rfl)
  obtain ⟨root', s', ids, hread, -⟩ := h.readPsdd_lines laws hs hsized hlen hlines hs₀ hvtree
  exact ⟨root', s', hread⟩

end

/-- A probabilistic diagram that was read can be written, and a store over the same vtree reads
what is written if and only if no node of the diagram is weightless. -/
theorem Reached.readPsdd_psddText_iff {le : W → W → Prop} (laws : Weight.Laws W le)
    (zeros : Weight.ZeroLaws W) (h : s.Reached) {text : List Char}
    (hread : s.readPsdd text = (.ok root, s')) (hwords : s'.FitsWords) :
    ∃ text', s'.psddText root = .ok text' ∧
      ∀ s₀ : Store W, s₀.Reached → s₀.vtree = s'.vtree →
        ((∃ root' s'', s₀.readPsdd text' = (.ok root', s'')) ↔
          ∀ (id : NodeId) (n : Node W) (θ : Theta W) (b : Bool), s'.Reaches root id →
            s'.entry id = .ok ⟨n, b⟩ → n.theta = some θ → ¬ θ.Weightless) := by
  obtain ⟨order, figs, rows, ho, hsized, hlen, hrows, htext⟩ := h.exists_psddText hread hwords
  have hlogs := readPsdd_fromLogs h.sound hread
  refine ⟨_, htext, fun s₀ hs₀ hvtree => ⟨?_, ?_⟩⟩
  · rintro ⟨root', s'', hread'⟩ id n θ b hid he hθ
    exact ho.not_weightless_of_readPsdd laws zeros hlogs hsized hlen hrows hread' hid he hθ
  · intro hweights
    obtain ⟨hs, -, -⟩ := readPsdd_probabilistic h.sound hread
    exact ho.readPsdd_of_not_weightless laws zeros hlogs hsized hlen hrows hs hweights hs₀.sound
      hvtree

theorem reached_pair : (ofVtree .pair : Store Indefinite).Reached :=
  .start (.balanced Vtree.balanced_two)

/-- A file for a decision with two elements, the second of which is impossible. -/
def certainText : List Char :=
  "psdd 4\nF 0\nL 1 0 1\nL 2 2 2\nD 3 1 2 1 2 0 1 0 -inf\n".toList

def certain : Store Indefinite :=
  (ofVtree .pair).make
    ⟨.decision ⟨1⟩ [⟨⟨2⟩, ⟨3⟩⟩, ⟨⟨2⟩, .bottom⟩], some ⟨[.one, .zero], by decide⟩⟩ false

/-- The diagram has a file that every store over the vtree reads. -/
theorem readPsdd_psddText_iff_certain : ∃ text', certain.psddText ⟨6⟩ = .ok text' ∧
    (ofVtree .pair : Store Indefinite).readPsdd certainText = (.ok ⟨6⟩, certain) ∧
    ∀ s₀ : Store Indefinite, s₀.Reached → s₀.vtree = .pair →
      ∃ root' s'', s₀.readPsdd text' = (.ok root', s'') := by
  have hread : (ofVtree .pair : Store Indefinite).readPsdd certainText = (.ok ⟨6⟩, certain) := rfl
  obtain ⟨text', htext, hiff⟩ := Reached.readPsdd_psddText_iff Indefinite.laws Indefinite.zeroLaws
    reached_pair hread (fitsWords_of_entries (by decide) (by decide))
  refine ⟨text', htext, hread, fun s₀ hs₀ hvtree => (hiff s₀ hs₀ hvtree).2 ?_⟩
  intro id n θ b hid he hθ hzero
  have hmem : id ∈ [⟨6⟩, ⟨2⟩, ⟨3⟩, NodeId.bottom] := hid.mem (by decide) (by decide)
  simp only [List.mem_cons, List.not_mem_nil, or_false] at hmem
  rcases hmem with rfl | rfl | rfl | rfl
  · obtain ⟨rfl, -⟩ := Entry.mk.inj (Except.ok.inj he)
    obtain rfl := Option.some_inj.1 hθ
    exact absurd (hzero.2 .one (by decide)) (by unfold Weight.IsZero; decide)
  all_goals
    obtain ⟨rfl, -⟩ := Entry.mk.inj (Except.ok.inj he)
    exact absurd hθ (by simp)

/-- A file for a decision whose only element is impossible. -/
def impossibleText : List Char := "psdd 3\nL 0 0 1\nL 1 2 2\nD 2 1 1 0 1 -inf\n".toList

def impossible : Store Indefinite :=
  (ofVtree .pair).make ⟨.decision ⟨1⟩ [⟨⟨2⟩, ⟨3⟩⟩], some ⟨[.zero], by decide⟩⟩ false

/-- The decision is read and written, but the store does not read what was written. -/
theorem not_readPsdd_psddText_impossible : ∃ text',
    (ofVtree .pair : Store Indefinite).readPsdd impossibleText = (.ok ⟨6⟩, impossible) ∧
    impossible.psddText ⟨6⟩ = .ok text' ∧
    ∀ root' s'', (ofVtree .pair : Store Indefinite).readPsdd text' ≠ (.ok root', s'') := by
  have hread : (ofVtree .pair : Store Indefinite).readPsdd impossibleText = (.ok ⟨6⟩, impossible) :=
    rfl
  have hlogs := readPsdd_fromLogs reached_pair.sound hread
  obtain ⟨order, figs, rows, ho, hsized, hlen, hrows, htext⟩ :=
    reached_pair.exists_psddText hread (fitsWords_of_entries (by decide) (by decide))
  have hzero : Theta.Weightless (⟨[.zero], by decide⟩ : Theta Indefinite) := by
    refine ⟨by simp, fun w hw => ?_⟩
    rw [List.mem_singleton.1 hw]
    rfl
  refine ⟨_, hread, htext, fun root' s'' hread' => ?_⟩
  exact ho.not_weightless_of_readPsdd Indefinite.laws Indefinite.zeroLaws hlogs hsized hlen hrows
    hread' .refl entry_make_self rfl hzero

end Store
end Sentential
