import Sentential.Proofs.Format.Queries
import Sentential.Proofs.Meaning.Stripped

/-!
# Diagram files of diagrams with weights

A diagram file has no place for weights, nor for the variable of a TRUE node, and a reader looks
every decision up before it makes one. So what is read is the diagram without its weights
(`Retells.stripped`), which may have fewer nodes: rows of different nodes can be answered with the
same node, and then the rows above them as well. The rows are accepted nevertheless. A row says
which vtree node the parts of a decision have to fit under, and a part fits at least as well without
its variable (`fits_unbound`).
-/

namespace Sentential

open Format Text

namespace Figure

/-- The figure without the leaf that a TRUE node is bound to. -/
def unbound : Figure → Figure
  | top _ => top none
  | fig => fig

theorem elements_unbound (fig : Figure) : fig.unbound.elements = fig.elements := by
  cases fig <;> rfl

theorem Within.unbound {n : Nat} {fig : Figure} (h : fig.Within n) : fig.unbound.Within n := by
  unfold Within
  rw [elements_unbound]
  exact h

theorem kind_unbound (ids : List NodeId) (fig : Figure) :
    fig.unbound.kind ids = (fig.kind ids).unbound := by
  cases fig <;> rfl

/-- The row of a TRUE node does not name a variable. -/
theorem sddRow_unbound (v : Vtree) (i : Nat) (fig : Figure) :
    fig.unbound.sddRow v i = fig.sddRow v i := by
  cases fig <;> rfl

theorem unbound_ne_top (fig : Figure) (leaf : VtreeId) : fig.unbound ≠ .top (some leaf) := by
  cases fig <;> simp [unbound]

theorem unbound_eq_decision {fig : Figure} {v : VtreeId} {es : List (Nat × Nat)} :
    fig.unbound = .decision v es ↔ fig = .decision v es := by
  cases fig <;> simp [unbound]

end Figure

namespace Store

variable {W : Type} [Weight W] {s s₀ s' : Store W} {id id' root root' : NodeId}
  {order ids : List NodeId} {figs : List Figure} {fig : Figure}

theorem WordSized.unbound (h : s.WordSized figs) : s.WordSized (figs.map Figure.unbound) := by
  refine ⟨h.addressable, (List.length_map _).trans_le h.length, fun fig hfig => ?_⟩
  obtain ⟨fig, hmem, rfl⟩ := List.mem_map.1 hfig
  rw [Figure.elements_unbound]
  exact h.elements fig hmem

/-- Without the variable that a TRUE node is bound to, a node fits wherever it does with it. -/
theorem fits_unbound (hvtree : s'.vtree = s.vtree) (hkind : s.kind id = .ok (fig.kind order))
    (hkind' : s'.kind id' = .ok (fig.unbound.kind ids)) {side : VtreeId}
    (hfits : s.fits side id = .ok true) : s'.fits side id' = .ok true := by
  cases fig with
  | top leaf =>
    unfold fits
    rw [vtreeOf_top hkind']
    rfl
  | _ =>
    have hsame : s'.vtreeOf id' = s.vtreeOf id := by
      unfold vtreeOf
      rw [hkind, hkind', hvtree]
      rfl
    unfold fits at hfits ⊢
    rw [hsame, hvtree]
    exact hfits

/-! ## Reading the rows -/

theorem getElem?_unbound {i : Nat} (hfig : figs[i]? = some fig) :
    (figs.map Figure.unbound)[i]? = some fig.unbound := by
  rw [List.getElem?_map, hfig, Option.map_some]

theorem exists_of_getElem?_unbound {i : Nat} (hfig : (figs.map Figure.unbound)[i]? = some fig) :
    ∃ fig', figs[i]? = some fig' ∧ fig'.unbound = fig := by
  rwa [List.getElem?_map, Option.map_eq_some_iff] at hfig

theorem Outlines.within_unbound (h : s.Outlines root order figs) (i : Nat) (fig : Figure)
    (hfig : (figs.map Figure.unbound)[i]? = some fig) : fig.Within i := by
  obtain ⟨fig', hfig', rfl⟩ := exists_of_getElem?_unbound hfig
  exact (h.within hfig' (Nat.le_refl i)).unbound

section

variable (h : s'.Mirrors (figs.map Figure.unbound) ids) (ho : s.Outlines root order figs)
  (hvtree : s'.vtree = s.vtree)
include h ho

/-- A node without its binding keeps to the place of its figure. -/
theorem Mirrors.kind_unbound {i : Nat} (hi : ids[i]? = some id') :
    ∃ (id : NodeId) (fig : Figure), order[i]? = some id ∧ s.kind id = .ok (fig.kind order) ∧
      fig.Within i ∧ s'.kind id' = .ok (fig.unbound.kind ids) := by
  obtain ⟨fig', hfig'⟩ := h.exists_figure hi
  have hkind' := h.kinds i id' fig' hi hfig'
  obtain ⟨fig, hfig, rfl⟩ := exists_of_getElem?_unbound hfig'
  obtain ⟨id, hid⟩ := ho.getElem hfig
  obtain ⟨hkind, hwithin⟩ := ho.kinds i id fig hid hfig
  exact ⟨id, fig, hid, hkind, hwithin, hkind'⟩

include hvtree

/-- The nodes so far keep to the sides that the nodes of the diagram keep to. -/
theorem Mirrors.normalized {v : VtreeId} {es : List (Nat × Nat)}
    (hnormal : s.Normalized v (es.map (Figure.element order)))
    (hes : ∀ x ∈ es, x.1 < ids.length ∧ x.2 < ids.length) :
    s'.Normalized v (es.map (Figure.element ids)) := by
  obtain ⟨i, l, r, hfork, hall⟩ := hnormal
  have hfits : ∀ j < ids.length, ∀ side, s.fits side (order.getD j .bottom) = .ok true →
      s'.fits side (ids.getD j .bottom) = .ok true := by
    intro j hj side hfits
    obtain ⟨id, fig, hid, hkind, -, hkind'⟩ := h.kind_unbound ho (getElem?_of_lt hj)
    rw [List.getD_eq_getElem?_getD, hid] at hfits
    exact fits_unbound hvtree hkind hkind' hfits
  refine ⟨i, l, r, hvtree ▸ hfork, allElements_eq_true.2 fun y hy => ?_⟩
  obtain ⟨x, hx, rfl⟩ := List.mem_map.1 hy
  obtain ⟨hp, hq⟩ := allElements_eq_true.1 hall _ (List.mem_map_of_mem hx)
  exact ⟨hfits _ (hes x hx).1 _ hp, hfits _ (hes x hx).2 _ hq⟩

/-- The row of any node finds or makes a node of the figure without its binding. -/
theorem Mirrors.buildSdd_unbound (hs' : s'.Sound) (hwords : s.WordSized figs)
    (hnormal : s.NormalizedFrom root) (hfig : figs[ids.length]? = some fig) {r : Record}
    (hrow : fig.sddRow s.vtree ids.length = .ok r.fields) (n : Nat) :
    ∃ id s'', s'.buildSdd (.filled n ids) r ids.length = (.ok id, s'') ∧
      Finds s' s'' (fig.unbound.kind ids) id := by
  obtain ⟨x, hx⟩ := ho.getElem hfig
  obtain ⟨hkind, hwithin⟩ := ho.kinds _ x fig hx hfig
  rw [← Figure.sddRow_unbound, ← hvtree] at hrow
  refine h.buildSdd hs' (hwords.congr hvtree).unbound (getElem?_unbound hfig) hwithin.unbound
    (Figure.unbound_ne_top fig) (fun v es hdecision => ?_) hrow n
  obtain rfl := Figure.unbound_eq_decision.1 hdecision
  have hreaches := ho.mem_iff.1 (List.mem_of_getElem? hx)
  exact h.normalized ho hvtree (hnormal x v _ hreaches hkind) hwithin

end

/-- The nodes `ids`, found or made from `s₀` on, are what the first figures say without weights. -/
structure Retells (s₀ s' : Store W) (figs : List Figure) (ids : List NodeId) : Prop where
  steps : AnySteps s₀ s'
  mirrors : s'.Mirrors (figs.map Figure.unbound) ids
  unweighted : ∀ id ∈ ids, ∃ k b, s'.entry id = .ok ⟨⟨k, none⟩, b⟩

theorem retells_nil (s₀ : Store W) (figs : List Figure) : Retells s₀ s₀ figs [] :=
  ⟨.refl, mirrors_nil s₀ _, by simp⟩

/-- A node that is found for the next figure is added. -/
theorem Retells.concat (h : Retells s₀ s' figs ids) (ho : s.Outlines root order figs)
    (hs₀ : s₀.Sound) (hfig : figs[ids.length]? = some fig) {s'' : Store W}
    (hfinds : Finds s' s'' (fig.unbound.kind ids) id) : Retells s₀ s'' figs (ids ++ [id]) := by
  have hsteps : AnySteps s₀ s'' := h.steps.trans hfinds.steps
  obtain ⟨b, he⟩ := (hsteps.sound hs₀).canonical?_eq_some.1 hfinds.found
  have hext := hfinds.steps.extends
  have hmirrors := h.mirrors.concat ho.within_unbound (getElem?_unbound hfig) hext (kind_of_entry he)
  refine ⟨hsteps, hmirrors, fun x hx => ?_⟩
  rcases List.mem_append.1 hx with hx | hx
  · obtain ⟨k, b, he⟩ := h.unweighted x hx
    exact ⟨k, b, hext.entry he⟩
  · rw [List.mem_singleton.1 hx]
    exact ⟨_, b, he⟩

/-- The nodes that are read are the diagram without its weights. -/
theorem Retells.stripped (h : Retells s₀ s' figs ids) (ho : s.Outlines root order figs)
    (hs₀ : s₀.Sound) (hvtree : s₀.vtree = s.vtree) (hlen : ids.length = order.length) :
    s.Stripped s' (counterpart order ids) root := by
  have hnode : ∀ id, s.Reaches root id → ∃ k b, s.kind id = .ok k ∧
      s'.entry (counterpart order ids id)
        = .ok ⟨⟨k.unbound.map (counterpart order ids), none⟩, b⟩ := by
    intro id hid
    obtain ⟨i, hi⟩ := List.mem_iff_getElem?.1 (ho.mem_iff.2 hid)
    have hi' := getElem?_counterpart hlen ho.nodup hi
    obtain ⟨x, fig, hx, hkind, hwithin, hkind'⟩ := h.mirrors.kind_unbound ho hi'
    obtain rfl := Option.some_inj.1 (hi.symm.trans hx)
    obtain ⟨k, b, he⟩ := h.unweighted _ (List.mem_of_getElem? hi')
    have hlt := (List.getElem?_eq_some_iff.1 hi).1
    have hrenamed := kind_renamed ho.nodup ids (hwithin.mono (Nat.le_of_lt hlt)).unbound
    obtain rfl := Except.ok.inj ((kind_of_entry he).symm.trans hkind')
    rw [hrenamed, Figure.kind_unbound] at he
    exact ⟨_, b, hkind, he⟩
  refine ⟨h.steps.extends.vtree.trans hvtree, hnode, fun a a' k k' ha ha' hk hk' heq => ?_⟩
  obtain ⟨_, b, hka, hea⟩ := hnode a ha
  obtain ⟨_, b', hka', hea'⟩ := hnode a' ha'
  obtain rfl := Except.ok.inj (hka.symm.trans hk)
  obtain rfl := Except.ok.inj (hka'.symm.trans hk')
  rw [← heq] at hea'
  exact (h.steps.sound hs₀).eq_of_kind_eq hea hea'

/-- What is read can be numbered, also where rows were answered with the same node. -/
theorem Retells.exists_numbering (h : Retells s₀ s' figs ids) (ho : s.Outlines root order figs)
    (hroot : root' ∈ ids) : ∃ order', s'.Numbering root' order' ∧
      ∀ a, s'.Reaches root' a → ∀ x, s'.Refers a x → ids.idxOf x < ids.idxOf a := by
  have hearlier : ∀ id es, id ∈ ids → s'.elements id = .ok es →
      ∀ x ∈ Indexing.nodesBelow es, x ∈ ids ∧ ids.idxOf x < ids.idxOf id :=
    fun id es hid hes => h.mirrors.refers_earlier ho.within_unbound hid hes
  obtain ⟨order', hnumbering, hmem⟩ := exists_numbering_of ids.idxOf h.mirrors.known hearlier hroot
  refine ⟨order', hnumbering, fun a ha x hx => ?_⟩
  obtain ⟨es, hes, hbelow⟩ := hx
  exact (hearlier a es (hmem a ((hnumbering.mem_iff a).2 ha)) hes x hbelow).2

/-! ## Diagrams that keep their meaning -/

/-- The diagram can be written and its models can be counted, each of them once if the primes of its
decisions exclude one another. Any store over the same vtree reads what is written, as the diagram
without its weights: it is the same function and has the same number of models. -/
def KeepsMeaning (s : Store W) (root : NodeId) : Prop :=
  ∃ text n, s.sddText root = .ok text ∧ s.modelCount root = .ok n ∧
    (s.ExclusiveFrom root → n = (s.models (Finset.Icc 1 s.varCount) root).card) ∧
    ∀ s₀ : Store W, s₀.Reached → s₀.vtree = s.vtree →
      ∃ f s', s₀.readSdd text = (.ok (f root), s') ∧ s.Stripped s' f root ∧
        (∀ T, s'.Holds T (f root) ↔ s.Holds T root) ∧ s'.modelCount (f root) = .ok n

theorem Built.keepsMeaning_of_normalized (h : s.Built) (hwords : s.FitsWords) (hroot : s.Knows root)
    (hnormal : s.NormalizedFrom root) : s.KeepsMeaning root := by
  have hs := h.sound
  obtain ⟨order, hn⟩ := exists_numbering h.closed hroot
  obtain ⟨figs, ho⟩ := hn.exists_outlines
  have hsized := ho.wordSized hs hwords
  obtain ⟨rows, hlen, -, hget, htext⟩ := ho.exists_sddText hs
  obtain ⟨n, hcount, -⟩ := hs.modelCount_falsity h.closed hroot hnormal
  have hmodels : s.ExclusiveFrom root → n = (s.models (Finset.Icc 1 s.varCount) root).card := by
    intro hexclusive
    exact Except.ok.inj (hcount.symm.trans (hs.modelCount_card h.closed ⟨hroot, hnormal, hexclusive⟩))
  refine ⟨_, n, htext, hcount, hmodels, fun s₀ hs₀ hvtree => ?_⟩
  have hs₀ := hs₀.sound
  obtain ⟨root', s', ids, hread, hidslen, hlast, hretells⟩ := ho.readSddRows hsized hlen hget
    (fun s' ids => Retells s₀ s' figs ids) (retells_nil s₀ figs) (by
      intro fig fs n line s' ids hfig hrow hinv
      obtain ⟨id, s'', hbuild, hfinds⟩ := hinv.mirrors.buildSdd_unbound (r := ⟨line, fs⟩) ho
        (hinv.steps.extends.vtree.trans hvtree) (hinv.steps.sound hs₀) hsized hnormal hfig hrow n
      exact ⟨id, s'', hbuild, hinv.concat ho hs₀ hfig hfinds⟩)
  -- a node and the node that its row was answered with stand at the same place of the two lists
  have hlen' : ids.length = order.length := hidslen.trans ho.length
  obtain rfl := ho.counterpart_root hlen' hlast
  have hstripped := hretells.stripped ho hs₀ hvtree hlen'
  obtain ⟨order', hn', hrank'⟩ := hretells.exists_numbering ho (List.mem_of_getLast? hlast)
  have hsame := hstripped.modelCount_root hs (hretells.steps.sound hs₀) hn hn' hnormal
    (readSdd_arranged hs₀ hread).normalizedFrom (fun a _ x hx => Closed.raw_lt h.closed hx) hrank'
  exact ⟨_, s', hread, hstripped, fun T => hstripped.holds_iff h.closed .refl, hsame.trans hcount⟩

/-- A diagram whose decisions keep to the sides of their vtree nodes keeps its meaning as a diagram
file, whether its nodes have weights or not; so does whatever was read as a probabilistic diagram. -/
theorem Built.keepsMeaning (h : s.Built) :
    (∀ root, s.FitsWords → s.Knows root → s.NormalizedFrom root → s.KeepsMeaning root) ∧
    ∀ text root s', s.readPsdd text = (.ok root, s') → s'.FitsWords → s'.KeepsMeaning root := by
  refine ⟨fun root hwords hroot => h.keepsMeaning_of_normalized hwords hroot, ?_⟩
  intro text root s' hread hwords
  have hbuilt : (s.readPsdd text).2.Built := h.call (.readPsdd text) (knowsBelow_nil s)
  rw [hread] at hbuilt
  obtain ⟨hs, -, hprobabilistic⟩ := readPsdd_probabilistic h.sound hread
  exact hbuilt.keepsMeaning_of_normalized hwords (hprobabilistic.knows hs)
    (hprobabilistic.arranged hs).normalizedFrom

/-- The decision at id 8 has weights, and one of its primes is a TRUE node of a variable. -/
theorem keepsMeaning_sample : (∃ text n f s', sample.sddText ⟨8⟩ = .ok text ∧
      sample.modelCount ⟨8⟩ = .ok n ∧
      (ofVtree .pair : Store Extreme).readSdd text = (.ok (f ⟨8⟩), s') ∧ sample.Stripped s' f ⟨8⟩ ∧
      (∀ T, s'.Holds T (f ⟨8⟩) ↔ sample.Holds T ⟨8⟩) ∧ s'.modelCount (f ⟨8⟩) = .ok n) ∧
    certain.KeepsMeaning ⟨6⟩ := by
  have hpair : (ofVtree .pair : Store Indefinite).Built := .start (.balanced Vtree.balanced_two)
  constructor
  · obtain ⟨text, n, htext, hcount, -, hread⟩ :=
      built_sample.keepsMeaning.1 ⟨8⟩ fitsWords_sample (by decide) normalizedFrom_sample
    obtain ⟨f, s', hread, hstripped, hholds, hsame⟩ :=
      hread (ofVtree .pair) (.start (.balanced Vtree.balanced_two)) rfl
    exact ⟨text, n, f, s', htext, hcount, hread, hstripped, hholds, hsame⟩
  · exact hpair.keepsMeaning.2 certainText ⟨6⟩ certain rfl
      (fitsWords_of_entries (by decide) (by decide))

end Store
end Sentential
