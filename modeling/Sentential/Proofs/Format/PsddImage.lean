import Sentential.Proofs.Format.Psdd

/-!
# What probabilistic diagram files are read as

The node that a probabilistic diagram file is read as is *probabilistic*: it is a terminal or a
literal, or it has weights and its elements sit at the two sides of its vtree node and are made of
older probabilistic nodes (`readPsdd_probabilistic`). This holds in every store, whatever nodes it
has from elsewhere.
-/

namespace Sentential.Store

open Format Text Indexing

variable {W : Type} [Weight W] {s s' : Store W} {id : NodeId}

/-- The nodes that a probabilistic diagram file can be read as. -/
inductive Probabilistic (s : Store W) : NodeId → Prop
  | bottom : Probabilistic s .bottom
  | literal {id : NodeId} : s.IsLiteral id → Probabilistic s id
  | top {id : NodeId} {leaf : VtreeId} {θ : Theta W} {b : Bool} :
      s.entry id = .ok ⟨⟨.top (some leaf), some θ⟩, b⟩ → Probabilistic s id
  | decision {id : NodeId} {v : VtreeId} {es : List Element} {θ : Theta W} {b : Bool} :
      s.entry id = .ok ⟨⟨.decision v es, some θ⟩, b⟩ → s.Seated v es →
      (∀ x ∈ nodesBelow es, x.raw < id.raw) → (∀ x ∈ nodesBelow es, Probabilistic s x) →
      Probabilistic s id

theorem Sound.entry_of_literal? (hs : s.Sound) {v : Int} (h : s.literal? v = some id) :
    ∃ lit : Literal, lit.value = v ∧ s.entry id = .ok ⟨⟨.literal lit, none⟩, false⟩ := by
  have hnonzero : v ≠ 0 := (exists_literal?.1 ⟨id, h⟩).1
  exact ⟨⟨v, hnonzero⟩, rfl, hs.base.entry_literal (l := ⟨v, hnonzero⟩) h⟩

namespace Probabilistic

theorem knows (h : s.Probabilistic id) (hs : s.Sound) : s.Knows id := by
  cases h with
  | bottom => exact knows_of_entry hs.base.entry_bottom
  | literal hliteral => exact hliteral.knows hs
  | top he => exact knows_of_entry he
  | decision he => exact knows_of_entry he

/-- The elements of a probabilistic node are made of older probabilistic nodes. -/
theorem of_elements (h : s.Probabilistic id) (hs : s.Sound) {es : List Element}
    (hes : s.elements id = .ok es) : ∀ x ∈ nodesBelow es, s.Probabilistic x ∧ x.raw < id.raw := by
  have hnone : es = [] → ∀ x ∈ nodesBelow es, s.Probabilistic x ∧ x.raw < id.raw := by
    rintro rfl x hx
    exact absurd hx (by simp [nodesBelow])
  cases h with
  | bottom =>
    exact hnone (Except.ok.inj (hes.symm.trans (elements_of_entry hs.base.entry_bottom)))
  | literal hliteral =>
    obtain ⟨v, hv⟩ := hliteral
    obtain ⟨lit, -, he⟩ := hs.entry_of_literal? hv
    exact hnone (Except.ok.inj (hes.symm.trans (elements_of_entry he)))
  | top he => exact hnone (Except.ok.inj (hes.symm.trans (elements_of_entry he)))
  | @decision _ v es' θ b he _ hlt hbelow =>
    obtain rfl : es = es' := Except.ok.inj (hes.symm.trans (elements_of_entry he))
    exact fun x hx => ⟨hbelow x hx, hlt x hx⟩

end Probabilistic

/-! ## Longer stores -/

theorem Extends.sitsAt (h : s.Extends s') {side : VtreeId} {b : Bool}
    (hb : s.sitsAt side id = .ok b) : s'.sitsAt side id = .ok b := by
  obtain ⟨own, hown, hb⟩ := bind_eq_ok.1 hb
  unfold Store.sitsAt
  rw [h.vtreeOf hown]
  exact hb

theorem Seated.mono {v : VtreeId} {es : List Element} (h : s.Seated v es) (hext : s.Extends s') :
    s'.Seated v es := by
  obtain ⟨i, l, r, hfork, hall⟩ := h
  refine ⟨i, l, r, hext.vtree ▸ hfork, allElements_eq_true.2 fun x hx => ?_⟩
  obtain ⟨hp, hq⟩ := allElements_eq_true.1 hall x hx
  exact ⟨hext.sitsAt hp, hext.sitsAt hq⟩

theorem Probabilistic.mono (h : s.Probabilistic id) (hext : s.Extends s') :
    s'.Probabilistic id := by
  induction h with
  | bottom => exact .bottom
  | literal hliteral =>
    obtain ⟨v, hv⟩ := hliteral
    have hcount : s'.varCount = s.varCount := congrArg Vtree.numVars hext.vtree
    exact .literal ⟨v, (literal?_congr hcount v).trans hv⟩
  | top he => exact .top (hext.entry he)
  | decision he hseated hlt _ ih => exact .decision (hext.entry he) (hseated.mono hext) hlt ih

/-! ## Reading -/

theorem ofWeights_eq_ok {ws : List W} {θ : Theta W} (h : Theta.ofWeights ws = .ok θ) :
    θ.weights = ws := by
  unfold Theta.ofWeights at h
  split at h
  · obtain rfl := Except.ok.inj h
    rfl
  · exact absurd h (by simp)

theorem readTop_isLogProbability {r : Record} {i var : Nat} {l : W}
    (h : s.readTop r i = .ok (var, l)) : Weight.isLogProbability l = true := by
  unfold readTop at h
  obtain ⟨_, -, h⟩ := bind_eq_ok.1 h
  obtain ⟨position, -, h⟩ := bind_eq_ok.1 h
  obtain ⟨var', -, h⟩ := bind_eq_ok.1 h
  obtain ⟨l', hl, h⟩ := bind_eq_ok.1 h
  obtain ⟨f, -, -, hlog⟩ := readLog_eq_ok.1 hl
  split at h
  · exact absurd h (by simp)
  · obtain ⟨leaf, -, h⟩ := bind_eq_ok.1 h
    split at h
    · exact absurd h (by simp)
    · obtain ⟨-, rfl⟩ : var' = var ∧ l' = l := by simpa using h
      exact hlog

/-- What a line is read as, in the store `s` with the nodes of the table `t`: a terminal or a
literal, or a new node whose weights are the exponentials of logarithms of probabilities. -/
inductive ReadAs (s : Store W) (t : Slots NodeId) (s' : Store W) (id : NodeId) : Prop
  | bottom : id = .bottom → s' = s → ReadAs s t s' id
  | literal : s.IsLiteral id → s' = s → ReadAs s t s' id
  | top (leaf : VtreeId) (θ : Theta W) (b : Bool) (l : W) :
      s'.entry id = .ok ⟨⟨.top (some leaf), some θ⟩, b⟩ → Weight.isLogProbability l = true →
      θ.weights = [Weight.complement (Weight.exp l), Weight.exp l] → ReadAs s t s' id
  | decision (v : VtreeId) (es : List Element) (θ : Theta W) (b : Bool) (ls : List W) :
      id = ⟨s.numNodes⟩ → s'.entry id = .ok ⟨⟨.decision v es, some θ⟩, b⟩ → s.Seated v es →
      (∀ p : NodeId → Prop, t.All p → ∀ x ∈ nodesBelow es, p x) →
      (∀ l ∈ ls, Weight.isLogProbability l = true) → θ.weights = ls.map Weight.exp →
      ReadAs s t s' id

theorem buildPsdd_readAs {t : Slots NodeId} {r : Record} {i : Nat}
    (h : s.buildPsdd t r i = (.ok id, s')) : s.ReadAs t s' id := by
  rcases buildPsdd_cases h with ⟨var, l, θ, -, hd, hθ, hmake⟩ | ⟨v, es, θ, -, hd, hθ, hmake⟩ |
    ⟨hplain, rfl⟩
  · obtain ⟨-, leaf, b, -, he⟩ := newTop_eq_ok hmake
    exact .top leaf θ b l he (readTop_isLogProbability hd) (ofWeights_eq_ok hθ)
  · obtain ⟨hid, -, b, he⟩ := newDecision_eq_ok hmake
    obtain ⟨hseated, hslots⟩ := readWeightedDecision_eq_ok hd
    obtain ⟨_, _, _, -, -, hweighted, -⟩ := readWeightedDecision_iff.1 hd
    obtain ⟨ls, hexp, hlogs⟩ := readWeighted_isLogProbability hweighted
    exact .decision v (es.map Prod.fst) θ b ls hid he hseated hslots hlogs
      ((ofWeights_eq_ok hθ).trans hexp)
  · rcases readPsddPlain_eq_ok hplain with rfl | hliteral
    · exact .bottom rfl rfl
    · exact .literal hliteral rfl

/-- What every line is read as, provided that the nodes of the table are that already, the whole
text is read as. -/
theorem readPsdd_provides {p : Store W → NodeId → Prop}
    (hmono : ∀ (s s' : Store W) (id : NodeId), s.Extends s' → p s id → p s' id)
    (hline : ∀ (s : Store W) (t : Slots NodeId) (s' : Store W) (id : NodeId), s.Sound →
      s.Extends s' → (t.All fun x => s.Knows x ∧ p s x) → s.ReadAs t s' id → p s' id)
    (hs : s.Sound) {text : List Char} (h : s.readPsdd text = (.ok id, s')) :
    s'.Sound ∧ s'.Knows id ∧ p s' id := by
  have hread : AnySteps s (s.readPsdd text).2 ∧ ∀ id, (s.readPsdd text).1 = .ok id →
      (s.readPsdd text).2.Knows id ∧ p (s.readPsdd text).2 id := by
    refine readText_provides (p := fun s id => s.Knows id ∧ p s id)
      (fun s s' id hext hid => ⟨hext.knows hid.1, hmono s s' id hext hid.2⟩)
      (fun s₁ t r i hsteps ht => ?_) text
    have hs₁ := hsteps.sound hs
    have hdelivers := buildPsdd_delivers (fun _ _ _ => trivial) hs₁ (ht.imp fun _ hx => hx.1) r i
    exact ⟨hdelivers.1, fun x hx => ⟨hdelivers.2 x hx,
      hline s₁ t _ x hs₁ hdelivers.1.extends ht (buildPsdd_readAs (Prod.ext hx rfl))⟩⟩
  rw [h] at hread
  exact ⟨hread.1.sound hs, hread.2 id rfl⟩

/-- A line over probabilistic nodes is read as a probabilistic node. -/
theorem ReadAs.probabilistic {t : Slots NodeId} (h : s.ReadAs t s' id) (hext : s.Extends s')
    (ht : t.All fun x => s.Knows x ∧ s.Probabilistic x) : s'.Probabilistic id := by
  cases h with
  | bottom hid hstore =>
    subst hid
    exact .bottom
  | literal hliteral hstore =>
    subst hstore
    exact .literal hliteral
  | top leaf θ b l he => exact .top he
  | decision v es θ b ls hid he hseated hslots =>
    subst hid
    refine .decision he (hseated.mono hext) ?_ ?_
    · exact fun x hx => (hslots _ ht x hx).1
    · exact fun x hx => (hslots _ ht x hx).2.mono hext

/-- A probabilistic diagram file is read as a probabilistic node. -/
theorem readPsdd_probabilistic (hs : s.Sound) {text : List Char}
    (h : s.readPsdd text = (.ok id, s')) : s'.Sound ∧ s'.Knows id ∧ s'.Probabilistic id :=
  readPsdd_provides (p := Probabilistic) (fun _ _ _ hext hid => hid.mono hext)
    (fun _ _ _ _ _ hext ht hread => hread.probabilistic hext ht) hs h

end Sentential.Store
