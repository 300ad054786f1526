import Sentential.Proofs.Circuit.Alignment
import Sentential.Proofs.Circuit.Compile
import Sentential.Proofs.Format.Copy

/-!
# Missing weights

A probabilistic diagram file and a circuit need weights for the same nodes: decisions and TRUE nodes,
and the terminal that always holds never has any. The writer goes through all nodes below the root and
stops at the first one without (`Outlines.psddLines_eq`), the compiler only goes through those that are
reached through positive elements. So what is written can be compiled, and what cannot be compiled
cannot be written (`Built.checksWeights`). It is not the other way round: what the compiler leaves
out may lack weights (`checksWeights_hiddenSample`).
-/

namespace Sentential.Store

open Format Text

variable {W : Type} [Weight W] {s : Store W} {id root : NodeId} {order ids : List NodeId}
  {figs : List Figure}

/-! ## Nodes without weights -/

/-- Whether the node is the terminal that always holds or a decision without weights. -/
def lacksWeights (s : Store W) (id : NodeId) : Bool :=
  match s.entry id with
  | .ok ⟨⟨.top none, _⟩, _⟩ => true
  | .ok ⟨⟨.decision _ _, none⟩, _⟩ => true
  | _ => false

theorem lacksWeights_iff : s.lacksWeights id = true ↔ s.kind id = .ok (.top none) ∨
    ∃ v es b, s.entry id = .ok ⟨⟨.decision v es, none⟩, b⟩ := by
  unfold lacksWeights
  split
  · next he => simp [kind_of_entry he]
  · next he => simp [he]
  · next htop hdecision =>
    refine iff_of_false (by simp) ?_
    rintro (hkind | ⟨v, es, b, he⟩)
    · obtain ⟨⟨⟨kind, theta⟩, b⟩, he, rfl⟩ := kind_eq_ok.1 hkind
      exact htop _ _ he
    · exact hdecision _ _ _ he

/-- The compiler refuses these nodes. -/
theorem lacksWeights_iff_refusal? : s.lacksWeights id = true ↔ ∃ e, s.refusal? id = some e := by
  unfold lacksWeights refusal?
  split <;> simp_all

/-! ## Writing -/

theorem psddLine_of_lacksWeights (h : s.lacksWeights id = true) (ix : Indexing) (i : Nat) :
    s.psddLine ix i id = .error (.missingTheta id) := by
  unfold lacksWeights at h
  unfold psddLine
  split at h
  · next he =>
    rw [he]
    rfl
  · next he =>
    rw [he]
    rfl
  · exact absurd h (by simp)

/-- A line that is refused for missing weights is that of a node without weights: TRUE nodes of a
variable always have weights. -/
theorem Sound.lacksWeights_of_psddLine (hs : s.Sound) (hid : s.Knows id) {ix : Indexing} {i : Nat}
    (h : s.psddLine ix i id = .error (.missingTheta id)) : s.lacksWeights id = true := by
  obtain ⟨e, he⟩ := knows_iff.1 hid
  unfold psddLine at h
  unfold lacksWeights
  rw [he, format_liftM_ok, ok_bind] at h
  rw [he]
  rcases hs.cases he with ⟨-, rfl⟩ | ⟨-, rfl⟩ | ⟨l, -, rfl⟩ | ⟨-, hmade⟩
  · exact absurd h (by simp)
  · rfl
  · obtain ⟨leaf, hleaf⟩ := hs.exists_leafOf (kind_of_entry he)
    simp [hleaf] at h
  · obtain ⟨⟨kind, theta⟩, b⟩ := e
    cases hmade with
    | @top var leaf θ hleaf hθ =>
      have hsubtree := Vtree.subtree_eq_ok.2 (hs.vtree.leafOf_iff.1 hleaf)
      simp only [hsubtree, format_liftM_ok, ok_bind, Vtree.Tree.var?] at h
      split at h <;> simp_all
    | @decision v es theta hfork hθ =>
      cases theta with
      | none => rfl
      | some θ =>
        -- a line that has weights can only fail with a fault
        cases helements : psddElements ix es θ.logs <;> simp [helements] at h

/-- A node that does not lack weights has a line. -/
theorem Outlines.exists_psddLine (ho : s.Outlines root order figs) (hs : s.Sound) (hid : id ∈ order)
    (h : s.lacksWeights id = false) (i : Nat) :
    ∃ fs, s.psddLine (.ofList order) i id = .ok fs := by
  rcases ho.psddLine_cases hs hid i with hline | hline
  · exact hline
  · have hlacks := hs.lacksWeights_of_psddLine (ho.known id hid) hline
    exact absurd (h.symm.trans hlacks) (by simp)

/-- The lines of some nodes fail at the first node that lacks weights. -/
theorem Outlines.psddLines_eq (ho : s.Outlines root order figs) (hs : s.Sound) (hids : ids ⊆ order)
    (i : Nat) : match ids.find? s.lacksWeights with
      | some id => s.psddLines (.ofList order) i ids = .error (.missingTheta id)
      | none => ∃ rows, s.psddLines (.ofList order) i ids = .ok rows := by
  induction ids generalizing i with
  | nil => exact ⟨[], rfl⟩
  | cons id ids ih =>
    cases hlacks : s.lacksWeights id with
    | true =>
      rw [List.find?_cons_of_pos hlacks, Store.psddLines, psddLine_of_lacksWeights hlacks]
      rfl
    | false =>
      obtain ⟨fs, hfs⟩ := ho.exists_psddLine hs (hids List.mem_cons_self) hlacks i
      have hrest := ih (fun x hx => hids (List.mem_cons_of_mem _ hx)) (i + 1)
      rw [List.find?_cons_of_neg (by simp [hlacks]), Store.psddLines, hfs, ok_bind]
      split at hrest
      · rw [hrest]
        rfl
      · obtain ⟨rows, hrows⟩ := hrest
        exact ⟨fs :: rows, by rw [hrows]; rfl⟩

/-- So does the whole file. -/
theorem Outlines.psddText_eq (ho : s.Outlines root order figs) (hs : s.Sound) :
    match order.find? s.lacksWeights with
      | some id => s.psddText root = .error (.missingTheta id)
      | none => ∃ text, s.psddText root = .ok text := by
  have hlines := ho.psddLines_eq hs (fun x hx => hx) 0
  unfold Store.psddText
  rw [ho.indexing, format_liftM_ok, ok_bind, Indexing.order_ofList]
  split at hlines
  · rw [hlines]
    rfl
  · obtain ⟨rows, hrows⟩ := hlines
    exact ⟨_, by rw [hrows]; rfl⟩

/-! ## Writing and compiling -/

/-- The writer and the compiler ask for the weights of a diagram. -/
structure ChecksWeights (s : Store W) (root : NodeId) (ix : Indexing) : Prop where
  /-- The writer numbers what is below the root. -/
  indexing : s.indexing root = .ok ix
  mem_order : ∀ id, id ∈ ix.order.toList ↔ s.Reaches root id
  /-- Writing fails for no other reason than a node that is reached and lacks weights. -/
  refused_iff : (∃ e, s.psddText root = .error e) ↔ ∃ id, s.Reaches root id ∧
    (s.kind id = .ok (.top none) ∨ ∃ v es b, s.entry id = .ok ⟨⟨.decision v es, none⟩, b⟩)
  /-- The first such node in the order of the numbers is named. -/
  error_iff : ∀ e, s.psddText root = .error e ↔
    ∃ id, ix.order.toList.find? s.lacksWeights = some id ∧ e = .missingTheta id
  /-- What is written can be compiled. -/
  compiled : ∀ text, s.psddText root = .ok text → ∃ c, s.compile root = .ok c
  /-- What cannot be compiled cannot be written, and the compiler names one of the nodes that keep
  it from being written. -/
  uncompiled : ∀ e, s.compile root = .error e → (∃ e', s.psddText root = .error e') ∧
    ∃ id, s.Reaches root id ∧ s.lacksWeights id = true ∧ s.refusal? id = some e

theorem Outlines.error_iff (ho : s.Outlines root order figs) (hs : s.Sound) (e : FormatError) :
    s.psddText root = .error e ↔
      ∃ id, order.find? s.lacksWeights = some id ∧ e = .missingTheta id := by
  have htext := ho.psddText_eq hs
  cases hfirst : order.find? s.lacksWeights with
  | some id =>
    rw [hfirst] at htext
    simp [htext, eq_comm]
  | none =>
    rw [hfirst] at htext
    obtain ⟨text, htext⟩ := htext
    simp [htext]

theorem Outlines.refused_iff (ho : s.Outlines root order figs) (hs : s.Sound) :
    (∃ e, s.psddText root = .error e) ↔ ∃ id, s.Reaches root id ∧ s.lacksWeights id = true := by
  have hfirst : (∃ id, order.find? s.lacksWeights = some id) ↔
      ∃ id ∈ order, s.lacksWeights id = true := by
    rw [← Option.isSome_iff_exists, List.find?_isSome]
  simp only [ho.mem_iff] at hfirst
  rw [← hfirst]
  constructor
  · rintro ⟨e, he⟩
    obtain ⟨id, hid, -⟩ := (ho.error_iff hs e).1 he
    exact ⟨id, hid⟩
  · rintro ⟨id, hid⟩
    exact ⟨_, (ho.error_iff hs _).2 ⟨id, hid, rfl⟩⟩

/-- What the compiler refuses is a node on the way through positive elements that lacks weights. -/
theorem Built.exists_of_compile_eq_error (h : s.Built) (hroot : s.Knows root) {e : CompileError}
    (he : s.compile root = .error e) :
    ∃ id, s.Reaches root id ∧ s.lacksWeights id = true ∧ s.refusal? id = some e := by
  obtain ⟨b, positive, hp⟩ := exists_positive h.closed hroot
  cases hrefusal : positive.findSome? s.refusal? with
  | none =>
    obtain ⟨l, emission, -, hc⟩ :=
      hp.exists_compiled h.sound (hp.compilable h.sound h.closed hrefusal)
    exact absurd (he.symm.trans hc) (by simp)
  | some e' =>
    obtain rfl := Except.error.inj (he.symm.trans (hp.compile_refused h.sound h.closed hrefusal))
    obtain ⟨id, hid, hrefused⟩ := List.exists_of_findSome?_eq_some hrefusal
    exact ⟨id, hp.reached id hid, lacksWeights_iff_refusal?.2 ⟨e, hrefused⟩, hrefused⟩

/-- In a store that was built from its own ids the writer and the compiler ask for weights of the same
nodes, the writer of all that are below the root and the compiler of some of them. -/
theorem Built.checksWeights (h : s.Built) (hroot : s.Knows root) : ∃ ix, s.ChecksWeights root ix := by
  obtain ⟨order, figs, ho⟩ := exists_outlines h.closed hroot
  have hrefused := ho.refused_iff h.sound
  have herror : ∀ e, s.compile root = .error e →
      ∃ id, s.Reaches root id ∧ s.lacksWeights id = true ∧ s.refusal? id = some e :=
    fun e he => h.exists_of_compile_eq_error hroot he
  refine ⟨.ofList order, ho.indexing, ?_, ?_, ?_, ?_, ?_⟩
  · rw [Indexing.order_ofList]
    exact fun id => ho.mem_iff
  · simp only [hrefused, lacksWeights_iff]
  · rw [Indexing.order_ofList]
    exact ho.error_iff h.sound
  · -- a refused node would have kept the diagram from being written
    intro text htext
    cases hcompile : s.compile root with
    | ok c => exact ⟨c, rfl⟩
    | error e =>
      obtain ⟨id, hid, hlacks, -⟩ := herror e hcompile
      obtain ⟨e', he'⟩ := hrefused.2 ⟨id, hid, hlacks⟩
      exact absurd (htext.symm.trans he') (by simp)
  · intro e he
    obtain ⟨id, hid, hlacks, hrefusal⟩ := herror e he
    exact ⟨hrefused.2 ⟨id, hid, hlacks⟩, id, hid, hlacks, hrefusal⟩

/-! ## A node that only the writer asks for -/

/-- The elements of `x₁ ∧ x₂` and a decision without weights, which does not hold with its sub. -/
def hidden : List Element := [⟨⟨7⟩, ⟨3⟩⟩, ⟨⟨6⟩, .bottom⟩]

/-- The sample with a decision at id 9 below which a decision without weights is hidden. -/
def hiddenSample : Store Extreme :=
  sample.make ⟨.decision ⟨1⟩ hidden, some allFirst⟩ false

theorem built_hiddenSample : hiddenSample.Built := by
  have hfork : sample.vtree.IsFork ⟨1⟩ := ⟨_, _, _, rfl⟩
  exact built_sample.step (.make (.decision hfork fun θ hθ => Option.some_inj.1 hθ ▸ rfl) rfl
    (by decide) fun h => absurd h (by simp))

/-- Through positive elements the hidden node is not reached. -/
theorem exists_circuit_hiddenSample : ∃ c, hiddenSample.compile ⟨9⟩ = .ok c := by
  have hs := built_hiddenSample
  have hroot : hiddenSample.Knows ⟨9⟩ := by decide
  obtain ⟨b, order, hp⟩ := exists_positive hs.closed hroot
  have hclosed : ∀ a ∈ [⟨9⟩, ⟨7⟩, (⟨3⟩ : NodeId)], ∀ es, hiddenSample.positiveElements a = .ok es →
      ∀ x ∈ Indexing.nodesBelow es, x ∈ [⟨9⟩, ⟨7⟩, (⟨3⟩ : NodeId)] := by
    have hnine : hiddenSample.positiveElements ⟨9⟩ = .ok [⟨⟨7⟩, ⟨3⟩⟩] := rfl
    have hseven : hiddenSample.positiveElements ⟨7⟩ = .ok [] := rfl
    have hthree : hiddenSample.positiveElements ⟨3⟩ = .ok [] := rfl
    intro a ha es hes
    simp only [List.mem_cons, List.not_mem_nil, or_false] at ha
    rcases ha with rfl | rfl | rfl
    · obtain rfl := Except.ok.inj (hes.symm.trans hnine)
      decide
    · obtain rfl := Except.ok.inj (hes.symm.trans hseven)
      decide
    · obtain rfl := Except.ok.inj (hes.symm.trans hthree)
      decide
  have hmem : ∀ id ∈ order, id ∈ [⟨9⟩, ⟨7⟩, (⟨3⟩ : NodeId)] :=
    hp.walks.forall_mem (fun a es ha hes => hclosed a ha es hes) (by cases b <;> simp) (by simp)
  have hnone : ∀ a ∈ [⟨9⟩, ⟨7⟩, (⟨3⟩ : NodeId)], hiddenSample.refusal? a = none := by decide
  have hrefusal : order.findSome? hiddenSample.refusal? = none :=
    List.findSome?_eq_none_iff.2 fun id hid => hnone id (hmem id hid)
  obtain ⟨l, e, -, hc⟩ := hp.exists_compiled hs.sound (hp.compilable hs.sound hs.closed hrefusal)
  exact ⟨_, hc⟩

/-- The hidden node is the only one below the root that lacks weights. -/
theorem lacksWeights_hiddenSample {id : NodeId} (h : hiddenSample.Reaches ⟨9⟩ id)
    (hlacks : hiddenSample.lacksWeights id = true) : id = ⟨6⟩ := by
  have hmem : id ∈ [⟨9⟩, ⟨7⟩, ⟨3⟩, ⟨6⟩, ⟨2⟩, ⟨4⟩, NodeId.bottom] := h.mem (by decide) (by decide)
  have honly : ∀ a ∈ [⟨9⟩, ⟨7⟩, ⟨3⟩, ⟨6⟩, ⟨2⟩, ⟨4⟩, NodeId.bottom],
      hiddenSample.lacksWeights a = true → a = ⟨6⟩ := by decide
  exact honly id hmem hlacks

/-- The decision at id 9 is compiled, but not written. -/
theorem checksWeights_hiddenSample : hiddenSample.Built ∧ hiddenSample.Knows ⟨9⟩ ∧
    (∃ ix, hiddenSample.ChecksWeights ⟨9⟩ ix) ∧
    hiddenSample.psddText ⟨9⟩ = .error (.missingTheta ⟨6⟩) ∧
    ∃ c, hiddenSample.compile ⟨9⟩ = .ok c := by
  have hroot : hiddenSample.Knows ⟨9⟩ := by decide
  obtain ⟨ix, h⟩ := built_hiddenSample.checksWeights hroot
  have hstep : hiddenSample.Refers ⟨9⟩ ⟨6⟩ := ⟨hidden, rfl, by decide⟩
  obtain ⟨e, he⟩ := h.refused_iff.2 ⟨⟨6⟩, .single hstep, Or.inr ⟨_, _, _, rfl⟩⟩
  obtain ⟨id, hfirst, rfl⟩ := (h.error_iff e).1 he
  have hreach := (h.mem_order id).1 (List.mem_of_find?_eq_some hfirst)
  obtain rfl := lacksWeights_hiddenSample hreach (List.find?_some hfirst)
  exact ⟨built_hiddenSample, hroot, ⟨ix, h⟩, he, exists_circuit_hiddenSample⟩

end Sentential.Store
