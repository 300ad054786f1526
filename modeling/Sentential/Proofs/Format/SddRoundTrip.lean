import Sentential.Proofs.Format.Sdd

/-!
# Reading a diagram file back

A diagram of terminals, literals and decisions without weights is determined by its file: reading
the file in the store that holds the diagram finds every node, and reading it in any store over
the same vtree makes a diagram with the same outline, hence with the same file.
-/

namespace Sentential.Store

open Format Text

variable {W : Type} [Weight W] {s s₀ s' : Store W} {id root : NodeId} {order ids : List NodeId}
  {figs : List Figure}

/-! ## What can be read back -/

/-- The nodes that a diagram file says everything about. -/
inductive Plain (s : Store W) (id : NodeId) : Prop
  | bottom : s.kind id = .ok .bottom → Plain s id
  | top : s.kind id = .ok (.top none) → Plain s id
  | literal (l : Literal) : s.kind id = .ok (.literal l) → Plain s id
  | decision (v : VtreeId) (es : List Element) (b : Bool) :
      s.entry id = .ok ⟨⟨.decision v es, none⟩, b⟩ → s.Normalized v es → Plain s id

theorem Plain.entry (h : s.Plain id) (hs : s.Sound) {k : Kind} (hk : s.kind id = .ok k) :
    ∃ b, s.entry id = .ok ⟨⟨k, none⟩, b⟩ := by
  cases h with
  | bottom hkind =>
    obtain rfl := Except.ok.inj (hk.symm.trans hkind)
    exact hs.entry_of_kind hk (by simp) (by simp)
  | top hkind =>
    obtain rfl := Except.ok.inj (hk.symm.trans hkind)
    exact hs.entry_of_kind hk (by simp) (by simp)
  | literal l hkind =>
    obtain rfl := Except.ok.inj (hk.symm.trans hkind)
    exact hs.entry_of_kind hk (by simp) (by simp)
  | decision v es b he _ =>
    obtain rfl := Except.ok.inj (hk.symm.trans (kind_of_entry he))
    exact ⟨b, he⟩

theorem Plain.normalized (h : s.Plain id) {v : VtreeId} {es : List Element}
    (hkind : s.kind id = .ok (.decision v es)) : s.Normalized v es := by
  cases h with
  | bottom hk => exact absurd (hkind.symm.trans hk) (by simp)
  | top hk => exact absurd (hkind.symm.trans hk) (by simp)
  | literal l hk => exact absurd (hkind.symm.trans hk) (by simp)
  | decision v' es' b he hnormal =>
    obtain ⟨rfl, rfl⟩ := Kind.decision.inj (Except.ok.inj (hkind.symm.trans (kind_of_entry he)))
    exact hnormal

/-- An outline of plain nodes whose numbers fit their words. -/
structure Readable (s : Store W) (order : List NodeId) (figs : List Figure) : Prop where
  entries : ∀ (i : Nat) (id : NodeId) (fig : Figure), order[i]? = some id → figs[i]? = some fig →
    ∃ b, s.entry id = .ok ⟨⟨fig.kind order, none⟩, b⟩
  normalized : ∀ (v : VtreeId) (es : List (Nat × Nat)), Figure.decision v es ∈ figs →
    s.Normalized v (es.map (Figure.element order))
  words : s.WordSized figs

theorem Outlines.readable (h : s.Outlines root order figs) (hs : s.Sound) (hwords : s.FitsWords)
    (hplain : ∀ id ∈ order, s.Plain id) : s.Readable order figs := by
  constructor
  case entries =>
    intro i id fig hid hfig
    exact (hplain id (List.mem_of_getElem? hid)).entry hs (h.kinds i id fig hid hfig).1
  case normalized =>
    intro v es hfig
    obtain ⟨i, hi⟩ := List.mem_iff_getElem?.1 hfig
    obtain ⟨id, hid⟩ := h.getElem hi
    exact (hplain id (List.mem_of_getElem? hid)).normalized (h.kinds i id _ hid hi).1
  case words => exact h.wordSized hs hwords

/-- The rows of an outline can be written. -/
theorem Outlines.exists_rows (h : s.Outlines root order figs) (hs : s.Sound) :
    ∃ rows, Figure.sddRows s.vtree 0 figs = .ok rows ∧ rows.length = figs.length ∧
      ∀ (i : Nat) (fig : Figure), figs[i]? = some fig →
        ∃ fs, rows[i]? = some fs ∧ fig.sddRow s.vtree i = .ok fs := by
  have hrow : ∀ (i : Nat) (fig : Figure), figs[i]? = some fig →
      ∃ fs, fig.sddRow s.vtree (0 + i) = .ok fs := by
    intro i fig hfig
    cases fig with
    | literal l =>
      obtain ⟨id, hid⟩ := h.getElem hfig
      obtain ⟨leaf, hleaf⟩ := hs.exists_leafOf (h.kinds i id _ hid hfig).1
      refine ⟨[['L'], natField (0 + i), natField leaf.raw, intField l.value], ?_⟩
      have hvar : s.vtree.leafOf l.var = .ok leaf := hleaf
      show (do return [['L'], _, natField (← s.vtree.leafOf l.var).raw, _]) = _
      rw [hvar]
      rfl
    | _ => exact ⟨_, rfl⟩
  obtain ⟨rows, hrows, hlen, hget⟩ := Figure.exists_sddRows hrow
  refine ⟨rows, hrows, hlen, fun i fig hfig => ?_⟩
  obtain ⟨fs, hfs, hrow⟩ := hget i fig hfig
  rw [Nat.zero_add] at hrow
  exact ⟨fs, hfs, hrow⟩

/-- The file of an outline. -/
theorem Outlines.exists_sddText (h : s.Outlines root order figs) (hs : s.Sound) : ∃ rows,
      rows.length = figs.length ∧ Figure.sddRows s.vtree 0 figs = .ok rows ∧
      (∀ (i : Nat) (fs : List Field), rows[i]? = some fs →
        ∃ fig, figs[i]? = some fig ∧ fig.sddRow s.vtree i = .ok fs) ∧
      s.sddText root = .ok (fileOf sddComments (["sdd".toList, natField rows.length] :: rows)) := by
  obtain ⟨rows, hrows, hlen, hget⟩ := h.exists_rows hs
  refine ⟨rows, hlen, hrows, fun i fs hfs => ?_, ?_⟩
  · have hlt : i < figs.length := by
      rw [← hlen]
      exact (List.getElem?_eq_some_iff.1 hfs).1
    obtain ⟨fs', hfs', hrow⟩ := hget i _ (List.getElem?_eq_getElem hlt)
    obtain rfl := Option.some_inj.1 (hfs'.symm.trans hfs)
    exact ⟨_, List.getElem?_eq_getElem hlt, hrow⟩
  · rw [hlen]
    exact h.sddText hrows

/-! ## Reading in any store over the vtree -/

/-- The node `id` of the kind `k` is found, and only where there is none it is made. -/
structure Finds (s' s'' : Store W) (k : Kind) (id : NodeId) : Prop where
  steps : AnySteps s' s''
  found : s''.canonical? k = some id
  same : s'.canonical? k ≠ none → s'' = s'

theorem finds_refl {k : Kind} (h : s'.canonical? k = some id) : Finds s' s' k id :=
  ⟨.refl, h, fun _ => rfl⟩

theorem lookup_finds (hs' : s'.Sound) {v : VtreeId} {es : List Element} (hfork : s'.vtree.IsFork v)
    (hknown : s'.KnowsBelow es) :
    ∃ id s'', s'.lookup es v = (.ok id, s'') ∧ Finds s' s'' (.decision v es) id := by
  cases hid : s'.unique[(v, es)]? with
  | some id => exact ⟨id, s', lookup_found hfork hid, finds_refl hid⟩
  | none =>
    have hflag := nonePositive_known hknown
    have hmade : Node.Made s'.vtree (⟨.decision v es, none⟩ : Node W) :=
      .decision hfork fun θ hθ => absurd hθ (by simp)
    have hstep : AnySteps s' (s'.make ⟨.decision v es, none⟩ _) :=
      .single (.make hmade hflag trivial fun _ => hid)
    refine ⟨_, _, lookup_made hfork hid hflag, hstep, ?_, fun hsome => absurd hid hsome⟩
    exact (hstep.sound hs').canonical?_eq_some.2 ⟨_, entry_make_self⟩

/-- A row finds the node of its figure, and only where there is none it makes one. -/
theorem Mirrors.buildSdd (h : s'.Mirrors figs ids) (hs' : s'.Sound) (hwords : s'.WordSized figs)
    {fig : Figure} (hfig : figs[ids.length]? = some fig) (hwithin : fig.Within ids.length)
    (hunbound : ∀ leaf, fig ≠ .top (some leaf))
    (hnormal : ∀ v es, fig = .decision v es → s'.Normalized v (es.map (Figure.element ids)))
    {r : Record} (hrow : fig.sddRow s'.vtree ids.length = .ok r.fields) (n : Nat) :
    ∃ id s'', s'.buildSdd (.filled n ids) r ids.length = (.ok id, s'') ∧
      Finds s' s'' (fig.kind ids) id := by
  have hplain : ∀ id, s'.canonical? (fig.kind ids) = some id →
      (fig = .bottom ∨ fig = .top none ∨ ∃ l, fig = .literal l) →
      ∃ id s'', s'.buildSdd (.filled n ids) r ids.length = (.ok id, s'') ∧
        Finds s' s'' (fig.kind ids) id :=
    fun id hid hor => ⟨id, s', buildSdd_plain hs' hrow hor hwords.addressable hid _, finds_refl hid⟩
  cases fig with
  | bottom => exact hplain _ rfl (Or.inl rfl)
  | top leaf =>
    cases leaf with
    | none => exact hplain _ rfl (Or.inr (Or.inl rfl))
    | some leaf => exact absurd rfl (hunbound leaf)
  | literal l =>
    -- the row is there, so the variable of the literal has a leaf
    obtain ⟨leaf, hleaf, -⟩ := bind_eq_ok.1 hrow
    obtain ⟨hpos, hle⟩ := hs'.vtree.leafOf_range hleaf
    obtain ⟨x, hx⟩ := exists_literal?.2 ⟨Int.natAbs_pos.1 hpos, hle⟩
    exact hplain x hx (Or.inr (Or.inr ⟨l, rfl⟩))
  | decision v es =>
    have hnormal := hnormal v es rfl
    obtain ⟨id, s'', hlookup, hfinds⟩ := lookup_finds hs' hnormal.isFork (h.knowsBelow hwithin)
    refine ⟨id, s'', ?_, hfinds⟩
    rw [buildSdd_decision hs' hwords.addressable hwithin (Nat.le_trans h.short hwords.length)
      (hwords.elements _ (List.mem_of_getElem? hfig)) hnormal (Except.ok.inj hrow).symm, hlookup]
    rfl

/-- The row of a plain node finds a node of the same figure. -/
theorem Readable.build (hr : s.Readable order figs) (hs : s.Sound) (h : s.Outlines root order figs)
    (hs' : s'.Sound) (hvtree : s'.vtree = s.vtree) (hfills : s'.Fills figs ids) {fig : Figure}
    (hfig : figs[ids.length]? = some fig) {r : Record}
    (hrow : fig.sddRow s.vtree ids.length = .ok r.fields) (n : Nat) :
    ∃ id s'', s'.buildSdd (.filled n ids) r ids.length = (.ok id, s'') ∧
      Finds s' s'' (fig.kind ids) id := by
  have hwithin : fig.Within ids.length := h.within hfig (Nat.le_refl _)
  rw [← hvtree] at hrow
  refine hfills.mirrors.buildSdd hs' (hr.words.congr hvtree) hfig hwithin ?_ ?_ hrow n
  · -- a TRUE node of a variable has weights, so there is none that every store has
    rintro leaf rfl
    obtain ⟨x, hx⟩ := h.getElem hfig
    have hcanonical := hs.canonical?_eq_some.2 (hr.entries _ x _ hx hfig)
    exact absurd hcanonical (by simp [Figure.kind, Store.canonical?])
  · rintro v es rfl
    refine (hr.normalized v es (List.mem_of_getElem? hfig)).transport hvtree hwithin
      fun j hj side => ?_
    unfold fits
    rw [hfills.vtreeOf_eq h hvtree hj, hvtree]

/-- In the store that holds the diagram, every row finds the node that it was written for. -/
theorem Readable.build_self (hr : s.Readable order figs) (hs : s.Sound)
    (h : s.Outlines root order figs) (hids : ids = order.take ids.length) {fig : Figure}
    (hfig : figs[ids.length]? = some fig) {r : Record}
    (hrow : fig.sddRow s.vtree ids.length = .ok r.fields) (n : Nat) :
    ∃ id, s.buildSdd (.filled n ids) r ids.length = (.ok id, s) ∧
      ids ++ [id] = order.take (ids ++ [id]).length := by
  obtain ⟨x, hx⟩ := h.getElem hfig
  obtain ⟨b, he⟩ := hr.entries _ x fig hx hfig
  have hkind : fig.kind ids = fig.kind order := by
    rw [hids, Figure.kind_take (h.within hfig (Nat.le_refl _))]
  have hfound : s.canonical? (fig.kind ids) = some x := by
    rw [hkind]
    exact hs.canonical?_eq_some.2 ⟨b, he⟩
  have hfills : s.Fills figs ids := by
    rw [hids]
    exact h.fills_take ids.length
  obtain ⟨id, s', hbuild, -, hid, hsame⟩ := hr.build hs h hs rfl hfills hfig hrow n
  obtain rfl := hsame fun hnone => absurd (hfound.symm.trans hnone) (by simp)
  obtain rfl := Option.some_inj.1 (hfound.symm.trans hid)
  refine ⟨x, hbuild, ?_⟩
  rw [List.length_append, List.length_singleton, List.take_add_one, ← hids, hx]
  rfl

/-- Reading the rows of an outline builds on an invariant of the nodes so far. -/
theorem Outlines.readSddRows (h : s.Outlines root order figs) (hwords : s.WordSized figs)
    {rows : List (List Field)} (hlen : rows.length = figs.length)
    (hrows : ∀ (i : Nat) (fs : List Field), rows[i]? = some fs →
      ∃ fig, figs[i]? = some fig ∧ fig.sddRow s.vtree i = .ok fs)
    (inv : Store W → List NodeId → Prop) (hinv : inv s₀ [])
    (hbuild : ∀ (fig : Figure) (fs : List Field) (n line : Nat) (s' : Store W) (ids : List NodeId),
      figs[ids.length]? = some fig → fig.sddRow s.vtree ids.length = .ok fs → inv s' ids →
      ∃ id s'', s'.buildSdd (.filled n ids) ⟨line, fs⟩ ids.length = (.ok id, s'') ∧
        inv s'' (ids ++ [id])) :
    ∃ id s' ids, s₀.readSdd (fileOf sddComments (["sdd".toList, natField rows.length] :: rows))
      = (.ok id, s') ∧ ids.length = figs.length ∧ ids.getLast? = some id ∧ inv s' ids := by
  refine h.readRows hwords comments_sddHeader (List.mem_singleton_self _)
    (isRow_header (by decide) (by decide)) hlen (fun i fs hfs => ?_) inv hinv ?_
  · obtain ⟨fig, -, hrow⟩ := hrows i fs hfs
    exact isRow_sddRow hrow
  · intro fs n line s' ids hfs hinv
    obtain ⟨fig, hfig, hrow⟩ := hrows _ fs hfs
    exact hbuild fig fs n line s' ids hfig hrow hinv

/-- A diagram without weights survives being written and read. In the store that holds it every
node is found and none is made; in any store over the same vtree, whatever it holds, the outcome
has the same outline and is written as the same text. -/
theorem readSdd_sddText (h : s.Built) (hroot : s.Knows root) (hwords : s.FitsWords)
    (hplain : ∀ id, s.Reaches root id → s.Plain id) :
    ∃ text figs, s.sddText root = .ok text ∧ s.outline root = .ok figs ∧
      s.readSdd text = (.ok root, s) ∧
      ∀ s₀ : Store W, s₀.Reached → s₀.vtree = s.vtree →
        ∃ root' s', s₀.readSdd text = (.ok root', s') ∧ s'.outline root' = .ok figs ∧
          s'.sddText root' = .ok text := by
  have hs := h.sound
  obtain ⟨order, figs, ho⟩ := exists_outlines h.closed hroot
  have hr : s.Readable order figs := ho.readable hs hwords fun id hid => hplain id (ho.mem_iff.1 hid)
  obtain ⟨rows, hlen, hrows, hget, htext⟩ := ho.exists_sddText hs
  refine ⟨_, figs, htext, ho.outline, ?_, fun s₀ hs₀ hvtree => ?_⟩
  · -- in the store itself the nodes so far are the first nodes of the order
    obtain ⟨id, s', ids, hread, hidslen, hlast, rfl, hids⟩ := ho.readSddRows hr.words hlen hget
      (fun s' ids => s' = s ∧ ids = order.take ids.length) ⟨rfl, rfl⟩ (by
        intro fig fs n line s' ids hfig hrow hinv
        obtain ⟨rfl, hids⟩ := hinv
        obtain ⟨id, hbuild, hids'⟩ := hr.build_self (r := ⟨line, fs⟩) hs ho hids hfig hrow n
        exact ⟨id, s', hbuild, rfl, hids'⟩)
    rw [hidslen, ho.length, List.take_length] at hids
    rw [hids, ho.last] at hlast
    obtain rfl := Option.some_inj.1 hlast
    exact hread
  · -- in another store they are nodes of the same figures
    have hs₀ := hs₀.sound
    obtain ⟨root', s', ids, hread, hidslen, hlast, hsteps, hfills⟩ := ho.readSddRows hr.words hlen hget
      (fun s' ids => AnySteps s₀ s' ∧ s'.Fills figs ids) ⟨.refl, fills_nil s₀ figs⟩ (by
        intro fig fs n line s' ids hfig hrow hinv
        obtain ⟨hsteps, hfills⟩ := hinv
        have hs' := hsteps.sound hs₀
        obtain ⟨id, s'', hbuild, hsteps', hid, -⟩ := hr.build (r := ⟨line, fs⟩) hs ho hs'
          (hsteps.extends.vtree.trans hvtree) hfills hfig hrow n
        obtain ⟨b, he⟩ := (hsteps'.sound hs').canonical?_eq_some.1 hid
        have hkind := kind_of_entry he
        have hnew : id ∉ ids := (hfills.mono hsteps'.extends).notMem ho hs hfig
          (fun i x hx hf => hr.entries i x fig hx hf) hkind
        exact ⟨id, s'', hbuild, hsteps.trans hsteps',
          hfills.concat ho hfig hnew hsteps'.extends hkind⟩)
    have houtlines : s'.Outlines root' ids figs := hfills.outlines ho hidslen hlast
    have hrows' : Figure.sddRows s'.vtree 0 figs = .ok rows := by
      rw [hsteps.extends.vtree, hvtree]
      exact hrows
    refine ⟨root', s', hread, houtlines.outline, ?_⟩
    rw [hlen]
    exact houtlines.sddText hrows'

theorem readSdd_sddText_sample : ∃ text figs, sample.sddText ⟨6⟩ = .ok text ∧
    sample.outline ⟨6⟩ = .ok figs ∧ sample.readSdd text = (.ok ⟨6⟩, sample) ∧
    ∃ root' s', (ofVtree .pair : Store Extreme).readSdd text = (.ok root', s') ∧
      s'.outline root' = .ok figs ∧ s'.sddText root' = .ok text := by
  have hplain : ∀ id, sample.Reaches ⟨6⟩ id → sample.Plain id := by
    intro id hid
    have hmem : id ∈ [⟨6⟩, ⟨2⟩, ⟨3⟩, ⟨4⟩, NodeId.bottom] := hid.mem (by decide) (by decide)
    simp only [List.mem_cons, List.not_mem_nil, or_false] at hmem
    rcases hmem with rfl | rfl | rfl | rfl | rfl
    · exact .decision ⟨1⟩ conjunction false rfl ⟨_, _, _, rfl, by decide⟩
    · exact .literal ⟨1, by decide⟩ rfl
    · exact .literal ⟨2, by decide⟩ rfl
    · exact .literal ⟨-1, by decide⟩ rfl
    · exact .bottom rfl
  have hroot : sample.Knows ⟨6⟩ := by decide
  obtain ⟨text, figs, htext, hfigs, hself, hother⟩ :=
    readSdd_sddText built_sample hroot fitsWords_sample hplain
  exact ⟨text, figs, htext, hfigs, hself,
    hother _ (.start (.balanced Vtree.balanced_two)) rfl⟩

end Sentential.Store
