import Sentential.Proofs.Format.FailedReads
import Sentential.Proofs.Format.Queries
import Sentential.Proofs.Store.Continuation

/-!
# Reading a diagram again

A reader that builds its records as `makes` says accepts the texts whose records all make their
nodes, with the numbers that the header announces (`Builds.readText_eq_ok`). So a text that has been
read is read again with the same answer wherever its records make the same nodes once more.

For diagram files they do, in every sound store that holds the nodes of the first reading
(`SddMakes.again`): terminals and literals are where they were, and a decision that was looked up is
in the table of decisions without weights and is found there, however it came about and whatever has
been made since. Nodes with weights are not in that table and have no part in it.
-/

namespace Sentential

open Format Text Indexing Vtree

namespace Format

/-! ## Accepted texts -/

namespace Builds

variable {σ α : Type} {makes : σ → List (Nat × α) → List Field → Nat → α → σ → Prop}
  {build : σ → Slots α → Record → Nat → Except FormatError α × σ} (hbuilds : Builds makes build)
  {s s' : σ} {t : Slots α} {n : Nat} {entries entries' : List (Nat × α)} {rs : List Record}
  {tags : List Field} {text : List Char} {a : α}
include hbuilds

/-- Records that make their nodes are read. -/
theorem readNodes_of_constructs (ht : t.Holds n entries)
    (h : Constructs makes n s entries rs s' entries') :
    ∃ t', readNodes build rs s t = (.ok t', s') ∧ t'.Holds n entries' := by
  induction h generalizing t with
  | nil => exact ⟨t, rfl, ht⟩
  | @cons s s₁ s' entries entries' r rs i a hmakes hlt hnew _ ih =>
    obtain ⟨hid, hbuild⟩ := (hbuilds.makes_iff ht).1 hmakes
    obtain ⟨t₁, hset⟩ := ht.exists_set r.line a hlt hnew
    obtain ⟨t', hread, ht'⟩ := ih (ht.set hset)
    exact ⟨t', readNodes_cons_eq_ok.2 ⟨i, a, s₁, t₁, hid, hbuild, hset, hread⟩, ht'⟩

/-- A text is read if all of its records make their nodes and have all of the announced numbers; the
answer is the node of the last one. -/
theorem readText_eq_ok : readText tags build s text = (.ok a, s') ↔ ∃ h rs n entries,
    records text = h :: rs ∧ IsHeader tags text h.fields n ∧
    Constructs makes n s [] rs s' entries ∧ (entries.map Prod.fst).Perm (List.range n) ∧
    entries.getLast?.map Prod.snd = some a := by
  constructor
  · intro hread
    obtain ⟨n, rs, t, hheader, hnodes, hfinish⟩ := Format.readText_eq_ok.1 hread
    obtain ⟨h, hrecords, hh⟩ := readHeader_eq_ok_iff.1 hheader
    obtain ⟨entries, hconstructs, ht⟩ := hbuilds.constructs (Slots.holds_ofCount n) hnodes
    obtain ⟨hperm, hlast⟩ := ht.finish_eq_ok.1 hfinish
    exact ⟨h, rs, n, entries, hrecords, hh, hconstructs, hperm, hlast⟩
  · rintro ⟨h, rs, n, entries, hrecords, hh, hconstructs, hperm, hlast⟩
    obtain ⟨t, hnodes, ht⟩ := hbuilds.readNodes_of_constructs (Slots.holds_ofCount n) hconstructs
    exact Format.readText_eq_ok.2 ⟨n, rs, t, readHeader_eq_ok_iff.2 ⟨h, hrecords, hh⟩, hnodes,
      ht.finish_eq_ok.2 ⟨hperm, hlast⟩⟩

end Builds

/-- The number of records that describe decisions. -/
def decisionCount (rs : List Record) : Nat := rs.countP fun r => tag r = ['D']

end Format

namespace Store

variable {W : Type} [Weight W] {s s' s₂ : Store W} {id : NodeId} {v : VtreeId} {es : List Element}
  {entries entries' : List (Nat × NodeId)} {fs : List Field} {r : Record} {rs : List Record}
  {n i : Nat} {a : NodeId}

/-! ## Decisions that were looked up -/

/-- The answer of a lookup is the decision without weights. -/
theorem Sound.entry_of_lookup (hs : s.Sound) (h : s.lookup es v = (.ok id, s')) :
    ∃ b, s'.entry id = .ok ⟨⟨.decision v es, none⟩, b⟩ := by
  obtain ⟨-, hfound | ⟨-, rfl, b, -, rfl⟩⟩ := lookup_cases h
  · obtain ⟨hid, rfl⟩ := hfound
    exact (hs.shared v es id).1 hid
  · exact ⟨b, entry_make_self⟩

/-- A decision that was looked up is found from then on. -/
theorem Sound.lookup_again (hs : s.Sound) (h : s.lookup es v = (.ok id, s')) (hext : s'.Extends s₂)
    (hs₂ : s₂.Sound) : s₂.lookup es v = (.ok id, s₂) := by
  obtain ⟨b, he⟩ := hs.entry_of_lookup h
  have hfork : s₂.vtree.IsFork v := by
    rw [((hs.anySteps_lookup h).extends.trans hext).vtree]
    exact (lookup_cases h).1
  exact lookup_found hfork ((hs₂.shared v es id).2 ⟨b, hext.entry he⟩)

theorem numNodes_lookup_le (h : s.lookup es v = (.ok id, s')) : s'.numNodes ≤ s.numNodes + 1 := by
  obtain ⟨-, ⟨-, rfl⟩ | ⟨-, -, b, -, rfl⟩⟩ := lookup_cases h
  · exact Nat.le_succ _
  · exact Nat.le_of_eq numNodes_make

/-! ## One record -/

/-- A record makes nodes one after the other. -/
theorem SddMakes.anySteps (h : SddMakes s entries fs i a s') (hs : s.Sound) : AnySteps s s' := by
  cases h with
  | bottom _ => exact .refl
  | top _ => exact .refl
  | literal _ _ _ _ _ => exact .refl
  | decision _ _ _ _ _ _ _ hlookup => exact hs.anySteps_lookup hlookup

/-- A decision makes at most one node, and the other records make none. -/
theorem SddMakes.numNodes_le (h : SddMakes s entries r.fields i a s') :
    s'.numNodes ≤ s.numNodes + if tag r = ['D'] then 1 else 0 := by
  obtain ⟨line, fs⟩ := r
  simp only at h
  cases h with
  | bottom _ => exact Nat.le_add_right _ _
  | top _ => exact Nat.le_add_right _ _
  | literal _ _ _ _ _ => exact Nat.le_add_right _ _
  | decision _ _ _ _ _ _ _ hlookup => exact numNodes_lookup_le hlookup

/-- What a record has made it finds in every sound store that still has it. -/
theorem SddMakes.again (h : SddMakes s entries fs i a s') (hs : s.Sound) (hext : s'.Extends s₂)
    (hs₂ : s₂.Sound) : SddMakes s₂ entries fs i a s₂ := by
  have hgrows : s.Extends s₂ := (h.anySteps hs).extends.trans hext
  have hvtree : s₂.vtree = s.vtree := hgrows.vtree
  cases h with
  | bottom hread => exact .bottom hread
  | top hread => exact .top hread
  | literal hread hreadp hreadg hl hleaf =>
    refine .literal hread hreadp hreadg ?_ (hvtree ▸ hleaf)
    rwa [literal?_congr (congrArg Vtree.numVars hvtree)]
  | decision hread hreadp hsub hreadk hword hall hfits hlookup =>
    have hfits₂ : allElements (s₂.fits _) (s₂.fits _) _ = .ok true :=
      allElements_eq_true.2 fun x hx =>
        have hx := allElements_eq_true.1 hfits x hx
        ⟨hgrows.fits hx.1, hgrows.fits hx.2⟩
    exact .decision hread hreadp (hvtree ▸ hsub) hreadk hword hall hfits₂
      (hs.lookup_again hlookup hext hs₂)

/-! ## All records -/

theorem anySteps_of_constructs (h : Constructs SddMakes n s entries rs s' entries')
    (hs : s.Sound) : AnySteps s s' := by
  induction h with
  | nil => exact .refl
  | cons hmakes _ _ _ ih =>
    have hsteps := hmakes.anySteps hs
    exact hsteps.trans (ih (hsteps.sound hs))

theorem numNodes_le_of_constructs (h : Constructs SddMakes n s entries rs s' entries') :
    s'.numNodes ≤ s.numNodes + decisionCount rs := by
  induction h with
  | nil => exact Nat.le_add_right _ _
  | @cons s s₁ s' _ _ r rs _ _ hmakes _ _ _ ih =>
    have hone := hmakes.numNodes_le
    have hcount : decisionCount (r :: rs)
        = decisionCount rs + if tag r = ['D'] then 1 else 0 := by
      simp [decisionCount, List.countP_cons]
    omega

/-- Records that have made their nodes find them in every sound store that still has these. -/
theorem constructs_again (h : Constructs SddMakes n s entries rs s' entries') (hs : s.Sound)
    (hext : s'.Extends s₂) (hs₂ : s₂.Sound) : Constructs SddMakes n s₂ entries rs s₂ entries' := by
  induction h with
  | nil => exact .nil s₂ _
  | cons hmakes hlt hnew hrest ih =>
    have hs₁ := (hmakes.anySteps hs).sound hs
    have hkept := (anySteps_of_constructs hrest hs₁).extends
    exact .cons (hmakes.again hs (hkept.trans hext) hs₂) hlt hnew (ih hs₁ hext)

/-! ## Texts -/

/-- Reading a diagram file makes at most one node for each of its decisions, and whatever is done to
the store afterwards, reading the file again answers with the same node and makes nothing. -/
theorem Built.rereads (hs : s.Built) {text : List Char} {root : NodeId} {s₁ : Store W}
    (hread : s.readSdd text = (.ok root, s₁)) :
    s₁.numNodes ≤ s.numNodes + decisionCount (records text) ∧
      ∀ s₂, s₁.Continues s₂ → s₂.readSdd text = (.ok root, s₂) := by
  obtain ⟨header, rs, n, entries, hrecords, hheader, hconstructs, hperm, hlast⟩ :=
    builds_buildSdd.readText_eq_ok.1 hread
  constructor
  · have hcount : decisionCount rs ≤ decisionCount (records text) := by
      rw [hrecords]
      exact (List.sublist_cons_self header rs).countP_le
    exact Nat.le_trans (numNodes_le_of_constructs hconstructs) (Nat.add_le_add_left hcount _)
  · intro s₂ hcontinues
    have hs₁ : s₁.Built := by
      have hcall := ReachedBy.call (.readSdd text) hs (knowsBelow_nil s)
      rwa [Call.perform, hread] at hcall
    exact builds_buildSdd.readText_eq_ok.2 ⟨header, rs, n, entries, hrecords, hheader,
      constructs_again hconstructs hs.sound (hcontinues.extends hs₁) (hcontinues.built hs₁).sound,
      hperm, hlast⟩

/-- The conjunction of two variables, described twice. -/
def repeatedText : List Char :=
  "sdd 6\nL 0 0 1\nL 1 2 2\nL 2 0 -1\nF 3\nD 4 1 2 0 1 2 3\nD 5 1 2 0 1 2 3\n".toList

/-- A store over two variables with their conjunction. -/
def conjunctionStore : Store Extreme :=
  (ofVtree .pair).make ⟨.decision ⟨1⟩ conjunction, none⟩ false

/-- The second description finds the node that the first one has made. -/
theorem readSdd_repeatedText :
    (ofVtree .pair : Store Extreme).readSdd repeatedText = (.ok ⟨6⟩, conjunctionStore) := by
  have hfork : Vtree.pair.IsFork ⟨1⟩ := ⟨_, _, _, rfl⟩
  have hmade : (ofVtree .pair : Store Extreme).lookup conjunction ⟨1⟩
      = (.ok ⟨6⟩, conjunctionStore) := lookup_made hfork Std.HashMap.getElem?_empty rfl
  have hfound : conjunctionStore.lookup conjunction ⟨1⟩ = (.ok ⟨6⟩, conjunctionStore) :=
    lookup_found hfork unique_make_self
  have hzero : readWord? ['0'] = some 0 := by decide
  have hone : readWord? ['1'] = some 1 := by decide
  have htwo : readWord? ['2'] = some 2 := by decide
  have hthree : readWord? ['3'] = some 3 := by decide
  have hnames : ∀ rest : List (Nat × NodeId),
      List.Forall₂ (Names ((0, ⟨2⟩) :: (1, ⟨3⟩) :: (2, ⟨4⟩) :: (3, .bottom) :: rest))
        [['0'], ['1'], ['2'], ['3']] (nodesBelow conjunction) := fun rest =>
    .cons ⟨0, hzero, by simp⟩ (.cons ⟨1, hone, by simp⟩
      (.cons ⟨2, htwo, by simp⟩ (.cons ⟨3, hthree, by simp⟩ .nil)))
  refine builds_buildSdd.readText_eq_ok.2 ⟨⟨1, ["sdd".toList, ['6']]⟩,
    [⟨2, [['L'], ['0'], ['0'], ['1']]⟩, ⟨3, [['L'], ['1'], ['2'], ['2']]⟩,
      ⟨4, [['L'], ['2'], ['0'], ['-', '1']]⟩, ⟨5, [['F'], ['3']]⟩,
      ⟨6, [['D'], ['4'], ['1'], ['2'], ['0'], ['1'], ['2'], ['3']]⟩,
      ⟨7, [['D'], ['5'], ['1'], ['2'], ['0'], ['1'], ['2'], ['3']]⟩], 6,
    [(0, ⟨2⟩), (1, ⟨3⟩), (2, ⟨4⟩), (3, .bottom), (4, ⟨6⟩), (5, ⟨6⟩)], by decide +kernel,
    ⟨_, _, rfl, by decide, by decide, by decide +kernel⟩, ?_, by decide, rfl⟩
  refine .cons (.literal (l := ⟨1, by decide⟩) hzero hzero (by decide) rfl rfl) (by decide)
    (by decide) ?_
  refine .cons (.literal (l := ⟨2, by decide⟩) hone htwo (by decide) rfl rfl) (by decide)
    (by decide) ?_
  refine .cons (.literal (l := ⟨-1, by decide⟩) htwo hzero (by decide) rfl rfl) (by decide)
    (by decide) ?_
  refine .cons (.bottom hthree) (by decide) (by decide) ?_
  refine .cons (.decision (i := 4) (by decide) hone rfl (by decide) (by decide) (hnames _) rfl
    hmade) (by decide) (by decide) ?_
  exact .cons (.decision (i := 5) (by decide) hone rfl (by decide) (by decide) (hnames _) rfl
    hfound) (by decide) (by decide) (.nil _ _)

/-- The text is read again after nodes with weights were made over what it describes. -/
theorem rereads_repeatedText :
    (ofVtree .pair : Store Extreme).readSdd repeatedText = (.ok ⟨6⟩, conjunctionStore) ∧
    conjunctionStore.Continues sample ∧ conjunctionStore.numNodes = 7 ∧ sample.numNodes = 9 ∧
    decisionCount (records repeatedText) = 2 ∧
    sample.readSdd repeatedText = (.ok ⟨6⟩, sample) := by
  have hbuilt : (ofVtree .pair : Store Extreme).Built := .start (.balanced balanced_two)
  have hcontinues : conjunctionStore.Continues sample :=
    .call (.newDecision weightedConjunction ⟨1⟩ ⟨[Extreme.one, .zero], by decide⟩)
      (.call (.newTop 1 ⟨[Extreme.zero, .one], by decide⟩) .refl (by decide)) (by decide)
  exact ⟨readSdd_repeatedText, hcontinues, rfl, rfl, by decide +kernel,
    (hbuilt.rereads readSdd_repeatedText).2 sample hcontinues⟩

end Store
end Sentential
