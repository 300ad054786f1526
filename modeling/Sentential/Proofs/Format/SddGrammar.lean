import Sentential.Proofs.Format.BuiltRows
import Sentential.Proofs.Format.Grammar

/-!
# The grammar of diagram files

What a diagram file is, in terms of its rows and of the vtree alone (`IsSddFile`), and what it
stands for: the tree of its last row. `Reached.readSdd_iff_isSddFile`: in any state of a store the
reader accepts exactly these files, and the node that it answers with unfolds to the tree of the file.

Line numbers, comments, blanks and the number of lines appear nowhere in the grammar. The nodes
that the store has already appear in it neither: a decision that is looked up stands for the tree
of its row in either case.
-/

namespace Sentential

open Format Text Indexing Vtree

/-! ## The grammar -/

/-- The row gives a number to a tree, which it describes with those of the rows above. -/
inductive IsSddRow (v : Vtree) (earlier : List (Nat × Unfolding)) :
    List Field → Nat → Unfolding → Prop
  | bottom {f : Field} {i : Nat} : readWord? f = some i → IsSddRow v earlier [['F'], f] i .bottom
  | top {f : Field} {i : Nat} : readWord? f = some i → IsSddRow v earlier [['T'], f] i .top
  | literal {f p g : Field} {i position : Nat} {l : Literal} :
      readWord? f = some i → readWord? p = some position →
      Decimal.readInteger? g = some l.value → l.var ≤ v.numVars →
      v.subtree? ⟨position⟩ = some (.leaf ⟨position⟩ l.var) →
      IsSddRow v earlier [['L'], f, p, g] i (.literal l)
  | decision {f p k : Field} {children : List Field} {i position : Nat} {fork : VtreeId}
      {left right : Tree} {xs : List (Unfolding × Unfolding)} :
      readWord? f = some i → readWord? p = some position →
      v.subtree? ⟨position⟩ = some (.fork fork left right) →
      readCount? k = some xs.length → List.Forall₂ (Names earlier) children (parts xs) →
      (∀ x ∈ xs, x.1.FitsUnder left ∧ x.2.FitsUnder right) →
      IsSddRow v earlier (['D'] :: f :: p :: k :: children) i (.decision ⟨position⟩ xs)

/-- The rows give numbers to trees one after the other. -/
inductive AreSddRows (v : Vtree) :
    List (Nat × Unfolding) → List (List Field) → List (Nat × Unfolding) → Prop
  | nil (earlier : List (Nat × Unfolding)) : AreSddRows v earlier [] []
  | cons {earlier named : List (Nat × Unfolding)} {fs : List Field} {rest : List (List Field)}
      {i : Nat} {u : Unfolding} : IsSddRow v earlier fs i u →
      AreSddRows v (earlier ++ [(i, u)]) rest named →
      AreSddRows v earlier (fs :: rest) ((i, u) :: named)

/-- The rows are a header and as many rows as it announces, whose numbers are those below the
announced one, each once. The file stands for the tree of the last row. -/
def IsSddFile (v : Vtree) (rows : List (List Field)) (u : Unfolding) : Prop :=
  ∃ f rest named, rows = ["sdd".toList, f] :: rest ∧ readCount? f = some rest.length ∧
    1 ≤ rest.length ∧ AreSddRows v [] rest named ∧
    (named.map Prod.fst).Perm (List.range rest.length) ∧
    named.getLast?.map Prod.snd = some u

section

variable {v : Vtree} {rows : List (List Field)} {u : Unfolding}

theorem areSddRows_iff {earlier named : List (Nat × Unfolding)} :
    AreSddRows v earlier rows named ↔ AreRows (IsSddRow v) earlier rows named := by
  constructor
  · intro h
    induction h with
    | nil => exact .nil _
    | cons hrow _ ih => exact .cons hrow ih
  · intro h
    induction h with
    | nil => exact .nil _
    | cons hrow _ ih => exact .cons hrow ih

/-- The file is one of the form that all formats share. -/
theorem isSddFile_iff : IsSddFile v rows u ↔ ∃ named,
    IsFile (IsSddRow v) ["sdd".toList] rows named ∧ named.getLast?.map Prod.snd = some u := by
  constructor
  · rintro ⟨f, rest, named, heq, hcount, hpos, hrows, hperm, hlast⟩
    exact ⟨named, ⟨_, f, rest, heq, List.mem_singleton_self _, hcount, hpos, areSddRows_iff.1 hrows,
      hperm⟩, hlast⟩
  · rintro ⟨named, ⟨tag, f, rest, heq, htag, hcount, hpos, hrows, hperm⟩, hlast⟩
    obtain rfl := List.mem_singleton.1 htag
    exact ⟨f, rest, named, heq, hcount, hpos, areSddRows_iff.2 hrows, hperm, hlast⟩

end

namespace Store

variable {W : Type} [Weight W] {s s' s₁ : Store W} {t : Slots NodeId} {r : Record} {n i : Nat}
  {a : NodeId} {fs : List Field} {entries : List (Nat × NodeId)} {named : List (Nat × Unfolding)}
  {u : Unfolding}

/-! ## Rows -/

/-- The rows so far have given the same numbers to nodes and to the trees that these unfold to. -/
def UnfoldsTo (s : Store W) (entries : List (Nat × NodeId)) (named : List (Nat × Unfolding)) :
    Prop :=
  List.Forall₂ (fun e x => e.1 = x.1 ∧ s.Unfolds e.2 x.2) entries named

namespace UnfoldsTo

variable (h : s.UnfoldsTo entries named) {children : List Field}
include h

theorem mono (hext : s.Extends s') : s'.UnfoldsTo entries named :=
  List.Forall₂.imp (fun _ _ hx => ⟨hx.1, hx.2.mono hext⟩) h

theorem concat (hu : s.Unfolds a u) : s.UnfoldsTo (entries ++ [(i, a)]) (named ++ [(i, u)]) :=
  List.rel_append h (.cons ⟨rfl, hu⟩ .nil)

theorem keys_eq : entries.map Prod.fst = named.map Prod.fst := by
  have hkeys : List.Forall₂ (· = ·) (entries.map Prod.fst) (named.map Prod.fst) := by
    rw [List.forall₂_map_left_iff, List.forall₂_map_right_iff]
    exact List.Forall₂.imp (fun _ _ hx => hx.1) h
  rwa [List.forall₂_eq_eq_eq] at hkeys

theorem exists_last {x : Nat × Unfolding} (hx : named.getLast? = some x) :
    ∃ e, entries.getLast? = some e ∧ s.Unfolds e.2 x.2 := by
  obtain ⟨e, he, -, hu⟩ := exists_getLast? (List.Forall₂.flip h) hx
  exact ⟨e, he, hu⟩

/-- Fields that name nodes name the trees that these unfold to. -/
theorem exists_trees {ids : List NodeId} (hall : List.Forall₂ (Names entries) children ids) :
    ∃ us, List.Forall₂ (Names named) children us ∧ List.Forall₂ s.Unfolds ids us := by
  apply exists_between hall
  rintro f a ⟨j, hread, hmem⟩
  obtain ⟨⟨j', u⟩, hnamed, rfl, hu⟩ := exists_right_of_mem h hmem
  exact ⟨u, ⟨j, hread, hnamed⟩, hu⟩

/-- Fields that name trees name nodes that unfold to them. -/
theorem exists_nodes {us : List Unfolding} (hall : List.Forall₂ (Names named) children us) :
    ∃ ids, List.Forall₂ (Names entries) children ids ∧ List.Forall₂ s.Unfolds ids us := by
  have hflip : ∀ f u, Names named f u → ∃ a, Names entries f a ∧ s.Unfolds a u := by
    rintro f u ⟨j, hread, hmem⟩
    obtain ⟨⟨j', a⟩, hentry, rfl, hu⟩ := exists_right_of_mem (List.Forall₂.flip h) hmem
    exact ⟨a, ⟨j', hread, hentry⟩, hu⟩
  obtain ⟨ids, hids, hus⟩ := exists_between (Q := fun u a => s.Unfolds a u) hall hflip
  exact ⟨ids, hids, hus.flip⟩

end UnfoldsTo

/-- What makes a node of a row says of the row that it is one of the grammar, and the node unfolds to
its tree. -/
theorem SddMakes.exists_isSddRow (h : SddMakes s entries fs i a s') (hs : s.Sound)
    (hnamed : s.UnfoldsTo entries named) :
    ∃ u, IsSddRow s.vtree named fs i u ∧ s'.Unfolds a u := by
  cases h with
  | bottom hread => exact ⟨.bottom, .bottom hread, .bottom hs.base.entry_bottom⟩
  | top hread => exact ⟨.top, .top hread, .top hs.base.entry_top⟩
  | @literal _ _ _ _ _ l _ hread hreadp hreadg hl hleaf =>
    exact ⟨.literal l, .literal hread hreadp hreadg (exists_literal?.1 ⟨a, hl⟩).2
      (hs.vtree.leafOf_iff.1 hleaf), .literal (hs.base.entry_literal hl)⟩
  | @decision _ _ _ _ _ position fork left right es _ _ hread hreadp hsub hreadk _ hall hfits
      hlookup =>
    obtain ⟨hl, hr⟩ := hs.vtree.subtree?_sides hsub
    obtain ⟨us, hus, hunfold⟩ := hnamed.exists_trees hall
    have heven : us.length = 2 * es.length := by rw [← hunfold.length_eq, length_nodesBelow]
    obtain ⟨xs, rfl, hlen⟩ := exists_parts heven
    have hbelow : s.UnfoldsBelow es xs := hunfold
    -- what the lookup answers with stands for the tree of the row
    obtain ⟨a', s₁, hfound, hu⟩ := hs.unfolds_lookup ⟨fork, left, right, hsub⟩ hbelow
    obtain ⟨ha, rfl⟩ := Prod.mk.inj (hlookup.symm.trans hfound)
    obtain rfl := Except.ok.inj ha
    exact ⟨.decision ⟨position⟩ xs, .decision hread hreadp hsub (hlen ▸ hreadk) hus
      ((hbelow.allElements_iff hs hl hr).1 hfits), hu⟩

/-- A row of the grammar makes a node that unfolds to its tree. -/
theorem exists_sddMakes (h : IsSddRow s.vtree named fs i u) (hs : s.Sound)
    (hnamed : s.UnfoldsTo entries named) (hlen : fs.length < Decimal.pow2 64) :
    ∃ a s', SddMakes s entries fs i a s' ∧ s'.Unfolds a u := by
  cases h with
  | bottom hread => exact ⟨.bottom, s, .bottom hread, .bottom hs.base.entry_bottom⟩
  | top hread => exact ⟨.top, s, .top hread, .top hs.base.entry_top⟩
  | @literal _ _ _ _ _ l hread hreadp hreadg hle hleaf =>
    obtain ⟨a, hl⟩ : ∃ a, s.literal? l.value = some a := exists_literal?.2 ⟨l.nonzero, hle⟩
    exact ⟨a, s, .literal hread hreadp hreadg hl (hs.vtree.leafOf_iff.2 hleaf),
      .literal (hs.base.entry_literal hl)⟩
  | @decision _ _ _ children _ _ fork left right xs hread hreadp hsub hreadk hnames hfits =>
    obtain ⟨hl, hr⟩ := hs.vtree.subtree?_sides hsub
    obtain ⟨ids, hids, hunfold⟩ := hnamed.exists_nodes hnames
    have heven : ids.length = 2 * xs.length := by rw [hunfold.length_eq, length_parts]
    obtain ⟨es, rfl, hes⟩ := exists_nodesBelow heven
    have hbelow : s.UnfoldsBelow es xs := hunfold
    have hchildren : children.length = 2 * xs.length := by rw [hnames.length_eq, length_parts]
    simp only [List.length_cons] at hlen
    obtain ⟨a, s₁, hlookup, hu⟩ := hs.unfolds_lookup ⟨fork, left, right, hsub⟩ hbelow
    exact ⟨a, s₁, .decision hread hreadp hsub (hes ▸ hreadk) (by omega) hids
      ((hbelow.allElements_iff hs hl hr).2 hfits) hlookup, hu⟩

/-- Building the node of a row leaves a sound store that holds what there was. -/
theorem buildSdd_step (hs : s.Sound) (ht : t.Holds n entries) (hnamed : s.UnfoldsTo entries named)
    (r : Record) (i : Nat) : (s.buildSdd t r i).2.Sound ∧ s.Extends (s.buildSdd t r i).2 := by
  have hall : t.All s.Knows := ht.all fun x hx => by
    obtain ⟨y, -, -, hy⟩ := exists_right_of_mem hnamed hx
    exact hy.knows
  have hallowed : AllowsKnown fun (_ : Store W) (_ : List Element) => True := fun _ _ _ => trivial
  have hsteps := (buildSdd_delivers hallowed hs hall r i).1
  exact ⟨hsteps.sound hs, hsteps.extends⟩

/-! ## Files -/

/-- The reader follows the grammar. -/
theorem follows_buildSdd (s : Store W) :
    Follows buildSdd (IsSddRow s.vtree) (fun fs => fs.length < Decimal.pow2 64)
      fun (s' : Store W) entries named =>
        s'.Sound ∧ s'.vtree = s.vtree ∧ s'.UnfoldsTo entries named := by
  constructor
  case keys_eq => exact fun h => h.2.2.keys_eq
  case sound =>
    rintro s₁ s₂ entries named t n r i a ⟨hs, hvtree, hnamed⟩ ht hid hbuild
    obtain ⟨u, hrow, hu⟩ := ((buildSdd_iff ht).2 ⟨hid, hbuild⟩).exists_isSddRow hs hnamed
    obtain ⟨hs₂, hext⟩ := buildSdd_step hs ht hnamed r i
    rw [hbuild] at hs₂ hext
    rw [hvtree] at hrow
    exact ⟨u, hrow, hs₂, hext.vtree.trans hvtree, (hnamed.mono hext).concat hu⟩
  case complete =>
    rintro s₁ entries named t n r i u ⟨hs, hvtree, hnamed⟩ ht hrow hlen
    rw [← hvtree] at hrow
    obtain ⟨a, s₂, hmakes, hu⟩ := exists_sddMakes hrow hs hnamed hlen
    obtain ⟨hid, hbuild⟩ := (buildSdd_iff ht).1 hmakes
    obtain ⟨hs₂, hext⟩ := buildSdd_step hs ht hnamed r i
    rw [hbuild] at hs₂ hext
    exact ⟨hid, a, s₂, hbuild, hs₂, hext.vtree.trans hvtree, (hnamed.mono hext).concat hu⟩

variable {text : List Char} {root : NodeId}

/-- A text that is read is a file of the grammar. -/
theorem Sound.exists_isSddFile (hs : s.Sound) (h : s.readSdd text = (.ok root, s')) :
    ∃ u, IsSddFile s.vtree (rows text) u := by
  obtain ⟨n, rs, t, hheader, hread, hfinish⟩ := readText_eq_ok.1 h
  obtain ⟨entries, named, hfile, -⟩ :=
    (follows_buildSdd s).isFile_of_read ⟨hs, rfl, .nil⟩ hheader hread hfinish
  have hlast := List.getLast?_eq_some_getLast hfile.ne_nil
  exact ⟨_, isSddFile_iff.2 ⟨named, hfile, congrArg (Option.map Prod.snd) hlast⟩⟩

/-- A file of the grammar is read, and the answer unfolds to the tree of the file. -/
theorem Sound.readSdd_of_isSddFile (hs : s.Sound) (hmemory : text.length < Decimal.pow2 63)
    (h : IsSddFile s.vtree (rows text) u) :
    ∃ root s', s.readSdd text = (.ok root, s') ∧ s'.Sound ∧ s'.Unfolds root u := by
  obtain ⟨named, hfile, hlast⟩ := isSddFile_iff.1 h
  obtain ⟨n, rs, t, s', entries, root, hheader, hread, hfinish, -, ⟨hs', -, hnamed⟩, hroot⟩ :=
    (follows_buildSdd s).read_of_isFile ⟨hs, rfl, .nil⟩ (length_lt_of_mem_rows hmemory) hfile
  obtain ⟨x, hx, rfl⟩ := Option.map_eq_some_iff.1 hlast
  obtain ⟨e, he, hu⟩ := hnamed.exists_last hx
  rw [he] at hroot
  obtain rfl : e.2 = root := Option.some_inj.1 hroot
  exact ⟨e.2, s', readText_eq_ok.2 ⟨n, rs, t, hheader, hread, hfinish⟩, hs', hu⟩

/-- In any state of a store, the texts that the reader accepts are the files of the grammar. The
answer is the one node without weights that unfolds to the tree of the file. A text that is held in
an address space of 63 bits is as short as is asked for. -/
theorem Reached.readSdd_iff_isSddFile (h : s.Reached) (hmemory : text.length < Decimal.pow2 63) :
    ((∃ root s', s.readSdd text = (.ok root, s')) ↔ ∃ u, IsSddFile s.vtree (rows text) u) ∧
    ∀ root s', s.readSdd text = (.ok root, s') → ∀ u, IsSddFile s.vtree (rows text) u →
      s'.Unfolds root u ∧ ∀ id, s'.Unfolds id u → id = root := by
  have hs := h.sound
  refine ⟨⟨fun ⟨root, s', hread⟩ => hs.exists_isSddFile hread, fun ⟨u, hu⟩ => ?_⟩, ?_⟩
  · obtain ⟨root, s', hread, -⟩ := hs.readSdd_of_isSddFile hmemory hu
    exact ⟨root, s', hread⟩
  · intro root s' hread u hu
    obtain ⟨root', s'', hread', hs'', hunfolds⟩ := hs.readSdd_of_isSddFile hmemory hu
    obtain ⟨hroot, rfl⟩ := Prod.mk.inj (hread.symm.trans hread')
    obtain rfl := Except.ok.inj hroot
    exact ⟨hunfolds, fun id hid => hid.unique hs'' hunfolds⟩

/-- A file for `x₁ ∧ x₂` with a comment, an empty line and uneven blanks. -/
def conjunctionText : List Char :=
  "c x1 and x2\nsdd 3\n\nL 0 0 1\nL 1\t 2 2\nD +2 1 1 0 1\n".toList

theorem isSddFile_conjunctionText : IsSddFile .pair (rows conjunctionText)
    (.decision ⟨1⟩ [(.literal ⟨1, by decide⟩, .literal ⟨2, by decide⟩)]) := by
  refine ⟨['3'], [[['L'], ['0'], ['0'], ['1']], [['L'], ['1'], ['2'], ['2']],
    [['D'], ['+', '2'], ['1'], ['1'], ['0'], ['1']]], [(0, .literal ⟨1, by decide⟩),
    (1, .literal ⟨2, by decide⟩), (2, .decision ⟨1⟩ _)], by decide +kernel, by decide, by decide,
    ?_, by decide, rfl⟩
  have hzero : readWord? ['0'] = some 0 := by decide
  have hone : readWord? ['1'] = some 1 := by decide
  have htwo : readWord? ['2'] = some 2 := by decide
  refine .cons (.literal hzero hzero (by decide) (by decide) rfl)
    (.cons (.literal hone htwo (by decide) (by decide) rfl)
      (.cons (.decision (by decide) hone rfl (by decide) ?_ ?_) (.nil _)))
  · exact .cons ⟨0, hzero, by simp⟩ (.cons ⟨1, hone, by simp⟩ .nil)
  · simp [Unfolding.FitsUnder, Tree.leafVars, Literal.var]

theorem readSdd_iff_isSddFile_conjunctionText : ∃ root s' u,
    (ofVtree .pair : Store Extreme).readSdd conjunctionText = (.ok root, s') ∧
    IsSddFile .pair (rows conjunctionText) u ∧ s'.Unfolds root u ∧
    ∀ id, s'.Unfolds id u → id = root := by
  have hreached : (ofVtree .pair : Store Extreme).Reached := .start (.balanced Vtree.balanced_two)
  have hmemory : conjunctionText.length < Decimal.pow2 63 := by decide
  obtain ⟨hiff, hanswer⟩ := hreached.readSdd_iff_isSddFile hmemory
  obtain ⟨root, s', hread⟩ := hiff.2 ⟨_, isSddFile_conjunctionText⟩
  exact ⟨root, s', _, hread, isSddFile_conjunctionText,
    hanswer root s' hread _ isSddFile_conjunctionText⟩

end Store
end Sentential
