import Sentential.Proofs.Format.DiagramLine
import Sentential.Proofs.Format.VtreeTable
import Sentential.Proofs.Store.History

/-!
# Reading a vtree that was written

The writer puts the trees within a tree down from the bottom up, both sides of a fork before the
fork (`Tree.bottomUp`). In this order the lines of a proper tree are a file of the grammar, whatever
its names are: every tree but the last is a side of a later one and of that one only
(`Tree.children_named`). And a vtree with the nodes of these lines can only be the vtree of the
tree (`HasRows.eq_ofTree`). So a vtree with names that words can hold is read back as it was,
`Proper.ofFileText_fileText`; what comes of texts and of the three rules is `fileText_roundTrip`,
and `Obtained.listing_roundTrip` says it of the tables.
-/

namespace Sentential.Vtree

open Format Text

/-! ## The lines of a tree -/

namespace Tree

/-- What the line of a tree describes. -/
def item : Tree → VtreeItem
  | leaf _ var => .leaf var
  | fork _ l r => .fork l.id.raw r.id.raw

/-- What the lines of all trees within a tree describe, with the numbers they give. -/
def named (t : Tree) : List (Nat × VtreeItem) := t.bottomUp.map fun u => (u.id.raw, u.item)

theorem lines_eq (t : Tree) : t.lines = t.bottomUp.map line := by
  induction t with
  | leaf id var => rfl
  | fork id l r ihl ihr => rw [lines_fork, ihl, ihr, bottomUp, List.map_append, List.map_append]; rfl

theorem named_fork (id : VtreeId) (l r : Tree) :
    (fork id l r).named = l.named ++ r.named ++ [(id.raw, .fork l.id.raw r.id.raw)] := by
  rw [named, bottomUp, List.map_append, List.map_append]
  rfl

theorem getLast?_named (t : Tree) : t.named.getLast? = some (t.id.raw, t.item) := by
  cases t with
  | leaf id var => rfl
  | fork id l r =>
    rw [named_fork]
    exact List.getLast?_concat

theorem mem_named {t u : Tree} (h : u ∈ t.subtrees) : (u.id.raw, u.item) ∈ t.named :=
  List.mem_map_of_mem (f := fun u : Tree => (u.id.raw, u.item)) (t.bottomUp_perm.mem_iff.2 h)

theorem id_mem_named (t : Tree) : t.id.raw ∈ t.named.map Prod.fst :=
  List.mem_map_of_mem (mem_named t.self_mem_subtrees)

theorem map_fst_named (t : Tree) : t.named.map Prod.fst = t.bottomUp.map fun u => u.id.raw := by
  rw [named, List.map_map]
  rfl

/-- The sides of all forks within a tree are the trees within it but itself. -/
theorem children_named (t : Tree) :
    (t.named.flatMap (·.2.children) ++ [t.id.raw]).Perm (t.named.map Prod.fst) := by
  induction t with
  | leaf id var => exact .refl _
  | fork id l r ihl ihr =>
    rw [named_fork, List.flatMap_append, List.flatMap_append, List.map_append, List.map_append]
    refine List.Perm.append_right [id.raw] (.trans ?_ (ihl.append ihr))
    -- the left side comes before those of the right tree
    rw [List.append_assoc, List.append_assoc]
    exact List.Perm.append_left _ (List.perm_append_comm_assoc _ [l.id.raw] [r.id.raw])

theorem filterMap_named (t : Tree) : t.named.filterMap (·.2.var?) = t.bottomUp.filterMap var? := by
  rw [named, List.filterMap_map]
  congr 1
  funext u
  cases u <;> rfl

namespace Proper

variable {t : Tree}

/-- The lines of a proper tree make one tree. -/
theorem isOneTree (h : t.Proper) : IsOneTree t.named := by
  have hnames : (t.named.map Prod.fst).Nodup := by
    rw [map_fst_named]
    exact ((t.bottomUp_perm.map _).nodup_iff).2 h.raw_nodup
  constructor
  case child_once =>
    have hchildren : (t.named.flatMap (·.2.children)).Perm (t.named.dropLast.map Prod.fst) := by
      have hsplit : t.named = t.named.dropLast ++ [(t.id.raw, t.item)] :=
        (List.dropLast_append_getLast? _ t.getLast?_named).symm
      have hkeys : t.named.map Prod.fst = t.named.dropLast.map Prod.fst ++ [t.id.raw] := by
        conv_lhs => rw [hsplit, List.map_append]
        rfl
      rw [← List.perm_append_right_iff [t.id.raw], ← hkeys]
      exact t.children_named
    intro x hx
    have hnodup : (t.named.flatMap (·.2.children)).Nodup :=
      hchildren.nodup_iff.2 (hnames.sublist (t.named.dropLast_sublist.map _))
    exact List.count_eq_one_of_mem hnodup (hchildren.mem_iff.2 (List.mem_map_of_mem hx))
  case vars_perm =>
    have hvars : (t.bottomUp.filterMap var?).Perm t.leafVars := by
      rw [← filterMap_var?]
      exact t.bottomUp_perm.filterMap _
    rw [filterMap_named, hvars.length_eq, length_leafVars]
    exact hvars.trans h.leafVars_perm

end Proper

/-! ## The file of a tree -/

/-- The line of a tree whose names and variables are words is a row of the grammar. -/
theorem areRows_lines (t : Tree) (hids : ∀ u ∈ t.subtrees, u.id.raw < Decimal.pow2 32)
    (hvars : ∀ var ∈ t.leafVars, var < Decimal.pow2 32) (earlier : List (Nat × VtreeItem)) :
    AreRows IsVtreeRow earlier t.lines t.named := by
  induction t generalizing earlier with
  | leaf id var =>
    have hid : id.raw < Decimal.pow2 32 := hids (leaf id var) (self_mem_subtrees _)
    have hvar : var < Decimal.pow2 32 := hvars var List.mem_cons_self
    exact .cons (.leaf (readWord?_natField hid) (readWord?_natField hvar)) (.nil _)
  | fork id l r ihl ihr =>
    rw [subtrees_fork, List.forall_mem_cons, List.forall_mem_append] at hids
    obtain ⟨hid, hl, hr⟩ := hids
    rw [leafVars, List.forall_mem_append] at hvars
    rw [lines_fork, named_fork]
    refine ((ihl hl hvars.1 earlier).append (ihr hr hvars.2 _)).append (.cons ?_ (.nil _))
    -- the rows of both sides are above
    refine .fork (readWord?_natField hid) (readWord?_natField (hl l l.self_mem_subtrees)) ?_
      (readWord?_natField (hr r r.self_mem_subtrees)) ?_
    · rw [List.map_append, List.map_append]
      exact List.mem_append_right _ (List.mem_append_left _ l.id_mem_named)
    · rw [List.map_append, List.map_append]
      exact List.mem_append_right _ (List.mem_append_right _ r.id_mem_named)

/-- The lines of a proper tree whose names are words are a file of the grammar. -/
theorem Proper.isVtreeFile {t : Tree} (h : t.Proper) (hsize : t.size ≤ Decimal.pow2 32) :
    IsVtreeFile (["vtree".toList, natField t.size] :: t.lines) t.named := by
  have hlen : t.lines.length = t.size := by
    rw [lines_eq, List.length_map, t.bottomUp_perm.length_eq, length_subtrees]
  have hcount := t.size_add_one
  have hpos := t.varCount_pos
  have hword : 1 < Decimal.pow2 32 ∧ Decimal.pow2 32 < Decimal.pow2 64 := by decide
  refine ⟨⟨_, _, _, rfl, List.mem_cons_self, ?_, ?_, ?_, ?_⟩, h.isOneTree⟩
  · rw [hlen]
    exact readCount?_natField (Nat.lt_of_le_of_lt hsize hword.2)
  · omega
  · refine t.areRows_lines (fun u hu => Nat.lt_of_lt_of_le (h.names_lt u hu) hsize) ?_ []
    intro var hvar
    have := (h.vars_range var hvar).2
    omega
  · rw [hlen, map_fst_named]
    exact (t.bottomUp_perm.map _).trans h.names_perm

end Tree

/-- Only one vtree has the nodes that the lines of a tree describe. -/
theorem HasRows.eq_ofTree {v : Vtree} {t : Tree} (h : v.HasRows t.named) (hv : v.Proper) :
    v = ofTree t := by
  have hfound : ∀ u : Tree, u ∈ t.subtrees → v.subtree? u.id = some u := by
    intro u hu
    induction u with
    | leaf id var => exact h.leaf _ _ (Tree.mem_named hu)
    | fork id l r ihl ihr =>
      obtain ⟨hl, hr⟩ := Tree.sides_mem hu
      obtain ⟨l', r', hfork, hl', hr'⟩ := h.fork _ _ _ (Tree.mem_named hu)
      obtain ⟨hleft, hright⟩ := hv.subtree?_sides hfork
      -- a name leads to one tree only
      obtain rfl := Option.some_inj.1 ((hl' ▸ hleft).symm.trans (ihl hl))
      obtain rfl := Option.some_inj.1 ((hr' ▸ hright).symm.trans (ihr hr))
      exact hfork
  have hroot : v.root.id = t.id := h.root _ _ t.getLast?_named
  obtain ⟨t', ht', rfl⟩ := hv
  have htop := (subtree?_ofTree ht' t'.id t').2 ⟨t'.self_mem_subtrees, rfl⟩
  rw [show t'.id = t.id from hroot, hfound t t.self_mem_subtrees] at htop
  rw [Option.some_inj.1 htop]

/-! ## Reading a vtree that was written -/

variable {v : Vtree} {text : List Char}

theorem fileText_eq (v : Vtree) : v.fileText = fileOf (fileHeader.map String.toList)
    (["vtree".toList, natField v.numNodes] :: v.root.lines) := rfl

theorem isRow_line (t : Tree) : IsRow t.line := by
  cases t with
  | leaf id var => exact isRow_node (by decide) (by decide) id.raw (by simp)
  | fork id l r => exact isRow_node (by decide) (by decide) id.raw (by simp)

theorem comments_fileHeader :
    ∀ l ∈ fileHeader.map String.toList, l.head? = some 'c' ∧ '\n' ∉ l := by
  decide +kernel

theorem rows_fileText (v : Vtree) :
    rows v.fileText = ["vtree".toList, natField v.numNodes] :: v.root.lines := by
  rw [fileText_eq]
  refine rows_fileOf comments_fileHeader fun fs hfs => ?_
  rcases List.mem_cons.1 hfs with rfl | hfs
  · exact Store.isRow_header (by decide) (by decide) _
  · rw [Tree.lines_eq] at hfs
    obtain ⟨u, -, rfl⟩ := List.mem_map.1 hfs
    exact isRow_line u

/-- A proper vtree whose names are words is read back from its file, however it is numbered. -/
theorem Proper.ofFileText_fileText (h : v.Proper) (hsize : v.numNodes ≤ Decimal.pow2 32) :
    ofFileText v.fileText = .ok v := by
  obtain ⟨t, ht, rfl⟩ := h
  rw [numNodes_ofTree] at hsize
  have hfile : IsVtreeFile (rows (ofTree t).fileText) t.named := by
    rw [rows_fileText, numNodes_ofTree, root_ofTree]
    exact ht.isVtreeFile hsize
  obtain ⟨v, hv, hrows⟩ := ofFileText_of_isVtreeFile hfile
  rw [hv, hrows.eq_ofTree (proper_ofFileText hv)]

/-- The names of a vtree that is read are words. -/
theorem numNodes_le_of_read (h : ofFileText text = .ok v) : v.numNodes ≤ Decimal.pow2 32 := by
  obtain ⟨n, rs, t, root, hheader, hread, hfinish, hflaw, rfl⟩ := ofFileText_eq_ok.1 h
  have hgathers : Gathers text _ root := ⟨n, rs, t, hheader, hread, hfinish, rfl⟩
  rw [numNodes_ofTree, (flaw?_eq_none.1 hflaw).2.1]
  exact hgathers.sizes.1

/-- Every vtree that a rule generates or that is read from a text is read back from the file that
is written for it, and what was written for a vtree that was read is written again. -/
theorem fileText_roundTrip :
    (∀ v : Vtree, v.Obtained → v.numNodes ≤ Decimal.pow2 32 → ofFileText v.fileText = .ok v) ∧
    ∀ (text : List Char) (v : Vtree), ofFileText text = .ok v →
      ofFileText v.fileText = .ok v ∧ (ofFileText v.fileText).map fileText = .ok v.fileText := by
  refine ⟨fun v h hsize => h.proper.ofFileText_fileText hsize, fun text v h => ?_⟩
  have hback : ofFileText v.fileText = .ok v :=
    (proper_ofFileText h).ofFileText_fileText (numNodes_le_of_read h)
  exact ⟨hback, by rw [hback]; rfl⟩

theorem fileText_roundTrip_sample : ofFileText pair.fileText = .ok pair ∧
    ∃ v, ofFileText crossedText = .ok v ∧ ofFileText v.fileText = .ok v ∧
      (ofFileText v.fileText).map fileText = .ok v.fileText := by
  obtain ⟨hobtained, hread⟩ := fileText_roundTrip
  obtain ⟨v, hv, -⟩ := ofFileText_of_isVtreeFile isVtreeFile_crossedText
  exact ⟨hobtained pair (.balanced balanced_two) (by decide), v, hv, hread _ v hv⟩

/-- The table of a vtree is written without a fault, with a stack of the nodes that are still to come,
and the same table is assembled from what was written. -/
theorem Obtained.listing_roundTrip (h : v.Obtained) (hsize : v.numNodes ≤ Decimal.pow2 32) :
    ∃ text, v.listing.fileText = .ok text ∧ Listing.ofFileText text = .ok v.listing := by
  refine ⟨v.fileText, h.proper.fileText_listing, ?_⟩
  rw [Listing.ofFileText_eq, h.proper.ofFileText_fileText hsize]
  rfl

end Sentential.Vtree
